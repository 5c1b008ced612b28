import Mathlib
import Bugat.Lib.Transition

/-!
# RedisClient: one coroutine that reconnects

`Connect` spawns `AwaitConnect` on a strand, where the handlers of `Stop` and `Execute` run, too.
The coroutine runs from one suspension to the next in one step: it creates a connection and
waits in `async_run`, and when that returns or throws it waits one second for the next attempt.
Connections are numbered in the order of their creation.
-/

namespace Bugat.RedisClient

open Transition (exec Along Throughout throughout_iff_along_of_step)

/-- Where `AwaitConnect` is suspended: not yet called, on its way to the strand, in `async_run`
of a connection, or at the timer. -/
inductive Coroutine
  | uncalled
  | spawned
  | running (con : ℕ)
  | waiting (con : ℕ)
  | ended
  deriving DecidableEq, Repr

inductive RunResult
  | returned
  | threw
  deriving DecidableEq, Repr

/-- `conn` and `stop` are the fields of RedisConnection, `created` has an entry for each
BoostRedisConnection: whether `_stop` was set at its creation. `executed` lists the connections
that the commands were given to, `none` for a command that failed at once. -/
structure State where
  conn : Option ℕ
  stop : Bool
  created : List Bool
  cancelled : List ℕ
  executed : List (Option ℕ)
  coroutine : Coroutine
  deriving DecidableEq, Repr

def init : State := ⟨none, false, [], [], [], .uncalled⟩

inductive Label
  | connect
  | start
  | runCompletes (result : RunResult)
  | timerFires
  | stop
  | execute
  deriving DecidableEq, Repr

namespace State

variable (s : State)

def createConnection : State :=
  { s with
    conn := some s.created.length
    created := s.created ++ [s.stop]
    coroutine := .running s.created.length }

def cancel (con : ℕ) : State := { s with cancelled := s.cancelled ++ [con] }

def afterRun (con : ℕ) : State :=
  if s.stop then { s with coroutine := .ended }
  else { s.cancel con with coroutine := .waiting con }

def stopConnection : State :=
  let s := { s with stop := true }
  match s.conn with
  | some con => { s.cancel con with conn := none }
  | none => s

end State

def step (s : State) : Label → Option State
  | .connect => if s.coroutine = .uncalled then some { s with coroutine := .spawned } else none
  | .start => if s.coroutine = .spawned then some s.createConnection else none
  | .runCompletes _ =>
    match s.coroutine with
    | .running con => some (s.afterRun con)
    | _ => none
  | .timerFires =>
    match s.coroutine with
    | .waiting _ => some s.createConnection
    | _ => none
  | .stop => some s.stopConnection
  | .execute => some { s with executed := s.executed ++ [s.conn] }

def Label.completes : Label → Bool
  | .start | .runCompletes _ | .timerFires => true
  | .connect | .stop | .execute => false

/-- Stop is final: no connection is created after it or held, the next completion ends the
coroutine, and the `async_run` that it is suspended on is cancelled. -/
structure Final (s : State) : Prop where
  created : true ∉ s.created
  conn : s.stop = true → s.conn = none
  ends : s.stop = true → ∀ l s', l.completes = true → step s l = some s' → s'.coroutine = .ended
  cancelled : s.stop = true → ∀ con, s.coroutine = .running con → con ∈ s.cancelled

def Coroutine.stoppable : Coroutine → Bool
  | .uncalled | .running _ | .ended => true
  | .spawned | .waiting _ => false

/-- Stop runs while the coroutine is suspended in `async_run`, has ended or was never called, and
Connect is not called behind it. -/
def StopsInRun (s : State) : Label → Prop
  | .stop => s.coroutine.stoppable = true
  | .connect => s.stop = false
  | _ => True

instance (s : State) : DecidablePred (StopsInRun s) := fun l => by
  cases l <;> unfold StopsInRun <;> infer_instance

def Coroutine.con : Coroutine → Option ℕ
  | .running con | .waiting con => some con
  | .uncalled | .spawned | .ended => none

structure Inv (s : State) : Prop where
  created : true ∉ s.created
  conn : s.conn = if s.stop then none else s.coroutine.con
  stoppable : s.stop = true → s.coroutine.stoppable = true
  cancelled : s.stop = true → ∀ con, s.coroutine = .running con → con ∈ s.cancelled

variable {s s' : State} {l : Label}

theorem init_inv : Inv init where
  created := List.not_mem_nil
  conn := rfl
  stoppable h := nomatch h
  cancelled h := nomatch h

theorem Inv.createConnection (h : Inv s) (hopen : s.coroutine.stoppable = false) :
    Inv s.createConnection := by
  have hstop : s.stop = false := by
    cases hstop : s.stop with
    | false => rfl
    | true =>
      rw [h.stoppable hstop] at hopen
      cases hopen
  refine ⟨?_, ?_, fun _ => rfl, fun hs => ?_⟩
  · change true ∉ s.created ++ [s.stop]
    rw [hstop, List.mem_append, List.mem_singleton]
    rintro (hmem | heq)
    · exact h.created hmem
    · cases heq
  · change _ = if s.stop then _ else _
    rw [hstop]
    rfl
  · exact absurd (hstop.symm.trans hs) Bool.false_ne_true

theorem Inv.afterRun {con : ℕ} (h : Inv s) (hrun : s.coroutine = .running con) :
    Inv (s.afterRun con) := by
  rw [State.afterRun]
  split
  · rename_i hstop
    refine ⟨h.created, ?_, fun _ => rfl, fun _ _ hc => by cases hc⟩
    rw [h.conn, hstop]
    rfl
  · rename_i hstop
    refine ⟨h.created, ?_, fun hs => absurd hs hstop, fun hs => absurd hs hstop⟩
    change s.conn = if s.stop then none else some con
    rw [h.conn, hrun]
    rfl

theorem Inv.stopConnection (h : Inv s) (hopen : s.coroutine.stoppable = true) :
    Inv s.stopConnection := by
  rw [State.stopConnection]
  dsimp only
  split
  · rename_i con hconn
    refine ⟨h.created, rfl, fun _ => hopen, fun _ c hc => ?_⟩
    have hown := h.conn
    change s.coroutine = .running c at hc
    rw [hconn, hc] at hown
    split at hown
    · cases hown
    · obtain rfl := Option.some.inj hown
      exact List.mem_append_right _ (List.mem_singleton_self con)
  · rename_i hconn
    refine ⟨h.created, hconn, fun _ => hopen, fun _ c hc => ?_⟩
    have hown := h.conn
    change s.coroutine = .running c at hc
    rw [hconn, hc] at hown
    split at hown
    · exact h.cancelled ‹_› c hc
    · cases hown

theorem Inv.step (h : Inv s) (hok : StopsInRun s l) (hs : step s l = some s') : Inv s' := by
  cases l with
  | connect =>
    simp only [RedisClient.step] at hs
    split at hs
    · rename_i hun
      obtain rfl := Option.some.inj hs
      have hstop : s.stop = false := hok
      refine ⟨h.created, ?_, fun hs => absurd (hstop.symm.trans hs) Bool.false_ne_true,
        fun hs => absurd (hstop.symm.trans hs) Bool.false_ne_true⟩
      rw [h.conn, hun]
      rfl
    · cases hs
  | start =>
    simp only [RedisClient.step] at hs
    split at hs
    · rename_i hspawned
      obtain rfl := Option.some.inj hs
      exact h.createConnection (by rw [hspawned]; rfl)
    · cases hs
  | runCompletes result =>
    simp only [RedisClient.step] at hs
    split at hs
    · obtain rfl := Option.some.inj hs
      exact h.afterRun ‹_›
    · cases hs
  | timerFires =>
    simp only [RedisClient.step] at hs
    split at hs
    · rename_i hwaiting
      obtain rfl := Option.some.inj hs
      exact h.createConnection (by rw [hwaiting]; rfl)
    · cases hs
  | stop =>
    obtain rfl := Option.some.inj hs
    exact h.stopConnection hok
  | execute =>
    obtain rfl := Option.some.inj hs
    exact ⟨h.created, h.conn, h.stoppable, h.cancelled⟩

theorem Inv.final (h : Inv s) : Final s := by
  refine ⟨h.created, fun hstop => ?_, fun hstop l s' hl hs => ?_, h.cancelled⟩
  · rw [h.conn, if_pos hstop]
  · have hopen := h.stoppable hstop
    cases l with
    | start =>
      simp only [RedisClient.step] at hs
      split at hs
      · rename_i hspawned
        rw [hspawned] at hopen
        cases hopen
      · cases hs
    | runCompletes result =>
      simp only [RedisClient.step] at hs
      split at hs
      · obtain rfl := Option.some.inj hs
        rw [State.afterRun, if_pos hstop]
      · cases hs
    | timerFires =>
      simp only [RedisClient.step] at hs
      split at hs
      · rename_i hwaiting
        rw [hwaiting] at hopen
        cases hopen
      · cases hs
    | connect | stop | execute => cases hl

theorem Final.stoppable (h : Final s) (hstop : s.stop = true) : s.coroutine.stoppable = true := by
  cases hpc : s.coroutine with
  | uncalled | running con | ended => rfl
  | spawned =>
    have hstart : step s .start = some s.createConnection := by simp [step, hpc]
    cases h.ends hstop .start _ rfl hstart
  | waiting con =>
    have hfires : step s .timerFires = some s.createConnection := by simp [step, hpc]
    cases h.ends hstop .timerFires _ rfl hfires

theorem stopsInRun_of_final (hs : step s l = some s') (hfinal : Final s') : StopsInRun s l := by
  cases l with
  | stop =>
    obtain rfl := Option.some.inj hs
    have hstop : s.stopConnection.stop = true ∧ s.stopConnection.coroutine = s.coroutine := by
      rw [State.stopConnection]
      dsimp only
      split
      · exact ⟨rfl, rfl⟩
      · exact ⟨rfl, rfl⟩
    have hopen := hfinal.stoppable hstop.1
    rwa [hstop.2] at hopen
  | connect =>
    simp only [step] at hs
    split at hs
    · obtain rfl := Option.some.inj hs
      cases hstop : s.stop with
      | false => exact hstop
      | true => cases hfinal.stoppable hstop
    · cases hs
  | start | runCompletes result | timerFires | execute => trivial

/-- Stop is final in every state of a run just when it finds the coroutine in `async_run` or
with nothing to do. -/
theorem final_iff_stops_in_run (ls : List Label) :
    Throughout Final step init ls ↔ Along StopsInRun step init ls := by
  refine throughout_iff_along_of_step (fun s h => h.final) (fun s l t h hok hs => h.step hok hs)
    (fun s l t h hs => ?_) init_inv
  constructor
  · exact stopsInRun_of_final hs
  · intro hok
    exact (h.step hok hs).final

def stopWhileWaiting : List Label :=
  [.connect, .start, .runCompletes .threw, .stop, .timerFires]

theorem stopWhileWaiting_reconnects : ∃ s, exec step init stopWhileWaiting = some s ∧
    s.stop = true ∧ s.created = [false, true] ∧ s.conn = some 1 ∧ s.coroutine = .running 1 ∧
    1 ∉ s.cancelled ∧ ¬ Final s := by
  refine ⟨_, rfl, rfl, rfl, rfl, rfl, by decide, fun hfinal => ?_⟩
  exact absurd (hfinal.conn rfl) (by decide)

end Bugat.RedisClient
