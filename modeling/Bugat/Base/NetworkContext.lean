import Mathlib
import Bugat.Lib.IoContext
import Bugat.Lib.Threads
import Bugat.Lib.Transition

/-!
# NetworkContext: threads that run an io_context

Any number of threads call `NetworkContext::Run`, whose loop tests `_stop` and calls `run_one`.
Operations are started at any time, by threads outside `Run` and by the handlers. Nothing calls
`restart`, so a context that has once run out of work never serves another operation.
-/

namespace Bugat.NetworkContext

open IoContext (Context)
open Transition (exec Along Throughout throughout_iff_along_of_step)

variable {Op Tid : Type*}

structure Shared (Op : Type*) where
  context : Context Op
  stop : Bool

inductive Pc
  | outside
  | top
  | runOne
  | handler
  deriving DecidableEq, Repr

/-- `returns` is a call of `run_one` that returns 0 and `serves` one that runs a handler. -/
inductive Action (Op : Type*)
  | run
  | testStop
  | returns
  | serves (op : Op)
  | finish
  | start (op : Op)
  | stop
  deriving DecidableEq, Repr

def Pc.free : Pc → Bool
  | .outside | .handler => true
  | .top | .runOne => false

variable [DecidableEq Op]

def act (u : Shared Op) (pc : Pc) : Action Op → Option (Shared Op × Pc)
  | .run => if pc = .outside then some (u, .top) else none
  | .testStop => if pc = .top then some (u, if u.stop then .outside else .runOne) else none
  | .returns =>
    if pc = .runOne then u.context.runNone.map fun c => ({ u with context := c }, .top) else none
  | .serves op =>
    if pc = .runOne then (u.context.serve op).map fun c => ({ u with context := c }, .handler)
    else none
  | .finish => if pc = .handler then some ({ u with context := u.context.finish }, .top) else none
  | .start op => if pc.free then some ({ u with context := u.context.start op }, pc) else none
  | .stop => if pc.free then some ({ u with stop := true }, pc) else none

abbrev State (Op Tid : Type*) := Threads.System (Shared Op) Pc Tid

def init : State Op Tid := ⟨⟨Context.init, false⟩, fun _ => .outside⟩

variable [DecidableEq Tid]

abbrev step : State Op Tid → Tid × Action Op → Option (State Op Tid) := Threads.step act

/-- An outstanding operation that no call of `run_one` will ever serve. -/
def Starved (s : State Op Tid) (op : Op) : Prop :=
  op ∈ s.shared.context.pending ∧
    ∀ ls u, exec step s ls = some u → u.shared.context.serve op = none

def NoneStarved (s : State Op Tid) : Prop := s.shared.stop = false → ∀ op, ¬ Starved s op

/-- Operations are started only while no call of `run_one` has found the context without work,
or behind `NetworkContext::Stop`. -/
def StartsInTime (s : State Op Tid) (l : Tid × Action Op) : Prop :=
  match l.2 with
  | .start _ => s.shared.stop = false → s.shared.context.stopped = false
  | _ => True

instance (s : State Op Tid) : DecidablePred (StartsInTime s) := fun l => by
  unfold StartsInTime
  split <;> infer_instance

variable {s s' : State Op Tid} {l : Tid × Action Op} {op : Op}

inductive Effect (u u' : Shared Op) (a : Action Op) : Prop
  | same (hu : u' = u)
  | stop (hu : u' = { u with stop := true })
  | start (op : Op) (ha : a = .start op) (hu : u' = { u with context := u.context.start op })
  | runsOut (hidle : u.context.Idle)
      (hu : u' = { u with context := { u.context with stopped := true } })
  | serve (op : Op) (hopen : u.context.stopped = false)
      (hu : u'.context.stopped = false ∧ u'.stop = u.stop)
  | finish (hu : u' = { u with context := u.context.finish })

theorem act_effect {u u' : Shared Op} {pc pc' : Pc} {a : Action Op}
    (h : act u pc a = some (u', pc')) : Effect u u' a := by
  cases a with
  | run | testStop =>
    simp only [act] at h
    split at h
    · obtain ⟨rfl, -⟩ := Prod.mk.inj (Option.some.inj h)
      exact .same rfl
    · cases h
  | returns =>
    simp only [act] at h
    split at h
    · obtain ⟨c, hc, heq⟩ := Option.map_eq_some_iff.mp h
      obtain ⟨rfl, -⟩ := Prod.mk.inj heq
      rcases Context.runNone_cases hc with ⟨-, rfl⟩ | ⟨hidle, rfl⟩
      · exact .same rfl
      · exact .runsOut hidle rfl
    · cases h
  | serves op =>
    simp only [act] at h
    split at h
    · obtain ⟨c, hc, heq⟩ := Option.map_eq_some_iff.mp h
      obtain ⟨rfl, -⟩ := Prod.mk.inj heq
      obtain ⟨hopen, -, rfl⟩ := Context.serve_eq hc
      exact .serve op hopen ⟨hopen, rfl⟩
    · cases h
  | finish =>
    simp only [act] at h
    split at h
    · obtain ⟨rfl, -⟩ := Prod.mk.inj (Option.some.inj h)
      exact .finish rfl
    · cases h
  | start op =>
    simp only [act] at h
    split at h
    · obtain ⟨rfl, -⟩ := Prod.mk.inj (Option.some.inj h)
      exact .start op rfl rfl
    · cases h
  | stop =>
    simp only [act] at h
    split at h
    · obtain ⟨rfl, -⟩ := Prod.mk.inj (Option.some.inj h)
      exact .stop rfl
    · cases h

theorem step_effect (h : step s l = some s') : Effect s.shared s'.shared l.2 := by
  obtain ⟨u, pc, hact, rfl⟩ := Threads.step_eq_some.mp h
  exact act_effect hact

def Open (s : State Op Tid) : Prop :=
  s.shared.stop = false → s.shared.context.stopped = true → s.shared.context.Idle

omit [DecidableEq Op] [DecidableEq Tid] in
theorem init_open : Open (init : State Op Tid) := fun _ h => nomatch h

theorem stopped_step (hstopped : s.shared.context.stopped = true) (h : step s l = some s') :
    s'.shared.context.stopped = true := by
  cases step_effect h with
  | same hu | stop hu | start op ha hu | finish hu =>
    rw [hu]
    exact hstopped
  | runsOut hidle hu =>
    rw [hu]
  | serve op hopen hu =>
    rw [hstopped] at hopen
    cases hopen

theorem Open.step (hopen : Open s) (hok : StartsInTime s l) (h : step s l = some s') :
    Open s' := by
  intro hstop hstopped
  cases step_effect h with
  | same hu =>
    rw [hu] at hstop hstopped ⊢
    exact hopen hstop hstopped
  | stop hu =>
    rw [hu] at hstop
    cases hstop
  | start op ha hu =>
    rw [hu] at hstop hstopped
    rw [StartsInTime, ha] at hok
    exact absurd ((hok hstop).symm.trans hstopped) Bool.false_ne_true
  | runsOut hidle hu =>
    rw [hu]
    exact hidle
  | serve op hclear hu =>
    rw [hu.1] at hstopped
    cases hstopped
  | finish hu =>
    rw [hu] at hstop hstopped ⊢
    obtain ⟨hpending, hhandlers⟩ := hopen hstop hstopped
    exact ⟨hpending, by rw [Context.finish, hhandlers]⟩

theorem Open.noneStarved (h : Open s) : NoneStarved s := by
  rintro hstop op ⟨hmem, hstarved⟩
  cases hstopped : s.shared.context.stopped with
  | true =>
    rw [(h hstop hstopped).1] at hmem
    exact List.not_mem_nil hmem
  | false =>
    have hserve := Context.serve_isSome hstopped hmem
    rw [hstarved [] s rfl] at hserve
    cases hserve

theorem starved_of_stopped (hstopped : s.shared.context.stopped = true)
    (hmem : op ∈ s.shared.context.pending) : Starved s op := by
  refine ⟨hmem, fun ls u hrun => Context.serve_of_stopped ?_⟩
  exact Transition.exec_invariant (P := fun v : State Op Tid => v.shared.context.stopped = true)
    (fun _ _ _ hv hs => stopped_step hv hs) hstopped hrun

theorem startsInTime_of_noneStarved (h : step s l = some s') (hnone : NoneStarved s') :
    StartsInTime s l := by
  obtain ⟨t, a⟩ := l
  cases a with
  | start op =>
    intro hstop
    obtain ⟨u, pc, hact, rfl⟩ := Threads.step_eq_some.mp h
    simp only [act] at hact
    split at hact
    · obtain ⟨rfl, -⟩ := Prod.mk.inj (Option.some.inj hact)
      cases hstopped : s.shared.context.stopped with
      | false => rfl
      | true =>
        have hmem : op ∈ s.shared.context.pending ++ [op] :=
          List.mem_append_right _ (List.mem_singleton_self op)
        refine absurd ?_ (hnone hstop op)
        exact starved_of_stopped hstopped hmem
    · cases hact
  | _ => trivial

/-- No operation is starved in any state of a run just when each is started in time. -/
theorem served_iff_started_in_time (ls : List (Tid × Action Op)) :
    Throughout NoneStarved step (init : State Op Tid) ls ↔
      Along StartsInTime step (init : State Op Tid) ls := by
  refine throughout_iff_along_of_step (fun s hopen => hopen.noneStarved)
    (fun s l t hopen hok hs => hopen.step hok hs) (fun s l t hopen hs => ?_) init_open
  constructor
  · exact startsInTime_of_noneStarved hs
  · intro hok
    exact (hopen.step hok hs).noneStarved

/-- The order of `main`: a network thread calls `run_one` before the first accept is started. -/
def runBeforeAccept : List (Bool × Action ℕ) :=
  [(true, .run), (true, .testStop), (true, .returns), (false, .start 0)]

theorem runBeforeAccept_starved : ∃ s : State ℕ Bool, exec step init runBeforeAccept = some s ∧
    s.shared.stop = false ∧ Starved s 0 := by
  have h : (exec step (init : State ℕ Bool) runBeforeAccept).map (fun s =>
      decide (s.shared.stop = false ∧ s.shared.context.stopped = true ∧
        0 ∈ s.shared.context.pending)) = some true := by
    decide
  obtain ⟨s, hrun, hs⟩ := Option.map_eq_some_iff.mp h
  obtain ⟨hstop, hstopped, hmem⟩ := of_decide_eq_true hs
  exact ⟨s, hrun, hstop, starved_of_stopped hstopped hmem⟩

end Bugat.NetworkContext
