import Mathlib
import Bugat.Base.AwaitTaskSteps

/-!
# Awaiting is calling

Whatever the threads do, a spawned coroutine with all that it awaits does what the direct
evaluation of its body does, on the objects on which the evaluation does it. When nothing is
under way any more, every coroutine has returned its value and all frames are destroyed.
-/

namespace Bugat.AwaitCall

open Executor (taskMove_of_step inTask_step)
open Routine (Eval)
open Transition (exec Along exec_invariant_along)

variable {n : ℕ} {Tid Obj Task Act Ans Val : Type*} [DecidableEq Tid] [Fintype Tid]
  [DecidableEq Obj] [NeZero n] {s s' : State n Tid Obj Task Act Ans Val} {g : Ghost Tid Obj} {i : ℕ}

def Quiet (s : State n Tid Obj Task Act Ans Val) : Label Tid Obj Task Act Ans Val → Prop
  | .base l => l.isThrow = false ∧ Executor.StopsQuietly s.base l ∧ Executor.SizesFit s.base l
  | _ => True

omit [Fintype Tid] in
theorem ofBase_state {l : Executor.Label Tid Obj (Job Task)} : s.ofBase l = some s' ↔
    ∃ base, Executor.step s.base l = some base ∧ s' = { s with base := base } := by
  simp only [State.ofBase, Option.map_eq_some_iff, eq_comm (a := s')]

theorem ofBase_cases {l : Executor.Label Tid Obj (Job Task)} (hpop : ∀ o t, l ≠ .mailbox o (.pop t))
    (hs : ofBase s l = some s') : s.ofBase l = some s' ∧
      (∀ o t h, l ≠ .mailbox o (.link t (.resume h))) ∧
      ∀ o t, l = .mailbox o (.taskReturns t) → s.running t = none := by
  cases l with
  | context c => exact ⟨hs, by simp, by simp⟩
  | mailbox o a =>
    cases a with
    | link t task =>
      cases task with
      | resume h => cases hs
      | other task => exact ⟨hs, by simp, by simp⟩
    | pop t => exact absurd rfl (hpop o t)
    | taskReturns t =>
      simp only [AwaitCall.ofBase] at hs
      split at hs
      · rename_i hrunning
        refine ⟨hs, by simp, ?_⟩
        rintro o' t' he
        cases he
        exact hrunning
      · cases hs
    | addSize t | addTaskCount t | onPost t | enter t | getSize t | taskThrows t | subTaskCount t
    | onRun t => exact ⟨hs, by simp, by simp⟩

theorem Inv.ofBase {l : Executor.Label Tid Obj (Job Task)} (hinv : Inv s g)
    (hquiet : Quiet s (.base l)) (hs : ofBase s l = some s') : ∃ g', Inv s' g' := by
  obtain ⟨hthrow, hstops, hfit⟩ := hquiet
  by_cases hpop : ∃ o t, l = .mailbox o (.pop t)
  · obtain ⟨o, t, rfl⟩ := hpop
    obtain ⟨u, hu, rfl⟩ := Option.map_eq_some_iff.mp hs
    obtain ⟨base, hbase, rfl⟩ := ofBase_state.mp hu
    have hinTask : ∀ u a p, s.running u = some a → s.base.inTask u p = true →
        base.inTask u p = true := by
      intro u a p _ hin
      exact inTask_step hthrow hbase (by simp) hin
    have hstays : (∀ o, handles base o = handles s.base o) →
        Inv ({ s with base := base } : State n Tid Obj Task Act Ans Val) g := by
      intro hsame
      exact hinv.stay (hinv.base.step hthrow hstops hfit hbase) hinTask hsame
    cases taskMove_of_step hthrow hbase with
    | stays hlink htasks htaken =>
      rw [htaken o t rfl]
      refine ⟨g, hstays fun p => ?_⟩
      rw [handles, htasks p, handles]
    | links o' t' task hl => cases hl
    | takes o' t' task hl hself hother htaken hin =>
      cases hl
      rw [htaken]
      have hothers : ∀ p ≠ o, handles base p = handles s.base p := by
        intro p hp
        rw [handles, hother p hp, handles]
      cases task with
      | resume h =>
        refine hinv.resume (hinv.base.step hthrow hstops hfit hbase)
          (hinv.pop_not_running hbase) hinTask ?_ hothers hin
        rw [handles, hself]
        rfl
      | other task =>
        refine ⟨g, hstays fun p => ?_⟩
        by_cases hp : p = o
        · subst hp
          rw [handles, handles, hself]
          rfl
        · exact hothers p hp
  · obtain ⟨hstep, hlink, hreturns⟩ := ofBase_cases (fun o t he => hpop ⟨o, t, he⟩) hs
    obtain ⟨base, hbase, rfl⟩ := ofBase_state.mp hstep
    refine ⟨g, hinv.stay (hinv.base.step hthrow hstops hfit hbase) ?_ ?_⟩
    · intro t a p hrunning hin
      refine inTask_step hthrow hbase ?_ hin
      rintro rfl
      rw [hreturns p t rfl] at hrunning
      cases hrunning
    · intro p
      cases taskMove_of_step hthrow hbase with
      | stays hlink htasks htaken => rw [handles, htasks p, handles]
      | links o t task hl hself hother =>
        by_cases hp : p = o
        · subst hp
          cases task with
          | resume h => exact absurd hl (hlink p t h)
          | other task =>
            rw [handles, hself, List.filterMap_append, handles]
            exact List.append_nil _
        · rw [handles, hother p hp, handles]
      | takes o t task hl => exact absurd ⟨o, t, hl⟩ hpop

theorem Inv.step {l : Label Tid Obj Task Act Ans Val} (hinv : Inv s g) (hquiet : Quiet s l)
    (hs : step s l = some s') : ∃ g', Inv s' g' := by
  cases l with
  | base l => exact hinv.ofBase hquiet hs
  | spawn t o a executor code => exact hinv.spawn hs
  | act t r =>
    simp only [AwaitCall.step] at hs
    split at hs
    · rename_i h f hcurrent
      obtain ⟨hrunning, hframe⟩ := current_eq_some.mp hcurrent
      split at hs
      · rename_i hpc hp
        split at hs
        · obtain rfl := Option.some.inj hs
          exact ⟨g, hinv.act hrunning hframe hpc hp⟩
        · cases hs
      · cases hs
    · cases hs
  | always t =>
    simp only [AwaitCall.step] at hs
    split at hs
    · rename_i h f hcurrent
      obtain ⟨hrunning, hframe⟩ := current_eq_some.mp hcurrent
      split at hs
      · exact hinv.always hrunning hframe ‹_› hs
      · cases hs
    · cases hs
  | await t a =>
    simp only [AwaitCall.step] at hs
    split at hs
    · rename_i h f hcurrent
      obtain ⟨hrunning, hframe⟩ := current_eq_some.mp hcurrent
      split at hs
      · rename_i hpc
        split at hs
        · rename_i hfree
          exact hinv.await hrunning hframe hpc hfree.2 hs
        · cases hs
      · cases hs
    · cases hs
  | finalSuspend t =>
    simp only [AwaitCall.step] at hs
    split at hs
    · rename_i h f hcurrent
      obtain ⟨hrunning, hframe⟩ := current_eq_some.mp hcurrent
      split at hs
      · rename_i hpc
        split at hs
        · exact hinv.finalSuspend hrunning hframe hpc hs
        · cases hs
      · cases hs
    · cases hs
  | destroy t =>
    simp only [AwaitCall.step] at hs
    split at hs
    · rename_i h f hcurrent
      obtain ⟨hrunning, hframe⟩ := current_eq_some.mp hcurrent
      split at hs
      · rename_i hpc
        split at hs
        · obtain rfl := Option.some.inj hs
          exact ⟨_, hinv.destroy hrunning hframe hpc⟩
        · cases hs
      · cases hs
    · cases hs

omit [NeZero n] in
theorem init_inv : Inv (init n : State n Tid Obj Task Act Ans Val) ⟨fun _ => .nowhere, fun _ => []⟩
    where
  base := Executor.init_inv
  sound := rfl
  tokens :=
    { inTask := by
        intro t a ha
        cases ha
      queued := fun _ _ => rfl
      running := by
        intro t a
        simp [init] }
  frames _ := rfl
  roots i p c hi := by cases hi
  fresh _ _ := ⟨rfl, rfl, rfl⟩

/-- A spawned coroutine does what the direct evaluation of its body does, as far as it has come,
and returns its value once. When nothing is under way any more, all have returned and every frame
is destroyed. No coroutine is resumed that is destroyed, runs or waits. -/
structure Evaluates (s : State n Tid Obj Task Act Ans Val) : Prop where
  sound : s.faulted = false
  begins : ∀ i p c, s.spawned[i]? = some (p, c) → ∃ rest v, Eval p c (s.trace i ++ rest) v
  returns : ∀ i v, v ∈ s.values i →
    s.values i = [v] ∧ ∃ p c, s.spawned[i]? = some (p, c) ∧ Eval p c (s.trace i) v
  settles : Executor.Idle s.base →
    (∀ a, s.frame a = none) ∧ ∀ i < s.spawned.length, ∃ v, s.values i = [v]

omit [NeZero n] in
theorem Inv.place_of_idle (hinv : Inv s g) (hidle : Executor.Idle s.base) (a : Addr) :
    g.place a = .nowhere := by
  cases hplace : g.place a with
  | nowhere => rfl
  | queued o =>
    have hcount := hinv.tokens.queued o a
    rw [if_pos hplace, handles, Executor.State.tasks, (hinv.base.settled hidle o).1] at hcount
    cases hcount
  | running t =>
    have hrunning := (hinv.tokens.running t a).mpr hplace
    obtain ⟨p, hin⟩ := hinv.tokens.inTask t a hrunning
    have hbusy : ((s.base.object p).thread t).run ≠ .idle := by
      intro he
      rw [Executor.State.inTask, he] at hin
      cases hin
    obtain ⟨⟨q, count, hworker⟩, -⟩ := hinv.base.control.running t p hbusy
    exact absurd hworker (hidle.workers t q count)

omit [NeZero n] in
theorem Inv.returned_of_idle (hinv : Inv s g) (hidle : Executor.Idle s.base)
    (hi : i < s.spawned.length) : g.chain i = [] ∧ ∃ v, s.values i = [v] := by
  obtain ⟨⟨p, c⟩, hspawned⟩ : ∃ x, s.spawned[i]? = some x := ⟨_, List.getElem?_eq_getElem hi⟩
  cases hinv.roots i p c hspawned with
  | returned v hchain hvalues heval => exact ⟨hchain, v, hvalues⟩
  | ongoing a as f code st q hchain hframe hnumber hnext hcallers hstands hreaches hvalues =>
    have hplace := hinv.place_of_idle hidle a
    rcases hstands with hqueued | ⟨t, hrunning, -⟩
    · rw [hplace] at hqueued
      cases hqueued
    · rw [hplace] at hrunning
      cases hrunning

omit [NeZero n] in
theorem Inv.evaluates [Nonempty Ans] (hinv : Inv s g) : Evaluates s where
  sound := hinv.sound
  begins i p c hi := by
    cases hinv.roots i p c hi with
    | returned v hchain hvalues heval => exact ⟨[], v, by rwa [List.append_nil]⟩
    | ongoing a as f code st q hchain hframe hnumber hnext hcallers hstands hreaches hvalues =>
      exact hreaches.extends
  returns i v hv := by
    by_cases hi : i < s.spawned.length
    · obtain ⟨⟨p, c⟩, hspawned⟩ : ∃ x, s.spawned[i]? = some x := ⟨_, List.getElem?_eq_getElem hi⟩
      cases hinv.roots i p c hspawned with
      | returned w hchain hvalues heval =>
        rw [hvalues] at hv
        obtain rfl := List.mem_singleton.mp hv
        exact ⟨hvalues, p, c, hspawned, heval⟩
      | ongoing a as f code st q hchain hframe hnumber hnext hcallers hstands hreaches hvalues =>
        rw [hvalues] at hv
        cases hv
    · rw [(hinv.fresh i (not_lt.mp hi)).2.2] at hv
      cases hv
  settles hidle := by
    refine ⟨?_, fun i hi => (hinv.returned_of_idle hidle hi).2⟩
    intro a
    cases hframe : s.frame a with
    | none => rfl
    | some f =>
      have hok := hinv.frames a
      rw [FrameOk, hframe] at hok
      rcases hok with ⟨-, t, hrunning⟩ | ⟨-, hnumber, hmem, -⟩
      · rw [hinv.place_of_idle hidle a] at hrunning
        cases hrunning
      · rw [(hinv.returned_of_idle hidle hnumber).1] at hmem
        cases hmem

theorem awaits_evaluate [Nonempty Ans] (ls : List (Label Tid Obj Task Act Ans Val))
    (s : State n Tid Obj Task Act Ans Val) (hok : Along Quiet step (init n) ls)
    (hrun : exec step (init n) ls = some s) : Evaluates s := by
  have hinv : ∃ g, Inv s g := by
    refine exec_invariant_along (P := fun s => ∃ g, Inv s g) ?_ ⟨_, init_inv⟩ hok hrun
    intro s l s' h hquiet hs
    obtain ⟨g, hinv⟩ := h
    exact hinv.step hquiet hs
  obtain ⟨g, hinv⟩ := hinv
  exact hinv.evaluates

section Runs

open TaskSerializer (Caller)

instance (s : State n Caller Bool Unit ℕ Unit ℕ) (l : Label Caller Bool Unit ℕ Unit ℕ) :
    Decidable (Quiet s l) :=
  match l with
  | .base (.context c) => inferInstanceAs (Decidable (_ ∧
      Context.StopsQuietly s.base.context c ∧ True))
  | .base (.mailbox o a) => inferInstanceAs (Decidable (_ ∧ True ∧
      TaskSerializer.SizeFitsIndex (s.base.object o) a))
  | .spawn _ _ _ _ _ | .act _ _ | .always _ | .await _ _ | .finalSuspend _ | .destroy _ =>
    isTrue trivial

def onContext (c : Context.Label Caller Caller Bool) : Label Caller Bool Unit ℕ Unit ℕ :=
  .base (.context c)

def onMailbox (o : Bool) (a : TaskSerializer.Label Caller (Job Unit)) :
    Label Caller Bool Unit ℕ Unit ℕ := .base (.mailbox o a)

def postRest (t : Caller) (o : Bool) : List (Label Caller Bool Unit ℕ Unit ℕ) :=
  [onMailbox o (.addSize t), onMailbox o (.addTaskCount t), onMailbox o (.onPost t),
    onContext (.postLoad t), onContext (.postPush t)]

def turn : List (Label Caller Bool Unit ℕ Unit ℕ) :=
  [.testStop .runner, .swapIndex .runner, .load .runner, .exchange .runner, .push .runner,
    .pop .runner, .popObject .runner].map onContext

def take (o : Bool) : List (Label Caller Bool Unit ℕ Unit ℕ) :=
  turn ++ turn ++ [onMailbox o (.getSize .runner), onMailbox o (.pop .runner)]

def leave (o : Bool) : List (Label Caller Bool Unit ℕ Unit ℕ) :=
  [onMailbox o (.taskReturns .runner), onMailbox o (.pop .runner),
    onMailbox o (.subTaskCount .runner), onMailbox o (.onRun .runner)]

def leaveContext : List (Label Caller Bool Unit ℕ Unit ℕ) :=
  [.objectRuns .runner 1, .popObject .runner].map onContext

def inner : Routine Bool ℕ Unit ℕ := .act 3 fun _ => .ret 7

def middle : Routine Bool ℕ Unit ℕ := .act 2 fun _ => .call none inner fun v => .ret (v + 1)

def outer : Routine Bool ℕ Unit ℕ :=
  .act 1 fun _ => .call (some true) middle fun v => .act v fun _ => .ret v

def threeDeep : List (Label Caller Bool Unit ℕ Unit ℕ) := List.flatten
  [[.spawn .poster false 1 (some false) outer], postRest .poster false,
    [onContext (.enter .runner 4)], take false,
    [.act .runner (), .await .runner 2], postRest .runner true, leave false, leaveContext,
    take true, [.act .runner (), .await .runner 3, .act .runner (), .finalSuspend .runner,
      onMailbox true (.addSize .runner), onMailbox true (.addTaskCount .runner),
      onMailbox true (.onPost .runner), .destroy .runner], leave true,
    [onContext (.postLoad .runner), onContext (.postPush .runner)], leaveContext,
    take true, [.finalSuspend .runner], postRest .runner false, [.destroy .runner], leave true,
    leaveContext, take false, [.act .runner (), .finalSuspend .runner, .destroy .runner],
    leave false, leaveContext]

theorem threeDeep_evaluates : ∃ s : State 1 Caller Bool Unit ℕ Unit ℕ,
    exec step (init 1) threeDeep = some s ∧ Evaluates s ∧ s.values 0 = [8] ∧
      (s.trace 0).map Routine.Event.act = [1, 2, 3, 8] := by
  have h : (exec step (init 1 : State 1 Caller Bool Unit ℕ Unit ℕ) threeDeep).map (fun s =>
      (s.values 0, (s.trace 0).map Routine.Event.act)) = some ([8], [1, 2, 3, 8]) := by
    decide +kernel
  obtain ⟨s, hrun, hs⟩ := Option.map_eq_some_iff.mp h
  obtain ⟨hvalues, htrace⟩ := Prod.mk.inj hs
  exact ⟨s, hrun, awaits_evaluate threeDeep s (by decide +kernel) hrun, hvalues, htrace⟩

end Runs

end Bugat.AwaitCall
