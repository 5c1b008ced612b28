import Mathlib
import Bugat.Base.SerializeObjectTokens

/-!
# Runs of a SerializeObject on a Context

Without throwing tasks one worker at a time runs the object and no wake-up is
lost, so the mailbox guarantees of `TaskSerializer` hold for it. A task that
throws leaves the object disabled for the rest of the run.
-/

open scoped BigOperators

namespace Bugat.SerializeObject

open TaskSerializer (PostPc RunPc Thread Label Balanced InOrder SizeFitsIndex Caller)
open Transition (exec exec_invariant exec_cons_eq_some Along along_cons)

variable {Tid Task : Type*} [DecidableEq Tid] [Fintype Tid] {s s' : State Tid Task} {t : Tid}
  {l : Label Tid Task}

structure SingleRunner (s : State Tid Task) : Prop where
  tokens_eq : tokens s = if 1 ≤ s.serializer.taskCount then 1 else 0
  runner_unique : ∀ t u, (s.serializer.thread t).inRun → (s.serializer.thread u).inRun → t = u
  wake : s.serializer.que ≠ [] → tokens s = 1 ∨ ∃ t, 0 < (s.serializer.thread t).uncounted
  quiet : tokens s = 0 → (∀ t, (s.serializer.thread t).uncounted = 0) →
    s.serializer.que = [] ∧ s.serializer.taskCount = 0

omit [DecidableEq Tid] in
theorem pending_eq_zero (h : tokens s = 0) : ∑ t, (s.serializer.thread t).pending = 0 := by
  refine Finset.sum_eq_zero fun t _ => pending_of_tokensOf ?_
  have hle := tokensOf_le s t
  omega

omit [DecidableEq Tid] in
theorem Scheduled.quiet (h : Scheduled s) (ht : tokens s = 0)
    (hu : ∀ t, (s.serializer.thread t).uncounted = 0) :
    s.serializer.que = [] ∧ s.serializer.taskCount = 0 := by
  have hb := h.balanced
  have htok := h.tokens_eq
  rw [TaskSerializer.Balanced, pending_eq_zero ht, Finset.sum_eq_zero fun t _ => hu t] at hb
  have hlen : s.serializer.que.length = 0 := by
    split at htok <;> omega
  exact ⟨List.eq_nil_of_length_eq_zero hlen, by omega⟩

theorem Scheduled.singleRunner (h : Scheduled s) : SingleRunner s where
  tokens_eq := h.tokens_eq
  runner_unique _ _ ht hu := inRun_unique h.tokens_le_one ht hu
  wake hq := by
    by_contra hnone
    push Not at hnone
    obtain ⟨hne, hu⟩ := hnone
    have hle := h.tokens_le_one
    refine hq (h.quiet (by omega) fun t => le_antisymm (hu t) ?_).1
    exact (Thread.unsized_nonneg _).trans (Thread.unsized_le_uncounted _)
  quiet := h.quiet

/-- In every state that posts and runs without throwing tasks can reach, there is one
token while `_taskCount` is positive and none otherwise. -/
theorem single_runner_no_lost_wakeup (ls : List (Label Tid Task)) (s : State Tid Task)
    (hthrow : ∀ l ∈ ls, l.isThrow = false) (hrun : exec step init ls = some s) :
    SingleRunner s :=
  (scheduled_exec hthrow hrun).singleRunner

section SingleRunnerExample

def countedLate : List (Label Caller ℕ) :=
  [.link .poster 10, .addSize .poster, .link .rival 11, .addSize .rival, .addTaskCount .poster,
    .onPost .poster, .enter .runner, .getSize .runner, .pop .runner, .taskReturns .runner,
    .pop .runner, .taskReturns .runner, .pop .runner, .subTaskCount .runner]

theorem countedLate_single_runner : ∃ s : State Caller ℕ,
    exec step init countedLate = some s ∧ SingleRunner s ∧ s.serializer.taskCount = -1 ∧
      s.serializer.executed.map TaskSerializer.Posted.task = [10, 11] := by
  have hsome : (exec step (init : State Caller ℕ) countedLate).isSome := by decide
  exact ⟨_, (Option.some_get hsome).symm,
    single_runner_no_lost_wakeup countedLate _ (by decide) (Option.some_get hsome).symm, rfl, rfl⟩

end SingleRunnerExample

omit [Fintype Tid] in
theorem serializer_exec {ls : List (Label Tid Task)} (h : exec step s ls = some s') :
    exec TaskSerializer.step s.serializer ls = some s'.serializer := by
  simpa using Transition.exec_map State.serializer id (fun _ _ _ hs => (step_eq_some.mp hs).1) h

/-- A worker that enters `Run` finds no other thread inside it: the entry it popped was
the token. -/
theorem Scheduled.enter_alone (h : Scheduled s) (hs : step s (.enter t) = some s') (u : Tid) :
    ¬ (s.serializer.thread u).inRun := by
  intro hu
  have hsch := (step_eq_some.mp hs).2
  simp only [schedule, Option.ite_none_right_eq_some] at hsch
  have hle := h.tokens_le_one
  have hsum : tokensOf (s.serializer.thread u) ≤ ∑ v, tokensOf (s.serializer.thread v) :=
    Finset.single_le_sum (f := fun v => tokensOf (s.serializer.thread v))
      (fun _ _ => Nat.zero_le _) (Finset.mem_univ u)
  have hpos := tokensOf_pos hu
  simp only [tokens] at hle
  omega

theorem Scheduled.along_assumed (h : Scheduled s) {ls : List (Label Tid Task)}
    (hthrow : ∀ l ∈ ls, l.isThrow = false) (hrun : exec step s ls = some s') :
    Along TaskSerializer.Assumed TaskSerializer.step s.serializer ls := by
  induction ls generalizing s with
  | nil => trivial
  | cons l ls ih =>
    obtain ⟨u, hu, hrest⟩ := exec_cons_eq_some.mp hrun
    have hl := hthrow l List.mem_cons_self
    refine along_cons.mpr fun v hv => ⟨⟨hl, fun t ht => ?_⟩, ?_⟩
    · subst ht
      exact h.enter_alone hu
    · obtain rfl : u.serializer = v := Option.some.inj ((step_eq_some.mp hu).1 ▸ hv)
      exact ih (scheduled_step h hl hu) (fun l hl => hthrow l (List.mem_cons_of_mem _ hl)) hrest

/-- The mailbox of a scheduled object runs its tasks in order: the object refines the
`TaskSerializer` with one runner at a time. -/
theorem mailbox_in_order (ls : List (Label Tid Task)) (s : State Tid Task)
    (hthrow : ∀ l ∈ ls, l.isThrow = false)
    (hfit : Along SizeFitsIndex TaskSerializer.step TaskSerializer.init ls)
    (hrun : exec step init ls = some s) : InOrder s.serializer :=
  TaskSerializer.Ordered.inOrder (TaskSerializer.ordered_exec
    ((scheduled_init.along_assumed hthrow hrun).and hfit) (serializer_exec hrun))

def Quiescent (s : State Tid Task) : Prop :=
  s.scheduled = 0 ∧ ∀ t, s.serializer.thread t = ⟨.idle, .idle⟩

instance (s : State Tid Task) : Decidable (Quiescent s) := inferInstanceAs (Decidable (_ ∧ _))

omit [DecidableEq Tid] in
theorem Quiescent.tokens_eq [DecidableEq Tid] (h : Quiescent s) : tokens s = 0 := by
  simp [tokens, h.1, h.2, tokensOf]

/-- The scheduling invariant is re-established in the quiescent states of exactly the
runs in which no task has thrown. -/
theorem quiescent_empty_iff_no_throw (ls : List (Label Tid Task)) (s : State Tid Task)
    (hrun : exec step init ls = some s) (hq : Quiescent s) :
    (s.serializer.que = [] ∧ s.serializer.taskCount = 0) ↔ ∀ l ∈ ls, l.isThrow = false := by
  constructor
  · rintro ⟨-, hzero⟩ l hl
    by_contra hthrow
    have hdis := scheduled_init.exec_throw ⟨l, hl, Bool.not_eq_false _ ▸ hthrow⟩ hrun
    have hpos := hdis.taskCount_pos
    omega
  · intro hthrow
    refine (scheduled_exec hthrow hrun).quiet hq.tokens_eq fun t => ?_
    simp [Thread.uncounted, hq.2 t]

section ThrowExamples

def bothReturn : List (Label Caller ℕ) :=
  [.link .poster 10, .addSize .poster, .addTaskCount .poster, .onPost .poster, .link .poster 11,
    .addSize .poster, .addTaskCount .poster, .onPost .poster, .enter .runner, .getSize .runner,
    .pop .runner, .taskReturns .runner, .pop .runner, .taskReturns .runner, .pop .runner,
    .subTaskCount .runner, .onRun .runner]

theorem bothReturn_empty_iff : ∃ s : State Caller ℕ, exec step init bothReturn = some s ∧
    Quiescent s ∧ ((s.serializer.que = [] ∧ s.serializer.taskCount = 0) ↔
      ∀ l ∈ bothReturn, l.isThrow = false) := by
  have hsome : (exec step (init : State Caller ℕ) bothReturn).isSome := by decide
  have hq : Quiescent ((exec step (init : State Caller ℕ) bothReturn).get hsome) :=
    ⟨rfl, fun t => by cases t <;> rfl⟩
  exact ⟨_, (Option.some_get hsome).symm, hq,
    quiescent_empty_iff_no_throw bothReturn _ (Option.some_get hsome).symm hq⟩

def firstThrows : List (Label Caller ℕ) :=
  [.link .poster 10, .addSize .poster, .addTaskCount .poster, .onPost .poster, .enter .runner,
    .getSize .runner, .pop .runner, .taskThrows .runner, .link .poster 11, .addSize .poster,
    .addTaskCount .poster, .onPost .poster]

theorem firstThrows_stuck : ∃ s : State Caller ℕ, exec step init firstThrows = some s ∧
    Quiescent s ∧ s.serializer.que.map TaskSerializer.Posted.task = [11] ∧
      s.serializer.taskCount = 2 := by
  have hsome : (exec step (init : State Caller ℕ) firstThrows).isSome := by decide
  exact ⟨_, (Option.some_get hsome).symm, ⟨rfl, fun t => by cases t <;> rfl⟩, rfl, rfl⟩

end ThrowExamples

theorem Disabled.executed_eq (h : Disabled s) (hs : step s l = some s') :
    s'.serializer.executed = s.serializer.executed := by
  have hs := (step_eq_some.mp hs).1
  cases l with
  | link t task =>
    obtain ⟨-, he⟩ := TaskSerializer.step_link.mp hs
    rw [← he]
    rfl
  | pop t =>
    obtain ⟨start, size, i, n, hr, -⟩ := TaskSerializer.step_pop.mp hs
    have hpos : 0 < tokensOf (s.serializer.thread t) :=
      tokensOf_pos (by simp [Thread.inRun, hr])
    have hle := tokensOf_le s t
    have hzero := h.tokens_eq
    omega
  | _ => exact (TaskSerializer.step_frame (by simp) (by simp) hs).2.2

/-- After a task has thrown, no task of the object is ever executed again. -/
theorem no_execution_after_throw {as bs : List (Label Tid Task)}
    (hthrow : ∃ l ∈ as, l.isThrow = true) (has : exec step init as = some s)
    (hbs : exec step s bs = some s') : s'.serializer.executed = s.serializer.executed := by
  have hinv : Disabled s' ∧ s'.serializer.executed = s.serializer.executed :=
    exec_invariant (P := fun u => Disabled u ∧ u.serializer.executed = s.serializer.executed)
      (fun u l v hu hs => ⟨disabled_step hu.1 hs, (hu.1.executed_eq hs).trans hu.2⟩)
      ⟨scheduled_init.exec_throw hthrow has, rfl⟩ hbs
  exact hinv.2

end Bugat.SerializeObject
