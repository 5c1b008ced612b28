import Mathlib
import Bugat.Base.SerializeObject

/-!
# One token while `_taskCount` is positive

Every step keeps the number of tokens equal to one if `_taskCount ≥ 1` and zero
otherwise: a post creates the token exactly when it raises the count to one, and
only the token's holder lowers the count. A task that throws drops the token and
leaves the count positive, after which no step can create a token again.
-/

open scoped BigOperators

namespace Bugat.SerializeObject

open TaskSerializer (PostPc RunPc Thread Label taskSerializerError maxNodes Counts Balanced
  counts_step balanced_step)
open Transition (exec exec_invariant exec_cons_eq_some Along)

variable {Tid Task : Type*} [DecidableEq Tid] [Fintype Tid] {s s' : State Tid Task} {t : Tid}
  {l : Label Tid Task}

structure Scheduled (s : State Tid Task) : Prop where
  counts : Counts s.serializer
  balanced : Balanced s.serializer
  nodes : s.serializer.que.length + 1 ≤ maxNodes
  tokens_eq : tokens s = if 1 ≤ s.serializer.taskCount then 1 else 0

omit [DecidableEq Tid] in
theorem scheduled_init : Scheduled (init : State Tid Task) where
  counts := TaskSerializer.counts_init
  balanced := TaskSerializer.balanced_init
  nodes := (by decide : 0 + 1 ≤ maxNodes)
  tokens_eq := by simp [tokens, init, TaskSerializer.init, tokensOf]

omit [Fintype Tid] in
theorem nodes_step {s s' : TaskSerializer.State Tid Task} (h : s.que.length + 1 ≤ maxNodes)
    (hs : TaskSerializer.step s l = some s') : s'.que.length + 1 ≤ maxNodes := by
  cases l with
  | link t task =>
    obtain ⟨⟨-, hroom⟩, rfl⟩ := TaskSerializer.step_link.mp hs
    simp only [TaskSerializer.State.link, List.length_append, List.length_singleton]
    omega
  | pop t =>
    obtain ⟨start, size, i, n, -, rfl⟩ := TaskSerializer.step_pop.mp hs
    obtain ⟨-, he⟩ | ⟨-, -, he⟩ | ⟨-, x, rest, hq, he⟩ :=
      TaskSerializer.pop_cases s t start size i n
    · rw [he]
      exact h
    · rw [he]
      exact h
    · rw [he]
      rw [hq, List.length_cons] at h
      simp only [TaskSerializer.State.popTask]
      omega
  | _ =>
    have hframe := TaskSerializer.step_frame (by simp) (by simp) hs
    rw [hframe.1]
    exact h

omit [DecidableEq Tid] in
theorem tokensOf_le (s : State Tid Task) (t : Tid) :
    tokensOf (s.serializer.thread t) ≤ tokens s :=
  (Finset.single_le_sum (f := fun u => tokensOf (s.serializer.thread u))
    (fun _ _ => Nat.zero_le _) (Finset.mem_univ t)).trans (Nat.le_add_left _ _)

theorem inRun_unique (h : tokens s ≤ 1) {t u : Tid} (ht : (s.serializer.thread t).inRun)
    (hu : (s.serializer.thread u).inRun) : t = u :=
  Counting.eq_of_sum_le_one s.serializer.thread tokensOf
    ((Nat.le_add_left _ _).trans h) (tokensOf_pos ht) (tokensOf_pos hu)

theorem pending_sum (h : tokens s ≤ 1) (ht : (s.serializer.thread t).inRun) :
    ∑ u, (s.serializer.thread u).pending = (s.serializer.thread t).pending := by
  apply Fintype.sum_eq_single
  intro u hu
  apply pending_of_tokensOf
  by_contra hne
  exact hu (Counting.eq_of_sum_le_one s.serializer.thread tokensOf
    ((Nat.le_add_left _ _).trans h) (Nat.pos_of_ne_zero hne) (tokensOf_pos ht))

theorem tokens_of_setPost (s s' : State Tid Task) (t : Tid) (p : PostPc)
    (hth : s'.serializer.thread = (s.serializer.setPost t p).thread) :
    tokens s' + s.scheduled + tokensOf (s.serializer.thread t) =
      tokens s + s'.scheduled + tokensOf ⟨p, (s.serializer.thread t).run⟩ := by
  have h := tokens_setPost s.serializer t p
  simp only [tokens, hth]
  omega

theorem tokens_of_setRun (s s' : State Tid Task) (t : Tid) (r : RunPc)
    (hth : s'.serializer.thread = (s.serializer.setRun t r).thread) :
    tokens s' + s.scheduled + tokensOf (s.serializer.thread t) =
      tokens s + s'.scheduled + tokensOf ⟨(s.serializer.thread t).post, r⟩ := by
  have h := tokens_setRun s.serializer t r
  simp only [tokens, hth]
  omega

theorem token_cases (hs : step s l = some s') :
    (tokens s' = tokens s ∧ s'.serializer.taskCount = s.serializer.taskCount ∧
      l.isThrow = false) ∨
    (s'.serializer.taskCount = s.serializer.taskCount + 1 ∧
      tokens s' = tokens s + (if onPost s'.serializer.taskCount then 1 else 0) ∧
      l.isThrow = false) ∨
    (∃ t start size n, (s.serializer.thread t).run = .finished start size n ∧
      s'.serializer.taskCount = s.serializer.taskCount - n ∧
      s'.serializer.que = s.serializer.que ∧
      tokens s' + 1 = tokens s + (if onRun s'.serializer.taskCount then 1 else 0) ∧
      l.isThrow = false) ∨
    (∃ t, l = .taskThrows t ∧ (s.serializer.thread t).inRun ∧
      s'.serializer.taskCount = s.serializer.taskCount ∧ tokens s' + 1 = tokens s) := by
  obtain ⟨hs, hsch⟩ := step_eq_some.mp hs
  cases l with
  | link t task =>
    obtain ⟨⟨hm, -⟩, he⟩ := TaskSerializer.step_link.mp hs
    have hp := TaskSerializer.Thread.post_of_mayPost hm
    have ht := tokens_of_setPost s s' t .linked (by rw [← he]; rfl)
    simp only [schedule, Option.some.injEq] at hsch
    refine Or.inl ⟨?_, by rw [← he]; rfl, rfl⟩
    simp only [tokensOf, hp] at ht
    omega
  | addSize t =>
    obtain ⟨hp, he⟩ := TaskSerializer.step_addSize.mp hs
    have ht := tokens_of_setPost s s' t .sized (by rw [← he]; rfl)
    simp only [schedule, Option.some.injEq] at hsch
    refine Or.inl ⟨?_, by rw [← he]; rfl, rfl⟩
    simp only [tokensOf, hp] at ht
    omega
  | addTaskCount t =>
    obtain ⟨hp, he⟩ := TaskSerializer.step_addTaskCount.mp hs
    have ht := tokens_of_setPost s s' t
      (.counted (s.serializer.taskCount + 1)) (by rw [← he]; rfl)
    have hcount : s'.serializer.taskCount = s.serializer.taskCount + 1 := by rw [← he]; rfl
    simp only [schedule, Option.some.injEq] at hsch
    refine Or.inr (Or.inl ⟨hcount, ?_, rfl⟩)
    simp only [tokensOf, hp] at ht
    rw [hcount]
    omega
  | onPost t =>
    obtain ⟨⟨c, hp⟩, he⟩ := TaskSerializer.step_onPost.mp hs
    have ht := tokens_of_setPost s s' t .idle (by rw [← he])
    simp only [schedule, hp, Option.some.injEq] at hsch
    refine Or.inl ⟨?_, by rw [← he]; rfl, rfl⟩
    simp only [tokensOf, hp] at ht
    cases hc : onPost c <;> simp only [hc, if_true, if_false, Bool.false_eq_true] at hsch ht <;>
      omega
  | enter t =>
    obtain ⟨hidle, he⟩ := TaskSerializer.step_enter.mp hs
    have ht := tokens_of_setRun s s' t
      (.entered s.serializer.taskCount) (by rw [← he])
    simp only [schedule, Option.ite_none_right_eq_some, Option.some.injEq] at hsch
    refine Or.inl ⟨?_, by rw [← he]; rfl, rfl⟩
    simp only [tokensOf, hidle] at ht
    omega
  | getSize t =>
    obtain ⟨start, hr, he⟩ := TaskSerializer.step_getSize.mp hs
    have ht := tokens_of_setRun s s' t
      (.loop start s.serializer.size 0 0) (by rw [← he])
    simp only [schedule, Option.some.injEq] at hsch
    refine Or.inl ⟨?_, by rw [← he]; rfl, rfl⟩
    simp only [tokensOf, hr] at ht
    omega
  | pop t =>
    obtain ⟨start, size, i, n, hr, he⟩ := TaskSerializer.step_pop.mp hs
    simp only [schedule, Option.some.injEq] at hsch
    obtain ⟨-, hc⟩ | ⟨-, -, hc⟩ | ⟨-, x, rest, hq, hc⟩ :=
      TaskSerializer.pop_cases s.serializer t start size i n
    · have ht := tokens_of_setRun s s' t (.finished start size n)
        (by rw [← he, hc])
      refine Or.inl ⟨?_, by rw [← he, hc]; rfl, rfl⟩
      simp only [tokensOf, hr] at ht
      omega
    · have ht := tokens_of_setRun s s' t (.finished start size n)
        (by rw [← he, hc])
      refine Or.inl ⟨?_, by rw [← he, hc]; rfl, rfl⟩
      simp only [tokensOf, hr] at ht
      omega
    · have ht := tokens_of_setRun s s' t (.executing start size i n)
        (by rw [← he, hc]; rfl)
      refine Or.inl ⟨?_, by rw [← he, hc]; rfl, rfl⟩
      simp only [tokensOf, hr] at ht
      omega
  | taskReturns t =>
    obtain ⟨start, size, i, n, hth, he⟩ := TaskSerializer.step_taskReturns.mp hs
    have ht := tokens_of_setRun s s' t _ (by rw [← he])
    simp only [schedule, Option.some.injEq] at hsch
    refine Or.inl ⟨?_, by rw [← he]; rfl, rfl⟩
    simp only [tokensOf, hth] at ht
    omega
  | taskThrows t =>
    obtain ⟨⟨start, size, i, n, hth⟩, he⟩ := TaskSerializer.step_taskThrows.mp hs
    have ht := tokens_of_setRun s s' t .idle (by rw [← he])
    simp only [schedule, Option.some.injEq] at hsch
    refine Or.inr (Or.inr (Or.inr ⟨t, rfl, by simp [Thread.inRun, hth], by rw [← he]; rfl, ?_⟩))
    simp only [tokensOf, hth] at ht
    omega
  | subTaskCount t =>
    obtain ⟨start, size, n, hr, he⟩ := TaskSerializer.step_subTaskCount.mp hs
    have ht := tokens_of_setRun s s' t
      (.counted (s.serializer.taskCount - n)) (by rw [← he]; rfl)
    have hcount : s'.serializer.taskCount = s.serializer.taskCount - n := by rw [← he]; rfl
    simp only [schedule, Option.some.injEq] at hsch
    refine Or.inr (Or.inr (Or.inl ⟨t, start, size, n, hr, hcount, by rw [← he]; rfl, ?_, rfl⟩))
    simp only [tokensOf, hr] at ht
    rw [hcount]
    omega
  | onRun t =>
    obtain ⟨⟨c, hr⟩, he⟩ := TaskSerializer.step_onRun.mp hs
    have ht := tokens_of_setRun s s' t .idle (by rw [← he])
    simp only [schedule, hr, Option.some.injEq] at hsch
    refine Or.inl ⟨?_, by rw [← he]; rfl, rfl⟩
    simp only [tokensOf, hr] at ht
    cases hc : onRun c <;> simp only [hc, if_true, if_false, Bool.false_eq_true] at hsch ht <;>
      omega

theorem onPost_eq {c : ℤ} : onPost c = true ↔ c = 1 := by
  by_cases hc : c = taskSerializerError
  · simp only [onPost, hc, if_true, taskSerializerError]
    decide
  · simp [onPost, hc]

theorem onRun_eq {c : ℤ} : onRun c = true ↔ c ≠ taskSerializerError ∧ 0 < c := by
  simp only [onRun]
  split <;> simp_all

omit [DecidableEq Tid] in
theorem uncounted_nonneg (s : TaskSerializer.State Tid Task) :
    0 ≤ ∑ u, (s.thread u).uncounted :=
  Finset.sum_nonneg fun u _ =>
    (s.thread u).unsized_nonneg.trans (s.thread u).unsized_le_uncounted

omit [DecidableEq Tid] in
theorem Scheduled.tokens_le_one (h : Scheduled s) : tokens s ≤ 1 := by
  rw [h.tokens_eq]
  split <;> omega

theorem Scheduled.remain_lt (h : Scheduled s) {start size n : ℤ}
    (hr : (s.serializer.thread t).run = .finished start size n) :
    s.serializer.taskCount - n < taskSerializerError := by
  have hrun : (s.serializer.thread t).inRun := by simp [Thread.inRun, hr]
  have hb := h.balanced
  have hn := h.nodes
  have hu := uncounted_nonneg s.serializer
  have hmax : maxNodes = 2 ^ 60 := by decide
  rw [TaskSerializer.Balanced, pending_sum h.tokens_le_one hrun] at hb
  simp only [Thread.pending, hr] at hb
  simp only [taskSerializerError]
  omega

theorem scheduled_step (h : Scheduled s) (hthrow : l.isThrow = false) (hs : step s l = some s') :
    Scheduled s' where
  counts := counts_step h.counts (step_eq_some.mp hs).1
  balanced := balanced_step h.balanced hthrow (step_eq_some.mp hs).1
  nodes := nodes_step h.nodes (step_eq_some.mp hs).1
  tokens_eq := by
    have htok := h.tokens_eq
    obtain ⟨ht, hc, -⟩ | ⟨hc, ht, -⟩ | ⟨t, start, size, n, hr, hc, -, ht, -⟩ | ⟨t, rfl, -⟩ :=
      token_cases hs
    · rw [ht, hc, htok]
    · -- the post that raises the count to one creates the token
      by_cases hone : s'.serializer.taskCount = 1
      · rw [if_pos (onPost_eq.mpr hone)] at ht
        split at htok <;> split <;> omega
      · rw [if_neg (mt onPost_eq.mp hone)] at ht
        split at htok <;> split <;> omega
    · -- the running thread holds the only token and passes it on or drops it
      have hlt := h.remain_lt hr
      rw [← hc] at hlt
      have hle := h.tokens_le_one
      by_cases hpos : 0 < s'.serializer.taskCount
      · rw [if_pos (onRun_eq.mpr ⟨hlt.ne, hpos⟩)] at ht
        have hrun : (s.serializer.thread t).inRun := by simp [Thread.inRun, hr]
        have hge := (tokensOf_pos hrun).trans_le (tokensOf_le s t)
        split <;> omega
      · rw [if_neg (mt (fun hr => (onRun_eq.mp hr).2) hpos)] at ht
        split <;> omega
    · cases hthrow

/-- The state of an object whose token was lost: no entry, no poster or runner that
will add one, and a count that no post can raise to one. -/
structure Disabled (s : State Tid Task) : Prop where
  tokens_eq : tokens s = 0
  taskCount_pos : 1 ≤ s.serializer.taskCount

theorem Scheduled.disabled_of_throw (h : Scheduled s) (hthrow : l.isThrow = true)
    (hs : step s l = some s') : Disabled s' := by
  have htok := h.tokens_eq
  obtain ⟨-, -, hl⟩ | ⟨-, -, hl⟩ | ⟨-, -, -, -, -, -, -, -, hl⟩ | ⟨t, -, hrun, hc, ht⟩ :=
    token_cases hs
  · simp [hl] at hthrow
  · simp [hl] at hthrow
  · simp [hl] at hthrow
  · split at htok
    · exact ⟨by omega, by omega⟩
    · omega

theorem disabled_step (h : Disabled s) (hs : step s l = some s') : Disabled s' := by
  have htok := h.tokens_eq
  have hpos := h.taskCount_pos
  obtain ⟨ht, hc, -⟩ | ⟨hc, ht, -⟩ | ⟨t, start, size, n, hr, -⟩ | ⟨t, -, hrun, -⟩ :=
    token_cases hs
  · exact ⟨by omega, by omega⟩
  · have hne : s'.serializer.taskCount ≠ 1 := by omega
    rw [if_neg (mt onPost_eq.mp hne)] at ht
    exact ⟨by omega, by omega⟩
  · have hrun : (s.serializer.thread t).inRun := by simp [Thread.inRun, hr]
    have hge := (tokensOf_pos hrun).trans_le (tokensOf_le s t)
    omega
  · have hge := (tokensOf_pos hrun).trans_le (tokensOf_le s t)
    omega

theorem scheduled_exec {ls : List (Label Tid Task)} (hthrow : ∀ l ∈ ls, l.isThrow = false)
    (hrun : exec step init ls = some s) : Scheduled s := by
  have hno : Transition.Along (fun _ l => l.isThrow = false) step (init : State Tid Task) ls :=
    Transition.along_label hthrow
  exact Transition.exec_invariant_along (fun _ _ _ h hl hs => scheduled_step h hl hs)
    scheduled_init hno hrun

theorem Scheduled.exec_throw (h : Scheduled s) {ls : List (Label Tid Task)}
    (hthrow : ∃ l ∈ ls, l.isThrow = true) (hrun : exec step s ls = some s') : Disabled s' := by
  induction ls generalizing s with
  | nil =>
    obtain ⟨l, hl, -⟩ := hthrow
    cases hl
  | cons l ls ih =>
    obtain ⟨u, hu, hrest⟩ := exec_cons_eq_some.mp hrun
    by_cases hl : l.isThrow = true
    · exact exec_invariant (fun _ _ _ h hs => disabled_step h hs) (h.disabled_of_throw hl hu) hrest
    · obtain ⟨l', hmem, hl'⟩ := hthrow
      rcases List.mem_cons.mp hmem with rfl | hmem
      · exact absurd hl' hl
      · exact ih (scheduled_step h (Bool.eq_false_iff.mpr hl) hu) ⟨l', hmem, hl'⟩ hrest

end Bugat.SerializeObject
