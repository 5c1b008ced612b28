import Mathlib
import Bugat.Core.TaskSerializer
import Bugat.Lib.Counting

/-!
# The three counters of a TaskSerializer

The linked tasks, `_size` and `_taskCount` are updated at different moments. What
separates them at any time are the posts and runs in progress: `_size` lags the
queue by the posts that have linked and not yet counted in `_size`, `_taskCount`
lags it by the posts that have not reached their `fetch_add`, and leads it by the
tasks a run has executed and not yet subtracted.
-/

open scoped BigOperators

namespace Bugat.TaskSerializer

variable {Tid Task : Type*}

def Thread.unsized (th : Thread) : ℤ :=
  match th.post with
  | .linked => 1
  | _ => 0

def Thread.uncounted (th : Thread) : ℤ :=
  match th.post with
  | .linked | .sized => 1
  | _ => 0

def Thread.pending (th : Thread) : ℤ :=
  match th.run with
  | .loop _ _ _ n => n
  | .executing _ _ _ n => n + 1
  | .finished _ _ n => n
  | _ => 0

def Thread.inRun (th : Thread) : Bool :=
  match th.run with
  | .idle | .counted _ => false
  | _ => true

theorem Thread.pending_of_not_inRun {th : Thread} (h : ¬ th.inRun) : th.pending = 0 := by
  unfold Thread.inRun at h
  unfold Thread.pending
  split <;> simp_all

theorem Thread.unsized_nonneg (th : Thread) : 0 ≤ th.unsized := by
  unfold Thread.unsized
  split <;> omega

theorem Thread.unsized_le_uncounted (th : Thread) : th.unsized ≤ th.uncounted := by
  unfold Thread.unsized Thread.uncounted
  split <;> simp_all
  split <;> omega

theorem Thread.post_of_mayPost {th : Thread} (h : th.mayPost) : th.post = .idle := by
  unfold Thread.mayPost at h
  split at h <;> simp_all

variable [DecidableEq Tid] {s s' : State Tid Task} {t : Tid} {task : Task}

@[simp] theorem setPost_que (p : PostPc) : (s.setPost t p).que = s.que := rfl
@[simp] theorem setPost_size (p : PostPc) : (s.setPost t p).size = s.size := rfl
@[simp] theorem setPost_taskCount (p : PostPc) : (s.setPost t p).taskCount = s.taskCount := rfl
@[simp] theorem setPost_linked (p : PostPc) : (s.setPost t p).linked = s.linked := rfl
@[simp] theorem setPost_executed (p : PostPc) : (s.setPost t p).executed = s.executed := rfl
@[simp] theorem setRun_que (r : RunPc) : (s.setRun t r).que = s.que := rfl
@[simp] theorem setRun_size (r : RunPc) : (s.setRun t r).size = s.size := rfl
@[simp] theorem setRun_taskCount (r : RunPc) : (s.setRun t r).taskCount = s.taskCount := rfl
@[simp] theorem setRun_linked (r : RunPc) : (s.setRun t r).linked = s.linked := rfl
@[simp] theorem setRun_executed (r : RunPc) : (s.setRun t r).executed = s.executed := rfl

@[simp] theorem setPost_self (s : State Tid Task) (t : Tid) (p : PostPc) :
    (s.setPost t p).thread t = ⟨p, (s.thread t).run⟩ := by
  simp [State.setPost]

@[simp] theorem setRun_self (s : State Tid Task) (t : Tid) (r : RunPc) :
    (s.setRun t r).thread t = ⟨(s.thread t).post, r⟩ := by
  simp [State.setRun]

theorem setPost_of_ne (s : State Tid Task) {t u : Tid} (p : PostPc) (h : u ≠ t) :
    (s.setPost t p).thread u = s.thread u := by
  simp [State.setPost, h]

theorem setRun_of_ne (s : State Tid Task) {t u : Tid} (r : RunPc) (h : u ≠ t) :
    (s.setRun t r).thread u = s.thread u := by
  simp [State.setRun, h]

@[simp] theorem setPost_run (s : State Tid Task) (t u : Tid) (p : PostPc) :
    ((s.setPost t p).thread u).run = (s.thread u).run := by
  by_cases h : u = t
  · subst h
    simp
  · rw [setPost_of_ne s p h]

@[simp] theorem setRun_post (s : State Tid Task) (t u : Tid) (r : RunPc) :
    ((s.setRun t r).thread u).post = (s.thread u).post := by
  by_cases h : u = t
  · subst h
    simp
  · rw [setRun_of_ne s r h]

@[simp] theorem link_thread : (s.link t task).thread = (s.setPost t .linked).thread := rfl
@[simp] theorem addSize_thread : (s.addSize t).thread = (s.setPost t .sized).thread := rfl
@[simp] theorem addTaskCount_thread :
    (s.addTaskCount t).thread = (s.setPost t (.counted (s.taskCount + 1))).thread := rfl
@[simp] theorem subTaskCount_thread (n : ℤ) :
    (s.subTaskCount t n).thread = (s.setRun t (.counted (s.taskCount - n))).thread := rfl
@[simp] theorem popTask_thread {x : Posted Tid Task} {rest : List (Posted Tid Task)}
    {start size i n : ℤ} : (s.popTask t x rest start size i n).thread =
      (s.setRun t (.executing start size i n)).thread := rfl

theorem pop_cases (s : State Tid Task) (t : Tid) (start size i n : ℤ) :
    (¬ i < size ∧ s.pop t start size i n = s.setRun t (.finished start size n)) ∨
    (i < size ∧ s.que = [] ∧ s.pop t start size i n = s.setRun t (.finished start size n)) ∨
    (i < size ∧ ∃ x rest, s.que = x :: rest ∧
      s.pop t start size i n = s.popTask t x rest start size i n) := by
  by_cases hi : i < size
  · cases hq : s.que with
    | nil => exact Or.inr (Or.inl ⟨hi, rfl, by simp [State.pop, hi, hq]⟩)
    | cons x rest => exact Or.inr (Or.inr ⟨hi, x, rest, rfl, by simp [State.pop, hi, hq]⟩)
  · exact Or.inl ⟨hi, by simp [State.pop, hi]⟩

theorem step_frame {l : Label Tid Task} (hlink : ∀ t task, l ≠ .link t task)
    (hpop : ∀ t, l ≠ .pop t) (hs : step s l = some s') :
    s'.que = s.que ∧ s'.linked = s.linked ∧ s'.executed = s.executed := by
  cases l with
  | link t task => exact absurd rfl (hlink t task)
  | pop t => exact absurd rfl (hpop t)
  | _ =>
    simp only [step] at hs
    split at hs <;> cases hs
    exact ⟨rfl, rfl, rfl⟩

variable [Fintype Tid]

theorem sum_setPost (w : Thread → ℤ) (s : State Tid Task) (t : Tid) (p : PostPc) :
    ∑ u, w ((s.setPost t p).thread u) =
      ∑ u, w (s.thread u) + w ⟨p, (s.thread t).run⟩ - w (s.thread t) := by
  have h := Counting.sum_update s.thread t { s.thread t with post := p } w
  simp only [State.setPost]
  linarith

theorem sum_setRun (w : Thread → ℤ) (s : State Tid Task) (t : Tid) (r : RunPc) :
    ∑ u, w ((s.setRun t r).thread u) =
      ∑ u, w (s.thread u) + w ⟨(s.thread t).post, r⟩ - w (s.thread t) := by
  have h := Counting.sum_update s.thread t { s.thread t with run := r } w
  simp only [State.setRun]
  linarith

structure Counts (s : State Tid Task) : Prop where
  order : s.executed ++ s.que = s.linked
  size_eq : s.size = s.que.length - ∑ t, (s.thread t).unsized
  pending_nonneg : ∀ t, 0 ≤ (s.thread t).pending

def Balanced (s : State Tid Task) : Prop :=
  s.taskCount = s.que.length - ∑ t, (s.thread t).uncounted + ∑ t, (s.thread t).pending

omit [DecidableEq Tid] in
theorem counts_init : Counts (init : State Tid Task) where
  order := rfl
  size_eq := by simp [init, Thread.unsized]
  pending_nonneg t := by simp [init, Thread.pending]

omit [DecidableEq Tid] in
theorem balanced_init : Balanced (init : State Tid Task) := by
  simp [Balanced, init, Thread.uncounted, Thread.pending]

omit [Fintype Tid] in
theorem pending_setPost (h : ∀ u, 0 ≤ (s.thread u).pending) (p : PostPc) (u : Tid) :
    0 ≤ ((s.setPost t p).thread u).pending := by
  have hp : ((s.setPost t p).thread u).pending = (s.thread u).pending := by
    simp only [Thread.pending, setPost_run]
  rw [hp]
  exact h u

omit [Fintype Tid] in
theorem pending_setRun (h : ∀ u, 0 ≤ (s.thread u).pending) {r : RunPc}
    (hr : 0 ≤ Thread.pending ⟨(s.thread t).post, r⟩) (u : Tid) :
    0 ≤ ((s.setRun t r).thread u).pending := by
  by_cases hu : u = t
  · subst hu
    simpa using hr
  · rw [setRun_of_ne s r hu]
    exact h u

theorem Counts.setPost (h : Counts s) {p : PostPc}
    (hp : Thread.unsized ⟨p, (s.thread t).run⟩ = (s.thread t).unsized) :
    Counts (s.setPost t p) where
  order := h.order
  size_eq := by
    rw [sum_setPost, hp]
    simpa using h.size_eq
  pending_nonneg := pending_setPost h.pending_nonneg p

theorem Counts.setRun (h : Counts s) {r : RunPc}
    (hr : 0 ≤ Thread.pending ⟨(s.thread t).post, r⟩) : Counts (s.setRun t r) where
  order := h.order
  size_eq := by
    rw [sum_setRun]
    have hu : Thread.unsized ⟨(s.thread t).post, r⟩ = (s.thread t).unsized := rfl
    rw [hu]
    simpa using h.size_eq
  pending_nonneg := pending_setRun h.pending_nonneg hr

theorem Counts.link (h : Counts s) (hm : (s.thread t).mayPost) : Counts (s.link t task) where
  order := by
    simp only [State.link, setPost_executed, ← List.append_assoc, h.order]
  size_eq := by
    have hs := h.size_eq
    have hp := Thread.post_of_mayPost hm
    rw [link_thread, sum_setPost]
    simp only [State.link, State.setPost, Thread.unsized, hp, List.length_append,
      List.length_singleton, Nat.cast_add, Nat.cast_one] at hs ⊢
    linarith
  pending_nonneg := pending_setPost h.pending_nonneg .linked

theorem Counts.addSize (h : Counts s) (hp : (s.thread t).post = .linked) :
    Counts (s.addSize t) where
  order := h.order
  size_eq := by
    have hs := h.size_eq
    rw [addSize_thread, sum_setPost]
    simp only [State.addSize, State.setPost, Thread.unsized, hp] at hs ⊢
    linarith
  pending_nonneg := pending_setPost h.pending_nonneg .sized

theorem Counts.popTask (h : Counts s) {x : Posted Tid Task} {rest : List (Posted Tid Task)}
    (hq : s.que = x :: rest) {start size i n : ℤ} (hr : (s.thread t).run = .loop start size i n) :
    Counts (s.popTask t x rest start size i n) where
  order := by
    have ho := h.order
    rw [hq] at ho
    simp only [State.popTask, List.append_assoc, List.singleton_append, ho]
    rfl
  size_eq := by
    have hs := h.size_eq
    rw [popTask_thread, sum_setRun]
    simp only [State.popTask, State.setRun, Thread.unsized, hq, List.length_cons, Nat.cast_add,
      Nat.cast_one] at hs ⊢
    linarith
  pending_nonneg := by
    have hn := h.pending_nonneg t
    simp only [Thread.pending, hr] at hn
    refine pending_setRun h.pending_nonneg ?_
    simp only [Thread.pending]
    omega

theorem Counts.pop (h : Counts s) {start size i n : ℤ}
    (hr : (s.thread t).run = .loop start size i n) : Counts (s.pop t start size i n) := by
  have hn := h.pending_nonneg t
  simp only [Thread.pending, hr] at hn
  obtain ⟨-, he⟩ | ⟨-, -, he⟩ | ⟨-, x, rest, hq, he⟩ := pop_cases s t start size i n
  · rw [he]
    exact h.setRun hn
  · rw [he]
    exact h.setRun hn
  · rw [he]
    exact h.popTask hq hr

theorem counts_step {l : Label Tid Task} (h : Counts s) (hs : step s l = some s') :
    Counts s' := by
  cases l with
  | link t task =>
    obtain ⟨⟨hm, -⟩, rfl⟩ := step_link.mp hs
    exact h.link hm
  | addSize t =>
    obtain ⟨hp, rfl⟩ := step_addSize.mp hs
    exact h.addSize hp
  | addTaskCount t =>
    obtain ⟨hp, rfl⟩ := step_addTaskCount.mp hs
    have hc : Counts (s.setPost t (.counted (s.taskCount + 1))) :=
      h.setPost (by simp [Thread.unsized, hp])
    exact ⟨hc.order, hc.size_eq, hc.pending_nonneg⟩
  | onPost t =>
    obtain ⟨⟨c, hp⟩, rfl⟩ := step_onPost.mp hs
    exact h.setPost (by simp [Thread.unsized, hp])
  | enter t =>
    obtain ⟨-, rfl⟩ := step_enter.mp hs
    exact h.setRun le_rfl
  | getSize t =>
    obtain ⟨start, -, rfl⟩ := step_getSize.mp hs
    exact h.setRun le_rfl
  | pop t =>
    obtain ⟨start, size, i, n, hr, rfl⟩ := step_pop.mp hs
    exact h.pop hr
  | taskReturns t =>
    obtain ⟨start, size, i, n, ht, rfl⟩ := step_taskReturns.mp hs
    have hn := h.pending_nonneg t
    simp only [Thread.pending, ht] at hn
    exact h.setRun hn
  | taskThrows t =>
    obtain ⟨-, rfl⟩ := step_taskThrows.mp hs
    exact h.setRun le_rfl
  | subTaskCount t =>
    obtain ⟨start, size, n, -, rfl⟩ := step_subTaskCount.mp hs
    have hc : Counts (s.setRun t (.counted (s.taskCount - n))) := h.setRun le_rfl
    exact ⟨hc.order, hc.size_eq, hc.pending_nonneg⟩
  | onRun t =>
    obtain ⟨-, rfl⟩ := step_onRun.mp hs
    exact h.setRun le_rfl

theorem Balanced.setPost (h : Balanced s) {p : PostPc}
    (hp : Thread.uncounted ⟨p, (s.thread t).run⟩ = (s.thread t).uncounted) :
    Balanced (s.setPost t p) := by
  have hw : Thread.pending ⟨p, (s.thread t).run⟩ = (s.thread t).pending := rfl
  simp only [Balanced] at h ⊢
  rw [sum_setPost, sum_setPost, hp, hw]
  simpa [State.setPost] using h

theorem Balanced.setRun (h : Balanced s) {r : RunPc}
    (hr : Thread.pending ⟨(s.thread t).post, r⟩ = (s.thread t).pending) :
    Balanced (s.setRun t r) := by
  have hw : Thread.uncounted ⟨(s.thread t).post, r⟩ = (s.thread t).uncounted := rfl
  simp only [Balanced] at h ⊢
  rw [sum_setRun, sum_setRun, hr, hw]
  simpa [State.setRun] using h

theorem Balanced.pop (h : Balanced s) {start size i n : ℤ}
    (hr : (s.thread t).run = .loop start size i n) : Balanced (s.pop t start size i n) := by
  obtain ⟨-, he⟩ | ⟨-, -, he⟩ | ⟨-, x, rest, hq, he⟩ := pop_cases s t start size i n
  · rw [he]
    exact h.setRun (by simp [Thread.pending, hr])
  · rw [he]
    exact h.setRun (by simp [Thread.pending, hr])
  · rw [he]
    have hw : Thread.uncounted ⟨(s.thread t).post, .executing start size i n⟩ =
      (s.thread t).uncounted := rfl
    have hp : (s.thread t).pending = n := by simp [Thread.pending, hr]
    simp only [Balanced] at h ⊢
    rw [popTask_thread, sum_setRun, sum_setRun, hw, hp]
    simp only [State.popTask, State.setRun, Thread.pending, hq, List.length_cons, Nat.cast_add,
      Nat.cast_one] at h ⊢
    linarith

theorem balanced_step {l : Label Tid Task} (h : Balanced s) (hl : l.isThrow = false)
    (hs : step s l = some s') : Balanced s' := by
  cases l with
  | link t task =>
    obtain ⟨⟨hm, -⟩, rfl⟩ := step_link.mp hs
    have hp := Thread.post_of_mayPost hm
    have hw : Thread.pending ⟨.linked, (s.thread t).run⟩ = (s.thread t).pending := rfl
    simp only [Balanced] at h ⊢
    rw [link_thread, sum_setPost, sum_setPost, hw]
    simp only [State.link, State.setPost, Thread.uncounted, hp, List.length_append,
      List.length_singleton, Nat.cast_add, Nat.cast_one] at h ⊢
    linarith
  | addSize t =>
    obtain ⟨hp, rfl⟩ := step_addSize.mp hs
    exact h.setPost (t := t) (p := .sized) (by simp [Thread.uncounted, hp])
  | addTaskCount t =>
    obtain ⟨hp, rfl⟩ := step_addTaskCount.mp hs
    have hw : Thread.pending ⟨.counted (s.taskCount + 1), (s.thread t).run⟩ =
      (s.thread t).pending := rfl
    simp only [Balanced] at h ⊢
    rw [addTaskCount_thread, sum_setPost, sum_setPost, hw]
    simp only [State.addTaskCount, State.setPost, Thread.uncounted, hp] at h ⊢
    linarith
  | onPost t =>
    obtain ⟨⟨c, hp⟩, rfl⟩ := step_onPost.mp hs
    exact h.setPost (by simp [Thread.uncounted, hp])
  | enter t =>
    obtain ⟨ht, rfl⟩ := step_enter.mp hs
    exact h.setRun (by simp [Thread.pending, ht])
  | getSize t =>
    obtain ⟨start, hr, rfl⟩ := step_getSize.mp hs
    exact h.setRun (by simp [Thread.pending, hr])
  | pop t =>
    obtain ⟨start, size, i, n, hr, rfl⟩ := step_pop.mp hs
    exact h.pop hr
  | taskReturns t =>
    obtain ⟨start, size, i, n, ht, rfl⟩ := step_taskReturns.mp hs
    exact h.setRun (by simp [Thread.pending, ht])
  | taskThrows t => cases hl
  | subTaskCount t =>
    obtain ⟨start, size, n, hr, rfl⟩ := step_subTaskCount.mp hs
    have hw : Thread.uncounted ⟨(s.thread t).post, .counted (s.taskCount - n)⟩ =
      (s.thread t).uncounted := rfl
    simp only [Balanced] at h ⊢
    rw [subTaskCount_thread, sum_setRun, sum_setRun, hw]
    simp only [State.subTaskCount, State.setRun, Thread.pending, hr] at h ⊢
    linarith
  | onRun t =>
    obtain ⟨⟨c, hr⟩, rfl⟩ := step_onRun.mp hs
    exact h.setRun (by simp [Thread.pending, hr])

end Bugat.TaskSerializer
