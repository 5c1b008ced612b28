import Mathlib
import Bugat.Core.TaskSerializerCounts

/-!
# Execution order and progress of a TaskSerializer

Threads post in any interleaving while one thread at a time calls `Run`. The
execution log is a prefix of the link log, and a run pops exactly the number of
tasks it read from `_size`, because the tasks still to be popped are bounded by
`_size` and `_size` never exceeds what is linked.
-/

open scoped BigOperators

namespace Bugat.TaskSerializer

open MachineInt (wrap32 int32Max wrap32_of_mem)
open Transition (exec Along exec_invariant_along)

variable {Tid Task : Type*}

def Numbered [DecidableEq Tid] (xs : List (Posted Tid Task)) : Prop :=
  ∀ t, (xs.filter fun x => x.thread = t).map Posted.number =
    List.range (xs.countP fun x => x.thread = t)

section Numbered

variable [DecidableEq Tid] {xs ys : List (Posted Tid Task)}

theorem numbered_nil : Numbered ([] : List (Posted Tid Task)) := fun _ => rfl

theorem Numbered.append (h : Numbered xs) (t : Tid) (task : Task) :
    Numbered (xs ++ [⟨t, xs.countP fun x => x.thread = t, task⟩]) := by
  intro u
  have hu := h u
  by_cases htu : t = u
  · subst htu
    simp [List.filter_append, List.countP_append, hu, List.range_succ]
  · simp [List.filter_append, List.countP_append, hu, htu]

theorem Numbered.of_prefixed (h : Numbered ys) (hp : xs <+: ys) : Numbered xs := by
  intro t
  have hpre : (xs.filter fun x => x.thread = t).map Posted.number <+:
      List.range (ys.countP fun x => x.thread = t) := by
    rw [← h t]
    exact (hp.filter _).map _
  have htake := List.prefix_iff_eq_take.mp hpre
  rw [List.length_map, ← List.countP_eq_length_filter] at htake
  have hle : (xs.countP fun x => x.thread = t) ≤ ys.countP fun x => x.thread = t :=
    hp.sublist.countP_le
  rw [htake, List.take_range, Nat.min_eq_left hle]

theorem Numbered.nodup (h : Numbered xs) : xs.Nodup := by
  rw [List.nodup_iff_sublist]
  intro x hx
  have hf : List.Sublist [x, x] (xs.filter fun y => y.thread = x.thread) := by
    simpa using hx.filter fun y => decide (y.thread = x.thread)
  have hn : ((xs.filter fun y => y.thread = x.thread).map Posted.number).Nodup := by
    rw [h x.thread]
    exact List.nodup_range
  exact List.nodup_iff_sublist.mp (hn.of_map _) x hf

end Numbered

/-- The assumptions on the environment: no task throws, and `Run` is called while no
other thread is between the entry of `Run` and its `fetch_sub`. -/
def Assumed (s : State Tid Task) (l : Label Tid Task) : Prop :=
  l.isThrow = false ∧ ∀ t, l = .enter t → ∀ u, ¬ (s.thread u).inRun

def SizeFitsIndex (s : State Tid Task) (l : Label Tid Task) : Prop :=
  ∀ t, l = .getSize t → s.size ≤ int32Max

def RunInv (s : State Tid Task) : RunPc → Prop
  | .idle => True
  | .entered start => start ≤ s.taskCount
  | .loop start size i n =>
    n = i ∧ 0 ≤ i ∧ i ≤ size ∧ size ≤ int32Max ∧ size - i ≤ s.size ∧ (1 ≤ start → 1 ≤ size)
  | .executing start size i n =>
    n = i ∧ 0 ≤ i ∧ i < size ∧ size ≤ int32Max ∧ size - (i + 1) ≤ s.size ∧
      (1 ≤ start → 1 ≤ size)
  | .finished start size n => n = size ∧ 0 ≤ n ∧ (1 ≤ start → 1 ≤ n)
  | .counted _ => True

theorem RunInv.mono {s s' : State Tid Task} {r : RunPc} (h : RunInv s r) (hs : s.size ≤ s'.size)
    (hc : s.taskCount ≤ s'.taskCount) : RunInv s' r := by
  cases r with
  | idle => trivial
  | entered start => exact le_trans h hc
  | loop start size i n =>
    obtain ⟨hn, hi, his, hmax, hleft, hstart⟩ := h
    exact ⟨hn, hi, his, hmax, hleft.trans hs, hstart⟩
  | executing start size i n =>
    obtain ⟨hn, hi, his, hmax, hleft, hstart⟩ := h
    exact ⟨hn, hi, his, hmax, hleft.trans hs, hstart⟩
  | finished start size n => exact h
  | counted c => trivial

theorem RunInv.of_not_inRun {s : State Tid Task} {th : Thread} (h : ¬ th.inRun) :
    RunInv s th.run := by
  unfold Thread.inRun at h
  unfold RunInv
  split <;> simp_all

variable [DecidableEq Tid] [Fintype Tid]

structure Ordered (s : State Tid Task) : Prop where
  counts : Counts s
  balanced : Balanced s
  numbered : Numbered s.linked
  single : ∀ t u, (s.thread t).inRun → (s.thread u).inRun → t = u
  size_nonneg : 0 ≤ s.size
  run : ∀ t, RunInv s (s.thread t).run

variable {s s' : State Tid Task} {t : Tid} {task : Task}

omit [DecidableEq Tid] in
theorem ordered_init [DecidableEq Tid] : Ordered (init : State Tid Task) where
  counts := counts_init
  balanced := balanced_init
  numbered := numbered_nil
  single _ _ ht _ := Bool.noConfusion ht
  size_nonneg := le_rfl
  run _ := trivial

theorem Ordered.pending_sum (h : Ordered s) (hr : (s.thread t).inRun) :
    ∑ u, (s.thread u).pending = (s.thread t).pending := by
  apply Fintype.sum_eq_single
  intro u hu
  exact Thread.pending_of_not_inRun fun hru => hu (h.single u t hru hr)

omit [DecidableEq Tid] in
theorem Counts.size_le (h : Counts s) : s.size ≤ s.que.length := by
  have hs := h.size_eq
  have hn : 0 ≤ ∑ u, (s.thread u).unsized :=
    Finset.sum_nonneg fun u _ => (s.thread u).unsized_nonneg
  omega

theorem Ordered.taskCount_le_size (h : Ordered s) (hr : (s.thread t).inRun)
    (hp : (s.thread t).pending = 0) : s.taskCount ≤ s.size := by
  have hs := h.counts.size_eq
  have hb := h.balanced
  have hle : ∑ u, (s.thread u).unsized ≤ ∑ u, (s.thread u).uncounted :=
    Finset.sum_le_sum fun u _ => (s.thread u).unsized_le_uncounted
  rw [Balanced, h.pending_sum hr, hp] at hb
  omega

theorem Ordered.of_post (h : Ordered s) (hc : Counts s') (hb : Balanced s')
    (hn : Numbered s'.linked) (hrun : ∀ u, (s'.thread u).run = (s.thread u).run)
    (hs : s.size ≤ s'.size) (htc : s.taskCount ≤ s'.taskCount) : Ordered s' where
  counts := hc
  balanced := hb
  numbered := hn
  single u v hu hv := by
    simp only [Thread.inRun, hrun] at hu hv
    exact h.single u v hu hv
  size_nonneg := h.size_nonneg.trans hs
  run u := by
    rw [hrun u]
    exact (h.run u).mono hs htc

theorem Ordered.of_run (h : Ordered s) (hc : Counts s') (hb : Balanced s')
    (hl : s'.linked = s.linked) (hr : ∀ u, u ≠ t → ¬ (s.thread u).inRun)
    (hrun : ∀ u, u ≠ t → s'.thread u = s.thread u) (hs : 0 ≤ s'.size)
    (hinv : RunInv s' (s'.thread t).run) : Ordered s' where
  counts := hc
  balanced := hb
  numbered := hl ▸ h.numbered
  single u v hu hv := by
    have honly : ∀ w, (s'.thread w).inRun → w = t := by
      intro w hw
      by_contra hne
      rw [hrun w hne] at hw
      exact hr w hne hw
    rw [honly u hu, honly v hv]
  size_nonneg := hs
  run u := by
    by_cases hu : u = t
    · subst hu
      exact hinv
    · rw [hrun u hu]
      exact RunInv.of_not_inRun (hr u hu)

theorem Ordered.others_outside (h : Ordered s) (hr : (s.thread t).inRun)
    (u : Tid) (hu : u ≠ t) : ¬ (s.thread u).inRun :=
  fun hru => hu (h.single u t hru hr)

theorem Ordered.of_leave (h : Ordered s) (hc : Counts (s.setRun t .idle))
    (hb : Balanced (s.setRun t .idle)) {c : ℤ} (hr : (s.thread t).run = .counted c) :
    Ordered (s.setRun t .idle) where
  counts := hc
  balanced := hb
  numbered := h.numbered
  single u v hu hv := by
    have hback : ∀ w, ((s.setRun t .idle).thread w).inRun → (s.thread w).inRun := by
      intro w hw
      by_cases hwt : w = t
      · subst hwt
        simp [Thread.inRun] at hw
      · rwa [setRun_of_ne s _ hwt] at hw
    exact h.single u v (hback u hu) (hback v hv)
  size_nonneg := h.size_nonneg
  run u := by
    by_cases hu : u = t
    · subst hu
      simp [RunInv]
    · rw [setRun_of_ne s _ hu]
      exact (h.run u).mono le_rfl le_rfl

theorem Ordered.pop (h : Ordered s) {start size i n : ℤ}
    (hr : (s.thread t).run = .loop start size i n) (hs : step s (.pop t) = some s') :
    Ordered s' := by
  have hne : (s.thread t).inRun := by simp [Thread.inRun, hr]
  have hc := counts_step h.counts hs
  have hb := balanced_step h.balanced rfl hs
  obtain ⟨start', size', i', n', hr', rfl⟩ := step_pop.mp hs
  obtain ⟨rfl, rfl, rfl, rfl⟩ : start = start' ∧ size = size' ∧ i = i' ∧ n = n' := by
    simpa [hr] using hr'
  have hinv := h.run t
  rw [hr] at hinv
  obtain ⟨rfl, hi, his, hmax, hleft, hstart⟩ := hinv
  have hle := h.counts.size_le
  obtain ⟨hlt, he⟩ | ⟨hlt, hq, he⟩ | ⟨hlt, x, rest, hq, he⟩ := pop_cases s t start size n n
  · rw [he] at hc hb ⊢
    refine h.of_run (t := t) hc hb rfl (h.others_outside hne) (fun u hu => setRun_of_ne s _ hu)
      h.size_nonneg ?_
    simp only [setRun_self, RunInv]
    omega
  · -- the tasks still to be popped are linked, so the queue is not empty here
    rw [hq] at hle
    simp only [List.length_nil, Nat.cast_zero] at hle
    omega
  · rw [he] at hc hb ⊢
    refine h.of_run (t := t) hc hb rfl (h.others_outside hne)
      (fun u hu => setRun_of_ne s _ hu) ?_ ?_
    · simp only [State.popTask]
      omega
    · simp only [popTask_thread, setRun_self]
      refine ⟨rfl, hi, hlt, hmax, ?_, hstart⟩
      simp only [State.popTask]
      omega

theorem ordered_step {l : Label Tid Task} (h : Ordered s)
    (hok : Assumed s l ∧ SizeFitsIndex s l) (hs : step s l = some s') : Ordered s' := by
  obtain ⟨⟨hthrow, hone⟩, hfit⟩ := hok
  have hc := counts_step h.counts hs
  have hb := balanced_step h.balanced hthrow hs
  cases l with
  | link t task =>
    obtain ⟨-, rfl⟩ := step_link.mp hs
    exact h.of_post hc hb (h.numbered.append t task) (fun u => setPost_run s t u _) le_rfl le_rfl
  | addSize t =>
    obtain ⟨-, rfl⟩ := step_addSize.mp hs
    exact h.of_post hc hb h.numbered (fun u => setPost_run s t u _)
      (by simp [State.addSize]) le_rfl
  | addTaskCount t =>
    obtain ⟨-, rfl⟩ := step_addTaskCount.mp hs
    exact h.of_post hc hb h.numbered (fun u => setPost_run s t u _) le_rfl
      (by simp [State.addTaskCount])
  | onPost t =>
    obtain ⟨-, rfl⟩ := step_onPost.mp hs
    exact h.of_post hc hb h.numbered (fun u => setPost_run s t u _) le_rfl le_rfl
  | enter t =>
    obtain ⟨-, rfl⟩ := step_enter.mp hs
    refine h.of_run hc hb rfl (fun u _ => hone t rfl u) (fun u hu => setRun_of_ne s _ hu)
      h.size_nonneg ?_
    simp [RunInv]
  | getSize t =>
    obtain ⟨start, hr, rfl⟩ := step_getSize.mp hs
    have hne : (s.thread t).inRun := by simp [Thread.inRun, hr]
    have hcount := h.taskCount_le_size hne (by simp [Thread.pending, hr])
    have hinv := h.run t
    rw [hr] at hinv
    have hnn := h.size_nonneg
    have hmax := hfit t rfl
    refine h.of_run hc hb rfl (h.others_outside hne) (fun u hu => setRun_of_ne s _ hu) hnn ?_
    simp only [setRun_self, RunInv] at hinv ⊢
    exact ⟨trivial, le_rfl, hnn, hmax, (sub_zero s.size).le, fun h1 => by omega⟩
  | pop t =>
    obtain ⟨start, size, i, n, hr, -⟩ := step_pop.mp hs
    exact h.pop hr hs
  | taskReturns t =>
    obtain ⟨start, size, i, n, ht, rfl⟩ := step_taskReturns.mp hs
    have hne : (s.thread t).inRun := by simp [Thread.inRun, ht]
    have hinv := h.run t
    rw [ht] at hinv
    obtain ⟨rfl, hi, his, hmax, hleft, hstart⟩ := hinv
    have hwrap : wrap32 (n + 1) = n + 1 := wrap32_of_mem (by omega) (by omega)
    refine h.of_run hc hb rfl (h.others_outside hne) (fun u hu => setRun_of_ne s _ hu)
      h.size_nonneg ?_
    simp only [setRun_self, hwrap]
    exact ⟨rfl, by omega, by omega, hmax, hleft, hstart⟩
  | taskThrows t => cases hthrow
  | subTaskCount t =>
    obtain ⟨start, size, n, hr, rfl⟩ := step_subTaskCount.mp hs
    have hne : (s.thread t).inRun := by simp [Thread.inRun, hr]
    refine h.of_run hc hb rfl (h.others_outside hne) (fun u hu => setRun_of_ne s _ hu)
      h.size_nonneg ?_
    simp [RunInv]
  | onRun t =>
    obtain ⟨⟨c, hr⟩, rfl⟩ := step_onRun.mp hs
    exact h.of_leave hc hb hr

theorem ordered_exec {ls : List (Label Tid Task)}
    (hok : Along (fun s l => Assumed s l ∧ SizeFitsIndex s l) step init ls)
    (hrun : exec step init ls = some s) : Ordered s :=
  exec_invariant_along (fun _ _ _ h hok hs => ordered_step h hok hs) ordered_init hok hrun

structure InOrder (s : State Tid Task) : Prop where
  order : s.executed ++ s.que = s.linked
  once : s.executed.Nodup
  perThread : ∀ t, (s.executed.filter fun x => x.thread = t).map Posted.number =
    List.range (s.executed.countP fun x => x.thread = t)
  pop_succeeds : ∀ t start size i n, (s.thread t).run = .loop start size i n → i < size →
    s.que ≠ []
  size_nonneg : 0 ≤ s.size
  progress : ∀ t start size n, (s.thread t).run = .finished start size n →
    n = size ∧ (1 ≤ start → 1 ≤ n)

theorem Ordered.inOrder (h : Ordered s) : InOrder s := by
  have hpre : s.executed <+: s.linked := ⟨s.que, h.counts.order⟩
  have hnum : Numbered s.executed := h.numbered.of_prefixed hpre
  refine ⟨h.counts.order, hnum.nodup, hnum, ?_, h.size_nonneg, ?_⟩
  · intro t start size i n hr hlt hq
    have hinv := h.run t
    rw [hr] at hinv
    obtain ⟨-, -, -, -, hleft, -⟩ := hinv
    have hle := h.counts.size_le
    simp only [hq, List.length_nil, Nat.cast_zero] at hle
    omega
  · intro t start size n hr
    have hinv := h.run t
    rw [hr] at hinv
    exact ⟨hinv.1, hinv.2.2⟩

section Runs

instance [DecidableEq Task] (s : State Tid Task) (l : Label Tid Task) : Decidable (Assumed s l) :=
  inferInstanceAs (Decidable (_ ∧ _))

instance [DecidableEq Task] (s : State Tid Task) (l : Label Tid Task) :
    Decidable (SizeFitsIndex s l) :=
  inferInstanceAs (Decidable (∀ _, _))

inductive Caller
  | poster
  | rival
  | runner
  deriving DecidableEq

instance : Fintype Caller where
  elems := {.poster, .rival, .runner}
  complete c := by cases c <;> decide

/-- The poster has linked its second task and counted only the first when the runner enters:
the run pops both, and a third post is linked during its first task. -/
def earlyRun : List (Label Caller ℕ) :=
  [.link .poster 10, .addSize .poster, .addTaskCount .poster, .onPost .poster, .link .poster 11,
    .addSize .poster, .enter .runner, .getSize .runner, .pop .runner, .link .runner 12,
    .addSize .runner, .addTaskCount .runner, .onPost .runner, .taskReturns .runner, .pop .runner,
    .taskReturns .runner, .pop .runner]

def postOnce : List (Label Unit Unit) := [.link () (), .addSize (), .addTaskCount (), .onPost ()]

def runOnce : List (Label Unit Unit) := [.pop (), .taskReturns ()]

def postThenRun (n : ℕ) : List (Label Unit Unit) :=
  (List.replicate n postOnce).flatten ++ ([.enter (), .getSize ()] ++
    (List.replicate n runOnce).flatten)

theorem exec_postOnce {s : State Unit Unit} {n : ℕ} (ht : s.thread () = ⟨.idle, .idle⟩)
    (hq : s.que.length = n) (hs : s.size = n) (hn : n + 2 ≤ maxNodes) :
    ∃ s', exec step s postOnce = some s' ∧ s'.thread () = ⟨.idle, .idle⟩ ∧
      s'.que.length = n + 1 ∧ s'.size = (n + 1 : ℕ) := by
  refine ⟨(((s.link () ()).addSize ()).addTaskCount ()).setPost () .idle, ?_, ?_, ?_, ?_⟩
  · simp [exec, postOnce, step, ht, hq, hn, Thread.mayPost]
  · simp [ht]
  · simp [State.addTaskCount, State.addSize, State.link, hq]
  · simp [State.addTaskCount, State.addSize, State.link, hs]

theorem exec_posts (n : ℕ) (hn : n + 1 ≤ maxNodes) :
    ∃ s : State Unit Unit, exec step init (List.replicate n postOnce).flatten = some s ∧
      s.thread () = ⟨.idle, .idle⟩ ∧ s.que.length = n ∧ s.size = n := by
  induction n with
  | zero => exact ⟨init, rfl, rfl, rfl, rfl⟩
  | succ n ih =>
    obtain ⟨s, hrun, ht, hq, hs⟩ := ih (by omega)
    obtain ⟨s', hrun', hs'⟩ := exec_postOnce ht hq hs hn
    refine ⟨s', ?_, hs'⟩
    rw [List.replicate_succ', List.flatten_append, List.flatten_singleton]
    exact Transition.exec_append_eq_some.mpr ⟨s, hrun, hrun'⟩

structure Looping (start : ℤ) (n m : ℕ) (s : State Unit Unit) : Prop where
  thread : s.thread () = ⟨.idle, .loop start n (wrap32 m) m⟩
  que : s.que.length + m = n

theorem wrap32_succ (m : ℕ) : wrap32 (wrap32 m + 1) = wrap32 (m + 1 : ℕ) := by
  simp only [wrap32]
  omega

theorem exec_runOnce {s : State Unit Unit} {start : ℤ} {n m : ℕ} (hn : int32Max < n)
    (h : Looping start n m s) (hm : m < n) :
    ∃ s', exec step s runOnce = some s' ∧ Looping start n (m + 1) s' := by
  have hlt : wrap32 m < n := lt_of_le_of_lt (MachineInt.wrap32_upper _) hn
  have hq := h.que
  cases hl : s.que with
  | nil =>
    rw [hl] at hq
    simp only [List.length_nil] at hq
    omega
  | cons x rest =>
    rw [hl] at hq
    refine ⟨(s.popTask () x rest start n (wrap32 m) m).setRun ()
      (.loop start n (wrap32 (wrap32 m + 1)) (m + 1)), ?_, ?_, ?_⟩
    · simp [exec, runOnce, step, h.thread, State.pop, hlt, hl, State.popTask, State.setRun]
    · simp [State.popTask, h.thread, wrap32_succ]
    · simp only [setRun_que, State.popTask]
      simp only [List.length_cons] at hq
      omega

theorem exec_runs {s : State Unit Unit} {start : ℤ} {n : ℕ} (hn : int32Max < n)
    (h : Looping start n 0 s) (m : ℕ) (hm : m ≤ n) :
    ∃ s', exec step s (List.replicate m runOnce).flatten = some s' ∧ Looping start n m s' := by
  induction m with
  | zero => exact ⟨s, rfl, h⟩
  | succ m ih =>
    obtain ⟨s', hrun, hs'⟩ := ih (by omega)
    obtain ⟨s'', hrun', hs''⟩ := exec_runOnce hn hs' hm
    refine ⟨s'', ?_, hs''⟩
    rw [List.replicate_succ', List.flatten_append, List.flatten_singleton]
    exact Transition.exec_append_eq_some.mpr ⟨s', hrun, hrun'⟩

/-- A run that reads a size out of the range of its index does not stop at that size. -/
theorem exec_postThenRun (n : ℕ) (hlo : int32Max < n) (hhi : n + 1 ≤ maxNodes) :
    ∃ s start, exec step init (postThenRun n) = some s ∧ Looping start n n s := by
  obtain ⟨s, hrun, ht, hq, hs⟩ := exec_posts n hhi
  have henter : exec step s [.enter (), .getSize ()] =
      some ((s.setRun () (.entered s.taskCount)).setRun () (.loop s.taskCount s.size 0 0)) := by
    simp [exec, step, ht]
  have hlooping : Looping s.taskCount n 0
      ((s.setRun () (.entered s.taskCount)).setRun () (.loop s.taskCount s.size 0 0)) :=
    ⟨by simp [ht, hs, wrap32], by simpa using hq⟩
  obtain ⟨s', hrun', hs'⟩ := exec_runs hlo hlooping n le_rfl
  exact ⟨s', s.taskCount, Transition.exec_append_eq_some.mpr ⟨s, hrun,
    Transition.exec_append_eq_some.mpr ⟨_, henter, hrun'⟩⟩, hs'⟩

theorem postThenRun_no_throw (n : ℕ) : ∀ l ∈ postThenRun n, l.isThrow = false := by
  intro l hl
  simp only [postThenRun, List.mem_append, List.mem_flatten, List.mem_replicate] at hl
  rcases hl with ⟨ls, ⟨-, rfl⟩, hl⟩ | hl | ⟨ls, ⟨-, rfl⟩, hl⟩
  · simp only [postOnce, List.mem_cons, List.not_mem_nil, or_false] at hl
    rcases hl with rfl | rfl | rfl | rfl <;> rfl
  · simp only [List.mem_cons, List.not_mem_nil, or_false] at hl
    rcases hl with rfl | rfl <;> rfl
  · simp only [runOnce, List.mem_cons, List.not_mem_nil, or_false] at hl
    rcases hl with rfl | rfl <;> rfl

theorem postThenRun_assumed (n : ℕ) : Along Assumed step init (postThenRun n) := by
  have hone : Along (fun (s : State Unit Unit) l => ∀ t, l = .enter t →
      ∀ u, ¬ (s.thread u).inRun) step init (postThenRun n) := by
    refine Transition.along_of_step (fun s l s' hs t hl u => ?_) _ _
    subst hl
    simp [Thread.inRun, (step_enter.mp hs).1]
  exact ((Transition.along_label (postThenRun_no_throw n)).and hone).mono fun s l h => h

end Runs

end Bugat.TaskSerializer
