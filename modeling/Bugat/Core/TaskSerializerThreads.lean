import Mathlib
import Bugat.Core.TaskSerializerCounts

/-!
# What a step of a TaskSerializer does to the threads

A step moves one thread, inside `Post` or inside `Run`. A thread gets into `Post` by a link
and into `Run` by entering it.
-/

namespace Bugat.TaskSerializer

variable {Tid Task : Type*}

def taken (before after : State Tid Task) : Option Task :=
  after.executed[before.executed.length]?.map Posted.task

variable [DecidableEq Tid] {s s' : State Tid Task} {l : Label Tid Task} {u : Tid}

inductive Turn (s s' : State Tid Task) : Label Tid Task → Prop
  | link (t : Tid) (task : Task) (hthread : s'.thread = (s.setPost t .linked).thread) :
    Turn s s' (.link t task)
  | enter (t : Tid) (start : ℤ) (hthread : s'.thread = (s.setRun t (.entered start)).thread) :
    Turn s s' (.enter t)
  | post (l : Label Tid Task) (t : Tid) (p : PostPc) (hbusy : (s.thread t).post ≠ .idle)
    (hthread : s'.thread = (s.setPost t p).thread) : Turn s s' l
  | run (l : Label Tid Task) (t : Tid) (r : RunPc) (hbusy : (s.thread t).run ≠ .idle)
    (hthread : s'.thread = (s.setRun t r).thread)
    (hin : Thread.inRun ⟨(s.thread t).post, r⟩ = true → (s.thread t).inRun = true) : Turn s s' l

theorem pop_turn {t : Tid} {start size i n : ℤ} (hr : (s.thread t).run = .loop start size i n) :
    Turn s (s.pop t start size i n) (.pop t) := by
  have hbusy : (s.thread t).run ≠ .idle := by simp [hr]
  have hin : (s.thread t).inRun = true := by simp [Thread.inRun, hr]
  obtain ⟨-, he⟩ | ⟨-, -, he⟩ | ⟨-, x, rest, -, he⟩ := pop_cases s t start size i n
  all_goals rw [he]
  · exact .run _ t _ hbusy rfl fun _ => hin
  · exact .run _ t _ hbusy rfl fun _ => hin
  · exact .run _ t (.executing start size i n) hbusy rfl fun _ => hin

theorem step_turn (hs : step s l = some s') : Turn s s' l := by
  cases l with
  | link t task =>
    obtain ⟨-, rfl⟩ := step_link.mp hs
    exact .link t task rfl
  | addSize t =>
    obtain ⟨hp, rfl⟩ := step_addSize.mp hs
    exact .post _ t .sized (by simp [hp]) rfl
  | addTaskCount t =>
    obtain ⟨hp, rfl⟩ := step_addTaskCount.mp hs
    exact .post _ t (.counted (s.taskCount + 1)) (by simp [hp]) rfl
  | onPost t =>
    obtain ⟨⟨c, hp⟩, rfl⟩ := step_onPost.mp hs
    exact .post _ t .idle (by simp [hp]) rfl
  | enter t =>
    obtain ⟨-, rfl⟩ := step_enter.mp hs
    exact .enter t s.taskCount rfl
  | getSize t =>
    obtain ⟨start, hr, rfl⟩ := step_getSize.mp hs
    exact .run _ t _ (by simp [hr]) rfl fun _ => by simp [Thread.inRun, hr]
  | pop t =>
    obtain ⟨start, size, i, n, hr, rfl⟩ := step_pop.mp hs
    exact pop_turn hr
  | taskReturns t =>
    obtain ⟨start, size, i, n, ht, rfl⟩ := step_taskReturns.mp hs
    exact .run _ t _ (by simp [ht]) rfl fun _ => by simp [Thread.inRun, ht]
  | taskThrows t =>
    obtain ⟨⟨start, size, i, n, ht⟩, rfl⟩ := step_taskThrows.mp hs
    exact .run _ t .idle (by simp [ht]) rfl fun _ => by simp [Thread.inRun, ht]
  | subTaskCount t =>
    obtain ⟨start, size, n, hr, rfl⟩ := step_subTaskCount.mp hs
    exact .run _ t (.counted (s.taskCount - n)) (by simp [hr]) rfl fun _ => by
      simp [Thread.inRun, hr]
  | onRun t =>
    obtain ⟨⟨c, hr⟩, rfl⟩ := step_onRun.mp hs
    exact .run _ t .idle (by simp [hr]) rfl fun h => by cases h

theorem post_of_step (hs : step s l = some s') (hu : (s'.thread u).post ≠ .idle) :
    (s.thread u).post ≠ .idle ∨ ∃ task, l = .link u task := by
  cases step_turn hs with
  | link t task hthread =>
    by_cases hut : u = t
    · exact .inr ⟨task, hut ▸ rfl⟩
    · rw [hthread, setPost_of_ne s _ hut] at hu
      exact .inl hu
  | enter t start hthread =>
    rw [hthread, setRun_post] at hu
    exact .inl hu
  | post l t p hbusy hthread =>
    by_cases hut : u = t
    · exact .inl (hut ▸ hbusy)
    · rw [hthread, setPost_of_ne s _ hut] at hu
      exact .inl hu
  | run l t r hbusy hthread hin =>
    rw [hthread, setRun_post] at hu
    exact .inl hu

theorem run_of_step (hs : step s l = some s') (hu : (s'.thread u).run ≠ .idle) :
    (s.thread u).run ≠ .idle ∨ l = .enter u := by
  cases step_turn hs with
  | link t task hthread =>
    rw [hthread, setPost_run] at hu
    exact .inl hu
  | enter t start hthread =>
    by_cases hut : u = t
    · exact .inr (hut ▸ rfl)
    · rw [hthread, setRun_of_ne s _ hut] at hu
      exact .inl hu
  | post l t p hbusy hthread =>
    rw [hthread, setPost_run] at hu
    exact .inl hu
  | run l t r hbusy hthread hin =>
    by_cases hut : u = t
    · exact .inl (hut ▸ hbusy)
    · rw [hthread, setRun_of_ne s _ hut] at hu
      exact .inl hu

theorem inRun_of_step (hs : step s l = some s') (hu : (s'.thread u).inRun = true) :
    (s.thread u).inRun = true ∨ l = .enter u := by
  have hpost : ∀ t p, s'.thread = (s.setPost t p).thread → (s.thread u).inRun = true := by
    intro t p he
    rw [he] at hu
    simpa only [Thread.inRun, setPost_run] using hu
  cases step_turn hs with
  | link t task hthread => exact .inl (hpost t _ hthread)
  | enter t start hthread =>
    by_cases hut : u = t
    · exact .inr (hut ▸ rfl)
    · rw [hthread, setRun_of_ne s _ hut] at hu
      exact .inl hu
  | post l t p hbusy hthread => exact .inl (hpost t p hthread)
  | run l t r hbusy hthread hin =>
    by_cases hut : u = t
    · subst hut
      rw [hthread, setRun_self] at hu
      exact .inl (hin hu)
    · rw [hthread, setRun_of_ne s _ hut] at hu
      exact .inl hu

theorem linked_of_step (hlink : ∀ t task, l ≠ .link t task) (hs : step s l = some s') :
    s'.linked = s.linked := by
  by_cases hpop : ∃ t, l = .pop t
  · obtain ⟨t, rfl⟩ := hpop
    obtain ⟨start, size, i, n, -, rfl⟩ := step_pop.mp hs
    obtain ⟨-, he⟩ | ⟨-, -, he⟩ | ⟨-, x, rest, -, he⟩ := pop_cases s t start size i n
    all_goals rw [he]
    all_goals rfl
  · exact (step_frame hlink (fun t h => hpop ⟨t, h⟩) hs).2.1

end Bugat.TaskSerializer
