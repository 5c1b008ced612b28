import Mathlib
import Bugat.Base.AwaitTask

/-!
# The lifetime of an object and the posts on it

Whoever is inside `Post` has a reference of its own or has come through a coroutine that is not
finished, and whoever is inside `Run` has the object as its executor. The first of these fails
where a worker finishes the coroutine before the callback has left `Post`.
-/

namespace Bugat.AwaitTask

open TaskSerializer (taken post_of_step run_of_step step_turn)
open Transition (exec Along)

variable {Tid Cid Task : Type*} {s s' : State Tid Cid Task}

structure Guarded (s : State Tid Cid Task) : Prop where
  running : ∀ t, (s.object.serializer.thread t).run ≠ .idle → s.executor t = true
  posting : ∀ t, s.busy t →
    s.holds t = true ∨ ∃ c, s.via t = some c ∧ (s.coroutine c).unfinished = true

theorem State.holds_iff (s : State Tid Cid Task) (t : Tid) :
    s.holds t = true ↔ 0 < s.handles t ∨ s.executor t = true := by
  simp [State.holds]

theorem Guarded.referenced_of_busy (h : Guarded s) {t : Tid} (ht : s.busy t) : s.Referenced := by
  rcases h.posting t ht with hholds | ⟨c, -, hc⟩
  · exact .inl ⟨t, hholds⟩
  · exact .inr (.inr ⟨c, hc⟩)

theorem Guarded.referenced_of_running (h : Guarded s) {t : Tid}
    (ht : (s.object.serializer.thread t).run ≠ .idle) : s.Referenced :=
  .inl ⟨t, (s.holds_iff t).mpr (.inr (h.running t ht))⟩

theorem Guarded.of_outside (h : Guarded s) (hobject : s'.object = s.object) (hvia : s'.via = s.via)
    (hexecutor : ∀ t, (s.object.serializer.thread t).run ≠ .idle → s.executor t = true →
      s'.executor t = true)
    (hholds : ∀ t, s.busy t → s.holds t = true → s'.holds t = true)
    (hcoroutine : ∀ t c, s.busy t → s.via t = some c → (s.coroutine c).unfinished = true →
      s'.holds t = true ∨ (s'.coroutine c).unfinished = true) : Guarded s' where
  running t ht := by
    rw [hobject] at ht
    exact hexecutor t ht (h.running t ht)
  posting t ht := by
    rw [State.busy, hobject] at ht
    rw [hvia]
    rcases h.posting t ht with hown | ⟨c, hc, hframe⟩
    · exact .inl (hholds t ht hown)
    · rcases hcoroutine t c ht hc hframe with hown | hframe'
      · exact .inl hown
      · exact .inr ⟨c, hc, hframe'⟩

structure Refers (s : State Tid Cid Task) (object : SerializeObject.State Tid (ObjectTask Cid Task))
    (l : TaskSerializer.Label Tid (ObjectTask Cid Task)) (s' : State Tid Cid Task) : Prop where
  object : s'.object = object
  handles : s'.handles = s.handles
  freed : s'.freed = s.freed
  touches : s'.touches = s.touches ++ [!s.freed]
  executor : ∀ t, s.executor t = true → s'.executor t = true
  enter : ∀ t, l = .enter t → s'.executor t = true
  coroutine : ∀ c, (s.coroutine c).unfinished = true → (s'.coroutine c).unfinished = true
  link : ∀ t task, l = .link t task →
    s.holds t = true ∨ ∃ c, s'.via t = some c ∧ (s.coroutine c).unfinished = true
  via : ∀ t, (∀ task, l ≠ .link t task) → s'.via t = s.via t

section Steps

variable [DecidableEq Cid]

theorem unfinished_update {k : Coroutine Tid} (hk : k.unfinished = true) (s : State Tid Cid Task)
    (c d : Cid) (hd : (s.coroutine d).unfinished = true) :
    (Function.update s.coroutine c k d).unfinished = true := by
  by_cases hdc : d = c
  · subst hdc
    rwa [Function.update_self]
  · rwa [Function.update_of_ne hdc]

variable [DecidableEq Tid] [Fintype Cid]

theorem refer_spec {object : SerializeObject.State Tid (ObjectTask Cid Task)}
    {l : TaskSerializer.Label Tid (ObjectTask Cid Task)}
    (hs : refer s { s with object, touches := s.touches ++ [!s.freed] } l = some s') :
    Refers s object l s' := by
  cases l with
  | link t task =>
    cases task with
    | resume c =>
      rw [refer] at hs
      split at hs
      · rename_i hc
        obtain rfl := Option.some.inj hs
        refine ⟨rfl, rfl, rfl, rfl, fun _ h => h, (by simp), unfinished_update rfl s c,
          fun u task' he => ?_, fun u hu => ?_⟩
        · obtain ⟨rfl, -⟩ := TaskSerializer.Label.link.inj he
          exact .inr ⟨c, Function.update_self .., by rw [hc]; rfl⟩
        · exact Function.update_of_ne (fun hut => hu (.resume c) (by rw [hut])) ..
      · cases hs
    | other task =>
      rw [refer] at hs
      split at hs
      · rename_i hholds
        obtain rfl := Option.some.inj hs
        refine ⟨rfl, rfl, rfl, rfl, fun _ h => h, (by simp), fun _ h => h, fun u task' he => ?_,
          fun u hu => ?_⟩
        · obtain ⟨rfl, -⟩ := TaskSerializer.Label.link.inj he
          exact .inl hholds
        · exact Function.update_of_ne (fun hut => hu (.other task) (by rw [hut])) ..
      · cases hs
  | enter t =>
    obtain rfl := Option.some.inj hs
    refine ⟨rfl, rfl, rfl, rfl, fun u hu => ?_, fun u he => ?_, fun _ h => h, (by simp),
      fun _ _ => rfl⟩
    · by_cases hut : u = t
      · rw [hut]
        exact Function.update_self ..
      · exact (Function.update_of_ne hut ..).trans hu
    · obtain rfl := TaskSerializer.Label.enter.inj he
      exact Function.update_self ..
  | pop t =>
    rw [refer] at hs
    split at hs
    · rename_i c _
      obtain rfl := Option.some.inj hs
      exact ⟨rfl, rfl, rfl, rfl, fun _ h => h, (by simp), unfinished_update rfl s c, (by simp),
        fun _ _ => rfl⟩
    all_goals obtain rfl := Option.some.inj hs
    all_goals exact ⟨rfl, rfl, rfl, rfl, fun _ h => h, (by simp), fun _ h => h, (by simp),
      fun _ _ => rfl⟩
  | taskReturns t =>
    rw [refer] at hs
    split at hs
    · cases hs
    · obtain rfl := Option.some.inj hs
      exact ⟨rfl, rfl, rfl, rfl, fun _ h => h, (by simp), fun _ h => h, (by simp), fun _ _ => rfl⟩
  | taskThrows t =>
    obtain rfl := Option.some.inj hs
    refine ⟨rfl, rfl, rfl, rfl, fun _ h => h, (by simp), fun c hc => ?_, (by simp), fun _ _ => rfl⟩
    change (if s.coroutine c = .running t then .thrown else s.coroutine c).unfinished = true
    split
    · rfl
    · exact hc
  | addSize t | addTaskCount t | onPost t | getSize t | subTaskCount t | onRun t =>
    obtain rfl := Option.some.inj hs
    exact ⟨rfl, rfl, rfl, rfl, fun _ h => h, (by simp), fun _ h => h, (by simp), fun _ _ => rfl⟩

theorem move_object {l : TaskSerializer.Label Tid (ObjectTask Cid Task)}
    (hs : move s (.object l) = some s') : ∃ object, SerializeObject.step s.object l = some object ∧
      Refers s object l s' := by
  obtain ⟨object, hstep, hrefer⟩ := Option.bind_eq_some_iff.mp hs
  exact ⟨object, hstep, refer_spec hrefer⟩

theorem Guarded.referenced {l : Label Tid Cid Task} (h : Guarded s) (hs : move s l = some s') :
    s.Referenced := by
  cases l with
  | object l =>
    obtain ⟨object, hstep, hrefers⟩ := move_object hs
    obtain ⟨hserializer, hschedule⟩ := SerializeObject.step_eq_some.mp hstep
    cases step_turn hserializer with
    | link t task hthread =>
      rcases hrefers.link t task rfl with hholds | ⟨c, -, hc⟩
      · exact .inl ⟨t, hholds⟩
      · exact .inr (.inr ⟨c, hc⟩)
    | enter t start hthread =>
      rw [SerializeObject.schedule] at hschedule
      split at hschedule
      · exact .inr (.inl ‹_›)
      · cases hschedule
    | post l t p hbusy hthread => exact h.referenced_of_busy hbusy
    | run l t r hbusy hthread hin => exact h.referenced_of_running hbusy
  | copyHandle t u =>
    rw [move] at hs
    split at hs
    · exact .inl ⟨t, ‹_›⟩
    · cases hs
  | dropHandle t =>
    rw [move] at hs
    split at hs
    · rename_i hdrop
      exact .inl ⟨t, (s.holds_iff t).mpr (.inl hdrop.1)⟩
    · cases hs
  | create t c =>
    rw [move] at hs
    split at hs
    · rename_i hcreate
      exact .inl ⟨t, hcreate.1⟩
    · cases hs
  | suspend c | finish c =>
    rw [move] at hs
    split at hs
    · rename_i hc
      exact .inr (.inr ⟨c, by rw [hc]; rfl⟩)
    · cases hs
  | release t =>
    rw [move] at hs
    split at hs
    · rename_i hrelease
      exact .inl ⟨t, (s.holds_iff t).mpr (.inr hrelease.1)⟩
    · cases hs

theorem Guarded.object {l : TaskSerializer.Label Tid (ObjectTask Cid Task)} (h : Guarded s)
    (hs : move s (.object l) = some s') : Guarded s' := by
  obtain ⟨object, hstep, hrefers⟩ := move_object hs
  have hserializer := (SerializeObject.step_eq_some.mp hstep).1
  have hholds : ∀ t, s.holds t = true → s'.holds t = true := fun t ht => by
    rw [State.holds_iff] at ht ⊢
    rw [hrefers.handles]
    exact ht.imp_right (hrefers.executor t)
  refine ⟨fun t ht => ?_, fun t ht => ?_⟩
  · rw [hrefers.object] at ht
    rcases run_of_step hserializer ht with hrun | henter
    · exact hrefers.executor t (h.running t hrun)
    · exact hrefers.enter t henter
  · rw [State.busy, hrefers.object] at ht
    by_cases hlink : ∃ task, l = .link t task
    · obtain ⟨task, rfl⟩ := hlink
      rcases hrefers.link t task rfl with hown | ⟨c, hc, hframe⟩
      · exact .inl (hholds t hown)
      · exact .inr ⟨c, hc, hrefers.coroutine c hframe⟩
    · have hbusy := (post_of_step hserializer ht).resolve_right hlink
      rw [hrefers.via t fun task he => hlink ⟨task, he⟩]
      rcases h.posting t hbusy with hown | ⟨c, hc, hframe⟩
      · exact .inl (hholds t hown)
      · exact .inr ⟨c, hc, hrefers.coroutine c hframe⟩

theorem Guarded.move {l : Label Tid Cid Task} (h : Guarded s) (hok : FinishesAfterPost s l)
    (hs : move s l = some s') : Guarded s' := by
  cases l with
  | object l => exact h.object hs
  | copyHandle t u =>
    rw [AwaitTask.move] at hs
    split at hs
    · obtain rfl := Option.some.inj hs
      refine h.of_outside rfl rfl (fun _ _ => id) (fun v _ hv => ?_) fun _ _ _ _ => .inr
      rw [State.holds_iff] at hv ⊢
      refine hv.imp_left fun hpos => ?_
      change 0 < Function.update s.handles u (s.handles u + 1) v
      by_cases hvu : v = u
      · subst hvu
        rw [Function.update_self]
        exact Nat.succ_pos _
      · rwa [Function.update_of_ne hvu]
    · cases hs
  | dropHandle t =>
    rw [AwaitTask.move] at hs
    split at hs
    · rename_i hdrop
      obtain rfl := Option.some.inj hs
      refine h.of_outside rfl rfl (fun _ _ => id) (fun v hbusy hv => ?_) fun _ _ _ _ => .inr
      have hvt : v ≠ t := fun he => hdrop.2 (he ▸ hbusy)
      rw [State.holds_iff] at hv ⊢
      refine hv.imp_left fun hpos => ?_
      change 0 < Function.update s.handles t (s.handles t - 1) v
      rwa [Function.update_of_ne hvt]
    · cases hs
  | create t c =>
    rw [AwaitTask.move] at hs
    split at hs
    · obtain rfl := Option.some.inj hs
      exact h.of_outside rfl rfl (fun _ _ => id) (fun _ _ => id) fun _ d _ _ hd =>
        .inr (unfinished_update rfl s c d hd)
    · cases hs
  | suspend c =>
    rw [AwaitTask.move] at hs
    split at hs
    · obtain rfl := Option.some.inj hs
      exact h.of_outside rfl rfl (fun _ _ => id) (fun _ _ => id) fun _ d _ _ hd =>
        .inr (unfinished_update rfl s c d hd)
    · cases hs
  | finish c =>
    rw [AwaitTask.move] at hs
    split at hs
    · obtain rfl := Option.some.inj hs
      refine h.of_outside rfl rfl (fun _ _ => id) (fun _ _ => id) fun v d hbusy hd hframe => ?_
      by_cases hdc : d = c
      · subst hdc
        exact .inl (hok d rfl v hd hbusy)
      · refine .inr ?_
        change (Function.update s.coroutine c .finished d).unfinished = true
        rwa [Function.update_of_ne hdc]
    · cases hs
  | release t =>
    rw [AwaitTask.move] at hs
    split at hs
    · rename_i hrelease
      obtain rfl := Option.some.inj hs
      have hkeep : ∀ v, v ≠ t → s.executor v = true →
          Function.update s.executor t false v = true := fun v hvt hv => by
        rwa [Function.update_of_ne hvt]
      refine h.of_outside rfl rfl (fun v hrun => hkeep v fun he => hrun ?_) (fun v hbusy hv => ?_)
        fun _ _ _ _ => .inr
      · rw [he, hrelease.2]
      · rw [State.holds_iff] at hv ⊢
        refine hv.imp_right (hkeep v fun he => hbusy ?_)
        rw [he, hrelease.2]
    · cases hs

end Steps

section Runs

variable [DecidableEq Tid] [DecidableEq Cid] [Fintype Tid] [Fintype Cid]

structure Alive (s : State Tid Cid Task) : Prop where
  guarded : Guarded s
  freed : s.freed = true → ¬ s.Referenced
  touches : ∀ alive ∈ s.touches, alive = true

omit [DecidableEq Cid] [Fintype Tid] [Fintype Cid] in
theorem alive_init (creator : Tid) : Alive (init creator : State Tid Cid Task) where
  guarded := ⟨fun t ht => absurd rfl ht, fun t ht => absurd rfl ht⟩
  freed h := by cases h
  touches _ h := absurd h List.not_mem_nil

omit [Fintype Tid] in
theorem move_touches {l : Label Tid Cid Task} (hs : move s l = some s') : s'.freed = s.freed ∧
    (s'.touches = s.touches ∨ s'.touches = s.touches ++ [!s.freed]) := by
  cases l with
  | object l =>
    obtain ⟨object, -, hrefers⟩ := move_object hs
    exact ⟨hrefers.freed, .inr hrefers.touches⟩
  | copyHandle t u | dropHandle t | create t c | suspend c | finish c | release t =>
    rw [move] at hs
    split at hs
    · obtain rfl := Option.some.inj hs
      exact ⟨rfl, .inl rfl⟩
    · cases hs

omit [DecidableEq Tid] [DecidableEq Cid] in
theorem Alive.free (hguarded : Guarded s) (hfreed : s.freed = false)
    (htouches : ∀ alive ∈ s.touches, alive = true) : Alive s.free := by
  rw [State.free]
  split
  · exact ⟨hguarded, fun h => absurd (hfreed.symm.trans h) Bool.false_ne_true, htouches⟩
  · rename_i hnone
    exact ⟨⟨hguarded.running, hguarded.posting⟩, fun _ => hnone, htouches⟩

theorem Alive.next {l : Label Tid Cid Task} (h : Alive s) (hok : FinishesAfterPost s l)
    (hs : step s l = some s') : Alive s' := by
  obtain ⟨u, hmove, rfl⟩ := Option.map_eq_some_iff.mp hs
  have hfreed : s.freed = false :=
    Bool.eq_false_of_not_eq_true fun he => h.freed he (h.guarded.referenced hmove)
  obtain ⟨hsame, htouches⟩ := move_touches hmove
  refine Alive.free (h.guarded.move hok hmove) (hsame.trans hfreed) fun alive ha => ?_
  rcases htouches with he | he
  · exact h.touches alive (he ▸ ha)
  · rw [he, hfreed] at ha
    exact (List.mem_append.mp ha).elim (h.touches alive) List.mem_singleton.mp

/-- In every run in which no coroutine finishes while a callback is inside the `Post` of its
resumption, the object outlives every step of `Post`, of `Run` and of a task. -/
theorem outlives_every_post (creator : Tid) (ls : List (Label Tid Cid Task))
    (s : State Tid Cid Task) (hok : Along FinishesAfterPost step (init creator) ls)
    (hrun : exec step (init creator) ls = some s) : ∀ alive ∈ s.touches, alive = true :=
  (Transition.exec_invariant_along (fun _ _ _ h hok hs => h.next hok hs) (alive_init creator) hok
    hrun).touches

instance (s : State Tid Cid Task) [DecidableEq Task] (l : Label Tid Cid Task) :
    Decidable (FinishesAfterPost s l) :=
  inferInstanceAs (Decidable (∀ _, _))

def resumedAfterPost : List (Label TaskSerializer.Caller Unit Unit) :=
  [.create .poster (), .object (.link .poster (.resume ())), .object (.addSize .poster),
    .object (.addTaskCount .poster), .object (.onPost .poster), .dropHandle .poster,
    .object (.enter .runner), .object (.getSize .runner), .object (.pop .runner), .suspend (),
    .object (.taskReturns .runner), .object (.pop .runner), .object (.subTaskCount .runner),
    .object (.onRun .runner), .release .runner, .object (.link .rival (.resume ())),
    .object (.addSize .rival), .object (.addTaskCount .rival), .object (.onPost .rival),
    .object (.enter .runner), .object (.getSize .runner), .object (.pop .runner), .finish (),
    .object (.taskReturns .runner), .object (.pop .runner), .object (.subTaskCount .runner),
    .object (.onRun .runner), .release .runner]

theorem resumedAfterPost_outlived : ∃ s : State TaskSerializer.Caller Unit Unit,
    exec step (init .poster) resumedAfterPost = some s ∧ s.freed = true ∧
      ∀ alive ∈ s.touches, alive = true := by
  have h : ((exec step (init .poster : State TaskSerializer.Caller Unit Unit)
      resumedAfterPost).map State.freed) = some true := by
    decide
  obtain ⟨s, hrun, hfreed⟩ := Option.map_eq_some_iff.mp h
  exact ⟨s, hrun, hfreed, outlives_every_post .poster resumedAfterPost s (by decide) hrun⟩

/-- The rival has linked the resumption and counted it in `_size` when the runner, which the
poster has called for another task, takes it, finishes the coroutine and drops the object. -/
def resumedInsidePost : List (Label TaskSerializer.Caller Unit Unit) :=
  [.create .poster (), .object (.link .poster (.resume ())), .object (.addSize .poster),
    .object (.addTaskCount .poster), .object (.onPost .poster), .object (.enter .runner),
    .object (.getSize .runner), .object (.pop .runner), .suspend (),
    .object (.taskReturns .runner), .object (.pop .runner), .object (.subTaskCount .runner),
    .object (.onRun .runner), .object (.link .rival (.resume ())), .object (.addSize .rival),
    .object (.link .poster (.other ())), .object (.addSize .poster),
    .object (.addTaskCount .poster), .object (.onPost .poster), .dropHandle .poster,
    .object (.enter .runner), .object (.getSize .runner), .object (.pop .runner), .finish (),
    .object (.taskReturns .runner), .object (.pop .runner), .object (.taskReturns .runner),
    .object (.pop .runner), .object (.subTaskCount .runner), .object (.onRun .runner),
    .release .runner, .object (.addTaskCount .rival)]

theorem resumedInsidePost_touched : ∃ s : State TaskSerializer.Caller Unit Unit,
    exec step (init .poster) resumedInsidePost = some s ∧
      ¬ ∀ alive ∈ s.touches, alive = true := by
  have h : ((exec step (init .poster : State TaskSerializer.Caller Unit Unit)
      resumedInsidePost).map fun s => decide (∀ alive ∈ s.touches, alive = true)) =
      some false := by
    decide
  obtain ⟨s, hrun, hs⟩ := Option.map_eq_some_iff.mp h
  exact ⟨s, hrun, of_decide_eq_false hs⟩

end Runs

end Bugat.AwaitTask
