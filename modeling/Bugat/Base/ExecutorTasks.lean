import Mathlib
import Bugat.Base.ExecutorRuns

/-!
# The tasks in the mailboxes of an executor

A step links one task behind the others of an object, or takes the first task of an object into
the hands of a worker, or leaves all mailboxes as they are. A worker is in the middle of a task
until this task returns.
-/

namespace Bugat.TaskSerializer

variable {Tid Task : Type*} [DecidableEq Tid] {s s' : State Tid Task} {l : Label Tid Task}

def executes (s : State Tid Task) (t : Tid) : Bool :=
  match (s.thread t).run with
  | .executing _ _ _ _ => true
  | _ => false

theorem executes_setPost (s : State Tid Task) (t u : Tid) (p : PostPc) :
    executes (s.setPost t p) u = executes s u := by
  rw [executes, setPost_run, executes]

theorem executes_setRun (s : State Tid Task) {t u : Tid} (r : RunPc) (hu : executes s u = true)
    (hr : executes s t = false) : executes (s.setRun t r) u = true := by
  have hut : u ≠ t := by
    rintro rfl
    rw [hu] at hr
    cases hr
  rw [executes, setRun_of_ne s r hut]
  exact hu

omit [DecidableEq Tid] in
theorem executes_congr {s s' : State Tid Task} (h : s'.thread = s.thread) (t : Tid) :
    executes s' t = executes s t := by
  rw [executes, h, executes]

theorem executes_step {u : Tid} (hs : step s l = some s') (hreturns : l ≠ .taskReturns u)
    (hthrows : l ≠ .taskThrows u) (hu : executes s u = true) : executes s' u = true := by
  cases l with
  | link t task =>
    obtain ⟨-, rfl⟩ := step_link.mp hs
    rw [executes_congr link_thread]
    exact (executes_setPost s t u _).trans hu
  | addSize t =>
    obtain ⟨-, rfl⟩ := step_addSize.mp hs
    rw [executes_congr addSize_thread]
    exact (executes_setPost s t u _).trans hu
  | addTaskCount t =>
    obtain ⟨-, rfl⟩ := step_addTaskCount.mp hs
    rw [executes_congr addTaskCount_thread]
    exact (executes_setPost s t u _).trans hu
  | onPost t =>
    obtain ⟨-, rfl⟩ := step_onPost.mp hs
    exact (executes_setPost s t u _).trans hu
  | enter t =>
    obtain ⟨ht, rfl⟩ := step_enter.mp hs
    exact executes_setRun s _ hu (by rw [executes, ht])
  | getSize t =>
    obtain ⟨start, ht, rfl⟩ := step_getSize.mp hs
    exact executes_setRun s _ hu (by rw [executes, ht])
  | pop t =>
    obtain ⟨start, size, i, m, ht, rfl⟩ := step_pop.mp hs
    have hidle : executes s t = false := by rw [executes, ht]
    obtain ⟨-, he⟩ | ⟨-, -, he⟩ | ⟨-, x, rest, -, he⟩ := pop_cases s t start size i m
    · rw [he]
      exact executes_setRun s _ hu hidle
    · rw [he]
      exact executes_setRun s _ hu hidle
    · rw [he, executes_congr popTask_thread]
      exact executes_setRun s _ hu hidle
  | taskReturns t =>
    obtain ⟨start, size, i, m, -, rfl⟩ := step_taskReturns.mp hs
    have hut : u ≠ t := by
      rintro rfl
      exact hreturns rfl
    rw [executes, setRun_of_ne s _ hut]
    exact hu
  | taskThrows t =>
    obtain ⟨-, rfl⟩ := step_taskThrows.mp hs
    have hut : u ≠ t := by
      rintro rfl
      exact hthrows rfl
    rw [executes, setRun_of_ne s _ hut]
    exact hu
  | subTaskCount t =>
    obtain ⟨start, size, m, ht, rfl⟩ := step_subTaskCount.mp hs
    have hidle : executes s t = false := by rw [executes, ht]
    rw [executes_congr (subTaskCount_thread _)]
    exact executes_setRun s _ hu hidle
  | onRun t =>
    obtain ⟨⟨c, ht⟩, rfl⟩ := step_onRun.mp hs
    exact executes_setRun s _ hu (by rw [executes, ht])

theorem pop_taken {t : Tid} (hs : step s (.pop t) = some s') :
    (s'.que = s.que ∧ taken s s' = none) ∨
      ∃ x, s.que = x :: s'.que ∧ taken s s' = some x.task ∧ executes s' t = true := by
  obtain ⟨start, size, i, m, -, rfl⟩ := step_pop.mp hs
  have hnone : ∀ r, taken s (s.setRun t r) = none := by
    intro r
    rw [taken, setRun_executed, List.getElem?_eq_none le_rfl]
    rfl
  obtain ⟨-, he⟩ | ⟨-, -, he⟩ | ⟨-, x, rest, hque, he⟩ := pop_cases s t start size i m
  · rw [he]
    exact .inl ⟨rfl, hnone _⟩
  · rw [he]
    exact .inl ⟨rfl, hnone _⟩
  · rw [he]
    refine .inr ⟨x, hque, ?_, ?_⟩
    · rw [taken]
      change (s.executed ++ [x])[s.executed.length]?.map Posted.task = _
      rw [List.getElem?_concat_length]
      rfl
    · rw [executes_congr popTask_thread, executes, setRun_self]

end Bugat.TaskSerializer

namespace Bugat.Executor

open TaskSerializer (taken executes executes_step)

variable {n : ℕ} {Tid Obj Task : Type*}

def State.tasks (s : State n Tid Obj Task) (o : Obj) : List Task :=
  (s.object o).que.map TaskSerializer.Posted.task

variable [DecidableEq Tid] [DecidableEq Obj] [NeZero n] {s s' : State n Tid Obj Task}
  {l : Label Tid Obj Task}

omit [DecidableEq Tid] [DecidableEq Obj] [NeZero n] in
theorem tasks_congr {s s' : State n Tid Obj Task} {o : Obj}
    (h : (s'.object o).que = (s.object o).que) : s'.tasks o = s.tasks o := by
  rw [State.tasks, h, State.tasks]

omit [DecidableEq Tid] [NeZero n] in
theorem tasks_other {o p : Obj} {m : TaskSerializer.State Tid Task} (hop : p ≠ o)
    (hobject : s'.object = Function.update s.object o m) : s'.tasks p = s.tasks p := by
  refine tasks_congr ?_
  rw [hobject, Function.update_of_ne hop]

inductive TaskMove (s : State n Tid Obj Task) (l : Label Tid Obj Task) (s' : State n Tid Obj Task) :
    Prop
  | stays (hlink : ∀ o t task, l ≠ .mailbox o (.link t task)) (htasks : ∀ o, s'.tasks o = s.tasks o)
      (htaken : ∀ o t, l = .mailbox o (.pop t) → taken (s.object o) (s'.object o) = none)
  | links (o : Obj) (t : Tid) (task : Task) (hl : l = .mailbox o (.link t task))
      (hself : s'.tasks o = s.tasks o ++ [task]) (hother : ∀ p ≠ o, s'.tasks p = s.tasks p)
  | takes (o : Obj) (t : Tid) (task : Task) (hl : l = .mailbox o (.pop t))
      (hself : s.tasks o = task :: s'.tasks o) (hother : ∀ p ≠ o, s'.tasks p = s.tasks p)
      (htaken : taken (s.object o) (s'.object o) = some task) (hin : s'.inTask t o = true)

theorem taskMove_of_step (hthrow : l.isThrow = false) (hs : step s l = some s') :
    TaskMove s l s' := by
  have hstays : ∀ (o : Obj) (a : TaskSerializer.Label Tid Task) (m : TaskSerializer.State Tid Task),
      TaskSerializer.step (s.object o) a = some m → (∀ t task, a ≠ .link t task) →
      (∀ t, a ≠ .pop t) → s'.object = Function.update s.object o m →
      ∀ p, s'.tasks p = s.tasks p := by
    intro o a m hm hlink hpop hobject p
    by_cases hp : p = o
    · subst hp
      refine tasks_congr ?_
      rw [hobject, Function.update_self]
      exact (TaskSerializer.step_frame hlink hpop hm).1
    · exact tasks_other hp hobject
  cases step_act hthrow hs with
  | context c hl hstep hposts hexecutes hobject hpost hreturned hthrow =>
    subst hl
    exact .stays (by simp) (fun o => tasks_congr (by rw [hobject])) (by simp)
  | take t o m hl hfree hstep hexecutes hm hobject hpost =>
    subst hl
    exact .stays (by simp) (hstays o _ m hm (by simp) (by simp) hobject) (by simp)
  | link o t task m hl hfree hm hobject hcontext hpost =>
    obtain ⟨-, rfl⟩ := TaskSerializer.step_link.mp hm
    refine .links o t task hl ?_ fun p hp => tasks_other hp hobject
    rw [State.tasks, hobject, Function.update_self]
    exact List.map_append
  | mailbox o a m hl hlink henter hm hschedule hobject hcontext hpost =>
    subst hl
    have hself : s'.object o = m := by rw [hobject, Function.update_self]
    by_cases hpop : ∃ t, a = .pop t
    · obtain ⟨t, rfl⟩ := hpop
      obtain ⟨hque, htaken⟩ | ⟨x, hque, htaken, hin⟩ := TaskSerializer.pop_taken hm
      · refine .stays (by simp) (fun p => ?_) fun p u he => ?_
        · by_cases hp : p = o
          · subst hp
            exact tasks_congr (by rw [hself, hque])
          · exact tasks_other hp hobject
        · obtain ⟨rfl, -⟩ := Label.mailbox.inj he
          rwa [hself]
      · refine .takes o t x.task rfl ?_ (fun p hp => tasks_other hp hobject) ?_ ?_
        · rw [State.tasks, State.tasks, hself, hque]
          rfl
        · rwa [hself]
        · change executes (s'.object o) t = true
          rwa [hself]
    · refine .stays (fun p t task he => ?_) (hstays o a m hm hlink (fun t h => hpop ⟨t, h⟩) hobject)
        fun p t he => ?_
      · obtain ⟨rfl, rfl⟩ := Label.mailbox.inj he
        exact hlink t task rfl
      · obtain ⟨rfl, rfl⟩ := Label.mailbox.inj he
        exact absurd ⟨t, rfl⟩ hpop
  | count o t a schedules m hl ha hm hschedule hobject hcontext =>
    subst hl
    have hlink : ∀ u task, a ≠ .link u task := by
      rintro u task rfl
      rcases ha with ha | ⟨ha, -⟩ <;> cases ha
    have hpop : ∀ u, a ≠ .pop u := by
      rintro u rfl
      rcases ha with ha | ⟨ha, -⟩ <;> cases ha
    refine .stays (fun p u task he => ?_) (hstays o a m hm hlink hpop hobject) fun p u he => ?_
    · obtain ⟨rfl, rfl⟩ := Label.mailbox.inj he
      exact hlink u task rfl
    · obtain ⟨rfl, rfl⟩ := Label.mailbox.inj he
      exact absurd rfl (hpop u)

theorem inTask_step {u : Tid} {p : Obj} (hthrow : l.isThrow = false) (hs : step s l = some s')
    (hreturns : l ≠ .mailbox p (.taskReturns u)) (hin : s.inTask u p = true) :
    s'.inTask u p = true := by
  have hmailbox : ∀ (o : Obj) (a : TaskSerializer.Label Tid Task)
      (m : TaskSerializer.State Tid Task), TaskSerializer.step (s.object o) a = some m →
      (∀ t, a ≠ .taskThrows t) → (p = o → a ≠ .taskReturns u) →
      s'.object = Function.update s.object o m → s'.inTask u p = true := by
    intro o a m hm hthrows hends hobject
    change executes (s'.object p) u = true
    rw [hobject]
    by_cases hp : p = o
    · subst hp
      rw [Function.update_self]
      exact executes_step hm (hends rfl) (hthrows u) hin
    · rw [Function.update_of_ne hp]
      exact hin
  cases step_act hthrow hs with
  | context c hl hstep hposts hexecutes hobject hpost hreturned hthrow =>
    change executes (s'.object p) u = true
    rw [hobject]
    exact hin
  | take t o m hl hfree hstep hexecutes hm hobject hpost =>
    exact hmailbox o _ m hm (by simp) (by simp) hobject
  | link o t task m hl hfree hm hobject hcontext hpost =>
    exact hmailbox o _ m hm (by simp) (by simp) hobject
  | mailbox o a m hl hlink henter hm hschedule hobject hcontext hpost =>
    subst hl
    refine hmailbox o a m hm ?_ ?_ hobject
    · rintro t rfl
      cases hthrow
    · rintro rfl rfl
      exact hreturns rfl
  | count o t a schedules m hl ha hm hschedule hobject hcontext =>
    refine hmailbox o a m hm ?_ ?_ hobject
    · rintro u rfl
      rcases ha with ha | ⟨ha, -⟩ <;> cases ha
    · rintro - rfl
      rcases ha with ha | ⟨ha, -⟩ <;> cases ha

end Bugat.Executor
