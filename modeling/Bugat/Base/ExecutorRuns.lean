import Mathlib
import Bugat.Base.Executor
import Bugat.Core.TaskSerializerThreads

/-!
# The scheduling of SerializeObjects on a Context

For each object the Context is what the scheduling of a single object assumes of it: the number
of entries of the object goes up by one with each decision to post it and down by one when a
worker enters its `Run`. So every mailbox has one runner at a time, none is forgotten, and when
nothing is under way any more each posted task has been executed.
-/

open scoped BigOperators

namespace Bugat.Executor

open Transition (exec Along exec_invariant_along)
open TaskSerializer (InOrder Ordered Assumed SizeFitsIndex Thread)
open SerializeObject (Scheduled SingleRunner)

variable {n : ℕ} {Tid Obj Task : Type*} [DecidableEq Tid] [DecidableEq Obj] [NeZero n]
  {s s' : State n Tid Obj Task} {l : Label Tid Obj Task}

inductive Act (s : State n Tid Obj Task) (l : Label Tid Obj Task) (s' : State n Tid Obj Task) :
    Prop
  | context (c : Context.Label Tid Tid Obj) (hl : l = .context c)
      (hs : Context.step s.context c = some s'.context) (hposts : ∀ t x, c ≠ .post t x)
      (hexecutes : Context.executes s.context c = []) (hobject : s'.object = s.object)
      (hpost : ∀ t, s'.inPost t = s.inPost t ∨ c = .postPush t)
      (hreturned : ∀ t k, c = .objectRuns t k → s.returned t)
      (hthrow : ∀ t, c ≠ .objectThrows t)
  | take (t : Tid) (o : Obj) (m : TaskSerializer.State Tid Task)
      (hl : l = .context (.popObject t)) (hfree : s.free t)
      (hs : Context.step s.context (.popObject t) = some s'.context)
      (hexecutes : Context.executes s.context (.popObject t) = [o])
      (hm : TaskSerializer.step (s.object o) (.enter t) = some m)
      (hobject : s'.object = Function.update s.object o m) (hpost : s'.inPost = s.inPost)
  | link (o : Obj) (t : Tid) (task : Task) (m : TaskSerializer.State Tid Task)
      (hl : l = .mailbox o (.link t task)) (hfree : s.free t)
      (hm : TaskSerializer.step (s.object o) (.link t task) = some m)
      (hobject : s'.object = Function.update s.object o m) (hcontext : s'.context = s.context)
      (hpost : s'.inPost = Function.update s.inPost t (some o))
  | mailbox (o : Obj) (a : TaskSerializer.Label Tid Task) (m : TaskSerializer.State Tid Task)
      (hl : l = .mailbox o a) (hlink : ∀ t task, a ≠ .link t task) (henter : ∀ t, a ≠ .enter t)
      (hm : TaskSerializer.step (s.object o) a = some m)
      (hschedule : ∀ k, SerializeObject.schedule ⟨s.object o, k⟩ a = some k)
      (hobject : s'.object = Function.update s.object o m) (hcontext : s'.context = s.context)
      (hpost : s'.inPost = s.inPost)
  | count (o : Obj) (t : Tid) (a : TaskSerializer.Label Tid Task) (schedules : Bool)
      (m : TaskSerializer.State Tid Task) (hl : l = .mailbox o a)
      (ha : a = .onPost t ∨ a = .onRun t ∧ s.free t)
      (hm : TaskSerializer.step (s.object o) a = some m)
      (hschedule : ∀ k, SerializeObject.schedule ⟨s.object o, k⟩ a =
        some (if schedules then k + 1 else k))
      (hobject : s'.object = Function.update s.object o m)
      (hcontext : (schedules = true ∧
          Context.step s.context (.post t (some o)) = some s'.context ∧ s'.inPost = s.inPost) ∨
        (schedules = false ∧ s'.context = s.context ∧
          s'.inPost = Function.update s.inPost t none))

omit [DecidableEq Obj] in
theorem ofContext_eq_some {c : Context.Label Tid Tid Obj} : s.ofContext c = some s' ↔
    ∃ u, Context.step s.context c = some u ∧ s' = s.setContext u := by
  simp only [State.ofContext, Option.map_eq_some_iff, eq_comm (a := s')]

omit [NeZero n] in
theorem ofMailbox_eq_some {o : Obj} {a : TaskSerializer.Label Tid Task} :
    s.ofMailbox o a = some s' ↔
      ∃ m, TaskSerializer.step (s.object o) a = some m ∧ s' = s.setObject o m := by
  simp only [State.ofMailbox, Option.map_eq_some_iff, eq_comm (a := s')]

theorem worker_act {t : Tid} {c : Context.Label Tid Tid Obj} (hposts : ∀ t x, c ≠ .post t x)
    (hpop : (∀ u, c ≠ .popObject u) ∨ c = .popObject t)
    (hreturned : ∀ t k, c = .objectRuns t k → s.returned t)
    (hthrow : ∀ t, c ≠ .objectThrows t) (hs : worker s t c = some s') :
    Act s (.context c) s' := by
  rw [worker] at hs
  split at hs
  · rename_i hfree
    obtain ⟨u, hu, hs⟩ := Option.bind_eq_some_iff.mp hs
    obtain ⟨d, hd, rfl⟩ := ofContext_eq_some.mp hu
    split at hs
    · rename_i o rest hexecutes
      obtain ⟨m, hm, rfl⟩ := ofMailbox_eq_some.mp hs
      rcases hpop with hpop | rfl
      · cases c with
        | popObject u => exact absurd rfl (hpop u)
        | _ => cases hexecutes
      · have hlength := Context.executes_length_le s.context (.popObject t)
        rw [hexecutes, List.length_cons] at hlength
        obtain rfl : rest = [] := List.eq_nil_of_length_eq_zero (by omega)
        exact .take t o m rfl hfree hd hexecutes hm rfl rfl
    · rename_i hexecutes
      obtain rfl := Option.some.inj hs
      exact .context c rfl hd hposts hexecutes rfl (fun _ => .inl rfl) hreturned hthrow
  · cases hs

omit [DecidableEq Obj] in
theorem onCount_cases {s u s' : State n Tid Obj Task} {t : Tid} {o : Obj} {b : Bool}
    (hs : u.onCount t o b = some s') (hcontext : u.context = s.context)
    (hpost : u.inPost = s.inPost) : s'.object = u.object ∧
      ((b = true ∧ Context.step s.context (.post t (some o)) = some s'.context ∧
          s'.inPost = s.inPost) ∨
        (b = false ∧ s'.context = s.context ∧
          s'.inPost = Function.update s.inPost t none)) := by
  rw [State.onCount] at hs
  split at hs
  · rename_i hb
    obtain ⟨d, hd, rfl⟩ := ofContext_eq_some.mp hs
    exact ⟨rfl, .inl ⟨hb, hcontext ▸ hd, hpost⟩⟩
  · rename_i hb
    obtain rfl := Option.some.inj hs
    exact ⟨rfl, .inr ⟨Bool.not_eq_true _ ▸ hb, hcontext, by rw [State.setPosting, hpost]⟩⟩

theorem step_act (hthrow : l.isThrow = false) (hs : step s l = some s') : Act s l s' := by
  cases l with
  | context c =>
    cases c with
    | enter t _ | testStop t | swapIndex t | load t | exchange t | push t | pop t | delete t =>
      exact worker_act nofun (.inl nofun) nofun nofun hs
    | popObject t => exact worker_act nofun (.inr rfl) nofun nofun hs
    | objectRuns t executed =>
      simp only [step] at hs
      split at hs
      · rename_i hreturned
        refine worker_act nofun (.inl nofun) (fun u k hu => ?_) nofun hs
        cases hu
        exact hreturned
      · cases hs
    | objectThrows t | post t obj => cases hs
    | postLoad t | stop =>
      obtain ⟨d, hd, rfl⟩ := ofContext_eq_some.mp hs
      exact .context _ rfl hd nofun rfl rfl (fun _ => .inl rfl) nofun nofun
    | postPush t =>
      obtain ⟨u, hu, rfl⟩ := Option.map_eq_some_iff.mp hs
      obtain ⟨d, hd, rfl⟩ := ofContext_eq_some.mp hu
      refine .context _ rfl hd nofun rfl rfl (fun v => ?_) nofun nofun
      by_cases hv : v = t
      · exact .inr (hv ▸ rfl)
      · exact .inl (Function.update_of_ne hv ..)
  | mailbox o a =>
    cases a with
    | link t task =>
      simp only [step] at hs
      split at hs
      · rename_i hmay
        obtain ⟨u, hu, rfl⟩ := Option.map_eq_some_iff.mp hs
        obtain ⟨m, hm, rfl⟩ := ofMailbox_eq_some.mp hu
        exact .link o t task m rfl hmay.1 hm rfl rfl rfl
      · cases hs
    | addSize t | addTaskCount t =>
      obtain ⟨m, hm, rfl⟩ := ofMailbox_eq_some.mp hs
      exact .mailbox o _ m rfl nofun nofun hm (fun _ => rfl) rfl rfl rfl
    | getSize t | pop t | taskReturns t | subTaskCount t =>
      simp only [step] at hs
      split at hs
      · obtain ⟨m, hm, rfl⟩ := ofMailbox_eq_some.mp hs
        exact .mailbox o _ m rfl nofun nofun hm (fun _ => rfl) rfl rfl rfl
      · cases hs
    | enter t => cases hs
    | taskThrows t => cases hthrow
    | onPost t =>
      simp only [step] at hs
      split at hs
      · rename_i c hc
        obtain ⟨u, hu, hs⟩ := Option.bind_eq_some_iff.mp hs
        obtain ⟨m, hm, rfl⟩ := ofMailbox_eq_some.mp hu
        obtain ⟨hobject, hcontext⟩ := onCount_cases (s := s) hs rfl rfl
        refine .count o t _ (SerializeObject.onPost c) m rfl (.inl rfl) hm (fun k => ?_) hobject
          hcontext
        simp only [SerializeObject.schedule, hc]
      · cases hs
    | onRun t =>
      simp only [step] at hs
      split at hs
      · rename_i c hc
        split at hs
        · rename_i hfree
          obtain ⟨u, hu, hs⟩ := Option.bind_eq_some_iff.mp hs
          obtain ⟨m, hm, rfl⟩ := ofMailbox_eq_some.mp hu
          obtain ⟨hobject, hcontext⟩ := onCount_cases (s := s) hs rfl rfl
          refine .count o t _ (SerializeObject.onRun c) m rfl (.inr ⟨rfl, hfree⟩) hm (fun k => ?_)
            hobject hcontext
          simp only [SerializeObject.schedule, hc]
        · cases hs
      · cases hs

structure Control (s : State n Tid Obj Task) : Prop where
  posting : ∀ t o, ((s.object o).thread t).post ≠ .idle → s.inPost t = some o
  calling : ∀ t o, (s.context.poster t).calls = true → ((s.object o).thread t).post = .idle
  running : ∀ t o, ((s.object o).thread t).run ≠ .idle →
    (∃ q count, s.context.worker t = .execute q count) ∧ s.context.executor t = some o

section Mailboxes

variable {o p : Obj} {t : Tid} {a : TaskSerializer.Label Tid Task}
  {m : TaskSerializer.State Tid Task}

omit [NeZero n] in
theorem post_update (hm : TaskSerializer.step (s.object o) a = some m)
    (hobject : s'.object = Function.update s.object o m)
    (hbusy : ((s'.object p).thread t).post ≠ .idle) :
    ((s.object p).thread t).post ≠ .idle ∨ p = o ∧ ∃ task, a = .link t task := by
  rw [hobject] at hbusy
  by_cases hp : p = o
  · subst hp
    rw [Function.update_self] at hbusy
    exact (TaskSerializer.post_of_step hm hbusy).imp_right fun hlink => ⟨rfl, hlink⟩
  · rw [Function.update_of_ne hp] at hbusy
    exact .inl hbusy

omit [NeZero n] in
theorem run_update (hm : TaskSerializer.step (s.object o) a = some m)
    (hobject : s'.object = Function.update s.object o m)
    (hbusy : ((s'.object p).thread t).run ≠ .idle) :
    ((s.object p).thread t).run ≠ .idle ∨ p = o ∧ a = .enter t := by
  rw [hobject] at hbusy
  by_cases hp : p = o
  · subst hp
    rw [Function.update_self] at hbusy
    exact (TaskSerializer.run_of_step hm hbusy).imp_right fun henter => ⟨rfl, henter⟩
  · rw [Function.update_of_ne hp] at hbusy
    exact .inl hbusy

omit [NeZero n] in
theorem Control.post_idle (h : Control s) (ha : a = .onPost t ∨ a = .onRun t ∧ s.free t)
    (hm : TaskSerializer.step (s.object o) a = some m)
    (hobject : s'.object = Function.update s.object o m) (p : Obj) :
    ((s'.object p).thread t).post = .idle := by
  by_contra hbusy
  obtain hbefore | ⟨-, task, rfl⟩ := post_update hm hobject hbusy
  · have hp := h.posting t p hbefore
    obtain rfl | ⟨-, hfree⟩ := ha
    · obtain ⟨⟨c, hc⟩, rfl⟩ := TaskSerializer.step_onPost.mp hm
      have ho := h.posting t o (by rw [hc]; exact nofun)
      obtain rfl := Option.some.inj (hp.symm.trans ho)
      rw [hobject, Function.update_self, TaskSerializer.setPost_self] at hbusy
      exact hbusy rfl
    · rw [hfree.1] at hp
      cases hp
  · obtain ha | ⟨ha, -⟩ := ha <;> cases ha

end Mailboxes

omit [DecidableEq Obj] in
theorem calls_cases {c : Context.Label Tid Tid Obj} {d d' : Context.State n Tid Tid Obj}
    (hs : Context.step d c = some d') (hposts : ∀ t x, c ≠ .post t x) (t : Tid) :
    ((d'.poster t).calls = (d.poster t).calls ∧ c ≠ .postPush t) ∨
      c = .postPush t ∧ (d.poster t).calls = true ∧ (d'.poster t).calls = false := by
  have hother : c ≠ .postPush t → (d'.poster t).calls = (d.poster t).calls := by
    intro hne
    cases Context.step_flow hs with
    | quiet hlive hcontent hposter hcalls htarget hposts hexecutes => exact hcalls t
    | enter a ha hlive hcontent hposter hposts hexecutes => rw [hposter]
    | popObject u a count x rest hl hworker ha hlive hcontent hposter hrun => rw [hposter]
    | delete u a hworker hlive hcontent hposter hposts hexecutes => rw [hposter]
    | post p i obj hl hidle hlive hcontent hposter => exact absurd hl (hposts p obj)
    | push p a obj hl hpush hlive hcontent hposter =>
      have hpt : t ≠ p := fun h => hne (h ▸ hl)
      rw [hposter, Function.update_of_ne hpt]
  by_cases hc : c = .postPush t
  · subst hc
    right
    simp only [Context.step] at hs
    split at hs
    · rename_i hpush
      obtain rfl := Option.some.inj hs
      refine ⟨rfl, by rw [hpush]; rfl, ?_⟩
      change (Function.update d.poster t Context.PostPc.idle t).calls = false
      rw [Function.update_self]
      rfl
    · cases hs
  · exact .inl ⟨hother hc, hc⟩

omit [NeZero n] in
theorem Control.running_of (h : Control s) {o : Obj} {a : TaskSerializer.Label Tid Task}
    {m : TaskSerializer.State Tid Task} (hm : TaskSerializer.step (s.object o) a = some m)
    (henter : ∀ t, a ≠ .enter t) (hobject : s'.object = Function.update s.object o m)
    (hworker : s'.context.worker = s.context.worker)
    (hexecutor : s'.context.executor = s.context.executor) (t : Tid) (p : Obj)
    (hrun : ((s'.object p).thread t).run ≠ .idle) :
    (∃ q count, s'.context.worker t = .execute q count) ∧ s'.context.executor t = some p := by
  rw [hworker, hexecutor]
  obtain hrun | ⟨-, heq⟩ := run_update hm hobject hrun
  · exact h.running t p hrun
  · exact absurd heq (henter t)

theorem Control.step (h : Control s) (ha : Act s l s') : Control s' := by
  cases ha with
  | context c hl hs hposts hexecutes hobject hpost hreturned hthrow =>
    have hcalls := calls_cases hs hposts
    refine ⟨fun t o hbusy => ?_, fun t o hcall => ?_, fun t o hrun => ?_⟩
    · rw [hobject] at hbusy
      obtain ⟨-, hne⟩ | ⟨-, hcall, -⟩ := hcalls t
      · rw [(hpost t).resolve_right hne]
        exact h.posting t o hbusy
      · exact absurd (h.calling t o hcall) hbusy
    · rw [hobject]
      obtain ⟨heq, -⟩ | ⟨-, -, hdone⟩ := hcalls t
      · exact h.calling t o (heq ▸ hcall)
      · rw [hdone] at hcall
        cases hcall
    · rw [hobject] at hrun
      obtain ⟨⟨q, count, hworker⟩, hexecutor⟩ := h.running t o hrun
      obtain ⟨hw, he⟩ | hne | ⟨k, hc⟩ | hc := Context.step_worker hs t
      · rw [hw, he]
        exact ⟨⟨q, count, hworker⟩, hexecutor⟩
      · exact absurd hworker (hne q count)
      · have hret := hreturned t k hc
        rw [State.returned, hexecutor] at hret
        exact absurd (of_decide_eq_true hret) hrun
      · exact absurd hc (hthrow t)
  | take t o m hl hfree hs hexecutes hm hobject hpost =>
    have hcalls : ∀ u, (s'.context.poster u).calls = (s.context.poster u).calls := by
      intro u
      obtain ⟨hsame, -⟩ | ⟨heq, -⟩ := calls_cases hs nofun u
      · exact hsame
      · cases heq
    have hpostof : ∀ u p, ((s'.object p).thread u).post ≠ .idle →
        ((s.object p).thread u).post ≠ .idle := by
      intro u p hbusy
      obtain hbusy | ⟨-, task, heq⟩ := post_update hm hobject hbusy
      · exact hbusy
      · cases heq
    refine ⟨fun u p hbusy => ?_, fun u p hcall => ?_, fun u p hrun => ?_⟩
    · rw [hpost]
      exact h.posting u p (hpostof u p hbusy)
    · by_contra hbusy
      exact hpostof u p hbusy (h.calling u p (hcalls u ▸ hcall))
    · obtain hrun | ⟨rfl, heq⟩ := run_update hm hobject hrun
      · obtain ⟨⟨q, count, hworker⟩, hexecutor⟩ := h.running u p hrun
        obtain ⟨hw, he⟩ | hne | ⟨k, hc⟩ | hc := Context.step_worker hs u
        · rw [hw, he]
          exact ⟨⟨q, count, hworker⟩, hexecutor⟩
        · exact absurd hworker (hne q count)
        · cases hc
        · cases hc
      · cases heq
        exact Context.executes_popObject hs hexecutes
  | link o t task m hl hfree hm hobject hcontext hpost =>
    refine ⟨fun u p hbusy => ?_, fun u p hcall => ?_,
      h.running_of hm nofun hobject (by rw [hcontext]) (by rw [hcontext])⟩
    · rw [hpost]
      obtain hbusy | ⟨rfl, task, heq⟩ := post_update hm hobject hbusy
      · have hposting := h.posting u p hbusy
        have hut : u ≠ t := by
          rintro rfl
          rw [hfree.1] at hposting
          cases hposting
        rwa [Function.update_of_ne hut]
      · cases heq
        exact Function.update_self ..
    · rw [hcontext] at hcall
      by_contra hbusy
      obtain hbusy | ⟨-, task, heq⟩ := post_update hm hobject hbusy
      · exact hbusy (h.calling u p hcall)
      · cases heq
        rw [hfree.2] at hcall
        cases hcall
  | mailbox o a m hl hlink henter hm hschedule hobject hcontext hpost =>
    have hpostof : ∀ u p, ((s'.object p).thread u).post ≠ .idle →
        ((s.object p).thread u).post ≠ .idle := by
      intro u p hbusy
      obtain hbusy | ⟨-, task, heq⟩ := post_update hm hobject hbusy
      · exact hbusy
      · exact absurd heq (hlink u task)
    refine ⟨fun u p hbusy => ?_, fun u p hcall => ?_,
      h.running_of hm henter hobject (by rw [hcontext]) (by rw [hcontext])⟩
    · rw [hpost]
      exact h.posting u p (hpostof u p hbusy)
    · rw [hcontext] at hcall
      by_contra hbusy
      exact hpostof u p hbusy (h.calling u p hcall)
  | count o t a schedules m hl ha hm hschedule hobject hcontext =>
    have henter : ∀ u, a ≠ .enter u := by
      rintro u rfl
      obtain ha | ⟨ha, -⟩ := ha <;> cases ha
    have hidle := h.post_idle ha hm hobject
    have hpostof : ∀ u p, ((s'.object p).thread u).post ≠ .idle →
        u ≠ t ∧ ((s.object p).thread u).post ≠ .idle := by
      intro u p hbusy
      refine ⟨fun hut => hbusy (hut ▸ hidle p), ?_⟩
      obtain hbusy | ⟨-, task, rfl⟩ := post_update hm hobject hbusy
      · exact hbusy
      · obtain ha | ⟨ha, -⟩ := ha <;> cases ha
    obtain ⟨-, hs, hpost⟩ | ⟨-, hcontext, hpost⟩ := hcontext
    · obtain ⟨hothers, hworker, hexecutor⟩ := Context.step_post hs
      refine ⟨fun u p hbusy => ?_, fun u p hcall => ?_,
        h.running_of hm henter hobject hworker hexecutor⟩
      · rw [hpost]
        exact h.posting u p (hpostof u p hbusy).2
      · by_contra hbusy
        obtain ⟨hut, hbefore⟩ := hpostof u p hbusy
        rw [hothers u hut] at hcall
        exact hbefore (h.calling u p hcall)
    · refine ⟨fun u p hbusy => ?_, fun u p hcall => ?_,
        h.running_of hm henter hobject (by rw [hcontext]) (by rw [hcontext])⟩
      · obtain ⟨hut, hbefore⟩ := hpostof u p hbusy
        rw [hpost, Function.update_of_ne hut]
        exact h.posting u p hbefore
      · rw [hcontext] at hcall
        by_contra hbusy
        exact (hpostof u p hbusy).2 (h.calling u p hcall)

section Scheduling

variable [Fintype Tid]

def State.view (s : State n Tid Obj Task) (o : Obj) : SerializeObject.State Tid Task :=
  ⟨s.object o, s.context.entries o⟩

def StopsQuietly (s : State n Tid Obj Task) : Label Tid Obj Task → Prop
  | .context c => Context.StopsQuietly s.context c
  | .mailbox _ _ => True

def SizesFit (s : State n Tid Obj Task) : Label Tid Obj Task → Prop
  | .context _ => True
  | .mailbox o a => TaskSerializer.SizeFitsIndex (s.object o) a

theorem entries_step {c : Context.Label Tid Tid Obj} {d d' : Context.State n Tid Tid Obj}
    (hkept : Context.Kept d) (hs : Context.step d c = some d') (o : Obj) :
    d.entries o + Context.indicator o c.posts =
      d'.entries o + (Context.executes d c).count o := by
  rw [← Context.sum_indicator]
  exact Context.entries_of_flow (Context.step_flow hs) hkept.owned hkept.guarded

omit [DecidableEq Tid] [NeZero n] in
theorem view_of_other {o p : Obj} {m : TaskSerializer.State Tid Task} (hop : o ≠ p)
    (hobject : s'.object = Function.update s.object p m)
    (hentries : s'.context.entries o = s.context.entries o) : s'.view o = s.view o := by
  rw [State.view, State.view, hobject, Function.update_of_ne hop, hentries]

omit [NeZero n] in
theorem view_of_self {o : Obj} {a : TaskSerializer.Label Tid Task}
    {m : TaskSerializer.State Tid Task} (hm : TaskSerializer.step (s.object o) a = some m)
    (hobject : s'.object = Function.update s.object o m)
    (hschedule : SerializeObject.schedule (s.view o) a = some (s'.context.entries o)) :
    SerializeObject.step (s.view o) a = some (s'.view o) := by
  have hself : s'.object o = m := by rw [hobject, Function.update_self]
  refine SerializeObject.step_eq_some.mpr ⟨?_, hschedule⟩
  change TaskSerializer.step (s.object o) a = some (s'.object o)
  rw [hself, hm]

/-- The Context refines, for each object, the schedule of a single object. -/
theorem view_step (hkept : Context.Kept s.context) (ha : Act s l s') (o : Obj) :
    s'.view o = s.view o ∨ ∃ a : TaskSerializer.Label Tid Task, a.isThrow = l.isThrow ∧
      (∀ t, a = .getSize t → l = .mailbox o a) ∧
        SerializeObject.step (s.view o) a = some (s'.view o) := by
  cases ha with
  | context c hl hs hposts hexecutes hobject hpost hreturned hthrow =>
    left
    have hnone : c.posts = none := by
      cases c with
      | post t x => exact absurd rfl (hposts t x)
      | _ => rfl
    have hentries := entries_step hkept hs o
    rw [hnone, hexecutes] at hentries
    rw [State.view, State.view, hobject, show s'.context.entries o = s.context.entries o from
      hentries.symm]
  | take t q m hl hfree hs hexecutes hm hobject hpost =>
    have hentries := entries_step hkept hs o
    rw [hexecutes, List.count_singleton] at hentries
    by_cases hoq : o = q
    · subst hoq
      right
      refine ⟨.enter t, hl ▸ rfl, by simp, view_of_self hm hobject ?_⟩
      simp only [Context.Label.posts, Context.indicator, reduceCtorEq, if_false, beq_self_eq_true,
        if_true, add_zero] at hentries
      have hpos : 0 < s.context.entries o := by omega
      have hless : s.context.entries o - 1 = s'.context.entries o := by omega
      exact (if_pos hpos).trans (congrArg some hless)
    · left
      refine view_of_other hoq hobject ?_
      have hne : (q == o) = false := beq_false_of_ne (Ne.symm hoq)
      simp only [Context.Label.posts, Context.indicator, reduceCtorEq, if_false, hne,
        Bool.false_eq_true, add_zero] at hentries
      exact hentries.symm
  | link q t task m hl hfree hm hobject hcontext hpost =>
    by_cases hoq : o = q
    · subst hoq
      exact .inr ⟨.link t task, hl ▸ rfl, by simp, view_of_self hm hobject (by rw [hcontext]; rfl)⟩
    · exact .inl (view_of_other hoq hobject (by rw [hcontext]))
  | mailbox q a m hl hlink henter hm hschedule hobject hcontext hpost =>
    by_cases hoq : o = q
    · subst hoq
      exact .inr ⟨a, hl ▸ rfl, fun _ _ => hl,
        view_of_self hm hobject (by rw [hcontext]; exact hschedule _)⟩
    · exact .inl (view_of_other hoq hobject (by rw [hcontext]))
  | count q t a schedules m hl ha hm hschedule hobject hcontext =>
    have hentries : s'.context.entries o =
        s.context.entries o + if schedules ∧ q = o then 1 else 0 := by
      obtain ⟨hyes, hs, -⟩ | ⟨hno, hcontext, -⟩ := hcontext
      · have hposted := entries_step hkept hs o
        rw [show Context.executes s.context (.post t (some q)) = [] from rfl] at hposted
        simp only [Context.Label.posts, Context.indicator, Option.some.injEq, List.count_nil,
          add_zero] at hposted
        simp only [hyes, true_and, hposted]
      · simp [hno, hcontext]
    by_cases hoq : o = q
    · subst hoq
      refine .inr ⟨a, hl ▸ rfl, fun _ _ => hl, view_of_self hm hobject ?_⟩
      rw [State.view, hschedule, hentries]
      cases schedules <;> simp
    · refine .inl (view_of_other hoq hobject ?_)
      rw [hentries, if_neg fun h => hoq h.2.symm, add_zero]

structure Inv (s : State n Tid Obj Task) : Prop where
  kept : Context.Kept s.context
  control : Control s
  scheduled : ∀ o, Scheduled (s.view o)
  ordered : ∀ o, Ordered (s.object o)

theorem kept_step (hkept : Context.Kept s.context) (hquiet : StopsQuietly s l)
    (ha : Act s l s') : Context.Kept s'.context := by
  cases ha with
  | context c hl hs =>
    subst hl
    exact hkept.step hquiet hs
  | take t o m hl hfree hs => exact Context.Kept.step (l := .popObject t) hkept trivial hs
  | link o t task m hl hfree hm hobject hcontext => exact hcontext ▸ hkept
  | mailbox o a m hl hlink henter hm hschedule hobject hcontext => exact hcontext ▸ hkept
  | count o t a schedules m hl ha hm hschedule hobject hcontext =>
    obtain ⟨-, hs, -⟩ | ⟨-, hcontext, -⟩ := hcontext
    · exact Context.Kept.step (l := .post t (some o)) hkept trivial hs
    · exact hcontext ▸ hkept

theorem Inv.step (h : Inv s) (hthrow : l.isThrow = false) (hquiet : StopsQuietly s l)
    (hfit : SizesFit s l) (hs : step s l = some s') : Inv s' := by
  have ha := step_act hthrow hs
  have hview : ∀ o, Scheduled (s'.view o) ∧ Ordered (s'.object o) := by
    intro o
    obtain hsame | ⟨a, hthrows, hsize, hstep⟩ := view_step h.kept ha o
    · have hobject : s'.object o = s.object o := congrArg SerializeObject.State.serializer hsame
      rw [hsame, hobject]
      exact ⟨h.scheduled o, h.ordered o⟩
    · rw [hthrow] at hthrows
      have hmailbox := (SerializeObject.step_eq_some.mp hstep).1
      refine ⟨SerializeObject.scheduled_step (h.scheduled o) hthrows hstep,
        TaskSerializer.ordered_step (h.ordered o) ⟨⟨hthrows, fun t ht => ?_⟩, fun t ht => ?_⟩
          hmailbox⟩
      · subst ht
        exact (h.scheduled o).enter_alone hstep
      · have hl := hsize t ht
        rw [hl] at hfit
        exact hfit t ht
  exact ⟨kept_step h.kept hquiet ha, h.control.step ha, fun o => (hview o).1, fun o => (hview o).2⟩

omit [DecidableEq Tid] [NeZero n] [Fintype Tid] in
theorem init_view (o : Obj) [Fintype Tid] :
    (init n : State n Tid Obj Task).view o = SerializeObject.init := by
  rw [State.view, init, Context.initializeContext_entries]
  rfl

omit [NeZero n] in
theorem init_inv : Inv (init n : State n Tid Obj Task) where
  kept := Context.initializeContext_kept
  control :=
    ⟨fun _ _ hbusy => absurd rfl hbusy, fun _ _ _ => rfl, fun _ _ hrun => absurd rfl hrun⟩
  scheduled o := by
    rw [init_view]
    exact SerializeObject.scheduled_init
  ordered _ := TaskSerializer.ordered_init

structure Idle (s : State n Tid Obj Task) : Prop where
  free : ∀ t, s.free t
  workers : ∀ t q count, s.context.worker t ≠ .execute q count
  queues : ∀ a ∈ s.context.live, s.context.Vacant a

omit [DecidableEq Tid] [NeZero n] in
theorem Idle.entries (h : Idle s) (o : Obj) : s.context.entries o = 0 := by
  have hqueues : ∑ a ∈ s.context.live, (s.context.content a).count (some o) = 0 := by
    apply Finset.sum_eq_zero
    intro a ha
    exact List.count_eq_zero.mpr fun hmem => nomatch h.queues a ha _ hmem
  have hcalls : ∑ t, (s.context.poster t).carries o = 0 := by
    apply Finset.sum_eq_zero
    intro t _
    have hidle := (h.free t).2
    cases hposter : s.context.poster t with
    | idle => rfl
    | load i x | push q x =>
      rw [hposter] at hidle
      cases hidle
  rw [Context.State.entries, hqueues, hcalls]

/-- Every mailbox has one runner at a time and runs its tasks in order, tasks are run by workers
only, and once nothing is under way every posted task has been executed. -/
structure Delivers (s : State n Tid Obj Task) : Prop where
  single : ∀ o, SingleRunner (s.view o)
  inOrder : ∀ o, InOrder (s.object o)
  onWorker : ∀ t o, ((s.object o).thread t).run ≠ .idle →
    (∃ q count, s.context.worker t = .execute q count) ∧ s.context.executor t = some o
  settled : Idle s → ∀ o, (s.object o).que = [] ∧ (s.object o).executed = (s.object o).linked

omit [NeZero n] in
theorem Inv.settled (h : Inv s) (hidle : Idle s) (o : Obj) :
    (s.object o).que = [] ∧ (s.object o).executed = (s.object o).linked := by
  have hthread : ∀ t, (s.object o).thread t = ⟨.idle, .idle⟩ := by
    intro t
    have hpost : ((s.object o).thread t).post = .idle := by
      by_contra hbusy
      have hposting := h.control.posting t o hbusy
      rw [(hidle.free t).1] at hposting
      cases hposting
    have hrun : ((s.object o).thread t).run = .idle := by
      by_contra hbusy
      obtain ⟨⟨q, count, hworker⟩, -⟩ := h.control.running t o hbusy
      exact hidle.workers t q count hworker
    cases hth : (s.object o).thread t
    simp_all
  have hquiescent : SerializeObject.Quiescent (s.view o) := ⟨hidle.entries o, hthread⟩
  have huncounted : ∀ t, (((s.view o).serializer).thread t).uncounted = 0 := by
    intro t
    rw [hquiescent.2 t]
    rfl
  have hempty : (s.object o).que = [] :=
    ((h.scheduled o).quiet hquiescent.tokens_eq huncounted).1
  have horder := (h.ordered o).inOrder.order
  rw [hempty, List.append_nil] at horder
  exact ⟨hempty, horder⟩

omit [NeZero n] in
theorem Inv.delivers (h : Inv s) : Delivers s where
  single o := (h.scheduled o).singleRunner
  inOrder o := (h.ordered o).inOrder
  onWorker := h.control.running
  settled := h.settled

theorem executor_delivers (ls : List (Label Tid Obj Task)) (s : State n Tid Obj Task)
    (hthrow : ∀ l ∈ ls, l.isThrow = false)
    (hok : Along (fun s l => StopsQuietly s l ∧ SizesFit s l) step (init n) ls)
    (hrun : exec step (init n) ls = some s) : Delivers s := by
  have hall : Along (fun s l => (StopsQuietly s l ∧ SizesFit s l) ∧ l.isThrow = false) step
      (init n) ls :=
    hok.and (Transition.along_label hthrow)
  have hinv : Inv s := exec_invariant_along
    (fun _ _ _ h hok hs => h.step hok.2 hok.1.1 hok.1.2 hs) init_inv hall hrun
  exact hinv.delivers

end Scheduling

section Runs

open TaskSerializer (Caller)

instance (s : State n Caller Bool ℕ) (l : Label Caller Bool ℕ) : Decidable (StopsQuietly s l) :=
  match l with
  | .context c => inferInstanceAs (Decidable (Context.StopsQuietly s.context c))
  | .mailbox _ _ => isTrue trivial

instance (s : State n Caller Bool ℕ) (l : Label Caller Bool ℕ) : Decidable (SizesFit s l) :=
  match l with
  | .context _ => isTrue trivial
  | .mailbox o a => inferInstanceAs (Decidable (TaskSerializer.SizeFitsIndex (s.object o) a))

def turn : List (Label Caller Bool ℕ) :=
  [.context (.testStop .runner), .context (.swapIndex .runner), .context (.load .runner),
    .context (.exchange .runner), .context (.push .runner), .context (.pop .runner),
    .context (.popObject .runner)]

def post (t : Caller) (o : Bool) (task : ℕ) : List (Label Caller Bool ℕ) :=
  [.mailbox o (.link t task), .mailbox o (.addSize t), .mailbox o (.addTaskCount t),
    .mailbox o (.onPost t), .context (.postLoad t), .context (.postPush t)]

def finish (o : Bool) : List (Label Caller Bool ℕ) :=
  [.mailbox o (.taskReturns .runner), .mailbox o (.pop .runner),
    .mailbox o (.subTaskCount .runner), .mailbox o (.onRun .runner),
    .context (.objectRuns .runner 1), .context (.popObject .runner)]

def relay : List (Label Caller Bool ℕ) :=
  post .poster false 10 ++ [.context (.enter .runner 4)] ++ turn ++ turn ++
    [.mailbox false (.getSize .runner), .mailbox false (.pop .runner)] ++
    post .runner true 20 ++ finish false ++ turn ++ turn ++
    [.mailbox true (.getSize .runner), .mailbox true (.pop .runner)] ++ finish true

theorem relay_delivers : ∃ s : State 1 Caller Bool ℕ,
    exec step (init 1) relay = some s ∧ Delivers s ∧
      (s.object false).executed.map TaskSerializer.Posted.task = [10] ∧
      (s.object true).executed.map TaskSerializer.Posted.task = [20] := by
  have h : (exec step (init 1 : State 1 Caller Bool ℕ) relay).map (fun s =>
      ((s.object false).executed.map TaskSerializer.Posted.task,
        (s.object true).executed.map TaskSerializer.Posted.task)) = some ([10], [20]) := by
    decide +kernel
  obtain ⟨s, hrun, hs⟩ := Option.map_eq_some_iff.mp h
  obtain ⟨hfirst, hsecond⟩ := Prod.mk.inj hs
  exact ⟨s, hrun, executor_delivers relay s (by decide) (by decide +kernel) hrun, hfirst, hsecond⟩

end Runs

end Bugat.Executor
