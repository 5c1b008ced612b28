import Mathlib
import Bugat.Base.ContextOwnership

/-!
# Stopping a Context

A worker that finds `_stop` set deletes the SerializerQueue in its hand. A Post that has read
the slot of that queue may still push into it: before the deletion, and its object is dropped,
or after it. Only a queue in a slot can be read, so what a Post holds when the worker stops is
all that can go wrong.
-/

namespace Bugat.Context

open Transition (exec Along exec_invariant_along)

variable {n : ℕ} {Tid Pid Obj : Type*}

def PostPc.target : PostPc n Obj → Option Addr
  | .push que _ => que
  | .idle | .load _ _ => none

def WorkerPc.doomed : WorkerPc n Obj → Option Addr
  | .stopped localQue => localQue
  | _ => none

def State.Vacant (s : State n Tid Pid Obj) (a : Addr) : Prop := ∀ x ∈ s.content a, x = none

instance [DecidableEq Obj] (s : State n Tid Pid Obj) (a : Addr) : Decidable (s.Vacant a) :=
  inferInstanceAs (Decidable (∀ _ ∈ _, _))

def State.Quiet (s : State n Tid Pid Obj) (a : Addr) : Prop :=
  s.Vacant a ∧ ∀ p, (s.poster p).target ≠ some a

instance [Fintype Pid] [DecidableEq Obj] (s : State n Tid Pid Obj) (a : Addr) :
    Decidable (s.Quiet a) :=
  inferInstanceAs (Decidable (_ ∧ _))

/-- A worker that finds `_stop` set has a queue in its hand that no Post is about to use. -/
def StopsQuietly (s : State n Tid Pid Obj) : Label Tid Pid Obj → Prop
  | .testStop t =>
    match s.worker t with
    | .top (some a) => s.stop = true → s.Quiet a
    | _ => True
  | _ => True

instance [Fintype Pid] [DecidableEq Obj] (s : State n Tid Pid Obj) :
    DecidablePred (StopsQuietly s) := fun l => by
  unfold StopsQuietly
  split
  · split <;> infer_instance
  · infer_instance

/-- A Post pushes into a SerializerQueue that lives and has lived since the slot was read, and
a worker deletes one that holds no object. -/
structure Sound (s : State n Tid Pid Obj) : Prop where
  pushes : ∀ p que obj, s.poster p = .push que obj → ∃ a ∈ s.live, que = some a
  deletes : ∀ t a, s.worker t = .stopped (some a) → s.Vacant a

structure Guarded (s : State n Tid Pid Obj) : Prop where
  pushes : ∀ p que obj, s.poster p = .push que obj → ∃ a ∈ s.live, que = some a
  doomed : ∀ t a, (s.worker t).doomed = some a → s.Quiet a

theorem WorkerPc.doomed_eq_some {pc : WorkerPc n Obj} {a : Addr} :
    pc.doomed = some a ↔ pc = .stopped (some a) := by
  cases pc with
  | stopped localQue => simp [WorkerPc.doomed]
  | _ => simp [WorkerPc.doomed]

theorem Guarded.sound {s : State n Tid Pid Obj} (h : Guarded s) : Sound s := by
  refine ⟨h.pushes, fun t a ht => (h.doomed t a ?_).1⟩
  exact WorkerPc.doomed_eq_some.mpr ht

theorem target_eq_some {pc : PostPc n Obj} {a : Addr} :
    pc.target = some a ↔ ∃ obj, pc = .push (some a) obj := by
  cases pc with
  | idle | load i obj => simp [PostPc.target]
  | push que obj => simp [PostPc.target]

section Steps

variable [DecidableEq Tid] [DecidableEq Pid] [NeZero n] {s s' : State n Tid Pid Obj}
  {l : Label Tid Pid Obj} {t : Tid} {a : Addr} {pc : WorkerPc n Obj}

inductive Touch (s : State n Tid Pid Obj) (l : Label Tid Pid Obj) (s' : State n Tid Pid Obj) : Prop
  | frame (hposter : ∀ p que obj, s'.poster p = .push que obj → s.poster p = .push que obj)
      (hcontent : ∀ a, s.Vacant a → s'.Vacant a) (hlive : s'.live = s.live)
      (hdoomed : ∀ t a, (s'.worker t).doomed = some a → (s.worker t).doomed = some a)
  | enter (a : Addr) (hposter : s'.poster = s.poster)
      (hcontent : s'.content = Function.update s.content a []) (hlive : s'.live = insert a s.live)
      (hdoomed : ∀ t a, (s'.worker t).doomed = some a → (s.worker t).doomed = some a)
  | stop (t : Tid) (localQue : Option Addr) (hl : l = .testStop t)
      (ht : s.worker t = .top localQue) (hstop : s.stop = true)
      (hs : s' = s.setWorker t (.stopped localQue))
  | delete (t : Tid) (a : Addr) (ht : (s.worker t).doomed = some a) (hposter : s'.poster = s.poster)
      (hcontent : s'.content = s.content) (hlive : s'.live = s.live.erase a)
      (hdoomed : ∀ t a, (s'.worker t).doomed = some a → (s.worker t).doomed = some a)
  | load (p : Pid) (i : Fin n) (obj : Option Obj)
      (hs : s' = s.setPoster p (.push (s.globalQue i) obj))
  | push (p : Pid) (a : Addr) (obj : Option Obj) (hp : s.poster p = .push (some a) obj)
      (hs : s' = { s.setPoster p .idle with
        content := Function.update s.content a (s.content a ++ [obj]) })

omit [DecidableEq Pid] [NeZero n] in
theorem doomed_update (hpc : pc.doomed = none) (u : Tid) (b : Addr)
    (h : (Function.update s.worker t pc u).doomed = some b) : (s.worker u).doomed = some b := by
  by_cases hu : u = t
  · subst hu
    rw [Function.update_self, hpc] at h
    cases h
  · rwa [Function.update_of_ne hu] at h

omit [DecidableEq Tid] [NeZero n] in
theorem push_of_update {p q : Pid} {pc : PostPc n Obj} {que : Option Addr} {obj : Option Obj}
    (hpc : ∀ que obj, pc ≠ .push que obj)
    (hq : Function.update s.poster p pc q = .push que obj) : s.poster q = .push que obj := by
  by_cases hqp : q = p
  · rw [hqp, Function.update_self] at hq
    exact absurd hq (hpc que obj)
  · rwa [Function.update_of_ne hqp] at hq

omit [NeZero n] in
theorem worker_touch (hpc : pc.doomed = none) : Touch s l (s.setWorker t pc) :=
  .frame (fun _ _ _ h => h) (fun _ h => h) rfl (doomed_update hpc)

omit [NeZero n] in
theorem exchange_touch {localQue expect : Option Addr} {i : Fin n} :
    Touch s l (s.exchange t localQue i expect) := by
  rw [State.exchange]
  split
  · exact .frame (fun _ _ _ h => h) (fun _ h => h) rfl (doomed_update rfl)
  · exact worker_touch rfl

omit [NeZero n] in
theorem pop_touch {localQue : Option Addr} : Touch s l (s.pop t localQue) := by
  rw [State.pop]
  split
  · exact worker_touch rfl
  · exact .frame (fun _ _ _ h => h) (fun _ h => h) rfl (doomed_update rfl)

omit [NeZero n] in
theorem popObject_touch {count : ℕ} : Touch s l (s.popObject t a count) := by
  have hrest : ∀ {x : Option Obj} {rest : List (Option Obj)}, s.content a = x :: rest →
      ∀ b, s.Vacant b → ∀ y ∈ Function.update s.content a rest b, y = none := by
    intro x rest ha b hb
    by_cases hba : b = a
    · subst hba
      rw [Function.update_self]
      exact fun y hy => hb y (ha ▸ List.mem_cons_of_mem x hy)
    · rwa [Function.update_of_ne hba]
  rw [State.popObject]
  split
  · exact .frame (fun _ _ _ h => h) (fun _ h => h) rfl (doomed_update rfl)
  · exact .frame (fun _ _ _ h => h) (hrest ‹_›) rfl fun _ _ h => h
  · exact .frame (fun _ _ _ h => h) (hrest ‹_›) rfl (doomed_update rfl)

theorem step_touch (h : step s l = some s') : Touch s l s' := by
  cases l with
  | enter t a =>
    simp only [step] at h
    split at h
    · split at h
      · cases h
      · obtain rfl := Option.some.inj h
        exact .enter a rfl rfl rfl (doomed_update rfl)
    · cases h
  | testStop t =>
    simp only [step] at h
    split at h
    · rename_i localQue ht
      split at h
      · exact .stop t localQue rfl ht ‹_› (Option.some.inj h).symm
      split at h
      · obtain rfl := Option.some.inj h
        exact worker_touch rfl
      · obtain rfl := Option.some.inj h
        exact worker_touch rfl
    · cases h
  | swapIndex t =>
    simp only [step] at h
    split at h
    · obtain rfl := Option.some.inj h
      exact .frame (fun _ _ _ h => h) (fun _ h => h) rfl (doomed_update rfl)
    · cases h
  | load t =>
    simp only [step] at h
    split at h
    · obtain rfl := Option.some.inj h
      exact worker_touch rfl
    · cases h
  | exchange t =>
    simp only [step] at h
    split at h
    · obtain rfl := Option.some.inj h
      exact exchange_touch
    · cases h
  | push t =>
    simp only [step] at h
    split at h
    · obtain rfl := Option.some.inj h
      exact .frame (fun _ _ _ h => h) (fun _ h => h) rfl (doomed_update rfl)
    · cases h
  | pop t =>
    simp only [step] at h
    split at h
    · obtain rfl := Option.some.inj h
      exact pop_touch
    · cases h
  | popObject t =>
    simp only [step] at h
    split at h
    · obtain rfl := Option.some.inj h
      exact popObject_touch
    · cases h
  | objectRuns t executed =>
    simp only [step] at h
    split at h
    · obtain rfl := Option.some.inj h
      exact worker_touch rfl
    · cases h
  | objectThrows t =>
    simp only [step] at h
    split at h
    · obtain rfl := Option.some.inj h
      exact worker_touch rfl
    · cases h
  | delete t =>
    simp only [step] at h
    split at h
    · obtain rfl := Option.some.inj h
      exact worker_touch rfl
    · rename_i a ht
      obtain rfl := Option.some.inj h
      exact .delete t a (by rw [ht]; rfl) rfl rfl rfl (doomed_update rfl)
    · cases h
  | post p obj =>
    simp only [step] at h
    split at h
    · obtain rfl := Option.some.inj h
      exact .frame (fun _ _ _ => push_of_update fun _ _ heq => by cases heq) (fun _ h => h) rfl
        fun _ _ h => h
    · cases h
  | postLoad p =>
    simp only [step] at h
    split at h
    · exact .load p _ _ (Option.some.inj h).symm
    · cases h
  | postPush p =>
    simp only [step] at h
    split at h
    · exact .push p _ _ ‹_› (Option.some.inj h).symm
    · cases h
  | stop =>
    obtain rfl := Option.some.inj h
    exact .frame (fun _ _ _ h => h) (fun _ h => h) rfl fun _ _ h => h

end Steps

section Runs

variable [Fintype Tid] {s s' : State n Tid Pid Obj} {t : Tid} {a : Addr}

theorem WorkerPc.doomed_hand {pc : WorkerPc n Obj} (h : pc.doomed = some a) :
    pc.hand = some a := by
  rw [WorkerPc.doomed_eq_some.mp h]
  rfl

theorem Owned.slot_ne_hand (h : Owned s) (i : Fin n) (ht : (s.worker t).hand = some a) :
    s.globalQue i ≠ some a := by
  intro hi
  have hplaces := h.places a
  have hslot : pointsTo a (s.globalQue i) ≤ ∑ j, pointsTo a (s.globalQue j) :=
    Counting.le_sum s.globalQue (pointsTo a) i
  have hhand : pointsTo a (s.worker t).hand ≤ ∑ u, pointsTo a (s.worker u).hand :=
    Counting.le_sum s.worker (fun pc => pointsTo a pc.hand) t
  rw [hi, pointsTo_some, if_pos rfl] at hslot
  rw [ht, pointsTo_some, if_pos rfl] at hhand
  rw [State.places] at hplaces
  split at hplaces
  · omega
  · omega

omit [Fintype Tid] in
theorem initializeContext_guarded : Guarded (initializeContext n : State n Tid Pid Obj) := by
  have hloop : ∀ (todo : List (Fin n)) (s : State n Tid Pid Obj),
      (todo.foldl State.initSlot s).poster = s.poster ∧
        (todo.foldl State.initSlot s).worker = s.worker := by
    intro todo
    induction todo with
    | nil => exact fun s => ⟨rfl, rfl⟩
    | cons i todo ih => exact fun s => ih (s.initSlot i)
  obtain ⟨hposter, hworker⟩ := hloop (List.finRange n) construct
  refine ⟨fun p que obj hp => ?_, fun t a ht => ?_⟩
  · rw [initializeContext, hposter] at hp
    cases hp
  · rw [initializeContext, hworker] at ht
    cases ht

variable [DecidableEq Tid] [DecidableEq Pid] {l : Label Tid Pid Obj}

theorem Guarded.load (h : Guarded s) (hown : Owned s) (p : Pid) (i : Fin n) (obj : Option Obj) :
    Guarded (s.setPoster p (.push (s.globalQue i) obj)) := by
  constructor
  · intro q que obj' hq
    change Function.update s.poster p _ q = _ at hq
    by_cases hqp : q = p
    · rw [hqp, Function.update_self] at hq
      obtain ⟨a, ha, hslot⟩ := hown.exclusive.slot_live i
      obtain ⟨rfl, -⟩ := PostPc.push.inj hq
      exact ⟨a, ha, hslot⟩
    · rw [Function.update_of_ne hqp] at hq
      exact h.pushes q que obj' hq
  · intro u b hu
    obtain ⟨hempty, htarget⟩ := h.doomed u b hu
    refine ⟨hempty, fun q => ?_⟩
    change (Function.update s.poster p _ q).target ≠ some b
    by_cases hqp : q = p
    · rw [hqp, Function.update_self]
      exact hown.slot_ne_hand i (WorkerPc.doomed_hand hu)
    · rw [Function.update_of_ne hqp]
      exact htarget q

omit [Fintype Tid] [DecidableEq Tid] in
theorem Guarded.push (h : Guarded s) {p : Pid} {obj : Option Obj}
    (hp : s.poster p = .push (some a) obj) : Guarded { s.setPoster p .idle with
      content := Function.update s.content a (s.content a ++ [obj]) } := by
  have hidle : ∀ q que obj', Function.update s.poster p .idle q = .push que obj' →
      s.poster q = .push que obj' := fun q que obj' => push_of_update fun _ _ heq => by cases heq
  constructor
  · exact fun q que obj' hq => h.pushes q que obj' (hidle q que obj' hq)
  · intro u b hu
    obtain ⟨hempty, htarget⟩ := h.doomed u b hu
    have hba : b ≠ a := by
      rintro rfl
      exact htarget p (target_eq_some.mpr ⟨obj, hp⟩)
    constructor
    · change ∀ x ∈ Function.update s.content a _ b, x = none
      rwa [Function.update_of_ne hba]
    · intro q hq
      obtain ⟨obj', hpush⟩ := target_eq_some.mp hq
      exact htarget q (target_eq_some.mpr ⟨obj', hidle q _ obj' hpush⟩)

theorem Guarded.of_touch (h : Guarded s) (hown : Owned s)
    (hquiet : StopsQuietly s l) (htouch : Touch s l s') : Guarded s' := by
  cases htouch with
  | frame hposter hcontent hlive hdoomed =>
    refine ⟨fun p que obj hp => hlive ▸ h.pushes p que obj (hposter p que obj hp), ?_⟩
    intro t a ht
    obtain ⟨hempty, htarget⟩ := h.doomed t a (hdoomed t a ht)
    refine ⟨hcontent a hempty, fun p hp => htarget p ?_⟩
    obtain ⟨obj, hpush⟩ := target_eq_some.mp hp
    exact target_eq_some.mpr ⟨obj, hposter p _ obj hpush⟩
  | enter a hposter hcontent hlive hdoomed =>
    refine ⟨fun p que obj hp => ?_, fun t b ht => ?_⟩
    · rw [hposter] at hp
      obtain ⟨b, hb, rfl⟩ := h.pushes p que obj hp
      exact ⟨b, hlive ▸ Finset.mem_insert_of_mem hb, rfl⟩
    · obtain ⟨hempty, htarget⟩ := h.doomed t b (hdoomed t b ht)
      refine ⟨?_, hposter ▸ htarget⟩
      rw [State.Vacant, hcontent]
      by_cases hba : b = a
      · rw [hba, Function.update_self]
        exact fun x hx => absurd hx List.not_mem_nil
      · rwa [Function.update_of_ne hba]
  | stop t localQue hl ht hstop hs =>
    subst hl hs
    refine ⟨h.pushes, fun u b hu => ?_⟩
    change (Function.update s.worker t _ u).doomed = some b at hu
    by_cases hut : u = t
    · rw [hut, Function.update_self] at hu
      obtain rfl : localQue = some b := hu
      rw [StopsQuietly, ht] at hquiet
      exact hquiet hstop
    · rw [Function.update_of_ne hut] at hu
      exact h.doomed u b hu
  | delete t a ht hposter hcontent hlive hdoomed =>
    refine ⟨fun p que obj hp => ?_, fun u b hu => ?_⟩
    · rw [hposter] at hp
      obtain ⟨b, hb, rfl⟩ := h.pushes p que obj hp
      refine ⟨b, ?_, rfl⟩
      rw [hlive]
      refine Finset.mem_erase.mpr ⟨?_, hb⟩
      rintro rfl
      exact (h.doomed t b ht).2 p (target_eq_some.mpr ⟨obj, hp⟩)
    · obtain ⟨hempty, htarget⟩ := h.doomed u b (hdoomed u b hu)
      refine ⟨?_, hposter ▸ htarget⟩
      rwa [State.Vacant, hcontent]
  | load p i obj hs => exact hs ▸ h.load hown p i obj
  | push p a obj hp hs => exact hs ▸ h.push hp

variable [NeZero n]

theorem Guarded.step (h : Guarded s) (hown : Owned s) (hquiet : StopsQuietly s l)
    (hs : step s l = some s') : Guarded s' :=
  h.of_touch hown hquiet (step_touch hs)

theorem stop_sound (ls : List (Label Tid Pid Obj)) (s : State n Tid Pid Obj)
    (hquiet : Along StopsQuietly step (initializeContext n) ls)
    (hrun : exec step (initializeContext n) ls = some s) : Sound s := by
  have hstep : ∀ (s : State n Tid Pid Obj) l s', (Owned s ∧ Guarded s) → StopsQuietly s l →
      Context.step s l = some s' → Owned s' ∧ Guarded s' := by
    rintro s l s' ⟨hown, hguard⟩ hquiet hs
    exact ⟨hown.of_move (step_move hs), hguard.step hown hquiet hs⟩
  have hstart : Owned (initializeContext n : State n Tid Pid Obj) ∧
      Guarded (initializeContext n : State n Tid Pid Obj) :=
    ⟨initializeContext_owned, initializeContext_guarded⟩
  exact (exec_invariant_along hstep hstart hquiet hrun).2.sound

omit [Fintype Tid] in
/-- A worker that does not stop quietly is unsound once it has deleted its queue. -/
theorem unquiet_stop_unsound (ht : s.worker t = .top (some a)) (hstop : s.stop = true)
    (hnot : ¬ s.Quiet a) : ∃ ls s', exec step s (.testStop t :: ls) = some s' ∧ ¬ Sound s' := by
  set u := s.setWorker t (.stopped (some a)) with hu
  have hstopped : step s (.testStop t) = some u := by
    simp only [step, ht, hstop, if_true, hu]
  have hworker : u.worker t = .stopped (some a) := Function.update_self t _ s.worker
  by_cases hvacant : s.Vacant a
  · obtain ⟨p, hp⟩ := not_forall.mp fun h => hnot ⟨hvacant, h⟩
    obtain ⟨obj, hpush⟩ := target_eq_some.mp (not_not.mp hp)
    have hdeleted : step u (.delete t) =
        some { u.setWorker t .outside with live := u.live.erase a } := by
      simp only [step, hworker]
    refine ⟨[.delete t], _, Transition.exec_cons_eq_some.mpr ⟨u, hstopped,
      Transition.exec_cons_eq_some.mpr ⟨_, hdeleted, rfl⟩⟩, fun hsound => ?_⟩
    obtain ⟨b, hb, heq⟩ := hsound.pushes p (some a) obj hpush
    obtain rfl := Option.some.inj heq
    exact Finset.notMem_erase a s.live hb
  · refine ⟨[], u, Transition.exec_cons_eq_some.mpr ⟨u, hstopped, rfl⟩, fun hsound => ?_⟩
    exact hvacant (hsound.deletes t a hworker)

def drained : List (Label Unit Unit ℕ) :=
  [.enter () 4, .post () (some 7), .postLoad (), .postPush (), .testStop (), .swapIndex (),
    .load (), .exchange (), .push (), .pop (), .popObject (), .testStop (), .swapIndex (), .load (),
    .exchange (), .push (), .pop (), .popObject (), .objectRuns () 1, .popObject (), .stop,
    .testStop (), .delete ()]

theorem drained_sound : ∃ s : State 1 Unit Unit ℕ,
    exec step (initializeContext 1) drained = some s ∧ Sound s ∧ s.live = {2, 4} := by
  have h : (exec step (initializeContext 1 : State 1 Unit Unit ℕ) drained).map State.live =
      some {2, 4} := by
    decide
  obtain ⟨s, hrun, hs⟩ := Option.map_eq_some_iff.mp h
  exact ⟨s, hrun, stop_sound drained s (by decide) hrun, hs⟩

/-- The worker swaps the queue that a Post has read out of its slot, drains it and finds `_stop`
set. -/
def overtakenPost : List (Label Unit Unit ℕ) :=
  [.enter () 4, .post () (some 7), .postLoad (), .testStop (), .swapIndex (), .load (),
    .exchange (), .push (), .pop (), .popObject (), .testStop (), .swapIndex (), .load (),
    .exchange (), .push (), .pop (), .popObject (), .stop, .testStop ()]

theorem overtakenPost_unsound :
    (∃ s s' : State 1 Unit Unit ℕ,
      exec step (initializeContext 1) (overtakenPost ++ [.delete ()]) = some s ∧
      (s.poster ()).target = some 1 ∧ 1 ∉ s.live ∧ step s (.postPush ()) = some s' ∧ ¬ Sound s) ∧
    ∃ s s' : State 1 Unit Unit ℕ,
      exec step (initializeContext 1) (overtakenPost ++ [.postPush ()]) = some s ∧
      (s.worker ()).doomed = some 1 ∧ s.content 1 = [some 7] ∧ step s (.delete ()) = some s' ∧
      ¬ Sound s := by
  constructor
  · have h : (exec step (initializeContext 1 : State 1 Unit Unit ℕ)
        (overtakenPost ++ [.delete ()])).map (fun s => decide ((s.poster ()).target = some 1 ∧
          1 ∉ s.live ∧ (step s (.postPush ())).isSome)) = some true := by
      decide
    obtain ⟨s, hrun, hs⟩ := Option.map_eq_some_iff.mp h
    obtain ⟨htarget, hlive, hpush⟩ := of_decide_eq_true hs
    refine ⟨s, _, hrun, htarget, hlive, (Option.some_get hpush).symm, fun hsound => ?_⟩
    obtain ⟨obj, hposter⟩ := target_eq_some.mp htarget
    obtain ⟨a, ha, heq⟩ := hsound.pushes () (some 1) obj hposter
    exact hlive (Option.some.inj heq ▸ ha)
  · have h : (exec step (initializeContext 1 : State 1 Unit Unit ℕ)
        (overtakenPost ++ [.postPush ()])).map (fun s => decide ((s.worker ()).doomed = some 1 ∧
          s.content 1 = [some 7] ∧ (step s (.delete ())).isSome)) = some true := by
      decide
    obtain ⟨s, hrun, hs⟩ := Option.map_eq_some_iff.mp h
    obtain ⟨hdoomed, hcontent, hdelete⟩ := of_decide_eq_true hs
    refine ⟨s, _, hrun, hdoomed, hcontent, (Option.some_get hdelete).symm, fun hsound => ?_⟩
    have hvacant := hsound.deletes () 1 (WorkerPc.doomed_eq_some.mp hdoomed)
    have hnone := hvacant (some 7) (hcontent ▸ List.mem_singleton_self (some 7))
    cases hnone

end Runs

end Bugat.Context
