import Mathlib
import Bugat.Core.TSharedPtrSteps
import Bugat.Lib.Transition

/-!
# Runs of programs over TSharedPtr

A program whose operations do not start on a handle that is in the middle of another
operation of the same thread keeps exact counts. `Reset` clears its handle after the
deletion, so a handle that lives in the object that it releases breaks them.
-/

open scoped BigOperators

namespace Bugat.TSharedPtr

open Transition (exec Along)

variable {Hdl Obj Tid : Type*} [DecidableEq Hdl] [DecidableEq Obj] [Fintype Tid] [DecidableEq Tid]

/-- No operation starts on a handle that an operation of the same thread is changing. -/
def NonReentrant (s : State Hdl Obj Tid) (l : Tid × Action Hdl Obj) : Prop :=
  ∀ f ∈ s.thread l.1, ∀ h ∈ l.2.uses, h ∉ f.held

instance (s : State Hdl Obj Tid) (l : Tid × Action Hdl Obj) : Decidable (NonReentrant s l) :=
  inferInstanceAs (Decidable (∀ _, _))

/-- No source handle of an assignment goes away with an object that the assignment
releases. -/
def SourceOutside (s : State Hdl Obj Tid) (l : Tid × Action Hdl Obj) : Prop :=
  ∀ f ∈ s.thread l.1, ∀ h ∈ l.2.kills, h ∉ f.sources

instance (s : State Hdl Obj Tid) (l : Tid × Action Hdl Obj) : Decidable (SourceOutside s l) :=
  inferInstanceAs (Decidable (∀ _, _))

def Frame.clears : Frame Hdl Obj → Option Hdl
  | .clear h _ => some h
  | _ => none

def Clearing (s : State Hdl Obj Tid) (h : Hdl) : Prop :=
  ∃ t, ∃ f ∈ s.thread t, f.clears = some h

instance (s : State Hdl Obj Tid) (h : Hdl) : Decidable (Clearing s h) :=
  inferInstanceAs (Decidable (∃ _, _))

def holders (s : State Hdl Obj Tid) (o : Obj) : Finset Hdl :=
  s.shared.live.filter fun h => s.shared.ptr h = some o ∧ ¬ Clearing s h

def Frame.counts (u : Shared Hdl Obj) : Frame Hdl Obj → Option Obj
  | .reset h _ => u.ptr h
  | .finish _ after => after.adds.bind u.ptr
  | _ => none

/-- The objects that an operation accesses: by a count, by the release, and by the handles
that are fields of an object. -/
def Frame.touches (u : Shared Hdl Obj) (f : Frame Hdl Obj) : List Obj :=
  (f.counts u).toList ++ f.objs ++ f.uses.filterMap u.home

/-- `released` counts the runs of the deleter or of `delete` of an object together with the
operations in front of one. -/
structure Exact (s : State Hdl Obj Tid) : Prop where
  count : ∀ o, s.shared.refCount o = (holders s o).card
  released : ∀ o, s.shared.status o ≠ .unborn →
    (s.shared.deleted.map Prod.fst).count o + ∑ t, (s.thread t).count (.drop o) =
      if holders s o = ∅ then 1 else 0
  deleter : ∀ p ∈ s.shared.deleted, p.2 = s.shared.deleter p.1
  counted : ∀ t, ∀ f ∈ (s.thread t).head?, ∀ o ∈ f.counts s.shared, s.shared.status o = .alive
  touched : ∀ t, ∀ f ∈ (s.thread t).head?, ∀ o ∈ f.touches s.shared,
    s.shared.status o = .alive ∨ s.shared.status o = .dropped
  live : ∀ t, ∀ h ∈ uses (s.thread t), h ∈ s.shared.live
  home : ∀ h ∈ s.shared.live, ∀ o ∈ s.shared.home h,
    s.shared.status o = .alive ∨ s.shared.status o = .dropped

structure Reached (s : State Hdl Obj Tid) : Prop where
  holds : Threads.Holds (fun _ : Unit => Inv) (fun _ => StackOk) Apart s
  settled : ∀ h ∈ s.shared.live, s.shared.Settled h ∨ Clearing s h
  pending : ∀ o, s.shared.status o = .alive → s.shared.refCount o ≠ 0 ∨ ∃ t, .drop o ∈ s.thread t

variable {s s' : State Hdl Obj Tid} {h : Hdl} {o : Obj} {t : Tid} {st : Stack Hdl Obj}

omit [DecidableEq Hdl] [DecidableEq Obj] [Fintype Tid] [DecidableEq Tid] in
theorem clearing_iff : Clearing s h ↔ ∃ t after, .clear h after ∈ s.thread t := by
  refine ⟨fun ⟨t, f, hf, hclears⟩ => ?_, fun ⟨t, after, hf⟩ => ⟨t, _, hf, rfl⟩⟩
  cases f with
  | clear h' after =>
    obtain rfl := Option.some.inj hclears
    exact ⟨t, after, hf⟩
  | reset h' after | finish h' after | drop o | body o | fields o => cases hclears

omit [DecidableEq Hdl] [DecidableEq Obj] in
theorem Frame.clears_held {f : Frame Hdl Obj} (hh : f.clears = some h) : h ∈ f.held := by
  cases f with
  | clear h' after =>
    obtain rfl := Option.some.inj hh
    exact List.mem_singleton_self h'
  | reset h' after | finish h' after | drop o | body o | fields o => cases hh

omit [DecidableEq Hdl] [Fintype Tid] [DecidableEq Tid] in
theorem init_reached : Reached (init : State Hdl Obj Tid) where
  holds := ⟨⟨(), ⟨fun _ => rfl, fun _ => Int.le.intro_sub _ rfl,
      fun _ hlive => absurd hlive (Finset.notMem_empty _),
      fun _ hlive => absurd hlive (Finset.notMem_empty _), fun _ => by simp [init, Shared.init],
      List.nodup_nil, fun _ hp => absurd hp List.not_mem_nil⟩, fun _ => stackOk_nil⟩,
    fun _ _ _ => ⟨fun _ hh => absurd hh List.not_mem_nil, fun _ ho => absurd ho List.not_mem_nil⟩⟩
  settled h hlive := absurd hlive (Finset.notMem_empty _)
  pending o halive := by cases halive

omit [DecidableEq Hdl] [DecidableEq Obj] [Fintype Tid] in
theorem mem_thread_update {rest top push : Stack Hdl Obj} {f : Frame Hdl Obj} {v : Tid}
    (hst : s.thread t = top ++ rest) (hf : f ∈ s.thread v) (htop : f ∈ top → v ≠ t) :
    f ∈ Function.update s.thread t (push ++ rest) v := by
  by_cases hv : v = t
  · subst hv
    rw [Function.update_self]
    rw [hst] at hf
    exact List.mem_append_right _ ((List.mem_append.mp hf).resolve_left fun h => htop h rfl)
  · rw [Function.update_of_ne hv]
    exact hf

omit [DecidableEq Hdl] [DecidableEq Obj] [Fintype Tid] in
theorem mem_thread_self {rest push : Stack Hdl Obj} {f : Frame Hdl Obj} (hf : f ∈ push) :
    f ∈ Function.update s.thread t (push ++ rest) t := by
  rw [Function.update_self]
  exact List.mem_append_left _ hf

omit [DecidableEq Hdl] [DecidableEq Obj] in
theorem Action.kills_uses {a : Action Hdl Obj} (hh : h ∈ a.kills) : h ∈ a.uses := by
  cases a with
  | go => cases hh
  | field h' =>
    obtain rfl := Option.some.inj hh
    exact List.mem_singleton_self h'
  | call op =>
    cases op with
    | destroy h' | sharedDrop h' =>
      obtain rfl := Option.some.inj hh
      exact List.mem_singleton_self h'
    | _ => cases hh

omit [Fintype Tid] [DecidableEq Hdl] in
theorem Reached.settled_of_unused (hr : Reached s) (hlive : h ∈ s.shared.live)
    (hothers : ∀ v, v ≠ t → h ∉ uses (s.thread v))
    (hmine : ∀ f ∈ s.thread t, f.clears ≠ some h) : s.shared.Settled h := by
  refine (hr.settled h hlive).resolve_right ?_
  rintro ⟨v, f, hf, hclears⟩
  by_cases hv : v = t
  · exact hmine f (hv ▸ hf) hclears
  · exact hothers v hv (mem_uses hf (List.mem_append_left _ (Frame.clears_held hclears)))

omit [Fintype Tid] [DecidableEq Hdl] in
theorem Reached.top_sources_settled (hr : Reached s) {f : Frame Hdl Obj}
    (hf : f ∈ (s.thread t).head?) {src : Hdl} (hsrc : src ∈ f.sources) :
    s.shared.Settled src := by
  obtain ⟨-, -, hok⟩ := hr.holds.asserted
  have hmem : f ∈ s.thread t := List.mem_of_mem_head? hf
  have huses : src ∈ f.uses := List.mem_append_right _ hsrc
  refine hr.settled_of_unused (t := t) ((hok t).live f hmem src huses) (fun v hv hother => ?_)
    fun g hg hclears => ?_
  · exact (hr.holds.apart v t hv).1 hother (mem_uses hmem huses)
  · obtain ⟨rest, hst⟩ := List.head?_eq_some_iff.mp hf
    have hbelow := (hok t).below
    rw [hst] at hg hbelow
    rcases List.mem_cons.mp hg with rfl | hg
    · have hframe := (hok t).frames g hmem
      cases g with
      | clear h after =>
        obtain rfl := Option.some.inj hclears
        exact hframe.2 hsrc
      | reset h after | finish h after | drop o | body o | fields o => cases hclears
    · exact ((List.pairwise_cons.mp hbelow).1 g hg).held src huses (Frame.clears_held hclears)

theorem Reached.step {l : Tid × Action Hdl Obj} (hr : Reached s) (hnon : NonReentrant s l)
    (hsource : SourceOutside s l) (hroom : NoOverflow s.shared (s.thread l.1))
    (hs : step s l = some s') : Reached s' := by
  rw [TSharedPtr.step] at hs
  split at hs
  · rename_i hown
    obtain ⟨u, st, hact, rfl⟩ := Threads.step_eq_some.mp hs
    have hsettled : ∀ h ∈ l.2.uses, h ∈ s.shared.live → s.shared.Settled h := fun h hh hlive =>
      hr.settled_of_unused hlive (fun v hv => hown v hv h hh) fun f hf hclears =>
        hnon f hf h hh (Frame.clears_held hclears)
    obtain ⟨-, hinv, hok⟩ := hr.holds.asserted
    have hsources : ∀ f ∈ (s.thread l.1).head?, ∀ src ∈ f.sources, s.shared.Settled src :=
      fun f hf src hsrc => hr.top_sources_settled hf hsrc
    obtain ⟨top, push, rest, hst, rfl, hstepped⟩ :=
      act_stepped hinv (hok l.1) hsources hroom hsettled hact
    have hrest : ∀ f ∈ rest, f ∈ s.thread l.1 := fun f hf => hst ▸ List.mem_append_right _ hf
    refine ⟨hr.holds.update (fun _ _ h => h.symm) fun _ _ _ =>
      ⟨(), hstepped.inv, ?_, fun v hv => ?_⟩,
      fun h hlive => ?_, fun o halive => ?_⟩
    · refine hstepped.stackOk (hst ▸ hok l.1) (fun f hf => hnon f (hrest f hf)) ?_
      intro f hf h hkills hmem
      rcases List.mem_append.mp hmem with hheld | hsrc
      · exact hnon f (hrest f hf) h (Action.kills_uses hkills) hheld
      · exact hsource f (hrest f hf) h hkills hsrc
    · have hapart := apart_append.mp (hst ▸ hr.holds.apart l.1 v (Ne.symm hv))
      obtain ⟨hok', hpush⟩ := hstepped.others (hok v) (hown v hv) hapart.1
      exact ⟨hok', apart_append.mpr ⟨hpush, hapart.2⟩⟩
    · rcases hstepped.settled h hlive with hsettled' | ⟨after, hpush⟩ | ⟨hold, hnot, hptr, hcounted⟩
      · exact .inl hsettled'
      · exact .inr (clearing_iff.mpr ⟨l.1, after, mem_thread_self hpush⟩)
      · refine (hr.settled h hold).imp (fun heq => hcounted.trans (heq.trans hptr.symm))
          fun hclearing => ?_
        obtain ⟨v, after, hf⟩ := clearing_iff.mp hclearing
        exact clearing_iff.mpr ⟨v, after, mem_thread_update hst hf fun htop _ => hnot after htop⟩
    · rcases hstepped.pending o halive with hcount | hpush | ⟨hold, hzero, hnot⟩
      · exact .inl hcount
      · exact .inr ⟨l.1, mem_thread_self hpush⟩
      · obtain ⟨v, hf⟩ := (hr.pending o hold).resolve_left fun hne => hne hzero
        exact .inr ⟨v, mem_thread_update hst hf fun htop _ =>
          hnot (mem_objs htop List.mem_cons_self)⟩
  · cases hs

omit [DecidableEq Hdl] [Fintype Tid] [DecidableEq Tid] in
theorem Reached.mem_holders (hr : Reached s) (hlive : h ∈ s.shared.live) :
    s.shared.counted h = some o ↔ s.shared.ptr h = some o ∧ ¬ Clearing s h := by
  obtain ⟨-, hinv, hok⟩ := hr.holds.asserted
  constructor
  · intro hcounted
    refine ⟨(hinv.points h hlive o hcounted).1, fun hclearing => ?_⟩
    obtain ⟨t, after, hf⟩ := clearing_iff.mp hclearing
    exact Option.some_ne_none o (hcounted.symm.trans ((hok t).frames _ hf).1)
  · rintro ⟨hptr, hnot⟩
    exact ((hr.settled h hlive).resolve_right hnot).trans hptr

omit [DecidableEq Tid] in
theorem Reached.holders_eq (hr : Reached s) (o : Obj) : holders s o = s.shared.holders o :=
  Finset.filter_congr fun _ hlive => (hr.mem_holders hlive).symm

omit [DecidableEq Hdl] [Fintype Tid] [DecidableEq Tid] in
theorem Reached.frame_uses (hr : Reached s) {f : Frame Hdl Obj} (hf : f ∈ s.thread t)
    (hh : h ∈ f.uses) : h ∈ s.shared.live := by
  obtain ⟨-, -, hok⟩ := hr.holds.asserted
  exact (hok t).live f hf h hh

omit [Fintype Tid] [DecidableEq Hdl] in
theorem Reached.counts_alive (hr : Reached s) {f : Frame Hdl Obj} (hf : f ∈ (s.thread t).head?)
    (ho : f.counts s.shared = some o) : s.shared.status o = .alive := by
  obtain ⟨-, hinv, hok⟩ := hr.holds.asserted
  have hmem : f ∈ s.thread t := List.mem_of_mem_head? hf
  have hframe := (hok t).frames f hmem
  cases f with
  | reset h after =>
    have hlive := hr.frame_uses hmem List.mem_cons_self
    exact (hinv.points h hlive o (hframe.1.trans ho)).2
  | finish h after =>
    obtain ⟨src, hadds, hptr⟩ := Option.bind_eq_some_iff.mp ho
    have hsrc : src ∈ after.uses := by
      cases after with
      | acquire src' | share src' =>
        obtain rfl := Option.some.inj hadds
        exact List.mem_singleton_self src'
      | done | steal src' | kill => cases hadds
    have hlive := hr.frame_uses hmem (List.mem_cons_of_mem _ hsrc)
    have hsettled := hr.top_sources_settled hf hsrc
    exact (hinv.points src hlive o (hsettled.trans hptr)).2
  | clear h after | drop o' | body o' | fields o' => cases ho

theorem count_drop_le (o : Obj) (st : Stack Hdl Obj) : st.count (.drop o) ≤ (objs st).count o := by
  induction st with
  | nil => exact le_rfl
  | cons f st ih =>
    have hobjs : objs (f :: st) = f.objs ++ objs st := rfl
    rw [hobjs, List.count_append, List.count_cons]
    split
    · rename_i hf
      obtain rfl := beq_iff_eq.mp hf
      have hone : (Frame.drop o : Frame Hdl Obj).objs.count o = 1 := List.count_singleton_self
      omega
    · omega

omit [DecidableEq Tid] in
/-- The release of an object is opened or made once, and not before the last handle goes. -/
theorem Reached.released (hr : Reached s) (hborn : s.shared.status o ≠ .unborn) :
    (s.shared.deleted.map Prod.fst).count o + ∑ t, (s.thread t).count (.drop o) =
      if holders s o = ∅ then 1 else 0 := by
  obtain ⟨-, hinv, hok⟩ := hr.holds.asserted
  have hcount := hinv.count o
  have hdrop : ∀ t, .drop o ∈ s.thread t →
      s.shared.status o = .alive ∧ s.shared.refCount o = 0 := fun t hf => (hok t).frames _ hf
  rw [hr.holders_eq]
  split
  · rename_i hempty
    rw [hempty] at hcount
    have hzero : s.shared.refCount o = 0 := hcount
    cases hstatus : s.shared.status o with
    | unborn => exact absurd hstatus hborn
    | alive =>
      have hnot : o ∉ s.shared.deleted.map Prod.fst := by
        rw [hinv.deleted, hstatus]
        rintro (heq | heq) <;> cases heq
      obtain ⟨t, hf⟩ := (hr.pending o hstatus).resolve_left fun hne => hne hzero
      have hothers : ∀ v ∈ Finset.univ, v ≠ t → (s.thread v).count (.drop o) = 0 := by
        intro v _ hv
        refine List.count_eq_zero.mpr fun hf' => ?_
        exact (hr.holds.apart v t hv).2 (mem_objs hf' List.mem_cons_self)
          (mem_objs hf List.mem_cons_self)
      rw [List.count_eq_zero.mpr hnot, Finset.sum_eq_single t hothers
        fun hnot => absurd (Finset.mem_univ t) hnot, Nat.zero_add]
      have hle := (count_drop_le o (s.thread t)).trans
        (List.nodup_iff_count_le_one.mp (hok t).objs_nodup o)
      have hpos := List.count_pos_iff.mpr hf
      omega
    | dropped | freed =>
      have hmem : o ∈ s.shared.deleted.map Prod.fst := by
        rw [hinv.deleted, hstatus]
        simp
      have hnone : ∀ t ∈ Finset.univ, (s.thread t).count (.drop o) = 0 := by
        refine fun t _ => List.count_eq_zero.mpr fun hf => ?_
        have halive := (hdrop t hf).1
        rw [hstatus] at halive
        cases halive
      rw [List.count_eq_one_of_mem hinv.once hmem, Finset.sum_eq_zero hnone, Nat.add_zero]
  · rename_i hheld
    obtain ⟨h, hh⟩ := Finset.nonempty_iff_ne_empty.mpr hheld
    obtain ⟨hlive, hcounted⟩ := Finset.mem_filter.mp hh
    have hpos := hinv.refCount_pos hlive hcounted
    have halive := (hinv.points h hlive o hcounted).2
    have hnot : o ∉ s.shared.deleted.map Prod.fst := by
      rw [hinv.deleted, halive]
      rintro (heq | heq) <;> cases heq
    have hnone : ∀ t ∈ Finset.univ, (s.thread t).count (.drop o) = 0 := by
      refine fun t _ => List.count_eq_zero.mpr fun hf => ?_
      have hzero := (hdrop t hf).2
      omega
    rw [List.count_eq_zero.mpr hnot, Finset.sum_eq_zero hnone, Nat.add_zero]

theorem Reached.exact (hr : Reached s) : Exact s := by
  obtain ⟨-, hinv, hok⟩ := hr.holds.asserted
  refine ⟨fun o => ?_, fun o => hr.released, hinv.deleter, fun t f hf o => hr.counts_alive hf,
    fun t f hf o ho => ?_, fun t h hh => ?_, hinv.home⟩
  · rw [hr.holders_eq]
    exact hinv.count o
  · rw [Frame.touches, List.append_assoc] at ho
    rcases List.mem_append.mp ho with hcounts | ho
    · exact .inl (hr.counts_alive hf (Option.mem_toList.mp hcounts))
    rcases List.mem_append.mp ho with hobjs | hhome
    · have hframe := (hok t).frames f (List.mem_of_mem_head? hf)
      cases f with
      | drop o' =>
        obtain rfl := List.mem_singleton.mp hobjs
        exact .inl hframe.1
      | body o' | fields o' =>
        obtain rfl := List.mem_singleton.mp hobjs
        exact .inr hframe
      | reset h after | clear h after | finish h after => exact absurd hobjs List.not_mem_nil
    · obtain ⟨h, hh, hhome⟩ := List.mem_filterMap.mp hhome
      exact hinv.home h (hr.frame_uses (List.mem_of_mem_head? hf) hh) o hhome
  · obtain ⟨f, hf, hmem⟩ := List.mem_flatMap.mp hh
    exact hr.frame_uses hf hmem

theorem counts_exact (ls : List (Tid × Action Hdl Obj)) (s : State Hdl Obj Tid)
    (hnon : Along NonReentrant step init ls) (hsource : Along SourceOutside step init ls)
    (hroom : Along (fun s l => NoOverflow s.shared (s.thread l.1)) step init ls)
    (hrun : exec step init ls = some s) : Exact s :=
  (Transition.exec_invariant_along (fun _ _ _ hr hok hs => hr.step hok.1 hok.2.1 hok.2.2 hs)
    init_reached (hnon.and (hsource.and hroom)) hrun).exact

def sharedByTwo : List (Bool × Action ℕ Bool) :=
  [(false, .call (.create 0 none false true)), (false, .call (.copy 1 none 0)), (false, .go),
    (true, .call (.convert 2 none 1)), (false, .call (.toSharedPtr 3 0)), (true, .go),
    (false, .go), (false, .call (.destroy 0)), (true, .call (.moveAssign 1 2)), (false, .go),
    (true, .go), (true, .go), (true, .go), (false, .go), (false, .go), (true, .call (.reset 1)),
    (false, .call (.sharedDrop 3)), (true, .go), (false, .go), (true, .go), (false, .go),
    (true, .go), (false, .go)]

theorem sharedByTwo_exact : ∃ s : State ℕ Bool Bool, exec step init sharedByTwo = some s ∧
    Exact s ∧ s.shared.deleted = [(false, true)] := by
  have h : (exec step (init : State ℕ Bool Bool) sharedByTwo).map
      (fun s => decide (s.shared.deleted = [(false, true)])) = some true := by
    decide
  obtain ⟨s, hrun, hs⟩ := Option.map_eq_some_iff.mp h
  exact ⟨s, hrun, counts_exact sharedByTwo s (by decide) (by decide) (by decide) hrun,
    of_decide_eq_true hs⟩

def ownField : List (Bool × Action ℕ Bool) :=
  [(false, .call (.create 0 none false false)), (false, .call (.copy 1 (some false) 0)),
    (false, .go), (false, .call (.destroy 0)), (false, .go), (false, .go), (false, .go),
    (false, .call (.reset 1)), (false, .go), (false, .go), (false, .go), (false, .field 1),
    (false, .go), (false, .go), (false, .go), (false, .go)]

/-- `_ptr = nullptr` is still to come, for a handle inside the object that is gone. -/
theorem ownField_not_exact : ∃ s : State ℕ Bool Bool, exec step init ownField = some s ∧
    Along SourceOutside step (init : State ℕ Bool Bool) ownField ∧
    Along (fun s l => NoOverflow s.shared (s.thread l.1)) step (init : State ℕ Bool Bool)
      ownField ∧
    s.shared.status false = .freed ∧ s.shared.refCount false = -1 ∧
    false ∈ (Frame.clear 1 .done : Frame ℕ Bool).touches s.shared ∧ ¬ Exact s := by
  have h : (exec step (init : State ℕ Bool Bool) ownField).map
      (fun s => decide (s.shared.status false = .freed ∧ s.shared.refCount false = -1 ∧
        false ∈ (Frame.clear 1 .done : Frame ℕ Bool).touches s.shared ∧
        .clear 1 .done ∈ (s.thread false).head?)) = some true := by
    decide
  obtain ⟨s, hrun, hs⟩ := Option.map_eq_some_iff.mp h
  obtain ⟨hfreed, hcount, htouches, hopen⟩ := of_decide_eq_true hs
  refine ⟨s, hrun, by decide, by decide, hfreed, hcount, htouches, fun hexact => ?_⟩
  have hstatus := hexact.touched false _ hopen false htouches
  rw [hfreed] at hstatus
  rcases hstatus with heq | heq <;> cases heq

end Bugat.TSharedPtr
