import Mathlib
import Bugat.Core.TSharedPtr

/-!
# What the reference counts count

A handle is counted from its `fetch_add` to its `fetch_sub`; in between it points to the
object whose count includes it. Only a handle that an open `Reset` has not cleared yet may
point to an object without being counted. Each step is described by what it does to the
operation on top of a stack and by what it leaves to all other operations, of the same
thread and of the others.
-/

namespace Bugat.TSharedPtr

open MachineInt (int32Max)

variable {Hdl Obj : Type*}

section Stacks

variable {st : Stack Hdl Obj} {f : Frame Hdl Obj} {h : Hdl} {o : Obj}

theorem uses_append (st rest : Stack Hdl Obj) : uses (st ++ rest) = uses st ++ uses rest :=
  List.flatMap_append

theorem objs_append (st rest : Stack Hdl Obj) : objs (st ++ rest) = objs st ++ objs rest :=
  List.flatMap_append

theorem mem_uses (hf : f ∈ st) (hh : h ∈ f.uses) : h ∈ uses st := List.mem_flatMap.mpr ⟨f, hf, hh⟩

theorem mem_objs (hf : f ∈ st) (ho : o ∈ f.objs) : o ∈ objs st := List.mem_flatMap.mpr ⟨f, hf, ho⟩

theorem Frame.kills_uses (hh : f.kills = some h) : h ∈ f.uses := by
  cases f with
  | reset h' after | clear h' after | finish h' after =>
    cases after with
    | kill =>
      obtain rfl := Option.some.inj hh
      exact List.mem_cons_self
    | done | acquire src | share src | steal src => cases hh
  | drop o | body o | fields o => cases hh

end Stacks

def Shared.Settled (u : Shared Hdl Obj) (h : Hdl) : Prop := u.counted h = u.ptr h

def FrameOk (u : Shared Hdl Obj) : Frame Hdl Obj → Prop
  | .reset h after => u.Settled h ∧ h ∉ after.uses
  | .clear h after => u.counted h = none ∧ h ∉ after.uses
  | .finish h after => u.ptr h = none ∧ u.counted h = none ∧ h ∉ after.uses
  | .drop o => u.status o = .alive ∧ u.refCount o = 0
  | .body o => u.status o = .dropped
  | .fields o => u.status o = .dropped

/-- An operation that another one has interrupted. Its source may be in use, but not the
handle that it changes. -/
structure Below (upper lower : Frame Hdl Obj) : Prop where
  held : ∀ h ∈ upper.uses, h ∉ lower.held
  kills : ∀ h ∈ upper.kills, h ∉ lower.uses
  objs : upper.objs.Disjoint lower.objs

structure StackOk (u : Shared Hdl Obj) (st : Stack Hdl Obj) : Prop where
  live : ∀ f ∈ st, ∀ h ∈ f.uses, h ∈ u.live
  below : st.Pairwise Below
  frames : ∀ f ∈ st, FrameOk u f

def Apart (st st' : Stack Hdl Obj) : Prop :=
  (uses st).Disjoint (uses st') ∧ (objs st).Disjoint (objs st')

theorem Apart.symm {st st' : Stack Hdl Obj} (h : Apart st st') : Apart st' st :=
  ⟨h.1.symm, h.2.symm⟩

theorem apart_append {top rest st : Stack Hdl Obj} :
    Apart (top ++ rest) st ↔ Apart top st ∧ Apart rest st := by
  rw [Apart, uses_append, objs_append, List.disjoint_append_left, List.disjoint_append_left]
  exact and_and_and_comm

structure Guarantee (mine killed : List Hdl) (released : List Obj) (u u' : Shared Hdl Obj) :
    Prop where
  live : ∀ h ∈ u.live, h ∉ killed → h ∈ u'.live
  handle : ∀ h ∈ u.live, h ∉ mine →
    h ∈ u'.live ∧ u'.ptr h = u.ptr h ∧ u'.counted h = u.counted h
  waiting : ∀ o ∉ released, u.status o = .alive → u.refCount o = 0 →
    u'.status o = .alive ∧ u'.refCount o = 0
  dropped : ∀ o ∉ released, u.status o = .dropped → u'.status o = .dropped

variable {u u' u'' : Shared Hdl Obj} {st top push rest : Stack Hdl Obj} {h src : Hdl} {o : Obj}
  {after : After Hdl} {fresh mine killed : List Hdl} {ending : Option Hdl} {released : List Obj}
  {f : Frame Hdl Obj}

theorem Guarantee.refl (mine killed : List Hdl) (released : List Obj) (u : Shared Hdl Obj) :
    Guarantee mine killed released u u :=
  ⟨fun _ hlive _ => hlive, fun _ hlive _ => ⟨hlive, rfl, rfl⟩,
    fun _ _ halive hzero => ⟨halive, hzero⟩, fun _ _ h => h⟩

theorem Guarantee.trans (hg : Guarantee mine killed released u u')
    (hg' : Guarantee mine killed released u' u'') : Guarantee mine killed released u u'' where
  live h hlive hkilled := hg'.live h (hg.live h hlive hkilled) hkilled
  handle h hlive hmine := by
    obtain ⟨hlive', hptr, hcounted⟩ := hg.handle h hlive hmine
    obtain ⟨hlive'', hptr', hcounted'⟩ := hg'.handle h hlive' hmine
    exact ⟨hlive'', hptr'.trans hptr, hcounted'.trans hcounted⟩
  waiting o ho halive hzero := by
    obtain ⟨halive', hzero'⟩ := hg.waiting o ho halive hzero
    exact hg'.waiting o ho halive' hzero'
  dropped o ho hdropped := hg'.dropped o ho (hg.dropped o ho hdropped)

section Others

variable (hg : Guarantee mine killed released u u')
include hg

theorem Guarantee.frameOk (hok : FrameOk u f) (hlive : ∀ h ∈ f.held, h ∈ u.live)
    (hmine : ∀ h ∈ f.held, h ∉ mine) (hobjs : ∀ o ∈ f.objs, o ∉ released) : FrameOk u' f := by
  have hsame : ∀ h, f.held = [h] → u'.ptr h = u.ptr h ∧ u'.counted h = u.counted h := by
    intro h hheld
    have hmem : h ∈ f.held := hheld ▸ List.mem_singleton_self h
    exact (hg.handle h (hlive h hmem) (hmine h hmem)).2
  cases f with
  | reset h after =>
    obtain ⟨hptr, hcounted⟩ := hsame h rfl
    exact ⟨hcounted.trans (hok.1.trans hptr.symm), hok.2⟩
  | clear h after => exact ⟨(hsame h rfl).2.trans hok.1, hok.2⟩
  | finish h after =>
    obtain ⟨hptr, hcounted⟩ := hsame h rfl
    exact ⟨hptr.trans hok.1, hcounted.trans hok.2.1, hok.2.2⟩
  | drop o => exact hg.waiting o (hobjs o (List.mem_singleton_self o)) hok.1 hok.2
  | body o | fields o => exact hg.dropped o (hobjs o (List.mem_singleton_self o)) hok

theorem Guarantee.stackOk (hok : StackOk u st) (hmine : ∀ f ∈ st, ∀ h ∈ f.held, h ∉ mine)
    (hkilled : ∀ f ∈ st, ∀ h ∈ f.uses, h ∉ killed) (hobjs : ∀ f ∈ st, ∀ o ∈ f.objs, o ∉ released) :
    StackOk u' st where
  live f hf h hh := hg.live h (hok.live f hf h hh) (hkilled f hf h hh)
  below := hok.below
  frames f hf := hg.frameOk (hok.frames f hf)
    (fun h hh => hok.live f hf h (List.mem_append_left _ hh)) (hmine f hf) (hobjs f hf)

end Others

theorem StackOk.append_left (hok : StackOk u (top ++ rest)) : StackOk u top where
  live f hf := hok.live f (List.mem_append_left _ hf)
  below := (List.pairwise_append.mp hok.below).1
  frames f hf := hok.frames f (List.mem_append_left _ hf)

theorem StackOk.append_right (hok : StackOk u (top ++ rest)) : StackOk u rest where
  live f hf := hok.live f (List.mem_append_right _ hf)
  below := (List.pairwise_append.mp hok.below).2.1
  frames f hf := hok.frames f (List.mem_append_right _ hf)

theorem StackOk.objs_nodup (hok : StackOk u st) : (objs st).Nodup := by
  refine List.nodup_flatMap.mpr ⟨fun f _ => ?_, hok.below.imp fun hbelow => hbelow.objs⟩
  cases f with
  | reset h after | clear h after | finish h after => exact List.nodup_nil
  | drop o | body o | fields o => exact List.nodup_singleton o

theorem FrameOk.not_counted (hok : FrameOk u f) (ho : o ∈ f.objs) :
    ¬ (u.status o = .alive ∧ u.refCount o ≠ 0) := by
  rintro ⟨halive, hcount⟩
  cases f with
  | reset h after | clear h after | finish h after => exact absurd ho List.not_mem_nil
  | drop o' =>
    obtain rfl := List.mem_singleton.mp ho
    exact hcount hok.2
  | body o' | fields o' =>
    obtain rfl := List.mem_singleton.mp ho
    rw [FrameOk, halive] at hok
    cases hok

variable [DecidableEq Obj]

def Shared.holders (u : Shared Hdl Obj) (o : Obj) : Finset Hdl :=
  u.live.filter fun h => u.counted h = some o

structure Inv (u : Shared Hdl Obj) : Prop where
  count : ∀ o, u.refCount o = (u.holders o).card
  bound : ∀ o, u.refCount o ≤ int32Max
  points : ∀ h ∈ u.live, ∀ o, u.counted h = some o → u.ptr h = some o ∧ u.status o = .alive
  home : ∀ h ∈ u.live, ∀ o, u.home h = some o → u.status o = .alive ∨ u.status o = .dropped
  deleted : ∀ o, o ∈ u.deleted.map Prod.fst ↔ u.status o = .dropped ∨ u.status o = .freed
  once : (u.deleted.map Prod.fst).Nodup
  deleter : ∀ p ∈ u.deleted, p.2 = u.deleter p.1

structure Stepped (fresh : List Hdl) (ending : Option Hdl) (u : Shared Hdl Obj)
    (top : Stack Hdl Obj) (u' : Shared Hdl Obj) (push : Stack Hdl Obj) : Prop where
  inv : Inv u'
  stack : StackOk u' push
  guarantee : Guarantee (uses top ++ fresh) (top.filterMap Frame.kills) (objs top) u u'
  uses : ∀ f ∈ push, ∀ h ∈ f.uses, h ∈ uses top ∨ h ∈ fresh ∨ h ∉ u.live
  kills : ∀ f ∈ push, ∀ h ∈ f.kills, h ∈ top.filterMap Frame.kills ∨ h ∈ ending
  objs : ∀ f ∈ push, ∀ o ∈ f.objs, o ∈ objs top ∨ u.status o = .alive ∧ u.refCount o ≠ 0
  settled : ∀ h ∈ u'.live, u'.Settled h ∨ (∃ after, .clear h after ∈ push) ∨
    h ∈ u.live ∧ (∀ after, .clear h after ∉ top) ∧ u'.ptr h = u.ptr h ∧ u'.counted h = u.counted h
  pending : ∀ o, u'.status o = .alive → u'.refCount o ≠ 0 ∨ .drop o ∈ push ∨
    u.status o = .alive ∧ u.refCount o = 0 ∧ o ∉ TSharedPtr.objs top

section Whole

variable (hs : Stepped fresh ending u top u' push)
include hs

theorem Stepped.others (hok : StackOk u st) (hfresh : ∀ h ∈ fresh, h ∉ TSharedPtr.uses st)
    (hapart : Apart top st) : StackOk u' st ∧ Apart push st := by
  refine ⟨hs.guarantee.stackOk hok (fun f hf h hh hmine => ?_) (fun f hf h hh hkilled => ?_)
    fun f hf o ho htop => hapart.2 htop (mem_objs hf ho), ?_, ?_⟩
  · have hmem : h ∈ TSharedPtr.uses st := mem_uses hf (List.mem_append_left _ hh)
    rcases List.mem_append.mp hmine with htop | hnew
    · exact hapart.1 htop hmem
    · exact hfresh h hnew hmem
  · obtain ⟨g, hg, hkills⟩ := List.mem_filterMap.mp hkilled
    exact hapart.1 (mem_uses hg (Frame.kills_uses hkills)) (mem_uses hf hh)
  · intro h hpush hh
    obtain ⟨f, hf, hmem⟩ := List.mem_flatMap.mp hpush
    rcases hs.uses f hf h hmem with htop | hnew | hdead
    · exact hapart.1 htop hh
    · exact hfresh h hnew hh
    · obtain ⟨g, hg, hhg⟩ := List.mem_flatMap.mp hh
      exact hdead (hok.live g hg h hhg)
  · intro o hpush ho
    obtain ⟨f, hf, hmem⟩ := List.mem_flatMap.mp hpush
    rcases hs.objs f hf o hmem with htop | hcounted
    · exact hapart.2 htop ho
    · obtain ⟨g, hg, hog⟩ := List.mem_flatMap.mp ho
      exact (hok.frames g hg).not_counted hog hcounted

theorem Stepped.stackOk (hok : StackOk u (top ++ rest))
    (hfresh : ∀ f ∈ rest, ∀ h ∈ fresh, h ∉ f.held)
    (hending : ∀ f ∈ rest, ∀ h ∈ ending, h ∉ f.uses) : StackOk u' (push ++ rest) := by
  have hbelow := (List.pairwise_append.mp hok.below).2.2
  have hheld : ∀ f ∈ rest, ∀ h ∈ TSharedPtr.uses top, h ∉ f.held := fun f hf h hh => by
    obtain ⟨g, hg, hhg⟩ := List.mem_flatMap.mp hh
    exact (hbelow g hg f hf).held h hhg
  have hkilled : ∀ f ∈ rest, ∀ h ∈ top.filterMap Frame.kills, h ∉ f.uses := fun f hf h hh => by
    obtain ⟨g, hg, hhg⟩ := List.mem_filterMap.mp hh
    exact (hbelow g hg f hf).kills h hhg
  have hobjs : ∀ f ∈ rest, ∀ o ∈ TSharedPtr.objs top, o ∉ f.objs := fun f hf o ho => by
    obtain ⟨g, hg, hog⟩ := List.mem_flatMap.mp ho
    exact (hbelow g hg f hf).objs hog
  have hrest := hok.append_right
  have hrest' : StackOk u' rest := by
    refine hs.guarantee.stackOk hrest (fun f hf h hh hmine => ?_)
      (fun f hf h hh hmem => hkilled f hf h hmem hh) fun f hf o ho htop => hobjs f hf o htop ho
    rcases List.mem_append.mp hmine with htop | hnew
    · exact hheld f hf h htop hh
    · exact hfresh f hf h hnew hh
  refine ⟨fun f hf => ?_, List.pairwise_append.mpr ⟨hs.stack.below, hrest'.below, ?_⟩,
    fun f hf => ?_⟩
  · exact (List.mem_append.mp hf).elim (hs.stack.live f) (hrest'.live f)
  · intro upper hupper lower hlower
    refine ⟨fun h hh => ?_, fun h hh => ?_, fun o ho ho' => ?_⟩
    · rcases hs.uses upper hupper h hh with htop | hnew | hdead
      · exact hheld lower hlower h htop
      · exact hfresh lower hlower h hnew
      · exact fun hmem => hdead (hrest.live lower hlower h (List.mem_append_left _ hmem))
    · exact (hs.kills upper hupper h hh).elim (hkilled lower hlower h) (hending lower hlower h)
    · rcases hs.objs upper hupper o ho with htop | hcounted
      · exact hobjs lower hlower o htop ho'
      · exact (hrest.frames lower hlower).not_counted ho' hcounted
  · exact (List.mem_append.mp hf).elim (hs.stack.frames f) (hrest'.frames f)

end Whole

end Bugat.TSharedPtr
