import Mathlib
import Bugat.Core.TSharedPtrAssign

/-!
# The cascade of destructors inside an assignment

Each open operation stands on the one that it serves: the `Reset` of a field on the
destructor of its object, the destructor of an object on the `Reset` of the last handle to
it, and at the bottom the `Reset` of the assignment. When the cascade is over, the objects
that it has freed are the released ones.
-/

namespace Bugat.TSharedPtr

open MachineInt (wrap32 wrap32_of_mem int32Max)

variable {Hdl Obj : Type*}

def Frame.slot : Frame Hdl Obj → Option (Hdl × After Hdl)
  | .reset h after | .clear h after | .finish h after => some (h, after)
  | .drop _ | .body _ | .fields _ => none

inductive Cascade (u₀ : Shared Hdl Obj) (dst : Hdl) (after : After Hdl) : Stack Hdl Obj → Prop
  | bottom {f : Frame Hdl Obj} (hf : f.slot = some (dst, after)) : Cascade u₀ dst after [f]
  | object {f : Frame Hdl Obj} {o : Obj} {rest : Stack Hdl Obj} (hf : f.objs = [o])
      (ho : Released u₀ dst o) (hrest : Cascade u₀ dst after rest) :
      Cascade u₀ dst after (f :: rest)
  | field {f : Frame Hdl Obj} {h : Hdl} {o : Obj} {rest : Stack Hdl Obj}
      (hf : f.slot = some (h, .kill)) (hhome : u₀.home h = some o)
      (hrest : Cascade u₀ dst after (.fields o :: rest)) :
      Cascade u₀ dst after (f :: .fields o :: rest)

namespace Cascade

variable {u₀ : Shared Hdl Obj} {dst h : Hdl} {after a : After Hdl} {f g : Frame Hdl Obj} {o : Obj}
  {st rest : Stack Hdl Obj}

theorem ne_nil (hc : Cascade u₀ dst after st) : st ≠ [] := by
  cases hc with
  | bottom | object | field => exact List.cons_ne_nil _ _

theorem swap (hc : Cascade u₀ dst after (f :: rest)) (hslot : g.slot = f.slot)
    (hobjs : g.objs = f.objs) : Cascade u₀ dst after (g :: rest) := by
  cases hc with
  | bottom hf => exact .bottom (hslot.trans hf)
  | object hf ho hrest => exact .object (hobjs.trans hf) ho hrest
  | field hf hhome hrest => exact .field (hslot.trans hf) hhome hrest

theorem released (hc : Cascade u₀ dst after (f :: rest)) (hf : f.objs = [o]) :
    Released u₀ dst o ∧ Cascade u₀ dst after rest := by
  have hslot : f.slot = none := by
    cases f with
    | reset | clear | finish => cases hf
    | drop | body | fields => rfl
  cases hc with
  | bottom hf' => exact absurd (hslot.symm.trans hf') (by simp)
  | object hf' ho hrest =>
    obtain rfl := List.singleton_inj.mp (hf'.symm.trans hf)
    exact ⟨ho, hrest⟩
  | field hf' _ _ => exact absurd (hslot.symm.trans hf') (by simp)

theorem slot_cases (hc : Cascade u₀ dst after (f :: rest)) (hf : f.slot = some (h, a)) :
    (h = dst ∧ a = after ∧ rest = []) ∨
      (Lost u₀ dst h ∧ a = .kill ∧ Cascade u₀ dst after rest) := by
  cases hc with
  | bottom hf' =>
    obtain ⟨rfl, rfl⟩ := Prod.mk.inj (Option.some.inj (hf.symm.trans hf'))
    exact .inl ⟨rfl, rfl, rfl⟩
  | object hf' _ _ =>
    cases f with
    | reset | clear | finish => cases hf'
    | drop | body | fields => cases hf
  | field hf' hhome hrest =>
    obtain ⟨rfl, rfl⟩ := Prod.mk.inj (Option.some.inj (hf.symm.trans hf'))
    exact .inr ⟨⟨_, hhome, (hrest.released rfl).1⟩, rfl, hrest⟩

theorem uses_cases (hc : Cascade u₀ dst after st) (hf : f ∈ st) (hh : h ∈ f.uses) :
    h = dst ∨ h ∈ after.uses ∨ ∃ o ∈ objs st, u₀.home h = some o := by
  induction hc with
  | bottom hf' =>
    obtain rfl := List.mem_singleton.mp hf
    cases f with
    | reset | clear | finish =>
      obtain ⟨rfl, rfl⟩ := Prod.mk.inj (Option.some.inj hf')
      exact (List.mem_cons.mp hh).imp_right .inl
    | drop | body | fields => cases hf'
  | @object g o rest hg ho hrest ih =>
    rcases List.mem_cons.mp hf with rfl | hf
    · cases f with
      | reset | clear | finish => cases hg
      | drop | body | fields => exact absurd hh List.not_mem_nil
    · refine (ih hf).imp_right fun hor => hor.imp_right ?_
      rintro ⟨o', ho', hhome⟩
      exact ⟨o', List.mem_append_right _ ho', hhome⟩
  | @field g h' o rest hg hhome hrest ih =>
    rcases List.mem_cons.mp hf with rfl | hf
    · have hh' : h = h' := by
        cases f with
        | reset | clear | finish =>
          obtain ⟨rfl, rfl⟩ := Prod.mk.inj (Option.some.inj hg)
          exact List.mem_singleton.mp hh
        | drop | body | fields => cases hg
      refine .inr (.inr ⟨o, ?_, hh' ▸ hhome⟩)
      exact List.mem_append_right _ List.mem_cons_self
    · refine (ih hf).imp_right fun hor => hor.imp_right ?_
      rintro ⟨o', ho', hhome'⟩
      exact ⟨o', List.mem_append_right _ ho', hhome'⟩

end Cascade

variable [DecidableEq Hdl] [DecidableEq Obj]

structure Running (u₀ : Shared Hdl Obj) (dst : Hdl) (after : After Hdl) (u : Shared Hdl Obj)
    (st : Stack Hdl Obj) : Prop where
  reached : Reached (single u st)
  cascade : Cascade u₀ dst after st
  live : ∀ h ∈ u.live, h ∈ u₀.live
  home : u.home = u₀.home
  counted : ∀ h o, h ∈ u.live → u.counted h = some o → u₀.ptr h = some o
  dropped : ∀ o, u.status o = .dropped → o ∈ objs st ∨ u₀.status o = .dropped
  keep : ∀ h ∈ u₀.live, ¬ Lost u₀ dst h →
    h ∈ u.live ∧ (h ≠ dst → u.ptr h = u₀.ptr h ∧ u.counted h = u₀.ptr h)

structure Fades (u₀ : Shared Hdl Obj) (dst : Hdl) (u u' : Shared Hdl Obj) : Prop where
  live : ∀ h ∈ u'.live, h ∈ u.live
  home : u'.home = u.home
  counted : ∀ h o, u'.counted h = some o → u.counted h = some o
  keep : ∀ h ∈ u.live, ¬ Lost u₀ dst h →
    h ∈ u'.live ∧ (h ≠ dst → u'.ptr h = u.ptr h ∧ u'.counted h = u.counted h)

variable {u₀ u u' : Shared Hdl Obj} {dst src h : Hdl} {after a : After Hdl} {o : Obj}
  {st st' rest : Stack Hdl Obj} {l : Action Hdl Obj}

omit [DecidableEq Hdl] [DecidableEq Obj] in
theorem Fades.refl : Fades u₀ dst u u where
  live _ hlive := hlive
  home := rfl
  counted _ _ hcounted := hcounted
  keep _ hlive _ := ⟨hlive, fun _ => ⟨rfl, rfl⟩⟩

theorem fades_subRefCount (hh : h = dst ∨ Lost u₀ dst h) : Fades u₀ dst u (u.subRefCount h o) where
  live _ hlive := hlive
  home := rfl
  counted h' o' hcounted := by
    change Function.update u.counted h none h' = some o' at hcounted
    by_cases heq : h' = h
    · rw [heq, Function.update_self] at hcounted
      cases hcounted
    · rwa [Function.update_of_ne heq] at hcounted
  keep h' hlive hkept := by
    refine ⟨hlive, fun hne => ⟨rfl, Function.update_of_ne ?_ _ _⟩⟩
    rintro rfl
    exact hh.elim hne hkept

omit [DecidableEq Obj] in
theorem fades_setPtr (hh : h = dst ∨ Lost u₀ dst h) : Fades u₀ dst u (u.setPtr h none) where
  live _ hlive := hlive
  home := rfl
  counted _ _ hcounted := hcounted
  keep h' hlive hkept := by
    refine ⟨hlive, fun hne => ⟨Function.update_of_ne ?_ _ _, rfl⟩⟩
    rintro rfl
    exact hh.elim hne hkept

omit [DecidableEq Obj] in
theorem fades_kill (hh : Lost u₀ dst h) : Fades u₀ dst u (u.kill h) where
  live _ hlive := Finset.mem_of_mem_erase hlive
  home := rfl
  counted _ _ hcounted := hcounted
  keep h' hlive hkept := by
    refine ⟨Finset.mem_erase.mpr ⟨?_, hlive⟩, fun _ => ⟨rfl, rfl⟩⟩
    rintro rfl
    exact hkept hh

omit [DecidableEq Hdl] in
theorem fades_drop : Fades u₀ dst u (u.drop o) :=
  ⟨fun _ hlive => hlive, rfl, fun _ _ hcounted => hcounted,
    fun _ hlive _ => ⟨hlive, fun _ => ⟨rfl, rfl⟩⟩⟩

omit [DecidableEq Hdl] in
theorem fades_free : Fades u₀ dst u (u.free o) :=
  ⟨fun _ hlive => hlive, rfl, fun _ _ hcounted => hcounted,
    fun _ hlive _ => ⟨hlive, fun _ => ⟨rfl, rfl⟩⟩⟩

omit [DecidableEq Hdl] in
theorem Running.fade (hr : Running u₀ dst after u st) (hfade : Fades u₀ dst u u')
    (hreached : Reached (single u' st')) (hcascade : Cascade u₀ dst after st')
    (hdropped : ∀ o, u'.status o = .dropped → o ∈ objs st' ∨ u₀.status o = .dropped) :
    Running u₀ dst after u' st' where
  reached := hreached
  cascade := hcascade
  live h hlive := hr.live h (hfade.live h hlive)
  home := hfade.home.trans hr.home
  counted h o hlive hcounted := hr.counted h o (hfade.live h hlive) (hfade.counted h o hcounted)
  dropped := hdropped
  keep h hlive hkept := by
    obtain ⟨hlive', hsame⟩ := hr.keep h hlive hkept
    obtain ⟨hlive'', hsame'⟩ := hfade.keep h hlive' hkept
    refine ⟨hlive'', fun hne => ?_⟩
    obtain ⟨hptr, hcounted⟩ := hsame hne
    obtain ⟨hptr', hcounted'⟩ := hsame' hne
    exact ⟨hptr'.trans hptr, hcounted'.trans hcounted⟩

section Reached

variable (hr : Running u₀ dst after u st)
include hr

omit [DecidableEq Hdl] in
theorem Running.inv : Inv u := by
  obtain ⟨-, hinv, -⟩ := hr.reached.holds.asserted
  exact hinv

omit [DecidableEq Hdl] in
theorem Running.stackOk : StackOk u st := by
  obtain ⟨-, -, hok⟩ := hr.reached.holds.asserted
  exact hok ()

theorem Running.released (hf : u.counted h = some o) (hlive : h ∈ u.live)
    (hh : h = dst ∨ Lost u₀ dst h) (hone : u.refCount o = 1) : Released u₀ dst o := by
  have hholder : h ∈ u.holders o := Finset.mem_filter.mpr ⟨hlive, hf⟩
  have hcard : (u.holders o).card = 1 := by
    have hcount := hr.inv.count o
    omega
  obtain ⟨k, hk⟩ := Finset.card_eq_one.mp hcard
  refine released_iff.mpr ⟨⟨h, hr.live h hlive, hr.counted h o hlive hf⟩, fun h' hlive' hptr => ?_⟩
  by_cases hdst : h' = dst
  · exact .inl hdst
  · by_contra hkept
    rw [not_or] at hkept
    obtain ⟨hlive'', hsame⟩ := hr.keep h' hlive' hkept.2
    have hholder' : h' ∈ u.holders o :=
      Finset.mem_filter.mpr ⟨hlive'', (hsame hdst).2.trans hptr⟩
    rw [hk, Finset.mem_singleton] at hholder hholder'
    have heq : h' = h := hholder'.trans hholder.symm
    exact hh.elim (heq ▸ hdst) (heq ▸ hkept.2)

omit [DecidableEq Hdl] in
theorem Running.frameOk {f : Frame Hdl Obj} (hf : f ∈ st) : FrameOk u f := hr.stackOk.frames f hf

omit [DecidableEq Hdl] in
theorem Running.noOverflow (hne : st ≠ [.finish dst after]) : NoOverflow u st := by
  intro f hf src hsrc
  obtain ⟨rest, rfl⟩ := List.head?_eq_some_iff.mp hf
  cases f with
  | reset | clear | drop | body | fields => cases hsrc
  | finish h a =>
    rcases hr.cascade.slot_cases rfl with ⟨rfl, rfl, rfl⟩ | ⟨-, rfl, -⟩
    · exact absurd rfl hne
    · cases hsrc

theorem Running.reached_step (hne : st ≠ [.finish dst after]) (hcall : ∀ op, l ≠ .call op)
    (hkeep : KeepsUsed (single u st) ((), l)) (hs : act u st l = some (u', st')) :
    Reached (single u' st') := by
  have hkills : ∀ h ∈ l.uses, ∀ f ∈ st, h ∉ f.uses := by
    intro h hh f hf
    cases l with
    | call op => exact absurd rfl (hcall op)
    | go => exact absurd hh List.not_mem_nil
    | field h' =>
      obtain rfl := List.mem_singleton.mp hh
      exact hkeep h rfl f hf
  refine hr.reached.step (l := ((), l)) (fun f hf h hh hheld => ?_) (fun f hf h hh hsrc => ?_)
    (hr.noOverflow hne) (step_single_eq_some.mpr ⟨u', st', hs, rfl⟩)
  · exact hkills h hh f hf (List.mem_append_left _ hheld)
  · exact hkeep h hh f hf (List.mem_append_right _ hsrc)

omit [DecidableEq Hdl] in
theorem Running.dropped_of_same (hstatus : u'.status = u.status)
    (hobjs : ∀ o ∈ objs st, o ∈ objs st') (o : Obj) (ho : u'.status o = .dropped) :
    o ∈ objs st' ∨ u₀.status o = .dropped := by
  rw [hstatus] at ho
  exact (hr.dropped o ho).imp_left (hobjs o)

omit hr in
/-- `sub_ref_count` releases the object of the handle when it takes its last count. -/
theorem Running.advance_reset (hr : Running u₀ dst after u (.reset h a :: rest))
    (hreached : Reached (single u' st')) (hreset : resetStep u h a rest = (u', st')) :
    Running u₀ dst after u' st' := by
  have hlost : h = dst ∨ Lost u₀ dst h := (hr.cascade.slot_cases rfl).imp And.left And.left
  cases hptr : u.ptr h with
  | none =>
    obtain ⟨rfl, rfl⟩ := Prod.mk.inj ((resetStep_none hptr).symm.trans hreset)
    exact hr.fade Fades.refl hreached (hr.cascade.swap rfl rfl)
      (hr.dropped_of_same rfl fun _ ho => ho)
  | some o =>
    obtain ⟨rfl, rfl⟩ := Prod.mk.inj ((resetStep_some hptr).symm.trans hreset)
    have hclear : Cascade u₀ dst after (.clear h a :: rest) := hr.cascade.swap rfl rfl
    have hsettled : u.Settled h := (hr.frameOk List.mem_cons_self).1
    have hlive : h ∈ u.live := hr.stackOk.live _ List.mem_cons_self h List.mem_cons_self
    apply hr.fade (fades_subRefCount hlost) hreached
    · split
      · rename_i hone
        exact .object rfl (hr.released (hsettled.trans hptr) hlive hlost hone) hclear
      · exact hclear
    · apply hr.dropped_of_same rfl
      intro o' ho'
      have hrest : o' ∈ objs rest := ho'
      rw [objs_append]
      exact List.mem_append_right _ hrest

omit hr [DecidableEq Hdl] in
theorem Running.advance_free (hr : Running u₀ dst after u (.fields o :: rest))
    (hreached : Reached (single (u.free o) rest)) : Running u₀ dst after (u.free o) rest := by
  apply hr.fade fades_free hreached (hr.cascade.released rfl).2
  intro o' ho'
  have heq : o' ≠ o := by
    rintro rfl
    change Function.update u.status o' .freed o' = _ at ho'
    rw [Function.update_self] at ho'
    cases ho'
  have hold := hr.dropped o' ((Function.update_of_ne heq _ _).symm.trans ho')
  exact hold.imp_left fun hmem => (List.mem_cons.mp hmem).resolve_left heq

theorem Running.advance_go (hkeep : KeepsUsed (single u st) ((), .go))
    (hs : go u st = some (u', st')) :
    Running u₀ dst after u' st' ∨
      st = [.finish dst after] ∧ u' = u.finish dst after ∧ st' = [] := by
  by_cases hlast : st = [.finish dst after]
  · subst hlast
    obtain ⟨rfl, rfl⟩ := Prod.mk.inj (Option.some.inj hs)
    exact .inr ⟨rfl, rfl, rfl⟩
  left
  have hreached := hr.reached_step (l := .go) hlast (by simp) hkeep hs
  cases st with
  | nil => cases hs
  | cons f rest =>
    cases f with
    | reset h a => exact hr.advance_reset hreached (Option.some.inj hs)
    | clear h a =>
      obtain ⟨rfl, rfl⟩ := Prod.mk.inj (Option.some.inj hs)
      have hlost := (hr.cascade.slot_cases rfl).imp And.left And.left
      exact hr.fade (fades_setPtr hlost) hreached (hr.cascade.swap rfl rfl)
        (hr.dropped_of_same rfl fun _ ho => ho)
    | finish h a =>
      obtain ⟨rfl, rfl⟩ := Prod.mk.inj (Option.some.inj hs)
      rcases hr.cascade.slot_cases rfl with ⟨rfl, rfl, rfl⟩ | ⟨hlost, rfl, hrest⟩
      · exact absurd rfl hlast
      · exact hr.fade (fades_kill hlost) hreached hrest (hr.dropped_of_same rfl fun _ ho => ho)
    | drop o =>
      obtain ⟨rfl, rfl⟩ := Prod.mk.inj (Option.some.inj hs)
      refine hr.fade fades_drop hreached (hr.cascade.swap rfl rfl) fun o' ho' => ?_
      by_cases heq : o' = o
      · exact .inl (heq ▸ List.mem_cons_self)
      · exact hr.dropped o' ((Function.update_of_ne heq _ _).symm.trans ho')
    | body o =>
      obtain ⟨rfl, rfl⟩ := Prod.mk.inj (Option.some.inj hs)
      exact hr.fade Fades.refl hreached (hr.cascade.swap rfl rfl)
        (hr.dropped_of_same rfl fun _ ho => ho)
    | fields o =>
      rw [go] at hs
      split at hs
      · obtain ⟨rfl, rfl⟩ := Prod.mk.inj (Option.some.inj hs)
        exact hr.advance_free hreached
      · cases hs

theorem Running.advance (hcall : ∀ op, l ≠ .call op) (hkeep : KeepsUsed (single u st) ((), l))
    (hs : act u st l = some (u', st')) : Running u₀ dst after u' st' ∨
      st = [.finish dst after] ∧ u' = u.finish dst after ∧ st' = [] := by
  cases l with
  | call op => exact absurd rfl (hcall op)
  | go => exact hr.advance_go hkeep hs
  | field h =>
    left
    have hne : st ≠ [.finish dst after] := by
      rintro rfl
      cases hs
    have hreached := hr.reached_step hne hcall hkeep hs
    cases st with
    | nil => cases hs
    | cons f rest =>
      cases f with
      | fields o =>
        rw [act] at hs
        split at hs
        · rename_i hfield
          obtain ⟨rfl, rfl⟩ := Prod.mk.inj (Option.some.inj hs)
          have hhome : u₀.home h = some o := hr.home ▸ hfield.2
          exact hr.fade Fades.refl hreached (.field rfl hhome hr.cascade)
            (hr.dropped_of_same rfl fun _ ho => ho)
        · cases hs
      | reset | clear | finish | drop | body => cases hs

/-- The field of an object being released is a handle of no operation, when the handles of the
assignment are no such fields. -/
theorem Running.keepsUsed (hdst : ¬ Lost u₀ dst dst) (hsrc : ∀ h ∈ after.uses, ¬ Lost u₀ dst h)
    (hs : act u st l = some (u', st')) (hcall : ∀ op, l ≠ .call op) :
    KeepsUsed (single u st) ((), l) := by
  intro h hh f hf huses
  cases l with
  | call op => exact hcall op rfl
  | go => cases hh
  | field h' =>
    obtain rfl : h' = h := Option.some.inj hh
    cases st with
    | nil => cases hs
    | cons g rest =>
      cases g with
      | reset | clear | finish | drop | body => cases hs
      | fields o =>
        rw [act] at hs
        split at hs
        · rename_i hfield
          have hhome : u₀.home h' = some o := hr.home ▸ hfield.2
          obtain ⟨hreleased, hrest⟩ := hr.cascade.released rfl
          have hlost : Lost u₀ dst h' := ⟨o, hhome, hreleased⟩
          have hnodup := hr.stackOk.objs_nodup
          rcases List.mem_cons.mp hf with rfl | hf
          · exact absurd huses List.not_mem_nil
          · rcases hrest.uses_cases hf huses with rfl | hmem | ⟨o', ho', hhome'⟩
            · exact hdst hlost
            · exact hsrc h' hmem hlost
            · obtain rfl := Option.some.inj (hhome.symm.trans hhome')
              exact (List.nodup_cons.mp hnodup).1 ho'
        · cases hs

end Reached

section End

variable (hr : Running u₀ dst after u [.finish dst after])
include hr

omit [DecidableEq Hdl] in
theorem Running.gone (hheap : Heap u₀) (ho : Released u₀ dst o) :
    ¬ (u.status o = .alive ∨ u.status o = .dropped) := by
  induction ho with
  | @intro o lost hlost held hall ih =>
    have hdst : u.counted dst = none := (hr.frameOk List.mem_cons_self).2.1
    have hnone : u.holders o = ∅ := by
      apply Finset.eq_empty_of_forall_notMem
      intro h hh
      obtain ⟨hlive, hcounted⟩ := Finset.mem_filter.mp hh
      have hptr := hr.counted h o hlive hcounted
      rcases hall h (hr.live h hlive) hptr with rfl | ⟨o', hhome, ho'⟩
      · exact Option.some_ne_none o (hcounted.symm.trans hdst)
      · exact ih o' ho' (hr.inv.home h hlive o' (hr.home ▸ hhome))
    have hzero : u.refCount o = 0 := by
      rw [hr.inv.count o, hnone]
      rfl
    obtain ⟨h, hlive, hptr⟩ := held
    rintro (halive | hdropped)
    · obtain ⟨t, hf⟩ := (hr.reached.pending o halive).resolve_left fun hne => hne hzero
      cases List.mem_singleton.mp hf
    · have hborn := (hr.dropped o hdropped).resolve_left List.not_mem_nil
      rw [hheap.alive hlive hptr] at hborn
      cases hborn

omit [DecidableEq Hdl] in
theorem Running.not_lost (hheap : Heap u₀) (hlive : h ∈ u.live) : ¬ Lost u₀ dst h := by
  rintro ⟨o, hhome, ho⟩
  exact hr.gone hheap ho (hr.inv.home h hlive o (hr.home ▸ hhome))

omit [DecidableEq Hdl] in
theorem Running.counted_dst : u.ptr dst = none ∧ u.counted dst = none := by
  obtain ⟨hptr, hcounted, -⟩ := hr.frameOk List.mem_cons_self
  exact ⟨hptr, hcounted⟩

omit [DecidableEq Hdl] in
theorem Running.dst_live : dst ∈ u.live :=
  hr.stackOk.live _ List.mem_cons_self dst List.mem_cons_self

omit [DecidableEq Hdl] in
theorem Running.src_live (hsrc : src ∈ after.uses) : src ∈ u.live :=
  hr.stackOk.live _ List.mem_cons_self src (List.mem_cons_of_mem dst hsrc)

theorem Running.holders_eq (hheap : Heap u₀) (o : Obj) : u.holders o = survivors u₀ dst o := by
  ext h
  simp only [Shared.holders, survivors, handlesTo, Finset.mem_filter]
  constructor
  · rintro ⟨hlive, hcounted⟩
    refine ⟨⟨hr.live h hlive, hr.counted h o hlive hcounted⟩, ?_, hr.not_lost hheap hlive⟩
    rintro rfl
    exact Option.some_ne_none o (hcounted.symm.trans hr.counted_dst.2)
  · rintro ⟨⟨hlive, hptr⟩, hne, hkept⟩
    obtain ⟨hlive', hsame⟩ := hr.keep h hlive hkept
    exact ⟨hlive', (hsame hne).2.trans hptr⟩

omit [DecidableEq Hdl] in
theorem Running.src_same (hheap : Heap u₀) (hsrc : src ∈ after.uses) :
    src ≠ dst ∧ u.ptr src = u₀.ptr src ∧ u.counted src = u₀.ptr src := by
  have hne : src ≠ dst := by
    rintro rfl
    exact (hr.frameOk List.mem_cons_self).2.2 hsrc
  have hlive := hr.src_live hsrc
  exact ⟨hne, (hr.keep src (hr.live src hlive) (hr.not_lost hheap hlive)).2 hne⟩

end End

end Bugat.TSharedPtr
