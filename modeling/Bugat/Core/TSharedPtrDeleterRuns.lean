import Mathlib
import Bugat.Core.TSharedPtrDeleter
import Bugat.Lib.Counting

/-!
# Which address a deleter receives, over all runs

The `_ptr` of each handle is the address of its base subobject in the object it counts for,
through all conversions, and each count is the number of these handles. So the only thing that
can go wrong is the last `Reset`, on a handle whose base lies elsewhere than the registered one.
-/

namespace Bugat.TSharedPtrDeleter

open MachineInt (wrap32 wrap32_of_mem int32Max)
open Counting (card_filter_update)
open Transition (exec Along Throughout throughout_iff_along_of_step_under)

variable {Hdl C : Type*} {L : Layout C} {s t : Heap Hdl C} {h other : Hdl}
  {H : Handle C} {p : Option ℤ} {T : C} {r : ℤ} {c : Cell C} {n : ℕ}

def count (L : Layout C) (s : Heap Hdl C) (r : ℤ) : ℕ :=
  (s.live.filter fun h => L.refPtr (s.handle h) = some r).card

structure CellInv (L : Layout C) (s : Heap Hdl C) (r : ℤ) (c : Cell C) : Prop where
  place : r = c.addr + L.offset c.complete L.refCountable
  count : c.refCount = count L s r
  pos : 0 < c.refCount
  bound : c.refCount ≤ int32Max
  deleter : ∀ d ∈ c.deleter, L.isBaseOf d.ty c.complete = true ∧
    s.registered[d.number]? = some (c.addr + L.offset c.complete d.ty)

structure HandleInv (L : Layout C) (cells : ℤ → Option (Cell C)) (H : Handle C) : Prop where
  counted : L.isBaseOf L.refCountable H.ty = true
  target : ∀ p ∈ H.ptr, ∃ c, cells (p + L.offset H.ty L.refCountable) = some c ∧
    L.isBaseOf H.ty c.complete = true ∧ p = c.addr + L.offset c.complete H.ty

structure Inv (L : Layout C) (s : Heap Hdl C) : Prop where
  cell : ∀ r c, s.cells r = some c → CellInv L s r c
  handle : ∀ h ∈ s.live, HandleInv L s.cells (s.handle h)
  apart : ∀ r r' c c' d d', s.cells r = some c → s.cells r' = some c' → c.deleter = some d →
    c'.deleter = some d' → d.number = d'.number → r = r'
  calls : ∀ x ∈ s.calls, x.1 < s.registered.length

theorem inv_init (L : Layout C) : Inv L (Heap.init L : Heap Hdl C) where
  cell _ _ hc := nomatch hc
  handle _ hh := absurd hh (Finset.notMem_empty _)
  apart _ _ _ _ _ _ hc := nomatch hc
  calls _ hx := absurd hx List.not_mem_nil

theorem exact_init (L : Layout C) : Exact (Heap.init L : Heap Hdl C) where
  held _ _ := rfl
  released _ _ ha := nomatch ha

section Conversions

theorem refPtr_null (L : Layout C) (T : C) : L.refPtr ⟨T, none⟩ = none := rfl

theorem refPtr_of_null (hH : H.ptr = none) : L.refPtr H = none := by
  rw [Layout.refPtr, Layout.upcast, hH]
  rfl

theorem refPtr_eq_some : L.refPtr H = some r ↔ ∃ a, H.ptr = some a ∧
    a + L.offset H.ty L.refCountable = r := by
  simp [Layout.refPtr, Layout.upcast]

theorem HandleInv.refPtr (hH : HandleInv L s.cells H) (hr : L.refPtr H = some r) :
    ∃ c, s.cells r = some c := by
  obtain ⟨a, ha, rfl⟩ := refPtr_eq_some.mp hr
  obtain ⟨c, hc, -⟩ := hH.target a ha
  exact ⟨c, hc⟩

theorem handleInv_null (hT : L.isBaseOf L.refCountable T = true) (cells : ℤ → Option (Cell C)) :
    HandleInv L cells ⟨T, none⟩ := ⟨hT, fun _ ha => nomatch ha⟩

theorem HandleInv.upcast (hH : HandleInv L s.cells H) (hT : L.isBaseOf L.refCountable T = true)
    (hbase : L.isBaseOf T H.ty = true) :
    HandleInv L s.cells ⟨T, L.upcast H.ty T H.ptr⟩ ∧
      L.refPtr ⟨T, L.upcast H.ty T H.ptr⟩ = L.refPtr H := by
  have hsum := L.offset_trans _ _ _ hT hbase
  have href : L.refPtr ⟨T, L.upcast H.ty T H.ptr⟩ = L.refPtr H := by
    simp only [Layout.refPtr, Layout.upcast, Option.map_map, hsum]
    congr 1
    funext a
    simp only [Function.comp_apply]
    omega
  refine ⟨⟨hT, fun b hb => ?_⟩, href⟩
  obtain ⟨a, ha, rfl⟩ := Option.map_eq_some_iff.mp hb
  obtain ⟨c, hc, hkind, haddr⟩ := hH.target a ha
  have hplace := L.offset_trans _ _ _ hbase hkind
  refine ⟨c, ?_, L.trans _ _ _ hbase hkind, by simp only; omega⟩
  rw [← hc]
  congr 1
  simp only
  omega

theorem HandleInv.downcast (hH : HandleInv L s.cells H) (hT : L.isBaseOf L.refCountable T = true)
    (hbase : L.isBaseOf H.ty T = true)
    (hkind : ∀ r ∈ L.refPtr H, ∀ c ∈ s.cells r, L.isBaseOf T c.complete = true) :
    HandleInv L s.cells ⟨T, H.ptr.map (· - L.offset T H.ty)⟩ ∧
      L.refPtr ⟨T, H.ptr.map (· - L.offset T H.ty)⟩ = L.refPtr H := by
  have hsum := L.offset_trans _ _ _ hH.counted hbase
  have href : L.refPtr ⟨T, H.ptr.map (· - L.offset T H.ty)⟩ = L.refPtr H := by
    simp only [Layout.refPtr, Layout.upcast, Option.map_map, hsum]
    congr 1
    funext a
    simp only [Function.comp_apply]
    omega
  refine ⟨⟨hT, fun b hb => ?_⟩, href⟩
  obtain ⟨a, ha, rfl⟩ := Option.map_eq_some_iff.mp hb
  obtain ⟨c, hc, -, haddr⟩ := hH.target a ha
  have hcT := hkind _ (refPtr_eq_some.mpr ⟨a, ha, rfl⟩) c hc
  have hplace := L.offset_trans _ _ _ hbase hcT
  refine ⟨c, ?_, hcT, by simp only; omega⟩
  rw [← hc]
  congr 1
  simp only
  omega

end Conversions

section Frames

def Cell.object (c : Cell C) : C × ℤ × Option (Deleter C) := (c.complete, c.addr, c.deleter)

/-- The same objects with the same deleters are not released. -/
def SameObjects (s t : Heap Hdl C) : Prop :=
  ∀ r, (t.cells r).map Cell.object = (s.cells r).map Cell.object

theorem SameObjects.cell (ho : SameObjects s t) (hc : t.cells r = some c) :
    ∃ c', s.cells r = some c' ∧ c'.complete = c.complete ∧ c'.addr = c.addr ∧
      c'.deleter = c.deleter := by
  have hmap := ho r
  rw [hc, Option.map_some] at hmap
  obtain ⟨c', hc', heq⟩ := Option.map_eq_some_iff.mp hmap.symm
  simp only [Cell.object, Prod.mk.injEq] at heq
  exact ⟨c', hc', heq.1, heq.2.1, heq.2.2⟩

theorem SameObjects.symm (ho : SameObjects s t) : SameObjects t s := fun r => (ho r).symm

theorem SameObjects.handle (ho : SameObjects s t) (hH : HandleInv L s.cells H) :
    HandleInv L t.cells H := by
  refine ⟨hH.counted, fun a ha => ?_⟩
  obtain ⟨c, hc, hkind, haddr⟩ := hH.target a ha
  obtain ⟨c', hc', hcomplete, haddr', -⟩ := ho.symm.cell hc
  exact ⟨c', hc', hcomplete ▸ hkind, by rw [haddr, hcomplete, haddr']⟩

theorem SameObjects.held (ho : SameObjects s t) : t.Held n ↔ s.Held n := by
  constructor
  · rintro ⟨r, c, hc, d, hd, hn⟩
    obtain ⟨c', hc', -, -, hdel⟩ := ho.cell hc
    exact ⟨r, c', hc', d, hdel.trans hd, hn⟩
  · rintro ⟨r, c, hc, d, hd, hn⟩
    obtain ⟨c', hc', -, -, hdel⟩ := ho.symm.cell hc
    exact ⟨r, c', hc', d, hdel.trans hd, hn⟩

theorem SameObjects.exact (ho : SameObjects s t) (hreg : t.registered = s.registered)
    (hcalls : t.calls = s.calls) : Exact t ↔ Exact s := by
  have hcallsOf : ∀ n, t.callsOf n = s.callsOf n := fun n => by
    rw [Heap.callsOf, hcalls, Heap.callsOf]
  constructor
  · intro h
    refine ⟨fun n hn => ?_, fun n a ha hn => ?_⟩
    · exact hcallsOf n ▸ h.held n (ho.held.mpr hn)
    · exact hcallsOf n ▸ h.released n a (hreg ▸ ha) (ho.held.not.mpr hn)
  · intro h
    refine ⟨fun n hn => ?_, fun n a ha hn => ?_⟩
    · exact (hcallsOf n).trans (h.held n (ho.held.mp hn))
    · exact (hcallsOf n).trans (h.released n a (hreg ▸ ha) (ho.held.not.mp hn))

theorem Inv.recount (hI : Inv L s) (ho : SameObjects s t) (hreg : t.registered = s.registered)
    (hcalls : t.calls = s.calls)
    (hcount : ∀ r c, t.cells r = some c →
      c.refCount = count L t r ∧ 0 < c.refCount ∧ c.refCount ≤ int32Max)
    (hhandle : ∀ h ∈ t.live, HandleInv L s.cells (t.handle h)) : Inv L t := by
  constructor
  · intro r c hc
    obtain ⟨c', hc', hcomplete, haddr, hdel⟩ := ho.cell hc
    obtain ⟨hplace, -, -, -, hdeleter⟩ := hI.cell r c' hc'
    obtain ⟨hcnt, hpos, hbound⟩ := hcount r c hc
    rw [hcomplete, haddr] at hplace
    rw [hcomplete, haddr, hdel, ← hreg] at hdeleter
    exact ⟨hplace, hcnt, hpos, hbound, hdeleter⟩
  · exact fun h hh => ho.handle (hhandle h hh)
  · intro r r' c c' d d' hc hc' hd hd' heq
    obtain ⟨b, hb, -, -, hbd⟩ := ho.cell hc
    obtain ⟨b', hb', -, -, hbd'⟩ := ho.cell hc'
    exact hI.apart r r' b b' d d' hb hb' (hbd.trans hd) (hbd'.trans hd') heq
  · rw [hcalls, hreg]
    exact hI.calls

theorem dispose_calls (s : Heap Hdl C) (c : Cell C) (a : ℤ) :
    (s.dispose c a).calls = s.calls ++ (c.deleter.map fun d => (d.number, a)).toList := by
  cases hd : c.deleter <;> simp [Heap.dispose, hd]

theorem dispose_frame (s : Heap Hdl C) (c : Cell C) (a : ℤ) :
    (s.dispose c a).live = s.live ∧ (s.dispose c a).handle = s.handle ∧
      (s.dispose c a).cells = s.cells ∧ (s.dispose c a).registered = s.registered := by
  cases hd : c.deleter <;> simp [Heap.dispose, hd]

theorem eq_of_count_one (hI : Inv L s) (hh : h ∈ s.live) (hr : L.refPtr (s.handle h) = some r)
    (hc : s.cells r = some c) (hone : c.refCount = 1) {k : Hdl} (hk : k ∈ s.live)
    (hrk : L.refPtr (s.handle k) = some r) : k = h := by
  have hcount := (hI.cell r c hc).count
  have hcard : count L s r ≤ 1 := by omega
  exact Finset.card_le_one.mp hcard k (Finset.mem_filter.mpr ⟨hk, hrk⟩) h
    (Finset.mem_filter.mpr ⟨hh, hr⟩)

end Frames

section Primitives

theorem setCell_self (s : Heap Hdl C) (r : ℤ) (x : Option (Cell C)) :
    (s.setCell r x).cells r = x := Function.update_self ..

theorem setCell_other {r' : ℤ} (s : Heap Hdl C) (x : Option (Cell C)) (hr : r' ≠ r) :
    (s.setCell r x).cells r' = s.cells r' := Function.update_of_ne hr ..

variable [DecidableEq Hdl]

theorem setPtr_self (s : Heap Hdl C) (h : Hdl) (p : Option ℤ) :
    (s.setPtr h p).handle h = ⟨(s.handle h).ty, p⟩ := Function.update_self ..

theorem setPtr_other (s : Heap Hdl C) (p : Option ℤ) (hne : other ≠ h) :
    (s.setPtr h p).handle other = s.handle other := Function.update_of_ne hne ..

theorem declare_self (s : Heap Hdl C) (h : Hdl) (T : C) :
    (s.declare h T).handle h = ⟨T, none⟩ := Function.update_self ..

theorem declare_other (s : Heap Hdl C) (T : C) (hne : other ≠ h) :
    (s.declare h T).handle other = s.handle other := Function.update_of_ne hne ..

omit [DecidableEq Hdl] in
theorem sameObjects_setCell (hc : s.cells r = some c) (v : ℤ) :
    SameObjects s (s.setCell r (some { c with refCount := v })) := by
  intro r'
  by_cases hr : r' = r
  · subst hr
    simp [Heap.setCell, Cell.object, hc]
  · simp [Heap.setCell, hr]

theorem count_setPtr (hh : h ∈ s.live) (p : Option ℤ) (r : ℤ) :
    count L (s.setPtr h p) r + (if L.refPtr (s.handle h) = some r then 1 else 0) =
      count L s r + if L.refPtr ⟨(s.handle h).ty, p⟩ = some r then 1 else 0 :=
  card_filter_update hh s.handle _ fun H => L.refPtr H = some r

theorem count_declare (hh : h ∉ s.live) (T : C) (r : ℤ) :
    count L (s.declare h T) r = count L s r := by
  have hnew : ¬ L.refPtr ((s.declare h T).handle h) = some r := by
    simp [declare_self, refPtr_null]
  change ((insert h s.live).filter fun k =>
    L.refPtr ((s.declare h T).handle k) = some r).card = count L s r
  rw [Finset.filter_insert, if_neg hnew, count]
  congr 1
  apply Finset.filter_congr
  intro k hk
  rw [declare_other s T (ne_of_mem_of_not_mem hk hh)]

omit [DecidableEq Hdl] in
theorem count_eq_zero (hI : Inv L s) (hr : s.cells r = none) : count L s r = 0 := by
  rw [count, Finset.card_eq_zero, Finset.filter_eq_empty_iff]
  intro h hh href
  obtain ⟨c, hc⟩ := (hI.handle h hh).refPtr href
  cases hr.symm.trans hc

theorem Inv.declare (hI : Inv L s) (hh : h ∉ s.live)
    (hT : L.isBaseOf L.refCountable T = true) : Inv L (s.declare h T) := by
  apply hI.recount (t := s.declare h T) (fun _ => rfl) rfl rfl
  · intro r c hc
    obtain ⟨-, hcount, hpos, hbound, -⟩ := hI.cell r c hc
    exact ⟨by rw [hcount, count_declare hh], hpos, hbound⟩
  · intro k hk
    by_cases hkh : k = h
    · subst hkh
      rw [declare_self]
      exact handleInv_null hT _
    · rw [declare_other s T hkh]
      exact hI.handle k ((Finset.mem_insert.mp hk).resolve_left hkh)

theorem Inv.erase (hI : Inv L s) (hnull : (s.handle h).ptr = none) :
    Inv L { s with live := s.live.erase h } := by
  apply hI.recount (t := { s with live := s.live.erase h }) (fun _ => rfl) rfl rfl
  · intro r c hc
    obtain ⟨-, hcount, hpos, hbound, -⟩ := hI.cell r c hc
    refine ⟨?_, hpos, hbound⟩
    have hnot : h ∉ s.live.filter fun k => L.refPtr (s.handle k) = some r := by
      simp [Layout.refPtr, Layout.upcast, hnull]
    have hsame : count L { s with live := s.live.erase h } r = count L s r := by
      rw [count, count, Finset.filter_erase, Finset.erase_eq_of_notMem hnot]
    rw [hcount, hsame]
  · exact fun k hk => hI.handle k (Finset.mem_of_mem_erase hk)

theorem Inv.acquire (hI : Inv L s) (hh : h ∈ s.live) (hnull : (s.handle h).ptr = none)
    (hH : HandleInv L s.cells ⟨(s.handle h).ty, p⟩)
    (hroom : ∀ r ∈ L.refPtr ⟨(s.handle h).ty, p⟩, ∀ c ∈ s.cells r, c.refCount < int32Max) :
    ∃ t, s.acquire L h p = some t ∧ Inv L t ∧ (Exact t ↔ Exact s) := by
  have hself := setPtr_self s h p
  have holdPtr : L.refPtr (s.handle h) = none := refPtr_of_null hnull
  have hhandles : ∀ k ∈ s.live, HandleInv L s.cells ((s.setPtr h p).handle k) := by
    intro k hk
    by_cases hkh : k = h
    · rw [hkh, hself]
      exact hH
    · rw [setPtr_other s p hkh]
      exact hI.handle k hk
  have hcounts := fun r => count_setPtr (L := L) hh p r
  simp only [holdPtr, reduceCtorEq, if_false, Nat.add_zero] at hcounts
  cases hr : L.refPtr ⟨(s.handle h).ty, p⟩ with
  | none =>
    refine ⟨s.setPtr h p, ?_, hI.recount (fun _ => rfl) rfl rfl (fun r c hc => ?_) hhandles,
      SameObjects.exact (fun _ => rfl) rfl rfl⟩
    · rw [Heap.acquire, Heap.addRef, hself, hr]
    · obtain ⟨-, hcount, hpos, hbound, -⟩ := hI.cell r c hc
      have hsame := hcounts r
      simp only [hr, reduceCtorEq, if_false, Nat.add_zero] at hsame
      exact ⟨by rw [hcount, hsame], hpos, hbound⟩
  | some r₀ =>
    obtain ⟨c₀, hc₀⟩ := hH.refPtr hr
    obtain ⟨-, hcount₀, hpos₀, -, -⟩ := hI.cell r₀ c₀ hc₀
    have hlt := hroom r₀ hr c₀ hc₀
    have hwrap : wrap32 (c₀.refCount + 1) = c₀.refCount + 1 := by
      simp only [int32Max] at hlt
      exact wrap32_of_mem (by omega) (by simp only [int32Max]; omega)
    have ho : SameObjects s ((s.setPtr h p).setCell r₀
        (some { c₀ with refCount := wrap32 (c₀.refCount + 1) })) :=
      sameObjects_setCell (s := s.setPtr h p) hc₀ _
    refine ⟨_, ?_, hI.recount ho rfl rfl (fun r c hc => ?_) hhandles, ho.exact rfl rfl⟩
    · rw [Heap.acquire, Heap.addRef, hself, hr]
      change (s.cells r₀).map _ = _
      rw [hc₀]
      rfl
    · have hsum := hcounts r
      simp only [hr, Option.some.injEq] at hsum
      by_cases hrr : r = r₀
      · subst hrr
        rw [if_pos rfl] at hsum
        obtain rfl : { c₀ with refCount := wrap32 (c₀.refCount + 1) } = c :=
          Option.some.inj ((setCell_self ..).symm.trans hc)
        change wrap32 _ = (count L (s.setPtr h p) r : ℤ) ∧ 0 < wrap32 _ ∧ wrap32 _ ≤ _
        rw [hwrap, hsum]
        push_cast
        omega
      · rw [if_neg (Ne.symm hrr)] at hsum
        have hold : s.cells r = some c := (setCell_other _ _ hrr).symm.trans hc
        obtain ⟨-, hcount, hpos, hbound, -⟩ := hI.cell r c hold
        refine ⟨?_, hpos, hbound⟩
        change c.refCount = (count L (s.setPtr h p) r : ℤ)
        rw [hcount, hsum, Nat.add_zero]

theorem Inv.resetShared (hI : Inv L s) (hh : h ∈ s.live) (hr : L.refPtr (s.handle h) = some r)
    (hc : s.cells r = some c) (hone : c.refCount ≠ 1) :
    let t := (s.setCell r (some { c with refCount := wrap32 (c.refCount - 1) })).setPtr h none
    Inv L t ∧ SameObjects s t := by
  intro t
  obtain ⟨-, hcount, hpos, hbound, -⟩ := hI.cell r c hc
  have hwrap : wrap32 (c.refCount - 1) = c.refCount - 1 := wrap32_of_mem (by omega) (by omega)
  have ho : SameObjects s t := sameObjects_setCell hc _
  refine ⟨hI.recount ho rfl rfl (fun r' c' hc' => ?_) fun k hk => ?_, ho⟩
  · have hsum := count_setPtr (L := L) hh none r'
    simp only [hr, refPtr_null, Option.some.injEq, reduceCtorEq, if_false, Nat.add_zero] at hsum
    by_cases hrr : r' = r
    · subst hrr
      obtain rfl : { c with refCount := wrap32 (c.refCount - 1) } = c' :=
        Option.some.inj ((setCell_self ..).symm.trans hc')
      rw [if_pos rfl] at hsum
      change wrap32 _ = (count L (s.setPtr h none) r' : ℤ) ∧ 0 < wrap32 _ ∧ wrap32 _ ≤ _
      rw [hwrap]
      omega
    · rw [if_neg (Ne.symm hrr), Nat.add_zero] at hsum
      have hold : s.cells r' = some c' := (setCell_other _ _ hrr).symm.trans hc'
      obtain ⟨-, hcount', hpos', hbound', -⟩ := hI.cell r' c' hold
      refine ⟨?_, hpos', hbound'⟩
      change c'.refCount = (count L (s.setPtr h none) r' : ℤ)
      rw [hcount', hsum]
  · by_cases hkh : k = h
    · subst hkh
      rw [setPtr_self]
      exact handleInv_null (hI.handle k hk).counted _
    · rw [setPtr_other _ _ hkh]
      exact hI.handle k hk

def releasedBy (s : Heap Hdl C) (h : Hdl) (r : ℤ) (c : Cell C) (a : ℤ) : Heap Hdl C :=
  ((s.dispose c a).setCell r none).setPtr h none

theorem releasedBy_cells (s : Heap Hdl C) (h : Hdl) (r : ℤ) (c : Cell C) (a : ℤ) {r' : ℤ}
    {c' : Cell C} : (releasedBy s h r c a).cells r' = some c' ↔ r' ≠ r ∧ s.cells r' = some c' := by
  have hcells := (dispose_frame s c a).2.2.1
  change ((s.dispose c a).setCell r none).cells r' = some c' ↔ _
  by_cases hr : r' = r
  · subst hr
    simp [setCell_self]
  · rw [setCell_other _ _ hr, hcells]
    simp [hr]

theorem Inv.resetLast (hI : Inv L s) (hh : h ∈ s.live) {a : ℤ} (hr : L.refPtr (s.handle h) = some r)
    (hc : s.cells r = some c) (hone : c.refCount = 1) : Inv L (releasedBy s h r c a) := by
  obtain ⟨hlive, hhandle, -, hreg⟩ := dispose_frame s c a
  have hlive' : (releasedBy s h r c a).live = s.live := hlive
  have hreg' : (releasedBy s h r c a).registered = s.registered := hreg
  have hhandle' : (releasedBy s h r c a).handle = (s.setPtr h none).handle := by
    change ((s.dispose c a).setPtr h none).handle = _
    rw [Heap.setPtr, Heap.setPtr, hhandle]
  constructor
  · intro r' c' hc'
    obtain ⟨hrr, hold⟩ := (releasedBy_cells ..).mp hc'
    obtain ⟨hplace, hcount, hpos, hbound, hdel⟩ := hI.cell r' c' hold
    refine ⟨hplace, ?_, hpos, hbound, hreg' ▸ hdel⟩
    have hsum := count_setPtr (L := L) hh none r'
    rw [if_neg (by rw [hr]; exact fun heq => hrr (Option.some.inj heq).symm), refPtr_null,
      if_neg (by simp)] at hsum
    have hsame : count L (releasedBy s h r c a) r' = count L (s.setPtr h none) r' := by
      rw [count, hlive', hhandle', count]
      rfl
    rw [hcount, hsame]
    exact_mod_cast hsum.symm
  · intro k hk
    rw [hlive'] at hk
    rw [hhandle']
    by_cases hkh : k = h
    · subst hkh
      rw [setPtr_self]
      exact handleInv_null (hI.handle k hk).counted _
    · rw [setPtr_other s none hkh]
      refine ⟨(hI.handle k hk).counted, fun b hb => ?_⟩
      obtain ⟨c', hc', hkind, haddr⟩ := (hI.handle k hk).target b hb
      refine ⟨c', (releasedBy_cells ..).mpr ⟨fun hrr => hkh ?_, hc'⟩, hkind, haddr⟩
      exact eq_of_count_one hI hh hr hc hone hk (refPtr_eq_some.mpr ⟨b, hb, hrr⟩)
  · intro r₁ r₂ c₁ c₂ d₁ d₂ hc₁ hc₂ hd₁ hd₂ heq
    exact hI.apart r₁ r₂ c₁ c₂ d₁ d₂ ((releasedBy_cells ..).mp hc₁).2
      ((releasedBy_cells ..).mp hc₂).2 hd₁ hd₂ heq
  · intro x hx
    rw [hreg']
    change x ∈ (s.dispose c a).calls at hx
    rw [dispose_calls] at hx
    rcases List.mem_append.mp hx with hx | hx
    · exact hI.calls x hx
    · obtain ⟨d, hd, rfl⟩ := Option.map_eq_some_iff.mp (Option.mem_toList.mp hx)
      have hsome := ((hI.cell r c hc).deleter d hd).2
      exact (List.getElem?_eq_some_iff.mp hsome).1

theorem releasedBy_held (hI : Inv L s) {a : ℤ} (hc : s.cells r = some c) {n : ℕ} :
    (releasedBy s h r c a).Held n ↔ s.Held n ∧ ∀ d ∈ c.deleter, d.number ≠ n := by
  constructor
  · rintro ⟨r', c', hc', d, hd, hn⟩
    obtain ⟨hrr, hold⟩ := (releasedBy_cells ..).mp hc'
    refine ⟨⟨r', c', hold, d, hd, hn⟩, fun e he hen => hrr ?_⟩
    exact hI.apart r' r c' c d e hold hc hd he (hn.trans hen.symm)
  · rintro ⟨⟨r', c', hc', d, hd, hn⟩, hne⟩
    refine ⟨r', c', (releasedBy_cells ..).mpr ⟨?_, hc'⟩, d, hd, hn⟩
    rintro rfl
    obtain rfl := Option.some.inj (hc.symm.trans hc')
    exact hne d hd hn

theorem releasedBy_callsOf (s : Heap Hdl C) (h : Hdl) (r : ℤ) (c : Cell C) (a : ℤ) (n : ℕ) :
    (releasedBy s h r c a).callsOf n = s.callsOf n ++
      (c.deleter.map fun d => (d.number, a)).toList.filter fun x => x.1 = n := by
  change (s.dispose c a).calls.filter _ = _
  rw [dispose_calls, List.filter_append, Heap.callsOf]

theorem exact_releasedBy_iff (hI : Inv L s) (hE : Exact s) {a : ℤ} (hc : s.cells r = some c) :
    Exact (releasedBy s h r c a) ↔
      ∀ d ∈ c.deleter, a = c.addr + L.offset c.complete d.ty := by
  have hreg : (releasedBy s h r c a).registered = s.registered := (dispose_frame s c a).2.2.2
  constructor
  · intro hE' d hd
    have hsome := ((hI.cell r c hc).deleter d hd).2
    have hnot : ¬ (releasedBy s h r c a).Held d.number := fun hheld =>
      ((releasedBy_held hI hc).mp hheld).2 d hd rfl
    have hcalls := hE'.released d.number _ (hreg.symm ▸ hsome) hnot
    rw [releasedBy_callsOf, hE.held d.number ⟨r, c, hc, d, hd, rfl⟩, hd] at hcalls
    simpa using hcalls
  · intro haddr
    constructor
    · intro n hn
      obtain ⟨hheld, hne⟩ := (releasedBy_held hI hc).mp hn
      rw [releasedBy_callsOf, hE.held n hheld]
      cases hd : c.deleter with
      | none => rfl
      | some d => simpa using hne d hd
    · intro n b hb hn
      rw [hreg] at hb
      rw [releasedBy_callsOf]
      by_cases hheld : s.Held n
      · obtain ⟨d, hd, rfl⟩ : ∃ d ∈ c.deleter, d.number = n := by
          by_contra hnone
          exact hn ((releasedBy_held hI hc).mpr ⟨hheld, fun d hd heq => hnone ⟨d, hd, heq⟩⟩)
        have hsome := ((hI.cell r c hc).deleter d hd).2
        have hba : b = a := (Option.some.inj (hb.symm.trans hsome)).trans (haddr d hd).symm
        rw [hE.held d.number hheld, hd, hba]
        simp
      · have hne : ∀ d ∈ c.deleter, d.number ≠ n := fun d hd heq =>
          hheld ⟨r, c, hc, d, hd, heq⟩
        rw [hE.released n b hb hheld]
        cases hd : c.deleter with
        | none => rfl
        | some d => simpa using hne d hd

structure ResetTo (s : Heap Hdl C) (h : Hdl) (t : Heap Hdl C) : Prop where
  live : t.live = s.live
  self : t.handle h = ⟨(s.handle h).ty, none⟩
  other : ∀ k, k ≠ h → t.handle k = s.handle k
  le : ∀ r c', t.cells r = some c' → ∃ c, s.cells r = some c ∧ c'.refCount ≤ c.refCount

theorem Inv.reset (hI : Inv L s) (hE : Exact s) (hh : h ∈ s.live) :
    ∃ t, s.reset L h = some t ∧ Inv L t ∧ ResetTo s h t ∧ (Exact t ↔ AtRegistered L s h) := by
  cases hp : (s.handle h).ptr with
  | none =>
    refine ⟨s, ?_, hI, ⟨rfl, ?_, fun _ _ => rfl, fun r c hc => ⟨c, hc, le_rfl⟩⟩, ?_⟩
    · rw [Heap.reset, hp]
    · rw [← hp]
    · refine iff_of_true hE fun r hr => ?_
      obtain ⟨a, ha, -⟩ := refPtr_eq_some.mp hr
      cases hp.symm.trans ha
  | some a =>
    obtain ⟨c, hc, hkind, haddr⟩ := (hI.handle h hh).target a hp
    have hr : L.refPtr (s.handle h) = some (a + L.offset (s.handle h).ty L.refCountable) :=
      refPtr_eq_some.mpr ⟨a, hp, rfl⟩
    generalize a + L.offset (s.handle h).ty L.refCountable = r at hc hr
    have hrun : s.reset L h = some (if c.refCount = 1 then releasedBy s h r c a else
        (s.setCell r (some { c with refCount := wrap32 (c.refCount - 1) })).setPtr h none) := by
      obtain ⟨b, hb, hbr⟩ := refPtr_eq_some.mp hr
      obtain rfl := Option.some.inj (hp.symm.trans hb)
      rw [Heap.reset, hp]
      simp only [hbr, hc, Option.map_some]
      rfl
    have hcond : AtRegistered L s h ↔ (c.refCount = 1 →
        ∀ d ∈ c.deleter, L.offset c.complete (s.handle h).ty = L.offset c.complete d.ty) := by
      constructor
      · exact fun hat => hat r hr c hc
      · intro hat r' hr' c' hc'
        obtain rfl := Option.some.inj (hr.symm.trans hr')
        obtain rfl := Option.some.inj (hc.symm.trans hc')
        exact hat
    rw [hcond]
    by_cases hone : c.refCount = 1
    · rw [if_pos hone] at hrun
      obtain ⟨hlive, hhandle, -, -⟩ := dispose_frame s c a
      refine ⟨_, hrun, hI.resetLast hh hr hc hone,
        ⟨hlive, ?_, fun k hk => ?_, fun r' c' hc' => ?_⟩, ?_⟩
      · rw [releasedBy, setPtr_self]
        exact congrArg (fun f => Handle.mk (f h).ty none) hhandle
      · rw [releasedBy, setPtr_other _ _ hk]
        exact congrFun hhandle k
      · exact ⟨c', ((releasedBy_cells ..).mp hc').2, le_rfl⟩
      · rw [exact_releasedBy_iff hI hE hc, forall_prop_of_true hone, haddr]
        simp only [add_right_inj]
    · rw [if_neg hone] at hrun
      obtain ⟨hinv, ho⟩ := hI.resetShared hh hr hc hone
      refine ⟨_, hrun, hinv, ⟨rfl, setPtr_self .., fun k hk => setPtr_other _ _ hk,
        fun r' c' hc' => ?_⟩, ?_⟩
      · by_cases hrr : r' = r
        · subst hrr
          obtain rfl : { c with refCount := wrap32 (c.refCount - 1) } = c' :=
            Option.some.inj ((setCell_self ..).symm.trans hc')
          have hpos := (hI.cell r' c hc).pos
          have hbound := (hI.cell r' c hc).bound
          have hwrap : wrap32 (c.refCount - 1) = c.refCount - 1 :=
            wrap32_of_mem (by omega) (by omega)
          refine ⟨c, hc, ?_⟩
          change wrap32 (c.refCount - 1) ≤ c.refCount
          omega
        · exact ⟨c', (setCell_other _ _ hrr).symm.trans hc', le_rfl⟩
      · exact iff_of_true ((ho.exact rfl rfl).mpr hE) fun heq => absurd heq hone

theorem Inv.transfer (hI : Inv L s) (hh : h ∈ s.live) (hother : other ∈ s.live) (hne : h ≠ other)
    (hnull : (s.handle h).ptr = none) (hty : (s.handle h).ty = (s.handle other).ty) :
    Inv L (s.transfer h other) ∧ (Exact (s.transfer h other) ↔ Exact s) := by
  refine ⟨hI.recount (t := s.transfer h other) (fun _ => rfl) rfl rfl (fun r c hc => ?_)
    fun k hk => ?_, SameObjects.exact (fun _ => rfl) rfl rfl⟩
  · obtain ⟨-, hcount, hpos, hbound, -⟩ := hI.cell r c hc
    refine ⟨?_, hpos, hbound⟩
    have hfirst := count_setPtr (L := L) hh (s.handle other).ptr r
    have hsecond := count_setPtr (L := L) (s := s.setPtr h (s.handle other).ptr) hother none r
    have hmoved : (⟨(s.handle h).ty, (s.handle other).ptr⟩ : Handle C) = s.handle other := by
      rw [hty]
    have hnone : ¬ (none : Option ℤ) = some r := by simp
    rw [setPtr_other s _ hne.symm, refPtr_null, if_neg hnone] at hsecond
    rw [refPtr_of_null hnull, if_neg hnone, hmoved] at hfirst
    have hsame : count L (s.transfer h other) r = count L s r := by
      rw [Heap.transfer]
      omega
    rw [hcount, hsame]
  · rw [Heap.transfer]
    by_cases hko : k = other
    · subst hko
      rw [setPtr_self]
      exact handleInv_null (by
        rw [setPtr_other s _ hne.symm]
        exact (hI.handle k hother).counted) _
    · rw [setPtr_other _ _ hko]
      by_cases hkh : k = h
      · subst hkh
        rw [setPtr_self, hty]
        exact hI.handle other hother
      · rw [setPtr_other _ _ hkh]
        exact hI.handle k hk

def newDeleter (s : Heap Hdl C) (T : C) (deleter : Bool) : Option (Deleter C) :=
  if deleter then some ⟨T, s.registered.length⟩ else none

def newCell (s : Heap Hdl C) (complete T : C) (addr : ℤ) (deleter : Bool) : Cell C :=
  ⟨complete, addr, 1, newDeleter s T deleter⟩

structure Created (L : Layout C) (s t : Heap Hdl C) (h : Hdl) (complete T : C) (addr r : ℤ)
    (deleter : Bool) : Prop where
  place : r = addr + L.offset complete L.refCountable
  live : t.live = insert h s.live
  self : t.handle h = ⟨T, some (addr + L.offset complete T)⟩
  other : ∀ k, k ≠ h → t.handle k = s.handle k
  cells : t.cells = Function.update s.cells r (some (newCell s complete T addr deleter))
  registered : t.registered =
    s.registered ++ (if deleter then [addr + L.offset complete T] else [])
  calls : t.calls = s.calls
  count : ∀ r', count L t r' = TSharedPtrDeleter.count L s r' + if r' = r then 1 else 0

theorem created (addr : ℤ) (deleter : Bool) (hh : h ∉ s.live) {complete : C}
    (hkind : L.isBaseOf T complete = true) (hT : L.isBaseOf L.refCountable T = true) :
    Created L s (s.create L h complete T addr deleter) h complete T addr
      (addr + L.offset complete L.refCountable) deleter := by
  obtain ⟨p, hp⟩ : ∃ p, p = addr + L.offset complete T := ⟨_, rfl⟩
  obtain ⟨r, hr⟩ : ∃ r, r = addr + L.offset complete L.refCountable := ⟨_, rfl⟩
  have hplace : p + L.offset T L.refCountable = r := by
    have hsum := L.offset_trans _ _ _ hT hkind
    omega
  have hcount : ∀ r', count L ((s.declare h T).setPtr h (some p)) r' =
      count L s r' + if r' = r then 1 else 0 := by
    intro r'
    have hsum := count_setPtr (L := L) (s := s.declare h T) (Finset.mem_insert_self h s.live)
      (some p) r'
    have href : L.refPtr ⟨T, some p⟩ = some r := refPtr_eq_some.mpr ⟨p, rfl, hplace⟩
    have hnone : ¬ (none : Option ℤ) = some r' := by simp
    rw [declare_self, refPtr_null, if_neg hnone, count_declare hh, href, Nat.add_zero] at hsum
    rw [hsum]
    simp only [Option.some.injEq, eq_comm]
  have hhandle : ∀ k, k ≠ h → ((s.declare h T).setPtr h (some p)).handle k = s.handle k := by
    intro k hk
    rw [setPtr_other _ _ hk, declare_other s T hk]
  have hself : ((s.declare h T).setPtr h (some p)).handle h = ⟨T, some p⟩ := by
    rw [setPtr_self, declare_self]
  have hcells : (((s.declare h T).setPtr h (some p)).setCell (p + L.offset T L.refCountable)
      (some (newCell s complete T addr deleter))).cells =
        Function.update s.cells r (some (newCell s complete T addr deleter)) := by
    rw [hplace]
    rfl
  rw [← hr]
  subst hp
  cases deleter with
  | false => exact ⟨hr, rfl, hself, hhandle, hcells, (List.append_nil _).symm, rfl, hcount⟩
  | true => exact ⟨hr, rfl, hself, hhandle, hcells, rfl, rfl, hcount⟩

namespace Created

variable {complete : C} {addr r r' b : ℤ} {deleter : Bool} {c : Cell C} {d : Deleter C} {n : ℕ}

theorem cell_cases (hf : Created L s t h complete T addr r deleter) (hc : t.cells r' = some c) :
    (r' = r ∧ c = newCell s complete T addr deleter) ∨ (r' ≠ r ∧ s.cells r' = some c) := by
  rw [hf.cells] at hc
  by_cases hr : r' = r
  · subst hr
    rw [Function.update_self] at hc
    exact .inl ⟨rfl, (Option.some.inj hc).symm⟩
  · rw [Function.update_of_ne hr] at hc
    exact .inr ⟨hr, hc⟩

theorem cell_new (hf : Created L s t h complete T addr r deleter) :
    t.cells r = some (newCell s complete T addr deleter) := by
  rw [hf.cells, Function.update_self]

theorem cell_old (hf : Created L s t h complete T addr r deleter) (hfree : s.cells r = none)
    (hc : s.cells r' = some c) : t.cells r' = some c := by
  rw [hf.cells, Function.update_of_ne, hc]
  rintro rfl
  cases hfree.symm.trans hc

theorem registered_old (hf : Created L s t h complete T addr r deleter)
    (hb : s.registered[n]? = some b) : t.registered[n]? = some b := by
  rw [hf.registered, List.getElem?_append_left (List.getElem?_eq_some_iff.mp hb).1, hb]

theorem registered_new (hf : Created L s t h complete T addr r deleter)
    (hd : newDeleter s T deleter = some d) :
    d = ⟨T, s.registered.length⟩ ∧
      t.registered[d.number]? = some (addr + L.offset complete T) := by
  rw [hf.registered]
  cases deleter with
  | false => cases hd
  | true =>
    obtain rfl := Option.some.inj hd
    exact ⟨rfl, List.getElem?_concat_length⟩

theorem callsOf (hf : Created L s t h complete T addr r deleter) (n : ℕ) :
    t.callsOf n = s.callsOf n := by
  rw [Heap.callsOf, hf.calls, Heap.callsOf]

theorem cellInv (hf : Created L s t h complete T addr r deleter) (hI : Inv L s)
    (hfree : s.cells r = none) (hkind : L.isBaseOf T complete = true) (hc : t.cells r' = some c) :
    CellInv L t r' c := by
  have hcount := hf.count r'
  rcases hf.cell_cases hc with ⟨rfl, rfl⟩ | ⟨hr, hc⟩
  · rw [if_pos rfl, count_eq_zero hI hfree] at hcount
    have hone : (1 : ℤ) ≤ int32Max := by decide
    refine ⟨hf.place, ?_, Int.one_pos, hone, ?_⟩
    · rw [hcount]
      rfl
    · intro d hd
      obtain ⟨hty, hreg⟩ := hf.registered_new hd
      rw [hty] at hreg ⊢
      exact ⟨hkind, hreg⟩
  · obtain ⟨hplace, hold, hpos, hbound, hdel⟩ := hI.cell r' c hc
    rw [if_neg hr, Nat.add_zero] at hcount
    refine ⟨hplace, ?_, hpos, hbound, ?_⟩
    · rw [hold, hcount]
    · intro d hd
      exact ⟨(hdel d hd).1, hf.registered_old (hdel d hd).2⟩

theorem handleInv (hf : Created L s t h complete T addr r deleter) (hI : Inv L s)
    (hfree : s.cells r = none) (hkind : L.isBaseOf T complete = true)
    (hT : L.isBaseOf L.refCountable T = true) {k : Hdl} (hk : k ∈ t.live) :
    HandleInv L t.cells (t.handle k) := by
  by_cases hkh : k = h
  · subst hkh
    rw [hf.self]
    refine ⟨hT, ?_⟩
    intro b hb
    obtain rfl := Option.some.inj hb
    have hsum := L.offset_trans _ _ _ hT hkind
    have hplace : addr + L.offset complete T + L.offset T L.refCountable = r := by
      rw [hf.place]
      omega
    refine ⟨newCell s complete T addr deleter, ?_, hkind, rfl⟩
    rw [hplace, hf.cell_new]
  · rw [hf.other k hkh]
    have hH := hI.handle k ((Finset.mem_insert.mp (hf.live ▸ hk)).resolve_left hkh)
    refine ⟨hH.counted, ?_⟩
    intro b hb
    obtain ⟨c, hc, hrest⟩ := hH.target b hb
    exact ⟨c, hf.cell_old hfree hc, hrest⟩

theorem number_lt (hf : Created L s t h complete T addr r deleter) (hI : Inv L s)
    (hc : s.cells r' = some c) (hd : c.deleter = some d) {d' : Deleter C}
    (hd' : newDeleter s T deleter = some d') : d.number < d'.number := by
  rw [(hf.registered_new hd').1]
  exact (List.getElem?_eq_some_iff.mp ((hI.cell r' c hc).deleter d hd).2).1

theorem inv (hf : Created L s t h complete T addr r deleter) (hI : Inv L s)
    (hfree : s.cells r = none) (hkind : L.isBaseOf T complete = true)
    (hT : L.isBaseOf L.refCountable T = true) : Inv L t where
  cell _ _ hc := hf.cellInv hI hfree hkind hc
  handle _ hk := hf.handleInv hI hfree hkind hT hk
  apart r₁ r₂ c₁ c₂ d₁ d₂ hc₁ hc₂ hd₁ hd₂ heq := by
    rcases hf.cell_cases hc₁ with ⟨rfl, rfl⟩ | ⟨-, hc₁⟩
    · rcases hf.cell_cases hc₂ with ⟨rfl, rfl⟩ | ⟨-, hc₂⟩
      · rfl
      · exact absurd heq (hf.number_lt hI hc₂ hd₂ hd₁).ne'
    · rcases hf.cell_cases hc₂ with ⟨rfl, rfl⟩ | ⟨-, hc₂⟩
      · exact absurd heq (hf.number_lt hI hc₁ hd₁ hd₂).ne
      · exact hI.apart r₁ r₂ c₁ c₂ d₁ d₂ hc₁ hc₂ hd₁ hd₂ heq
  calls x hx := by
    rw [hf.calls] at hx
    rw [hf.registered, List.length_append]
    exact (hI.calls x hx).trans_le (Nat.le_add_right _ _)

theorem exact (hf : Created L s t h complete T addr r deleter) (hI : Inv L s) (hE : Exact s)
    (hfree : s.cells r = none) : Exact t := by
  constructor
  · rintro n ⟨r', c, hc, d, hd, rfl⟩
    rw [hf.callsOf]
    rcases hf.cell_cases hc with ⟨rfl, rfl⟩ | ⟨-, hc⟩
    · rw [(hf.registered_new hd).1, Heap.callsOf, List.filter_eq_nil_iff]
      intro x hx
      simpa using (hI.calls x hx).ne
    · exact hE.held d.number ⟨r', c, hc, d, hd, rfl⟩
  · intro n b hb hn
    rw [hf.callsOf]
    rw [hf.registered] at hb
    by_cases hlt : n < s.registered.length
    · rw [List.getElem?_append_left hlt] at hb
      refine hE.released n b hb ?_
      rintro ⟨r', c, hc, hd⟩
      exact hn ⟨r', c, hf.cell_old hfree hc, hd⟩
    · -- the number is the one of the new deleter, which is held
      refine absurd ?_ hn
      have hlen := (List.getElem?_eq_some_iff.mp hb).1
      cases deleter with
      | false =>
        simp at hlen
        omega
      | true =>
        simp at hlen
        exact ⟨r, _, hf.cell_new, ⟨T, s.registered.length⟩, rfl, by simp only; omega⟩

end Created

theorem Inv.create (hI : Inv L s) (hE : Exact s) (deleter : Bool) (hh : h ∉ s.live)
    {complete : C} {addr : ℤ} (hkind : L.isBaseOf T complete = true)
    (hT : L.isBaseOf L.refCountable T = true)
    (hfree : s.cells (addr + L.offset complete L.refCountable) = none) :
    Inv L (s.create L h complete T addr deleter) ∧
      Exact (s.create L h complete T addr deleter) := by
  have hf := created addr deleter hh hkind hT
  exact ⟨hf.inv hI hfree hkind hT, hf.exact hI hE hfree⟩

end Primitives

section Steps

variable [DecidableEq Hdl]

theorem exact_declare (s : Heap Hdl C) (h : Hdl) (T : C) : Exact (s.declare h T) ↔ Exact s :=
  SameObjects.exact (t := s.declare h T) (fun _ => rfl) rfl rfl

theorem Inv.construct (hI : Inv L s) (hh : h ∉ s.live) (hH : HandleInv L s.cells ⟨T, p⟩)
    (hroom : ∀ r ∈ L.refPtr ⟨T, p⟩, ∀ c ∈ s.cells r, c.refCount < int32Max) :
    ∃ t, (s.declare h T).acquire L h p = some t ∧ Inv L t ∧ (Exact t ↔ Exact s) := by
  have hself := declare_self s h T
  have hnull : ((s.declare h T).handle h).ptr = none := by rw [hself]
  obtain ⟨t, ht, hinv, hexact⟩ := (hI.declare hh hH.counted).acquire (p := p)
    (Finset.mem_insert_self h s.live) hnull (by rw [hself]; exact hH) (by rw [hself]; exact hroom)
  exact ⟨t, ht, hinv, hexact.trans (exact_declare s h T)⟩

theorem Inv.reassign (hI : Inv L s) (hE : Exact s) (hh : h ∈ s.live) (hother : other ∈ s.live)
    (hne : other ≠ h) (hbase : L.isBaseOf (s.handle h).ty (s.handle other).ty = true)
    (hroom : ∀ r ∈ L.refPtr (s.handle other), ∀ c ∈ s.cells r, c.refCount < int32Max) :
    ∃ u t, s.reset L h = some u ∧ u.handle h = ⟨(s.handle h).ty, none⟩ ∧
      u.handle other = s.handle other ∧
      u.acquire L h (L.upcast (s.handle other).ty (s.handle h).ty (s.handle other).ptr) = some t ∧
      Inv L t ∧ (Exact t ↔ AtRegistered L s h) := by
  obtain ⟨u, hu, hinv, hto, hexact⟩ := hI.reset hE hh
  have hH := hinv.handle other (hto.live.symm ▸ hother)
  rw [hto.other other hne] at hH
  obtain ⟨hcast, href⟩ := hH.upcast (hI.handle h hh).counted hbase
  have hself := hto.self
  have hroom' : ∀ r ∈ L.refPtr (s.handle other), ∀ c ∈ u.cells r, c.refCount < int32Max := by
    intro r hr c' hc'
    obtain ⟨c, hc, hle⟩ := hto.le r c' hc'
    exact hle.trans_lt (hroom r hr c hc)
  obtain ⟨t, ht, hinv', hexact'⟩ := hinv.acquire
    (p := L.upcast (s.handle other).ty (s.handle h).ty (s.handle other).ptr)
    (hto.live.symm ▸ hh) (by rw [hself]) (by rw [hself]; exact hcast)
    (by rw [hself, href]; exact hroom')
  exact ⟨u, t, hu, hself, hto.other other hne, ht, hinv', hexact'.trans hexact⟩

theorem upcast_self (L : Layout C) (D : C) (p : Option ℤ) : L.upcast D D p = p := by
  cases p with
  | none => rfl
  | some a => rw [Layout.upcast, Option.map_some, L.offset_self, Int.add_zero]

theorem releases_of_none {op : Op Hdl C} (hop : op.resets L s = none) :
    ReleasesAtRegistered L s op := by
  intro h hh
  rw [hop] at hh
  cases hh

theorem releases_of_some {op : Op Hdl C} (hop : op.resets L s = some h) :
    ReleasesAtRegistered L s op ↔ AtRegistered L s h := by
  simp only [ReleasesAtRegistered, hop, Option.mem_def, Option.some.injEq, forall_eq']

variable [DecidableEq C]

/-- Every operation that the language allows has a step, which keeps the pointers and the counts
right, and the deleters just when it releases at the registered address. -/
theorem Inv.step (hI : Inv L s) (hE : Exact s) {op : Op Hdl C} (hlegal : Legal L s op)
    (hroom : NoOverflow L s op) : ∃ t, step L s op = some t ∧ Inv L t ∧
      (Exact t ↔ ReleasesAtRegistered L s op) := by
  unfold TSharedPtrDeleter.step
  rw [if_pos hlegal]
  cases op with
  | create h complete T addr deleter =>
    obtain ⟨hh, hkind, hT, hfree⟩ := hlegal
    obtain ⟨hinv, hexact⟩ := hI.create hE deleter hh hkind hT
      (Option.isNone_iff_eq_none.mp hfree)
    exact ⟨_, rfl, hinv, iff_of_true hexact (releases_of_none rfl)⟩
  | null h T =>
    refine ⟨_, rfl, hI.declare hlegal.1 hlegal.2, iff_of_true ?_ (releases_of_none rfl)⟩
    exact (exact_declare s h T).mpr hE
  | copy h other =>
    have hH := hI.handle other hlegal.2
    obtain ⟨t, ht, hinv, hexact⟩ := hI.construct hlegal.1 hH (hroom other rfl)
    exact ⟨t, ht, hinv, iff_of_true (hexact.mpr hE) (releases_of_none rfl)⟩
  | move h other =>
    have hne : h ≠ other := fun heq => hlegal.1 (heq ▸ hlegal.2)
    have hH := hI.handle other hlegal.2
    have hself := declare_self s h (s.handle other).ty
    have hsame := declare_other s (s.handle other).ty hne.symm
    obtain ⟨hinv, hexact⟩ := (hI.declare hlegal.1 hH.counted).transfer
      (Finset.mem_insert_self h s.live) (Finset.mem_insert_of_mem hlegal.2) hne
      (by rw [hself]) (by rw [hself, hsame])
    refine ⟨_, rfl, hinv, iff_of_true ?_ (releases_of_none rfl)⟩
    exact hexact.mpr ((exact_declare s h _).mpr hE)
  | convert h T other =>
    obtain ⟨hh, hother, hbase, hT⟩ := hlegal
    obtain ⟨hcast, href⟩ := (hI.handle other hother).upcast hT hbase
    obtain ⟨t, ht, hinv, hexact⟩ := hI.construct hh hcast (href ▸ hroom other rfl)
    exact ⟨t, ht, hinv, iff_of_true (hexact.mpr hE) (releases_of_none rfl)⟩
  | staticPointerCast h T other =>
    obtain ⟨hh, hother, hT, hrelated⟩ := hlegal
    have hH := hI.handle other hother
    obtain ⟨hcast, href⟩ : HandleInv L s.cells ⟨T, L.staticCast (s.handle other).ty T
        (s.handle other).ptr⟩ ∧ L.refPtr ⟨T, L.staticCast (s.handle other).ty T
          (s.handle other).ptr⟩ = L.refPtr (s.handle other) := by
      rw [Layout.staticCast]
      by_cases hbase : L.isBaseOf T (s.handle other).ty = true
      · rw [if_pos hbase]
        exact hH.upcast hT hbase
      · rw [if_neg hbase]
        obtain ⟨hderived, hkind⟩ := hrelated.resolve_left hbase
        exact hH.downcast hT hderived hkind
    obtain ⟨t, ht, hinv, hexact⟩ := hI.construct hh hcast (href ▸ hroom other rfl)
    exact ⟨t, ht, hinv, iff_of_true (hexact.mpr hE) (releases_of_none rfl)⟩
  | destroy h =>
    obtain ⟨u, hu, hinv, hto, hexact⟩ := hI.reset hE hlegal
    refine ⟨{ u with live := u.live.erase h }, by simp only [hu, Option.map_some],
      hinv.erase (by rw [hto.self]), ?_⟩
    rw [releases_of_some rfl, ← hexact]
    exact SameObjects.exact (t := { u with live := u.live.erase h }) (fun _ => rfl) rfl rfl
  | assignNull h =>
    obtain ⟨u, hu, hinv, -, hexact⟩ := hI.reset hE hlegal
    exact ⟨u, hu, hinv, by rw [releases_of_some rfl, hexact]⟩
  | copyAssign h other =>
    obtain ⟨hh, hother, hty⟩ := hlegal
    cases hres : Op.resets L s (.copyAssign h other) with
    | none => exact ⟨s, by simp only [hres], hI, iff_of_true hE (releases_of_none hres)⟩
    | some k =>
      have hcond : ¬ (h = other ∨ (s.handle h).ptr = (s.handle other).ptr) := by
        intro hskip
        simp [Op.resets, hskip] at hres
      obtain rfl : h = k := by simpa [Op.resets, hcond] using hres
      have hroom' := hroom other (by simp [Op.counts, hres])
      obtain ⟨u, t, hu, -, hsame, ht, hinv, hexact⟩ := hI.reassign hE hh hother
        (fun heq => hcond (.inl heq.symm)) (hty ▸ L.refl _) hroom'
      rw [hty, upcast_self] at ht
      refine ⟨t, ?_, hinv, by rw [releases_of_some hres, hexact]⟩
      simp only [hres, hu, Option.bind_some, hsame, ht]
  | moveAssign h other =>
    obtain ⟨hh, hother, hty⟩ := hlegal
    cases hres : Op.resets L s (.moveAssign h other) with
    | none => exact ⟨s, by simp only [hres], hI, iff_of_true hE (releases_of_none hres)⟩
    | some k =>
      have hne : h ≠ other := by
        intro hskip
        simp [Op.resets, hskip] at hres
      obtain rfl : h = k := by simpa [Op.resets, hne] using hres
      obtain ⟨u, hu, hinv, hto, hexact⟩ := hI.reset hE hh
      obtain ⟨hinv', hexact'⟩ := hinv.transfer (hto.live.symm ▸ hh) (hto.live.symm ▸ hother) hne
        (by rw [hto.self]) (by rw [hto.self, hto.other other hne.symm, hty])
      refine ⟨_, by simp only [hres, hu, Option.map_some], hinv', ?_⟩
      rw [releases_of_some hres, ← hexact, hexact']
  | convertAssign h other =>
    obtain ⟨hh, hother, hbase⟩ := hlegal
    cases hres : Op.resets L s (.convertAssign h other) with
    | none => exact ⟨s, by simp only [hres], hI, iff_of_true hE (releases_of_none hres)⟩
    | some k =>
      have hcond : ¬ (s.handle h).ptr =
          L.upcast (s.handle other).ty (s.handle h).ty (s.handle other).ptr := by
        intro hskip
        simp [Op.resets, hskip] at hres
      obtain rfl : h = k := by simpa [Op.resets, hcond] using hres
      have hne : other ≠ h := by
        rintro rfl
        exact hcond (upcast_self L _ _).symm
      have hroom' := hroom other (by simp [Op.counts, hres])
      obtain ⟨u, t, hu, hself, hsame, ht, hinv, hexact⟩ :=
        hI.reassign hE hh hother hne hbase hroom'
      refine ⟨t, ?_, hinv, by rw [releases_of_some hres, hexact]⟩
      simp only [hres, hu, Option.bind_some, hsame, hself, ht]

theorem legal_of_step {op : Op Hdl C} (hs : step L s op = some t) : Legal L s op := by
  by_contra hnot
  unfold TSharedPtrDeleter.step at hs
  rw [if_neg hnot] at hs
  cases hs

/-- In a run each deleter is called once, with the address it was registered with, when the last
handle to its object goes, just when each release is made through a handle whose static type lies
where the registered type does. -/
theorem exact_iff_at_registered (L : Layout C) (ops : List (Op Hdl C))
    (hroom : Along (NoOverflow L) (step L) (Heap.init L) ops) :
    Throughout Exact (step L) (Heap.init L) ops ↔
      Along (ReleasesAtRegistered L) (step L) (Heap.init L) ops := by
  apply throughout_iff_along_of_step_under (I := fun s : Heap Hdl C => Inv L s ∧ Exact s)
    (fun s h => h.2) _ _ ⟨inv_init L, exact_init L⟩ hroom
  · intro s op t h hpre hok hs
    obtain ⟨t', ht', hinv, hexact⟩ := h.1.step h.2 (legal_of_step hs) hpre
    obtain rfl := Option.some.inj (ht'.symm.trans hs)
    exact ⟨hinv, hexact.mpr hok⟩
  · intro s op t h hpre hs
    obtain ⟨t', ht', -, hexact⟩ := h.1.step h.2 (legal_of_step hs) hpre
    obtain rfl := Option.some.inj (ht'.symm.trans hs)
    exact hexact

end Steps

inductive TwoBases
  | refCountable
  | base
  | derived
  deriving DecidableEq, Repr

def twoBases : Layout TwoBases where
  isBaseOf
    | .refCountable, _ => true
    | .base, .refCountable => false
    | .base, _ => true
    | .derived, D => D == .derived
  offset
    | .derived, .base => 16
    | .derived, .refCountable => 16
    | _, _ => 0
  refCountable := .refCountable
  refl D := by cases D <;> rfl
  trans B D K h h' := by cases B <;> cases D <;> cases K <;> simp_all
  offset_self D := by cases D <;> rfl
  offset_trans B D K h h' := by cases B <;> cases D <;> cases K <;> simp_all

def derivedLast : List (Op Bool TwoBases) :=
  [.create false .derived .derived 4096 true, .convert true .base false, .destroy false,
    .staticPointerCast false .derived true, .destroy true, .destroy false]

theorem derivedLast_exact :
    Throughout Exact (step twoBases) (Heap.init twoBases) derivedLast ∧
      (exec (step twoBases) (Heap.init twoBases) derivedLast).map Heap.calls =
        some [(0, 4096)] := by
  have hroom : Along (NoOverflow twoBases) (step twoBases) (Heap.init twoBases) derivedLast := by
    decide +kernel
  have hok : Along (ReleasesAtRegistered twoBases) (step twoBases) (Heap.init twoBases)
      derivedLast := by decide +kernel
  exact ⟨(exact_iff_at_registered twoBases derivedLast hroom).mpr hok, by decide +kernel⟩

def baseLast : List (Op Bool TwoBases) :=
  [.create false .derived .derived 4096 true, .convert true .base false, .destroy false,
    .destroy true]

theorem baseLast_misaddressed : ∃ s,
    exec (step twoBases) (Heap.init twoBases) baseLast = some s ∧ s.registered = [4096] ∧
      s.calls = [(0, 4112)] ∧ ¬ Exact s := by
  have hrun : (exec (step twoBases) (Heap.init twoBases) baseLast).map
      (fun s => (s.registered, s.calls, s.cells 4112)) = some ([4096], [(0, 4112)], none) := by
    decide +kernel
  obtain ⟨s, hs, heq⟩ := Option.map_eq_some_iff.mp hrun
  obtain ⟨hreg, hrest⟩ := Prod.mk.inj heq
  obtain ⟨hcalls, -⟩ := Prod.mk.inj hrest
  refine ⟨s, hs, hreg, hcalls, fun hexact => ?_⟩
  by_cases hheld : s.Held 0
  · have hnone := hexact.held 0 hheld
    rw [Heap.callsOf, hcalls] at hnone
    exact absurd hnone (by decide)
  · have hone := hexact.released 0 4096 (by rw [hreg]; rfl) hheld
    rw [Heap.callsOf, hcalls] at hone
    exact absurd hone (by decide)

end Bugat.TSharedPtrDeleter
