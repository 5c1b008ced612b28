import Mathlib
import Bugat.Core.TSharedPtrCounts
import Bugat.Lib.Counting

/-!
# The counts under each operation

Every access to a `_refCount` moves one handle into the handles it counts, or out of them.
The release of an object starts when the last of them is gone, so a handle that is counted
always points to an object that is alive.
-/

namespace Bugat.TSharedPtr

open MachineInt (wrap32 wrap32_of_mem int32Max)

variable {Hdl Obj : Type*} [DecidableEq Hdl] [DecidableEq Obj]

variable {u u' u'' : Shared Hdl Obj} {st st' top push rest : Stack Hdl Obj} {h src : Hdl} {o : Obj}
  {p home : Option Obj} {after : After Hdl} {fresh mine killed : List Hdl} {ending : Option Hdl}
  {released : List Obj}
  {f : Frame Hdl Obj} {n : ℕ} {deleter : Bool}

section Counts

theorem card_holders_update (u' : Shared Hdl Obj) (hlive : h ∈ u.live) (hu : u'.live = u.live)
    (hcounted : u'.counted = Function.update u.counted h p) (o : Obj) :
    (u'.holders o).card + (if u.counted h = some o then 1 else 0) =
      (u.holders o).card + if p = some o then 1 else 0 := by
  rw [Shared.holders, Shared.holders, hu, hcounted]
  exact Counting.card_filter_update hlive u.counted p (· = some o)

omit [DecidableEq Hdl] in
theorem Inv.refCount_pos (hinv : Inv u) (hlive : h ∈ u.live) (hcounted : u.counted h = some o) :
    1 ≤ u.refCount o := by
  have hmem : h ∈ u.holders o := Finset.mem_filter.mpr ⟨hlive, hcounted⟩
  have hpos := Finset.card_pos.mpr ⟨h, hmem⟩
  rw [hinv.count]
  omega

theorem Inv.recount (hinv : Inv u) (hlive : h ∈ u.live) {v : ℤ} (hle : v ≤ int32Max)
    (hself : v + (if u.counted h = some o then 1 else 0) =
      u.refCount o + if p = some o then 1 else 0)
    (hother : ∀ o', o' ≠ o → u.counted h ≠ some o' ∧ p ≠ some o')
    (hpoints : p = some o → u.ptr h = some o ∧ u.status o = .alive) :
    Inv { u with
      refCount := Function.update u.refCount o v
      counted := Function.update u.counted h p } where
  count o' := by
    have hcard := card_holders_update
      { u with
        refCount := Function.update u.refCount o v
        counted := Function.update u.counted h p }
      hlive rfl rfl o'
    have hcount := hinv.count o'
    change Function.update u.refCount o v o' = _
    by_cases ho : o' = o
    · subst ho
      rw [Function.update_self]
      split_ifs at hself hcard <;> omega
    · obtain ⟨hbefore, hafter⟩ := hother o' ho
      rw [if_neg hbefore, if_neg hafter] at hcard
      rw [Function.update_of_ne ho, hcount]
      exact congrArg Nat.cast hcard.symm
  bound o' := by
    change Function.update u.refCount o v o' ≤ _
    by_cases ho : o' = o
    · subst ho
      rwa [Function.update_self]
    · rw [Function.update_of_ne ho]
      exact hinv.bound o'
  points h' hlive' o' := by
    change Function.update u.counted h p h' = some o' → _
    by_cases hh : h' = h
    · subst hh
      rw [Function.update_self]
      rintro rfl
      by_cases ho : o' = o
      · subst ho
        exact hpoints rfl
      · exact absurd rfl (hother o' ho).2
    · rw [Function.update_of_ne hh]
      exact hinv.points h' hlive' o'
  home := hinv.home
  deleted := hinv.deleted
  once := hinv.once
  deleter := hinv.deleter

theorem Inv.addRefCount (hinv : Inv u) (hlive : h ∈ u.live) (hnot : u.counted h = none)
    (hptr : u.ptr h = some o) (halive : u.status o = .alive) (hroom : u.refCount o < int32Max) :
    Inv (u.addRefCount h o) := by
  have hvalue : wrap32 (u.refCount o + 1) = u.refCount o + 1 := by
    have hnonneg := hinv.count o
    exact wrap32_of_mem (by omega) (by omega)
  refine hinv.recount hlive ?_ ?_ (fun o' ho => ⟨?_, ?_⟩) fun _ => ⟨hptr, halive⟩
  · omega
  · rw [hvalue, hnot, if_neg (Option.some_ne_none o).symm, if_pos rfl, add_zero]
  · rw [hnot]
    exact (Option.some_ne_none o').symm
  · exact fun heq => ho (Option.some.inj heq).symm

theorem Inv.subRefCount (hinv : Inv u) (hlive : h ∈ u.live) (hcounted : u.counted h = some o) :
    Inv (u.subRefCount h o) := by
  have hpos := hinv.refCount_pos hlive hcounted
  have hbound := hinv.bound o
  have hvalue : wrap32 (u.refCount o - 1) = u.refCount o - 1 := wrap32_of_mem (by omega) (by omega)
  refine hinv.recount hlive ?_ ?_ (fun o' ho => ⟨?_, ?_⟩) fun heq => ?_
  · omega
  · rw [hvalue, hcounted, if_pos rfl, if_neg (Option.some_ne_none o).symm]
    omega
  · rw [hcounted]
    exact fun heq => ho (Option.some.inj heq).symm
  · exact (Option.some_ne_none o').symm
  · exact absurd heq (Option.some_ne_none o).symm

theorem Inv.setPtr (hinv : Inv u) (hnot : u.counted h = none) : Inv (u.setPtr h p) where
  count := hinv.count
  bound := hinv.bound
  points h' hlive' o' hcounted := by
    have hne : h' ≠ h := fun heq => Option.some_ne_none o' (hcounted.symm.trans (heq ▸ hnot))
    change Function.update u.ptr h p h' = _ ∧ _
    rw [Function.update_of_ne hne]
    exact hinv.points h' hlive' o' hcounted
  home := hinv.home
  deleted := hinv.deleted
  once := hinv.once
  deleter := hinv.deleter

theorem holders_begin (hfresh : h ∉ u.live) (o : Obj) :
    (u.begin h home).holders o = u.holders o := by
  have hsame : ∀ h' ∈ u.live, Function.update u.counted h none h' = u.counted h' := fun h' hlive' =>
    Function.update_of_ne (ne_of_mem_of_not_mem hlive' hfresh) _ _
  change (insert h u.live).filter _ = u.live.filter _
  rw [Finset.filter_insert, if_neg]
  · refine Finset.filter_congr fun h' hlive' => ?_
    change Function.update u.counted h none h' = some o ↔ _
    rw [hsame h' hlive']
  · change Function.update u.counted h none h ≠ some o
    rw [Function.update_self]
    exact (Option.some_ne_none o).symm

theorem Inv.begin (hinv : Inv u) (hfresh : u.Constructible h home) : Inv (u.begin h home) where
  count o := by
    rw [holders_begin hfresh.1]
    exact hinv.count o
  bound := hinv.bound
  points h' hlive' o' := by
    change Function.update u.counted h none h' = some o' →
      Function.update u.ptr h none h' = some o' ∧ _
    rcases Finset.mem_insert.mp hlive' with rfl | hold
    · rw [Function.update_self]
      exact fun heq => absurd heq (Option.some_ne_none o').symm
    · have hne := ne_of_mem_of_not_mem hold hfresh.1
      rw [Function.update_of_ne hne, Function.update_of_ne hne]
      exact hinv.points h' hold o'
  home h' hlive' o' := by
    change Function.update u.home h home h' = some o' → _
    rcases Finset.mem_insert.mp hlive' with rfl | hold
    · rw [Function.update_self]
      exact fun heq => .inl (hfresh.2 o' heq)
    · rw [Function.update_of_ne (ne_of_mem_of_not_mem hold hfresh.1)]
      exact hinv.home h' hold o'
  deleted := hinv.deleted
  once := hinv.once
  deleter := hinv.deleter

theorem Inv.kill (hinv : Inv u) (hnot : u.counted h = none) : Inv (u.kill h) where
  count o := by
    have hsame : (u.kill h).holders o = u.holders o := by
      change (u.live.erase h).filter _ = u.live.filter _
      rw [Finset.filter_erase]
      refine Finset.erase_eq_of_notMem fun hmem => ?_
      exact Option.some_ne_none o ((Finset.mem_filter.mp hmem).2.symm.trans hnot)
    rw [hsame]
    exact hinv.count o
  bound := hinv.bound
  points h' hlive' := hinv.points h' (Finset.mem_of_mem_erase hlive')
  home h' hlive' := hinv.home h' (Finset.mem_of_mem_erase hlive')
  deleted := hinv.deleted
  once := hinv.once
  deleter := hinv.deleter

theorem Inv.steal (hinv : Inv u) (hlive : h ∈ u.live) (hsrc : src ∈ u.live) (hne : src ≠ h)
    (hnot : u.counted h = none) : Inv (u.steal h src) where
  count o := by
    have hcard := card_holders_update
      { u with counted := Function.update u.counted h (u.counted src) } hlive rfl rfl o
    have hcard' := card_holders_update (u.steal h src)
      (u := { u with counted := Function.update u.counted h (u.counted src) }) hsrc rfl rfl o
    change _ + (if Function.update u.counted h (u.counted src) src = some o then 1 else 0) = _
      at hcard'
    rw [Function.update_of_ne hne, if_neg (Option.some_ne_none o).symm] at hcard'
    rw [hnot, if_neg (Option.some_ne_none o).symm] at hcard
    have hcount := hinv.count o
    change u.refCount o = _
    omega
  bound := hinv.bound
  points h' hlive' o' := by
    change Function.update (Function.update u.counted h (u.counted src)) src none h' = some o' →
      Function.update (Function.update u.ptr h (u.ptr src)) src none h' = some o' ∧ _
    by_cases hh : h' = src
    · subst hh
      rw [Function.update_self]
      exact fun heq => absurd heq (Option.some_ne_none o').symm
    · rw [Function.update_of_ne hh, Function.update_of_ne hh]
      by_cases hh' : h' = h
      · subst hh'
        rw [Function.update_self, Function.update_self]
        exact hinv.points src hsrc o'
      · rw [Function.update_of_ne hh', Function.update_of_ne hh']
        exact hinv.points h' hlive' o'
  home := hinv.home
  deleted := hinv.deleted
  once := hinv.once
  deleter := hinv.deleter

omit [DecidableEq Hdl] in
theorem Inv.drop (hinv : Inv u) (halive : u.status o = .alive) (hzero : u.refCount o = 0) :
    Inv (u.drop o) where
  count := hinv.count
  bound := hinv.bound
  points h' hlive' o' hcounted := by
    obtain ⟨hptr, hstatus⟩ := hinv.points h' hlive' o' hcounted
    have hpos := hinv.refCount_pos hlive' hcounted
    have hne : o' ≠ o := fun heq => by
      subst heq
      omega
    refine ⟨hptr, ?_⟩
    change Function.update u.status o _ o' = _
    rw [Function.update_of_ne hne]
    exact hstatus
  home h' hlive' o' hhome := by
    change Function.update u.status o _ o' = _ ∨ Function.update u.status o _ o' = _
    by_cases ho : o' = o
    · subst ho
      rw [Function.update_self]
      exact .inr rfl
    · rw [Function.update_of_ne ho]
      exact hinv.home h' hlive' o' hhome
  deleted o' := by
    change o' ∈ (u.deleted ++ [(o, u.deleter o)]).map Prod.fst ↔
      Function.update u.status o _ o' = _ ∨ Function.update u.status o _ o' = _
    rw [List.map_append, List.mem_append, hinv.deleted]
    by_cases ho : o' = o
    · subst ho
      simp
    · simp [ho]
  once := by
    change ((u.deleted ++ [(o, u.deleter o)]).map Prod.fst).Nodup
    have hnew : o ∉ u.deleted.map Prod.fst := by
      rw [hinv.deleted, halive]
      rintro (heq | heq) <;> cases heq
    rw [List.map_append]
    exact hinv.once.append (List.nodup_singleton o) (List.disjoint_singleton.mpr hnew)
  deleter q hq := by
    rcases List.mem_append.mp hq with hold | hnew
    · exact hinv.deleter q hold
    · obtain rfl := List.mem_singleton.mp hnew
      rfl

omit [DecidableEq Hdl] in
theorem Inv.free (hinv : Inv u) (hdropped : u.status o = .dropped)
    (hfields : ∀ h ∈ u.live, u.home h ≠ some o) : Inv (u.free o) where
  count := hinv.count
  bound := hinv.bound
  points h' hlive' o' hcounted := by
    obtain ⟨hptr, hstatus⟩ := hinv.points h' hlive' o' hcounted
    have hne : o' ≠ o := fun heq => by
      rw [heq, hdropped] at hstatus
      cases hstatus
    refine ⟨hptr, ?_⟩
    change Function.update u.status o _ o' = _
    rw [Function.update_of_ne hne]
    exact hstatus
  home h' hlive' o' hhome := by
    have hne : o' ≠ o := fun heq => hfields h' hlive' (heq ▸ hhome)
    change Function.update u.status o _ o' = _ ∨ Function.update u.status o _ o' = _
    rw [Function.update_of_ne hne]
    exact hinv.home h' hlive' o' hhome
  deleted o' := by
    change o' ∈ u.deleted.map Prod.fst ↔
      Function.update u.status o _ o' = _ ∨ Function.update u.status o _ o' = _
    rw [hinv.deleted]
    by_cases ho : o' = o
    · subst ho
      simp [hdropped]
    · rw [Function.update_of_ne ho]
  once := hinv.once
  deleter := hinv.deleter

omit [DecidableEq Hdl] in
theorem Inv.bear (hinv : Inv u) (deleter : Bool) (hunborn : u.status o = .unborn) :
    Inv { u with
      refCount := Function.update u.refCount o 0
      status := Function.update u.status o .alive
      deleter := Function.update u.deleter o deleter } where
  count o' := by
    have hcount := hinv.count o'
    change Function.update u.refCount o 0 o' = (u.holders o').card
    by_cases ho : o' = o
    · subst ho
      have hempty : u.holders o' = ∅ := Finset.filter_eq_empty_iff.mpr fun h hlive hcounted => by
        have halive := (hinv.points h hlive o' hcounted).2
        rw [hunborn] at halive
        cases halive
      rw [Function.update_self, hempty]
      rfl
    · rw [Function.update_of_ne ho]
      exact hcount
  bound o' := by
    change Function.update u.refCount o 0 o' ≤ _
    by_cases ho : o' = o
    · subst ho
      rw [Function.update_self]
      decide
    · rw [Function.update_of_ne ho]
      exact hinv.bound o'
  points h' hlive' o' hcounted := by
    obtain ⟨hptr, hstatus⟩ := hinv.points h' hlive' o' hcounted
    refine ⟨hptr, ?_⟩
    by_cases ho : o' = o
    · subst ho
      exact Function.update_self _ _ _
    · exact (Function.update_of_ne ho _ _).trans hstatus
  home h' hlive' o' hhome := by
    by_cases ho : o' = o
    · subst ho
      exact .inl (Function.update_self _ _ _)
    · simp only [Function.update_of_ne ho]
      exact hinv.home h' hlive' o' hhome
  deleted o' := by
    change o' ∈ u.deleted.map Prod.fst ↔ _
    rw [hinv.deleted]
    by_cases ho : o' = o
    · subst ho
      simp [hunborn]
    · simp only [Function.update_of_ne ho]
  once := hinv.once
  deleter q hq := by
    have hne : q.1 ≠ o := fun heq => by
      have hmem := (hinv.deleted q.1).mp (List.mem_map_of_mem hq)
      rw [heq, hunborn] at hmem
      rcases hmem with hmem | hmem <;> cases hmem
    exact (hinv.deleter q hq).trans (Function.update_of_ne hne _ _).symm

end Counts

section Frames

omit [DecidableEq Obj] in
theorem guarantee_setPtr (hmine : h ∈ mine) : Guarantee mine killed released u (u.setPtr h p) :=
  ⟨fun _ hlive _ => hlive, fun _ hlive hnot =>
    ⟨hlive, Function.update_of_ne (ne_of_mem_of_not_mem hmine hnot).symm _ _, rfl⟩,
    fun _ _ halive hzero => ⟨halive, hzero⟩, fun _ _ h => h⟩

theorem guarantee_addRefCount (hmine : h ∈ mine) (hcount : u.refCount o ≠ 0) :
    Guarantee mine killed released u (u.addRefCount h o) :=
  ⟨fun _ hlive _ => hlive, fun _ hlive hnot =>
    ⟨hlive, rfl, Function.update_of_ne (ne_of_mem_of_not_mem hmine hnot).symm _ _⟩,
    fun o' _ halive hzero => by
      have hne : o' ≠ o := fun heq => hcount (heq ▸ hzero)
      exact ⟨halive, (Function.update_of_ne hne _ _).trans hzero⟩,
    fun _ _ h => h⟩

theorem guarantee_subRefCount (hmine : h ∈ mine) (hcount : u.refCount o ≠ 0) :
    Guarantee mine killed released u (u.subRefCount h o) :=
  ⟨fun _ hlive _ => hlive, fun _ hlive hnot =>
    ⟨hlive, rfl, Function.update_of_ne (ne_of_mem_of_not_mem hmine hnot).symm _ _⟩,
    fun o' _ halive hzero => by
      have hne : o' ≠ o := fun heq => hcount (heq ▸ hzero)
      exact ⟨halive, (Function.update_of_ne hne _ _).trans hzero⟩,
    fun _ _ h => h⟩

omit [DecidableEq Obj] in
theorem guarantee_begin (hfresh : h ∉ u.live) : Guarantee mine killed released u (u.begin h home) :=
  ⟨fun _ hlive _ => Finset.mem_insert_of_mem hlive, fun h' hlive _ => by
    have hne := ne_of_mem_of_not_mem hlive hfresh
    exact ⟨Finset.mem_insert_of_mem hlive, Function.update_of_ne hne _ _,
      Function.update_of_ne hne _ _⟩,
    fun _ _ halive hzero => ⟨halive, hzero⟩, fun _ _ h => h⟩

theorem guarantee_create (hfresh : h ∉ u.live) (hunborn : u.status o = .unborn) :
    Guarantee mine killed released u (u.create h home o deleter) where
  live _ hlive _ := Finset.mem_insert_of_mem hlive
  handle h' hlive _ := by
    have hne := ne_of_mem_of_not_mem hlive hfresh
    exact ⟨Finset.mem_insert_of_mem hlive,
      (Function.update_of_ne hne _ _).trans (Function.update_of_ne hne _ _),
      (Function.update_of_ne hne _ _).trans (Function.update_of_ne hne _ _)⟩
  waiting o' _ halive hzero := by
    have hne : o' ≠ o := fun heq => by
      rw [heq, hunborn] at halive
      cases halive
    exact ⟨(Function.update_of_ne hne _ _).trans halive,
      (Function.update_of_ne hne _ _).trans ((Function.update_of_ne hne _ _).trans hzero)⟩
  dropped o' _ hdropped := by
    have hne : o' ≠ o := fun heq => by
      rw [heq, hunborn] at hdropped
      cases hdropped
    exact (Function.update_of_ne hne _ _).trans hdropped

omit [DecidableEq Obj] in
theorem guarantee_steal (hmine : h ∈ mine) (hsrc : src ∈ mine) :
    Guarantee mine killed released u (u.steal h src) :=
  ⟨fun _ hlive _ => hlive, fun h' hlive hnot => by
    have hne := (ne_of_mem_of_not_mem hmine hnot).symm
    have hne' := (ne_of_mem_of_not_mem hsrc hnot).symm
    exact ⟨hlive, (Function.update_of_ne hne' _ _).trans (Function.update_of_ne hne _ _),
      (Function.update_of_ne hne' _ _).trans (Function.update_of_ne hne _ _)⟩,
    fun _ _ halive hzero => ⟨halive, hzero⟩, fun _ _ h => h⟩

omit [DecidableEq Obj] in
theorem guarantee_kill (hmine : h ∈ mine) (hkilled : h ∈ killed) :
    Guarantee mine killed released u (u.kill h) :=
  ⟨fun _ hlive hnot => Finset.mem_erase.mpr ⟨(ne_of_mem_of_not_mem hkilled hnot).symm, hlive⟩,
    fun _ hlive hnot =>
      ⟨Finset.mem_erase.mpr ⟨(ne_of_mem_of_not_mem hmine hnot).symm, hlive⟩, rfl, rfl⟩,
    fun _ _ halive hzero => ⟨halive, hzero⟩, fun _ _ h => h⟩

omit [DecidableEq Hdl] in
theorem guarantee_release {status : Status} {deleted : List (Obj × Bool)} (ho : o ∈ released) :
    Guarantee mine killed released u
      { u with status := Function.update u.status o status, deleted := deleted } :=
  ⟨fun _ hlive _ => hlive, fun _ hlive _ => ⟨hlive, rfl, rfl⟩,
    fun _ hnot halive hzero =>
      ⟨(Function.update_of_ne (ne_of_mem_of_not_mem ho hnot).symm _ _).trans halive, hzero⟩,
    fun _ hnot hdropped =>
      (Function.update_of_ne (ne_of_mem_of_not_mem ho hnot).symm _ _).trans hdropped⟩

end Frames

section Operations

omit [DecidableEq Hdl] [DecidableEq Obj] in
theorem uses_singleton (f : Frame Hdl Obj) : uses [f] = f.uses := List.append_nil _

omit [DecidableEq Hdl] [DecidableEq Obj] in
theorem objs_singleton (f : Frame Hdl Obj) : objs [f] = f.objs := List.append_nil _

omit [DecidableEq Hdl] [DecidableEq Obj] in
theorem stackOk_nil : StackOk u [] :=
  ⟨fun _ hf => absurd hf List.not_mem_nil, List.Pairwise.nil,
    fun _ hf => absurd hf List.not_mem_nil⟩

omit [DecidableEq Hdl] [DecidableEq Obj] in
theorem stackOk_singleton (hlive : ∀ h ∈ f.uses, h ∈ u.live) (hf : FrameOk u f) :
    StackOk u [f] where
  live _ hg := (List.mem_singleton.mp hg) ▸ hlive
  below := List.pairwise_singleton _ _
  frames _ hg := (List.mem_singleton.mp hg) ▸ hf

omit [DecidableEq Hdl] [DecidableEq Obj] in
theorem StackOk.singleton (hok : StackOk u [f]) : (∀ h ∈ f.uses, h ∈ u.live) ∧ FrameOk u f :=
  ⟨hok.live f (List.mem_singleton_self f), hok.frames f (List.mem_singleton_self f)⟩

omit [DecidableEq Obj] in
theorem settled_of_same
    (hsame : ∀ h', h' ≠ h → u'.ptr h' = u.ptr h' ∧ u'.counted h' = u.counted h')
    (hlive : ∀ h' ∈ u'.live, h' ≠ h → h' ∈ u.live)
    (htop : ∀ h', h' ≠ h → ∀ after, .clear h' after ∉ top)
    (hh : h ∈ u'.live → u'.Settled h ∨ ∃ after, .clear h after ∈ push) :
    ∀ h' ∈ u'.live, u'.Settled h' ∨ (∃ after, .clear h' after ∈ push) ∨
      h' ∈ u.live ∧ (∀ after, .clear h' after ∉ top) ∧ u'.ptr h' = u.ptr h' ∧
        u'.counted h' = u.counted h' := by
  intro h' hlive'
  by_cases heq : h' = h
  · subst heq
    exact (hh hlive').imp_right Or.inl
  · obtain ⟨hptr, hcounted⟩ := hsame h' heq
    exact .inr (.inr ⟨hlive h' hlive' heq, htop h' heq, hptr, hcounted⟩)

omit [DecidableEq Hdl] [DecidableEq Obj] in
theorem pending_kept (halive : u.status o = .alive) (hcount : u'.refCount o = u.refCount o)
    (hnot : o ∉ objs top) : u'.refCount o ≠ 0 ∨ .drop o ∈ push ∨
      u.status o = .alive ∧ u.refCount o = 0 ∧ o ∉ objs top := by
  by_cases hzero : u.refCount o = 0
  · exact .inr (.inr ⟨halive, hzero, hnot⟩)
  · exact .inl (hcount ▸ hzero)

omit [DecidableEq Hdl] [DecidableEq Obj] in
theorem pending_of_same (hstatus : u'.status = u.status) (hcount : u'.refCount = u.refCount)
    (hobjs : ∀ o ∈ objs top, u.status o ≠ .alive) (o : Obj) (halive : u'.status o = .alive) :
    u'.refCount o ≠ 0 ∨ .drop o ∈ push ∨
      u.status o = .alive ∧ u.refCount o = 0 ∧ o ∉ objs top := by
  rw [hstatus] at halive
  exact pending_kept halive (congrFun hcount o) fun ho => hobjs o ho halive

omit [DecidableEq Hdl] [DecidableEq Obj] in
theorem clear_not_mem_singleton (hf : ∀ h after, f ≠ .clear h after) (h : Hdl) (after : After Hdl) :
    .clear h after ∉ [f] := fun hmem => hf h after (List.mem_singleton.mp hmem).symm

omit [DecidableEq Hdl] [DecidableEq Obj] in
theorem settled_kept (hptr : u'.ptr = u.ptr) (hcounted : u'.counted = u.counted)
    (hlive : ∀ h' ∈ u'.live, h' ∈ u.live) (hf : ∀ h after, f ≠ .clear h after) :
    ∀ h' ∈ u'.live, u'.Settled h' ∨ (∃ after, .clear h' after ∈ push) ∨
      h' ∈ u.live ∧ (∀ after, .clear h' after ∉ [f]) ∧ u'.ptr h' = u.ptr h' ∧
        u'.counted h' = u.counted h' := fun h' hlive' =>
  .inr (.inr ⟨hlive h' hlive', clear_not_mem_singleton hf h', congrFun hptr h',
    congrFun hcounted h'⟩)

theorem Stepped.setCopies (hs : Stepped fresh ending u top u' push) :
    Stepped fresh ending u top (u'.setCopies h n) push where
  inv := ⟨hs.inv.count, hs.inv.bound, hs.inv.points, hs.inv.home, hs.inv.deleted, hs.inv.once,
    hs.inv.deleter⟩
  stack := ⟨hs.stack.live, hs.stack.below, fun f hf => by
    have hframe := hs.stack.frames f hf
    cases f <;> exact hframe⟩
  guarantee := ⟨hs.guarantee.live, hs.guarantee.handle, hs.guarantee.waiting, hs.guarantee.dropped⟩
  uses := hs.uses
  kills := hs.kills
  objs := hs.objs
  settled := hs.settled
  pending := hs.pending

structure Continues (u : Shared Hdl Obj) (f g : Frame Hdl Obj) : Prop where
  uses : g.uses ⊆ f.uses
  kills : ∀ h ∈ g.kills, h ∈ f.kills
  objs : ∀ o ∈ g.objs, o ∈ f.objs ∨ u.status o = .alive ∧ u.refCount o ≠ 0

omit [DecidableEq Hdl] in
theorem Stepped.of_frame (hinv : Inv u') (hstack : StackOk u' push)
    (hg : Guarantee (TSharedPtr.uses [f] ++ fresh) (List.filterMap Frame.kills [f])
      (TSharedPtr.objs [f]) u u')
    (hpush : ∀ g ∈ push, Continues u f g)
    (hsettled : ∀ h ∈ u'.live, u'.Settled h ∨ (∃ after, .clear h after ∈ push) ∨
      h ∈ u.live ∧ (∀ after, .clear h after ∉ [f]) ∧ u'.ptr h = u.ptr h ∧
        u'.counted h = u.counted h)
    (hpending : ∀ o, u'.status o = .alive → u'.refCount o ≠ 0 ∨ .drop o ∈ push ∨
      u.status o = .alive ∧ u.refCount o = 0 ∧ o ∉ TSharedPtr.objs [f]) :
    Stepped fresh ending u [f] u' push where
  inv := hinv
  stack := hstack
  guarantee := hg
  uses g hmem _ hh := .inl ((uses_singleton f).symm ▸ (hpush g hmem).uses hh)
  kills g hmem _ hh := .inl (List.mem_filterMap.mpr
    ⟨f, List.mem_singleton_self f, (hpush g hmem).kills _ hh⟩)
  objs g hmem _ ho := ((hpush g hmem).objs _ ho).imp_left fun hf => (objs_singleton f).symm ▸ hf
  settled := hsettled
  pending := hpending

omit [DecidableEq Hdl] [DecidableEq Obj] in
theorem continues_of_eq {g g' : Frame Hdl Obj} (huses : g.uses = f.uses)
    (hkills : g.kills = f.kills)
    (hobjs : g.objs = f.objs) (hg : g' ∈ [g]) : Continues u f g' := by
  obtain rfl := List.mem_singleton.mp hg
  exact ⟨huses ▸ List.Subset.refl _, fun _ hh => hkills ▸ hh, fun _ ho => .inl (hobjs ▸ ho)⟩

theorem resetStep_none (hptr : u.ptr h = none) :
    resetStep u h after rest = (u, .finish h after :: rest) := by
  rw [resetStep, hptr]

theorem resetStep_some (hptr : u.ptr h = some o) : resetStep u h after rest = (u.subRefCount h o,
    (if u.refCount o = 1 then [.drop o, .clear h after] else [.clear h after]) ++ rest) := by
  rw [resetStep, hptr]
  dsimp only
  split <;> rfl

omit [DecidableEq Hdl] in
theorem stepped_reset_null (hinv : Inv u) (hok : StackOk u [.reset h after])
    (hptr : u.ptr h = none) : Stepped fresh ending u [.reset h after] u [.finish h after] := by
  obtain ⟨hlive, hsettled, hnot⟩ := hok.singleton
  refine .of_frame hinv (stackOk_singleton hlive ⟨hptr, hsettled.trans hptr, hnot⟩) (.refl _ _ _ _)
    (fun _ => continues_of_eq rfl rfl rfl) (settled_kept rfl rfl (fun _ => id) fun _ _ heq => ?_)
    (pending_of_same rfl rfl fun _ ho => absurd ho List.not_mem_nil)
  cases heq

/-- The `fetch_sub` of `Reset`. The one that finds 1 opens the release of the object. -/
theorem stepped_sub (hinv : Inv u) (hok : StackOk u [.reset h after]) (hptr : u.ptr h = some o) :
    Stepped fresh ending u [.reset h after] (u.subRefCount h o)
      (if u.refCount o = 1 then [.drop o, .clear h after] else [.clear h after]) := by
  obtain ⟨huses, hsettled, hnot⟩ := hok.singleton
  have hlive : h ∈ u.live := huses h List.mem_cons_self
  have hcounted : u.counted h = some o := hsettled.trans hptr
  have hpos := hinv.refCount_pos hlive hcounted
  have hbound := hinv.bound o
  have halive := (hinv.points h hlive o hcounted).2
  have hvalue : (u.subRefCount h o).refCount o = u.refCount o - 1 :=
    (Function.update_self _ _ _).trans (wrap32_of_mem (by omega) (by omega))
  have hclear : FrameOk (u.subRefCount h o) (.clear h after) := ⟨Function.update_self _ _ _, hnot⟩
  refine .of_frame (hinv.subRefCount hlive hcounted) ?_
    (guarantee_subRefCount List.mem_cons_self (by omega)) ?_ ?_ fun o' halive' => ?_
  · split
    · rename_i hlast
      have hdrop : FrameOk (u.subRefCount h o) (.drop o) := ⟨halive, by omega⟩
      refine ⟨fun f hf => ?_, List.pairwise_pair.mpr ⟨?_, ?_, ?_⟩, fun f hf => ?_⟩
      · rcases List.mem_cons.mp hf with rfl | hf
        · exact fun h hh => absurd hh List.not_mem_nil
        · exact (List.mem_singleton.mp hf) ▸ huses
      · exact fun h hh => absurd hh List.not_mem_nil
      · exact fun h hh => absurd hh (Option.some_ne_none h).symm
      · exact fun o ho ho' => List.not_mem_nil ho'
      · rcases List.mem_cons.mp hf with rfl | hf
        · exact hdrop
        · exact (List.mem_singleton.mp hf) ▸ hclear
    · exact stackOk_singleton huses hclear
  · intro g hg
    split at hg
    · rcases List.mem_cons.mp hg with rfl | hg
      · refine ⟨List.nil_subset _, fun h hh => absurd hh (Option.some_ne_none h).symm, ?_⟩
        intro o' ho
        obtain rfl := List.mem_singleton.mp ho
        exact .inr ⟨halive, by omega⟩
      · exact continues_of_eq (g := .clear h after) rfl rfl rfl hg
    · exact continues_of_eq (g := .clear h after) rfl rfl rfl hg
  · refine settled_of_same (fun h' hne => ⟨rfl, Function.update_of_ne hne _ _⟩) (fun _ h' _ => h')
      (fun h' _ => clear_not_mem_singleton (fun _ _ heq => ?_) h') fun _ => .inr ⟨after, ?_⟩
    · cases heq
    · split
      · exact List.mem_cons_of_mem _ (List.mem_singleton_self _)
      · exact List.mem_singleton_self _
  · by_cases ho : o' = o
    · subst ho
      by_cases hlast : u.refCount o' = 1
      · rw [if_pos hlast]
        exact .inr (.inl List.mem_cons_self)
      · exact .inl (by omega)
    · exact pending_kept halive' (Function.update_of_ne ho _ _) List.not_mem_nil

theorem stepped_clear (hinv : Inv u) (hok : StackOk u [.clear h after]) :
    Stepped fresh ending u [.clear h after] (u.setPtr h none) [.finish h after] := by
  obtain ⟨huses, hcounted, hnot⟩ := hok.singleton
  have hnull : (u.setPtr h none).ptr h = none := Function.update_self _ _ _
  refine .of_frame (hinv.setPtr hcounted) (stackOk_singleton huses ⟨hnull, hcounted, hnot⟩)
    (guarantee_setPtr List.mem_cons_self) (fun _ => continues_of_eq rfl rfl rfl) ?_
    (pending_of_same rfl rfl fun _ ho => absurd ho List.not_mem_nil)
  refine settled_of_same (fun h' hne => ⟨Function.update_of_ne hne _ _, rfl⟩) (fun _ h' _ => h')
    (fun h' hne after' hmem => ?_) fun _ => .inl (hcounted.trans hnull.symm)
  obtain ⟨heq, -⟩ := Frame.clear.inj (List.mem_singleton.mp hmem)
  exact hne heq

theorem stepped_acquire (hinv : Inv u) (hok : StackOk u [.finish h after])
    (hmem : src ∈ after.uses) (hsettled : u.Settled src)
    (hroom : ∀ o, u.ptr src = some o → u.refCount o < int32Max) :
    Stepped fresh ending u [.finish h after] (u.acquire h src) [] := by
  obtain ⟨huses, hnull, hnot, hne⟩ := hok.singleton
  have hlive : h ∈ u.live := huses h List.mem_cons_self
  have hnil : ∀ g ∈ ([] : Stack Hdl Obj), Continues u (.finish h after) g := fun _ hg =>
    absurd hg List.not_mem_nil
  have htop : ∀ h' after', .clear h' after' ∉ ([.finish h after] : Stack Hdl Obj) := by
    refine clear_not_mem_singleton fun _ _ heq => ?_
    cases heq
  cases hptr : u.ptr src with
  | none =>
    have hsame : u.acquire h src = u := by
      rw [Shared.acquire, hptr]
      change { u with ptr := Function.update u.ptr h none } = u
      rw [← hnull, Function.update_eq_self]
    rw [hsame]
    exact .of_frame hinv stackOk_nil (.refl _ _ _ _) hnil
      (fun h' hlive' => .inr (.inr ⟨hlive', htop h', rfl, rfl⟩))
      (pending_of_same rfl rfl fun _ ho => absurd ho List.not_mem_nil)
  | some o =>
    have hcounted : u.counted src = some o := hsettled.trans hptr
    have hsrc : src ∈ u.live := huses src (List.mem_cons_of_mem _ hmem)
    have hpos := hinv.refCount_pos hsrc hcounted
    have hacquire : u.acquire h src = (u.setPtr h (some o)).addRefCount h o := by
      rw [Shared.acquire, hptr]
    have hinv' : Inv (u.setPtr h (some o)) := hinv.setPtr hnot
    have hptr' : (u.setPtr h (some o)).ptr h = some o := Function.update_self _ _ _
    have hcount : (u.setPtr h (some o)).refCount o ≠ 0 := by
      change u.refCount o ≠ 0
      omega
    rw [hacquire]
    refine .of_frame (hinv'.addRefCount hlive hnot hptr' (hinv.points src hsrc o hcounted).2
      (hroom o hptr)) stackOk_nil ((guarantee_setPtr List.mem_cons_self).trans
        (guarantee_addRefCount List.mem_cons_self hcount)) hnil ?_ fun o' halive => ?_
    · refine settled_of_same (h := h) (fun h' hne => ⟨?_, ?_⟩) (fun _ h' _ => h')
        (fun h' _ => htop h') fun _ => .inl ?_
      · exact Function.update_of_ne hne _ _
      · exact Function.update_of_ne hne _ _
      · exact (Function.update_self _ _ _).trans hptr'.symm
    · have hbound := hinv.bound o
      have hroom := hroom o hptr
      by_cases ho : o' = o
      · subst ho
        change Function.update u.refCount o' (wrap32 (u.refCount o' + 1)) o' ≠ 0 ∨ _
        rw [Function.update_self, wrap32_of_mem (by omega) (by omega)]
        exact .inl (by omega)
      · exact pending_kept halive (Function.update_of_ne ho _ _) List.not_mem_nil

theorem stepped_steal (hinv : Inv u) (hok : StackOk u [.finish h (.steal src)])
    (hsettled : u.Settled src) :
    Stepped fresh ending u [.finish h (.steal src)] (u.steal h src) [] := by
  obtain ⟨huses, hnull, hnot, hmem⟩ := hok.singleton
  have hlive : h ∈ u.live := huses h List.mem_cons_self
  have hsrc : src ∈ u.live := huses src (List.mem_cons_of_mem _ (List.mem_singleton_self src))
  have hne : src ≠ h := fun heq => hmem (heq ▸ List.mem_singleton_self src)
  refine .of_frame (hinv.steal hlive hsrc hne hnot) stackOk_nil
    (guarantee_steal List.mem_cons_self (List.mem_cons_of_mem _ List.mem_cons_self))
    (fun _ hg => absurd hg List.not_mem_nil) (fun h' hlive' => ?_)
    (pending_of_same rfl rfl fun _ ho => absurd ho List.not_mem_nil)
  change Function.update (Function.update u.counted h (u.counted src)) src none h' =
    Function.update (Function.update u.ptr h (u.ptr src)) src none h' ∨ _ ∨ _ ∧ _ ∧
    Function.update (Function.update u.ptr h (u.ptr src)) src none h' = _ ∧
    Function.update (Function.update u.counted h (u.counted src)) src none h' = _
  by_cases hh : h' = src
  · subst hh
    rw [Function.update_self, Function.update_self]
    exact .inl rfl
  · rw [Function.update_of_ne hh, Function.update_of_ne hh]
    by_cases hh' : h' = h
    · subst hh'
      rw [Function.update_self, Function.update_self]
      exact .inl hsettled
    · rw [Function.update_of_ne hh', Function.update_of_ne hh']
      refine .inr (.inr ⟨hlive', clear_not_mem_singleton (fun _ _ heq => ?_) h', rfl, rfl⟩)
      cases heq

theorem stepped_kill (hinv : Inv u) (hok : StackOk u [.finish h .kill]) :
    Stepped fresh ending u [.finish h .kill] (u.kill h) [] := by
  obtain ⟨-, -, hnot, -⟩ := hok.singleton
  refine .of_frame (hinv.kill hnot) stackOk_nil
    (guarantee_kill List.mem_cons_self List.mem_cons_self)
    (fun _ hg => absurd hg List.not_mem_nil)
    (settled_kept rfl rfl (fun _ => Finset.mem_of_mem_erase) fun _ _ heq => ?_)
    (pending_of_same rfl rfl fun _ ho => absurd ho List.not_mem_nil)
  cases heq

theorem stepped_finish (hinv : Inv u) (hok : StackOk u [.finish h after])
    (hsettled : ∀ src ∈ after.uses, u.Settled src)
    (hroom : ∀ src ∈ after.adds, ∀ o, u.ptr src = some o → u.refCount o < int32Max) :
    Stepped fresh ending u [.finish h after] (u.finish h after) [] := by
  cases after with
  | done =>
    refine .of_frame hinv stackOk_nil (.refl _ _ _ _) (fun _ hg => absurd hg List.not_mem_nil)
      (settled_kept rfl rfl (fun _ => id) fun _ _ heq => ?_)
      (pending_of_same rfl rfl fun _ ho => absurd ho List.not_mem_nil)
    cases heq
  | acquire src =>
    have hmem : src ∈ (After.acquire src).uses := List.mem_singleton_self src
    exact stepped_acquire hinv hok hmem (hsettled src hmem) (hroom src rfl)
  | share src =>
    have hmem : src ∈ (After.share src).uses := List.mem_singleton_self src
    exact (stepped_acquire hinv hok hmem (hsettled src hmem) (hroom src rfl)).setCopies
  | steal src => exact stepped_steal hinv hok (hsettled src (List.mem_singleton_self src))
  | kill => exact stepped_kill hinv hok

omit [DecidableEq Hdl] in
theorem stepped_drop (hinv : Inv u) (hok : StackOk u [.drop o]) :
    Stepped fresh ending u [.drop o] (u.drop o) [.body o] := by
  obtain ⟨-, halive, hzero⟩ := hok.singleton
  have hdropped : (u.drop o).status o = .dropped := Function.update_self _ _ _
  refine .of_frame (hinv.drop halive hzero)
    (stackOk_singleton (fun h hh => absurd hh List.not_mem_nil) hdropped)
    (guarantee_release List.mem_cons_self) (fun _ => continues_of_eq rfl rfl rfl)
    (settled_kept rfl rfl (fun _ => id) fun _ _ heq => ?_) fun o' halive' => ?_
  · cases heq
  · have hne : o' ≠ o := fun heq => by
      rw [heq, hdropped] at halive'
      cases halive'
    exact pending_kept ((Function.update_of_ne hne _ _).symm.trans halive') rfl
      fun hmem => hne (List.mem_singleton.mp hmem)

omit [DecidableEq Hdl] [DecidableEq Obj] in
theorem dropped_not_alive (hdropped : u.status o = .dropped) :
    ∀ o' ∈ ([o] : List Obj), u.status o' ≠ .alive := by
  intro o' ho halive
  obtain rfl := List.mem_singleton.mp ho
  rw [hdropped] at halive
  cases halive

omit [DecidableEq Hdl] in
theorem stepped_body (hinv : Inv u) (hok : StackOk u [.body o]) :
    Stepped fresh ending u [.body o] u [.fields o] := by
  obtain ⟨hlive, hdropped⟩ := hok.singleton
  refine .of_frame hinv (stackOk_singleton hlive hdropped) (.refl _ _ _ _)
    (fun _ => continues_of_eq rfl rfl rfl) (settled_kept rfl rfl (fun _ => id) fun _ _ heq => ?_)
    (pending_of_same rfl rfl (dropped_not_alive hdropped))
  cases heq

omit [DecidableEq Hdl] in
theorem stepped_free (hinv : Inv u) (hok : StackOk u [.fields o])
    (hfields : ∀ h ∈ u.live, u.home h ≠ some o) :
    Stepped fresh ending u [.fields o] (u.free o) [] := by
  obtain ⟨-, hdropped⟩ := hok.singleton
  refine .of_frame (hinv.free hdropped hfields) stackOk_nil (guarantee_release List.mem_cons_self)
    (fun _ hg => absurd hg List.not_mem_nil)
    (settled_kept rfl rfl (fun _ => id) fun _ _ heq => ?_) fun o' halive' => ?_
  · cases heq
  · have hne : o' ≠ o := fun heq => by
      have hfreed : (u.free o).status o' = .freed := heq ▸ Function.update_self _ _ _
      rw [halive'] at hfreed
      cases hfreed
    exact pending_kept ((Function.update_of_ne hne _ _).symm.trans halive') rfl
      fun hmem => hne (List.mem_singleton.mp hmem)

end Operations

section Calls

omit [DecidableEq Hdl] in
theorem stepped_push (hinv : Inv u) (huses : h :: after.uses ⊆ fresh) (hnot : h ∉ after.uses)
    (hkills : ∀ h' ∈ after.kills h, h' ∈ ending) (hlive : ∀ h ∈ fresh, h ∈ u.live)
    (hsettled : u.Settled h) : Stepped fresh ending u [] u [.reset h after] where
  inv := hinv
  stack := stackOk_singleton (fun h' hh => hlive h' (huses hh)) ⟨hsettled, hnot⟩
  guarantee := .refl _ _ _ _
  uses f hf h' hh := by
    obtain rfl := List.mem_singleton.mp hf
    exact .inr (.inl (huses hh))
  kills f hf h' hh := by
    obtain rfl := List.mem_singleton.mp hf
    exact .inr (hkills h' hh)
  objs f hf o ho := by
    obtain rfl := List.mem_singleton.mp hf
    exact absurd ho List.not_mem_nil
  settled _ hlive' := .inr (.inr ⟨hlive', fun _ => List.not_mem_nil, rfl, rfl⟩)
  pending := pending_of_same rfl rfl fun _ ho => absurd ho List.not_mem_nil

omit [DecidableEq Hdl] in
theorem stepped_skip (hinv : Inv u) : Stepped fresh ending u [] u [] where
  inv := hinv
  stack := stackOk_nil
  guarantee := .refl _ _ _ _
  uses _ hf := absurd hf List.not_mem_nil
  kills _ hf := absurd hf List.not_mem_nil
  objs _ hf := absurd hf List.not_mem_nil
  settled _ hlive := .inr (.inr ⟨hlive, fun _ => List.not_mem_nil, rfl, rfl⟩)
  pending := pending_of_same rfl rfl fun _ ho => absurd ho List.not_mem_nil

omit [DecidableEq Obj] in
theorem begin_settled (hfresh : h ∉ u.live) (h' : Hdl) (hlive : h' ∈ (u.begin h home).live) :
    (u.begin h home).Settled h' ∨ h' ∈ u.live ∧ (u.begin h home).ptr h' = u.ptr h' ∧
      (u.begin h home).counted h' = u.counted h' := by
  rcases Finset.mem_insert.mp hlive with rfl | hold
  · have hcounted : (u.begin h' home).counted h' = none := Function.update_self _ _ _
    have hptr : (u.begin h' home).ptr h' = none := Function.update_self _ _ _
    exact .inl (hcounted.trans hptr.symm)
  · have hne := ne_of_mem_of_not_mem hold hfresh
    exact .inr ⟨hold, Function.update_of_ne hne _ _, Function.update_of_ne hne _ _⟩

theorem stepped_begin (hinv : Inv u) (hfresh : u.Constructible h home)
    (hstack : StackOk (u.begin h home) push)
    (hpush : ∀ f ∈ push, f.uses ⊆ h :: fresh ∧ f.kills = none ∧ f.objs = []) :
    Stepped fresh ending u [] (u.begin h home) push where
  inv := hinv.begin hfresh
  stack := hstack
  guarantee := guarantee_begin hfresh.1
  uses f hf h' hh := by
    rcases List.mem_cons.mp ((hpush f hf).1 hh) with rfl | hmem
    · exact .inr (.inr hfresh.1)
    · exact .inr (.inl hmem)
  kills f hf h' hh := absurd ((hpush f hf).2.1.symm.trans hh) (Option.some_ne_none h').symm
  objs f hf o ho := absurd ((hpush f hf).2.2 ▸ ho) List.not_mem_nil
  settled h' hlive := (begin_settled hfresh.1 h' hlive).imp_right fun ⟨hold, hptr, hcounted⟩ =>
    .inr ⟨hold, fun _ => List.not_mem_nil, hptr, hcounted⟩
  pending := pending_of_same rfl rfl fun _ ho => absurd ho List.not_mem_nil

theorem stepped_construct (hinv : Inv u) (hfresh : u.Constructible h home)
    (huses : after.uses ⊆ fresh) (hkills : after.kills h = none) (hlive : ∀ h ∈ fresh, h ∈ u.live) :
    Stepped fresh ending u [] (u.begin h home) [.finish h after] := by
  refine stepped_begin hinv hfresh (stackOk_singleton (fun h' hh => ?_) ⟨?_, ?_, fun hmem => ?_⟩)
    fun f hf => ?_
  · rcases List.mem_cons.mp hh with rfl | hmem
    · exact Finset.mem_insert_self _ _
    · exact Finset.mem_insert_of_mem (hlive h' (huses hmem))
  · exact Function.update_self _ _ _
  · exact Function.update_self _ _ _
  · exact hfresh.1 (hlive h (huses hmem))
  · obtain rfl := List.mem_singleton.mp hf
    exact ⟨List.cons_subset_cons h huses, hkills, rfl⟩

theorem stepped_create (hinv : Inv u) (hfresh : u.Constructible h home)
    (hunborn : u.status o = .unborn) :
    Stepped fresh ending u [] (u.create h home o deleter) [] := by
  have hborn := (hinv.begin hfresh).bear deleter hunborn
  have hnot : Function.update u.counted h none h = none := Function.update_self _ _ _
  have hcount : (u.create h home o deleter).refCount o = 1 := by
    refine (Function.update_self _ _ _).trans ?_
    change wrap32 (Function.update u.refCount o 0 o + 1) = 1
    rw [Function.update_self]
    decide
  refine ⟨(hborn.setPtr (h := h) (p := some o) hnot).addRefCount (Finset.mem_insert_self _ _) hnot
      (Function.update_self _ _ _) (Function.update_self _ _ _) ?_, stackOk_nil,
    guarantee_create hfresh.1 hunborn, fun _ hf => absurd hf List.not_mem_nil,
    fun _ hf => absurd hf List.not_mem_nil, fun _ hf => absurd hf List.not_mem_nil,
    fun h' hlive => ?_, fun o' halive => ?_⟩
  · change Function.update u.refCount o 0 o < int32Max
    rw [Function.update_self]
    decide
  · rcases Finset.mem_insert.mp hlive with rfl | hold
    · have hcounted : (u.create h' home o deleter).counted h' = some o := Function.update_self _ _ _
      have hptr : (u.create h' home o deleter).ptr h' = some o := Function.update_self _ _ _
      exact .inl (hcounted.trans hptr.symm)
    · have hne := ne_of_mem_of_not_mem hold hfresh.1
      exact .inr (.inr ⟨hold, fun _ => List.not_mem_nil,
        (Function.update_of_ne hne _ _).trans (Function.update_of_ne hne _ _),
        (Function.update_of_ne hne _ _).trans (Function.update_of_ne hne _ _)⟩)
  · by_cases ho : o' = o
    · subst ho
      exact .inl (by omega)
    · have hsame : (u.create h home o deleter).refCount o' = u.refCount o' :=
        (Function.update_of_ne ho _ _).trans (Function.update_of_ne ho _ _)
      have hstatus : (u.create h home o deleter).status o' = u.status o' :=
        Function.update_of_ne ho _ _
      rw [hsame]
      by_cases hzero : u.refCount o' = 0
      · exact .inr (.inr ⟨hstatus ▸ halive, hzero, List.not_mem_nil⟩)
      · exact .inl hzero

theorem go_stepped (hinv : Inv u) (hok : StackOk u st)
    (hsettled : ∀ f ∈ st.head?, ∀ src ∈ f.sources, u.Settled src) (hroom : NoOverflow u st)
    (hs : go u st = some (u', st')) : ∃ top push rest, st = top ++ rest ∧ st' = push ++ rest ∧
      Stepped [] none u top u' push := by
  cases st with
  | nil => cases hs
  | cons f rest =>
    have htop : StackOk u [f] := StackOk.append_left hok
    cases f with
    | reset h after =>
      have hreset : resetStep u h after rest = (u', st') := Option.some.inj hs
      cases hptr : u.ptr h with
      | none =>
        obtain ⟨rfl, rfl⟩ := Prod.mk.inj ((resetStep_none hptr).symm.trans hreset)
        exact ⟨_, [.finish h after], rest, rfl, rfl, stepped_reset_null hinv htop hptr⟩
      | some o =>
        obtain ⟨rfl, rfl⟩ := Prod.mk.inj ((resetStep_some hptr).symm.trans hreset)
        exact ⟨_, _, rest, rfl, rfl, stepped_sub hinv htop hptr⟩
    | clear h after =>
      obtain ⟨rfl, rfl⟩ := Prod.mk.inj (Option.some.inj hs)
      exact ⟨_, [.finish h after], rest, rfl, rfl, stepped_clear hinv htop⟩
    | finish h after =>
      obtain ⟨rfl, rfl⟩ := Prod.mk.inj (Option.some.inj hs)
      exact ⟨_, [], _, rfl, rfl, stepped_finish hinv htop (hsettled _ rfl) (hroom _ rfl)⟩
    | drop o =>
      obtain ⟨rfl, rfl⟩ := Prod.mk.inj (Option.some.inj hs)
      exact ⟨_, [.body o], rest, rfl, rfl, stepped_drop hinv htop⟩
    | body o =>
      obtain ⟨rfl, rfl⟩ := Prod.mk.inj (Option.some.inj hs)
      exact ⟨_, [.fields o], rest, rfl, rfl, stepped_body hinv htop⟩
    | fields o =>
      rw [go] at hs
      split at hs
      · rename_i hfields
        obtain ⟨rfl, rfl⟩ := Prod.mk.inj (Option.some.inj hs)
        exact ⟨_, [], _, rfl, rfl, stepped_free hinv htop hfields⟩
      · cases hs

omit [DecidableEq Hdl] [DecidableEq Obj] in
theorem Op.uses_live {op : Op Hdl Obj} (husable : op.usable u) : ∀ h ∈ op.uses, h ∈ u.live := by
  cases op with
  | sharedCopy closure => exact fun h hh => absurd hh List.not_mem_nil
  | sharedDrop closure => exact fun h hh => (List.mem_singleton.mp hh) ▸ husable
  | _ => exact fun h hh => (husable h hh).1

omit [DecidableEq Obj] in
theorem construct_eq_some : construct u st h home after = some (u', st') ↔
    u.Constructible h home ∧ u.begin h home = u' ∧ .finish h after :: st = st' := by
  rw [construct]
  split
  · rename_i hnew
    rw [Option.some_inj, Prod.mk.injEq, and_iff_right hnew]
  · rename_i hnew
    exact ⟨fun heq => absurd heq (Option.some_ne_none _).symm, fun heq => absurd heq.1 hnew⟩

theorem call_stepped {op : Op Hdl Obj} (hinv : Inv u) (husable : op.usable u)
    (hsettled : ∀ h ∈ op.uses, u.Settled h) (hs : call u st op = some (u', st')) :
    ∃ push, st' = push ++ st ∧ Stepped op.uses op.kills u [] u' push := by
  have hlive := Op.uses_live husable
  cases op with
  | create h home o deleter =>
    rw [call] at hs
    split at hs
    · rename_i hnew
      obtain ⟨rfl, rfl⟩ := Prod.mk.inj (Option.some.inj hs)
      exact ⟨[], rfl, stepped_create hinv hnew.1 hnew.2⟩
    · cases hs
  | null h home =>
    rw [call] at hs
    split at hs
    · rename_i hnew
      obtain ⟨rfl, rfl⟩ := Prod.mk.inj (Option.some.inj hs)
      exact ⟨[], rfl, stepped_begin hinv hnew stackOk_nil fun _ hf => absurd hf List.not_mem_nil⟩
    · cases hs
  | fromRaw h home other | copy h home other | convert h home other | move h home other =>
    obtain ⟨hnew, rfl, rfl⟩ := construct_eq_some.mp hs
    exact ⟨[_], rfl, stepped_construct hinv hnew (List.Subset.refl _) rfl hlive⟩
  | destroy h | reset h | assignNull h =>
    obtain ⟨rfl, rfl⟩ := Prod.mk.inj (Option.some.inj hs)
    exact ⟨[_], rfl, stepped_push hinv (List.Subset.refl _) List.not_mem_nil (fun _ hh => hh) hlive
      (hsettled h List.mem_cons_self)⟩
  | copyAssign h other =>
    obtain ⟨rfl, rfl⟩ := Prod.mk.inj (Option.some.inj hs)
    by_cases hself : h = other
    · rw [if_pos hself]
      exact ⟨[], rfl, stepped_skip hinv⟩
    · rw [if_neg hself]
      split
      · exact ⟨[_], rfl, stepped_push hinv (List.Subset.refl _)
          (fun hmem => hself (List.mem_singleton.mp hmem)) (fun _ hh => hh) hlive
          (hsettled h List.mem_cons_self)⟩
      · exact ⟨[], rfl, stepped_skip hinv⟩
  | moveAssign h other =>
    obtain ⟨rfl, rfl⟩ := Prod.mk.inj (Option.some.inj hs)
    by_cases hself : h = other
    · rw [if_pos hself]
      exact ⟨[], rfl, stepped_skip hinv⟩
    · rw [if_neg hself]
      exact ⟨[_], rfl, stepped_push hinv (List.Subset.refl _)
        (fun hmem => hself (List.mem_singleton.mp hmem)) (fun _ hh => hh) hlive
        (hsettled h List.mem_cons_self)⟩
  | convertAssign h other =>
    obtain ⟨rfl, rfl⟩ := Prod.mk.inj (Option.some.inj hs)
    by_cases hsame : u.ptr h = u.ptr other
    · rw [if_neg fun hne => hne hsame]
      exact ⟨[], rfl, stepped_skip hinv⟩
    · have hself : h ≠ other := fun heq => hsame (congrArg u.ptr heq)
      rw [if_pos hsame]
      exact ⟨[_], rfl, stepped_push hinv (List.Subset.refl _)
        (fun hmem => hself (List.mem_singleton.mp hmem)) (fun _ hh => hh) hlive
        (hsettled h List.mem_cons_self)⟩
  | toSharedPtr closure h =>
    rw [call] at hs
    split at hs
    · obtain ⟨rfl, rfl⟩ := Prod.mk.inj (Option.some.inj hs)
      exact ⟨[], rfl, stepped_skip hinv⟩
    · obtain ⟨hnew, rfl, rfl⟩ := construct_eq_some.mp hs
      exact ⟨[_], rfl, stepped_construct hinv hnew (List.Subset.refl _) rfl hlive⟩
  | sharedCopy closure =>
    rw [call] at hs
    split at hs
    · obtain ⟨rfl, rfl⟩ := Prod.mk.inj (Option.some.inj hs)
      exact ⟨[], rfl, (stepped_skip hinv).setCopies⟩
    · cases hs
  | sharedDrop closure =>
    rw [call] at hs
    split at hs
    · cases hs
    · obtain ⟨rfl, rfl⟩ := Prod.mk.inj (Option.some.inj hs)
      have hpush : Stepped [closure] (some closure) u [] u [.reset closure .kill] :=
        stepped_push hinv (List.Subset.refl _) List.not_mem_nil (fun _ hh => hh) hlive
          (hsettled closure List.mem_cons_self)
      exact ⟨[_], rfl, hpush.setCopies⟩
    · obtain ⟨rfl, rfl⟩ := Prod.mk.inj (Option.some.inj hs)
      exact ⟨[], rfl, (stepped_skip hinv).setCopies⟩

theorem act_stepped {a : Action Hdl Obj} (hinv : Inv u) (hok : StackOk u st)
    (hsettled : ∀ f ∈ st.head?, ∀ src ∈ f.sources, u.Settled src) (hroom : NoOverflow u st)
    (huses : ∀ h ∈ a.uses, h ∈ u.live → u.Settled h) (hs : act u st a = some (u', st')) :
    ∃ top push rest, st = top ++ rest ∧ st' = push ++ rest ∧
      Stepped a.uses a.kills u top u' push := by
  cases a with
  | call op =>
    rw [act] at hs
    split at hs
    · rename_i hcall
      have hlive := Op.uses_live hcall.2
      obtain ⟨push, rfl, hstepped⟩ := call_stepped hinv hcall.2
        (fun h hh => huses h hh (hlive h hh)) hs
      exact ⟨[], push, st, rfl, rfl, hstepped⟩
    · cases hs
  | go => exact go_stepped hinv hok hsettled hroom hs
  | field h =>
    cases st with
    | nil => cases hs
    | cons f rest =>
      cases f with
      | fields o =>
        rw [act] at hs
        split at hs
        · rename_i hfield
          obtain ⟨rfl, rfl⟩ := Prod.mk.inj (Option.some.inj hs)
          have hlive : ∀ h' ∈ [h], h' ∈ u.live := fun h' hh =>
            (List.mem_singleton.mp hh) ▸ hfield.1
          exact ⟨[], [.reset h .kill], .fields o :: rest, rfl, rfl,
            stepped_push hinv (List.Subset.refl _) List.not_mem_nil (fun _ hh => hh) hlive
              (huses h (List.mem_singleton_self h) hfield.1)⟩
        · cases hs
      | reset h after | clear h after | finish h after | drop o | body o => cases hs

end Calls

end Bugat.TSharedPtr
