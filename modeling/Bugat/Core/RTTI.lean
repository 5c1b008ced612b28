import Mathlib
import Bugat.Lib.LinkedChain
import Bugat.Lib.Transition

/-!
# RTTI: type tests along the chain of TypeInfos

Each class that `DECLARE_RTTI` names has one static `TypeInfo`, constructed when it is first
asked for, after that of its base. The ids come from a counter and depend on the order of use,
the `_parents` pointers do not. `IsA` compares ids along these pointers.
-/

namespace Bugat.RTTI

open LinkedChain (Chain)
open Transition (exec exec_invariant)

variable {C : Type*}

structure Hierarchy (C : Type*) where
  super : C → Option C
  order : C → ℕ
  super_order : ∀ c p, super c = some p → order p < order c

structure TypeInfo (C : Type*) where
  id : ℕ
  parents : Option C
  deriving DecidableEq, Repr

structure State (C : Type*) where
  table : C → Option (TypeInfo C)
  nextId : ℕ

def init : State C := ⟨fun _ => none, 0⟩

structure Object (C : Type*) where
  addr : ℕ
  dynamicType : C
  deriving DecidableEq, Repr

structure SharedPtr (C : Type*) where
  object : Object C
  control : ℕ
  deriving DecidableEq, Repr

section Definitions

variable [DecidableEq C]

def State.construct (s : State C) (c : C) (parents : Option C) : State C where
  table := Function.update s.table c (some ⟨s.nextId, parents⟩)
  nextId := s.nextId + 1

namespace Hierarchy

variable (H : Hierarchy C)

/-- `GetTypeInfo`, which `GetStaticTypeInfo` and `GetInstanceTypeInfo` call. The pointer that it
returns is the one to the `TypeInfo` of the class. -/
def getTypeInfo (s : State C) (c : C) : State C :=
  match s.table c with
  | some _ => s
  | none =>
    match _hp : H.super c with
    | none => s.construct c none
    | some p => (getTypeInfo s p).construct c (some p)
termination_by H.order c
decreasing_by exact H.super_order c p ‹_›

/-- The loop of `IsA`. A pointer to a `TypeInfo` that is not constructed has no step. -/
def isALoop (T : C) : ℕ → State C → Option C → Option (State C × Bool)
  | _, s, none => some (s, false)
  | 0, _, some _ => none
  | fuel + 1, s, some parents =>
    let s := H.getTypeInfo s T
    match s.table parents, s.table T with
    | some info, some target =>
      if info.id = target.id then some (s, true) else isALoop T fuel s info.parents
    | _, _ => none

def isA (fuel : ℕ) (s : State C) (T : C) (obj : Object C) : Option (State C × Bool) :=
  let s := H.getTypeInfo (H.getTypeInfo s obj.dynamicType) T
  match s.table obj.dynamicType, s.table T with
  | some info, some target =>
    if info.id = target.id then some (s, true) else H.isALoop T fuel s info.parents
  | _, _ => none

def cast (fuel : ℕ) (s : State C) (T : C) (obj : Object C) :
    Option (State C × Option (Object C)) :=
  (H.isA fuel s T obj).map fun r => (r.1, if r.2 then some obj else none)

def sharedCast (fuel : ℕ) (s : State C) (T : C) (ptr : SharedPtr C) :
    Option (State C × Option (SharedPtr C)) :=
  (H.isA fuel s T ptr.object).map fun r => (r.1, if r.2 then some ptr else none)

def ancestors (c : C) : List C :=
  match _hp : H.super c with
  | none => []
  | some p => p :: ancestors p
termination_by H.order c
decreasing_by exact H.super_order c p ‹_›

def IsKind (c T : C) : Prop := T = c ∨ T ∈ H.ancestors c

instance (c T : C) : Decidable (H.IsKind c T) := inferInstanceAs (Decidable (_ ∨ _))

end Hierarchy

inductive Use (C : Type*)
  | typeInfo (c : C)
  | isA (fuel : ℕ) (T : C) (obj : Object C)
  | cast (fuel : ℕ) (T : C) (obj : Object C)
  | sharedCast (fuel : ℕ) (T : C) (ptr : SharedPtr C)
  deriving DecidableEq, Repr

def Hierarchy.step (H : Hierarchy C) (s : State C) : Use C → Option (State C)
  | .typeInfo c => some (H.getTypeInfo s c)
  | .isA fuel T x => (H.isA fuel s T x).map Prod.fst
  | .cast fuel T x => (H.cast fuel s T x).map Prod.fst
  | .sharedCast fuel T x => (H.sharedCast fuel s T x).map Prod.fst

end Definitions

def State.link (s : State C) (c : C) : Option C := (s.table c).bind TypeInfo.parents

namespace Hierarchy

variable (H : Hierarchy C)

theorem induction {P : C → Prop} (h : ∀ c, (∀ p, H.super c = some p → P p) → P c) (c : C) :
    P c := by
  induction hn : H.order c using Nat.strong_induction_on generalizing c with
  | _ n ih =>
    apply h
    intro p hp
    exact ih (H.order p) (hn ▸ H.super_order c p hp) p rfl

theorem ancestors_of_root {c : C} (h : H.super c = none) : H.ancestors c = [] := by
  rw [ancestors]
  split
  · rfl
  · rename_i hp
    cases h.symm.trans hp

theorem ancestors_of_super {c p : C} (h : H.super c = some p) :
    H.ancestors c = p :: H.ancestors p := by
  rw [ancestors]
  split
  · rename_i hp
    cases h.symm.trans hp
  · rename_i hp
    obtain rfl := Option.some.inj (h.symm.trans hp)
    rfl

end Hierarchy

section Invariant

structure Inv (H : Hierarchy C) (s : State C) : Prop where
  parents : ∀ c info, s.table c = some info → info.parents = H.super c
  closed : ∀ c p, s.table c ≠ none → H.super c = some p → s.table p ≠ none
  fresh : ∀ c info, s.table c = some info → info.id < s.nextId
  distinct : ∀ c d ic id, s.table c = some ic → s.table d = some id → ic.id = id.id → c = d

def Extends (s s' : State C) : Prop := ∀ c info, s.table c = some info → s'.table c = some info

variable {H : Hierarchy C} {s s' : State C} {c p T : C} {as : List C}

theorem inv_init (H : Hierarchy C) : Inv H init where
  parents _ _ h := nomatch h
  closed _ _ h := absurd rfl h
  fresh _ _ h := nomatch h
  distinct _ _ _ _ h := nomatch h

theorem Inv.chain (h : Inv H s) {info : TypeInfo C} (hc : s.table c = some info) :
    Chain s.link info.parents (H.ancestors c) := by
  induction c using H.induction generalizing info with
  | h c ih =>
    rw [h.parents c info hc]
    cases hp : H.super c with
    | none =>
      rw [H.ancestors_of_root hp]
      rfl
    | some p =>
      rw [H.ancestors_of_super hp]
      have hne := h.closed c p (by simp [hc]) hp
      obtain ⟨base, hbase⟩ := Option.ne_none_iff_exists'.mp hne
      refine ⟨rfl, ?_⟩
      rw [State.link, hbase]
      exact ih p hp hbase

theorem Inv.ancestors_constructed (h : Inv H s) (hc : s.table c ≠ none) :
    ∀ a ∈ H.ancestors c, s.table a ≠ none := by
  induction c using H.induction with
  | h c ih =>
    cases hp : H.super c with
    | none =>
      rw [H.ancestors_of_root hp]
      exact fun a ha => absurd ha List.not_mem_nil
    | some p =>
      rw [H.ancestors_of_super hp]
      have hbase := h.closed c p hc hp
      intro a ha
      rcases List.mem_cons.mp ha with rfl | ha
      · exact hbase
      · exact ih p hp hbase a ha

variable [DecidableEq C]

theorem construct_self (s : State C) (c : C) (parents : Option C) :
    (s.construct c parents).table c = some ⟨s.nextId, parents⟩ := Function.update_self ..

theorem construct_other {d : C} (s : State C) (parents : Option C) (h : d ≠ c) :
    (s.construct c parents).table d = s.table d := Function.update_of_ne h ..

theorem Inv.construct (h : Inv H s) (hc : s.table c = none)
    (hp : ∀ p, H.super c = some p → s.table p ≠ none) : Inv H (s.construct c (H.super c)) := by
  have hcases : ∀ d info, (s.construct c (H.super c)).table d = some info →
      (d = c ∧ info = ⟨s.nextId, H.super c⟩) ∨ (d ≠ c ∧ s.table d = some info) := by
    intro d info hd
    by_cases hdc : d = c
    · subst hdc
      rw [construct_self] at hd
      exact .inl ⟨rfl, (Option.some.inj hd).symm⟩
    · rw [construct_other s _ hdc] at hd
      exact .inr ⟨hdc, hd⟩
  have hkeep : ∀ d, s.table d ≠ none → (s.construct c (H.super c)).table d ≠ none := by
    intro d hd
    rwa [construct_other s _ (ne_of_apply_ne s.table (hc ▸ hd))]
  constructor
  · intro d info hd
    rcases hcases d info hd with ⟨rfl, rfl⟩ | ⟨-, hd⟩
    · rfl
    · exact h.parents d info hd
  · intro d q hd hq
    apply hkeep
    obtain ⟨info, hinfo⟩ := Option.ne_none_iff_exists'.mp hd
    rcases hcases d info hinfo with ⟨rfl, -⟩ | ⟨-, hd⟩
    · exact hp q hq
    · exact h.closed d q (by simp [hd]) hq
  · intro d info hd
    rcases hcases d info hd with ⟨-, rfl⟩ | ⟨-, hd⟩
    · exact Nat.lt_succ_self _
    · exact (h.fresh d info hd).trans (Nat.lt_succ_self _)
  · intro d e id ie hd he heq
    rcases hcases d id hd with ⟨rfl, rfl⟩ | ⟨-, hold⟩
    · rcases hcases e ie he with ⟨rfl, -⟩ | ⟨-, hold⟩
      · rfl
      · exact absurd heq.symm (h.fresh e ie hold).ne
    · rcases hcases e ie he with ⟨rfl, rfl⟩ | ⟨-, hold'⟩
      · exact absurd heq (h.fresh d id hold).ne
      · exact h.distinct d e id ie hold hold' heq

end Invariant

section Uses

variable [DecidableEq C] {H : Hierarchy C} {s s' : State C} {c p T : C} {as : List C}

theorem getTypeInfo_of_ne_none (h : s.table c ≠ none) : H.getTypeInfo s c = s := by
  obtain ⟨info, hinfo⟩ := Option.ne_none_iff_exists'.mp h
  rw [Hierarchy.getTypeInfo, hinfo]

theorem getTypeInfo_of_root (h : s.table c = none) (hp : H.super c = none) :
    H.getTypeInfo s c = s.construct c none := by
  rw [Hierarchy.getTypeInfo]
  split
  · rename_i hc
    cases h.symm.trans hc
  · split
    · rfl
    · rename_i hq
      cases hp.symm.trans hq

theorem getTypeInfo_of_super (h : s.table c = none) (hp : H.super c = some p) :
    H.getTypeInfo s c = (H.getTypeInfo s p).construct c (some p) := by
  rw [Hierarchy.getTypeInfo]
  split
  · rename_i hc
    cases h.symm.trans hc
  · split
    · rename_i hq
      cases hp.symm.trans hq
    · rename_i hq
      obtain rfl := Option.some.inj (hp.symm.trans hq)
      rfl

theorem getTypeInfo_frame {d : C} (h : H.order c < H.order d) :
    (H.getTypeInfo s c).table d = s.table d := by
  induction c using H.induction with
  | h c ih =>
    by_cases hc : s.table c = none
    · have hdc : d ≠ c := by
        rintro rfl
        exact lt_irrefl _ h
      cases hp : H.super c with
      | none => rw [getTypeInfo_of_root hc hp, construct_other _ _ hdc]
      | some p =>
        rw [getTypeInfo_of_super hc hp, construct_other _ _ hdc]
        exact ih p hp ((H.super_order c p hp).trans h)
    · rw [getTypeInfo_of_ne_none hc]

/-- The first use of a class constructs its `TypeInfo` and those of its ancestors, and no use
changes one that is constructed. -/
theorem Inv.getTypeInfo (h : Inv H s) (c : C) :
    Inv H (H.getTypeInfo s c) ∧ (H.getTypeInfo s c).table c ≠ none ∧
      Extends s (H.getTypeInfo s c) := by
  induction c using H.induction with
  | h c ih =>
    by_cases hc : s.table c = none
    · cases hp : H.super c with
      | none =>
        have hinv := h.construct hc (by simp [hp])
        rw [hp] at hinv
        rw [getTypeInfo_of_root hc hp]
        refine ⟨hinv, by simp [construct_self], fun d info hd => ?_⟩
        rw [construct_other s _ (by rintro rfl; simp [hc] at hd), hd]
      | some p =>
        obtain ⟨hbase, hne, hext⟩ := ih p hp
        have hnone : (H.getTypeInfo s p).table c = none := by
          rw [getTypeInfo_frame (H.super_order c p hp), hc]
        have hinv := hbase.construct hnone fun q hq => by
          obtain rfl := Option.some.inj (hp.symm.trans hq)
          exact hne
        rw [hp] at hinv
        rw [getTypeInfo_of_super hc hp]
        refine ⟨hinv, by simp [construct_self], fun d info hd => ?_⟩
        rw [construct_other _ _ (by rintro rfl; simp [hc] at hd), hext d info hd]
    · rw [getTypeInfo_of_ne_none hc]
      exact ⟨h, hc, fun _ _ hd => hd⟩

theorem isALoop_eq (h : Inv H s) (hT : s.table T ≠ none) {parents : Option C} {fuel : ℕ}
    (hchain : Chain s.link parents as) (has : ∀ a ∈ as, s.table a ≠ none)
    (hfuel : as.length ≤ fuel) : H.isALoop T fuel s parents = some (s, decide (T ∈ as)) := by
  induction as generalizing parents fuel with
  | nil =>
    obtain rfl := hchain
    cases fuel <;> simp [Hierarchy.isALoop]
  | cons a as ih =>
    obtain ⟨rfl, hrest⟩ := hchain
    obtain ⟨n, rfl⟩ : ∃ n, fuel = n + 1 := Nat.exists_eq_succ_of_ne_zero (by
      rintro rfl
      cases hfuel)
    obtain ⟨info, hinfo⟩ := Option.ne_none_iff_exists'.mp (has a List.mem_cons_self)
    obtain ⟨target, htarget⟩ := Option.ne_none_iff_exists'.mp hT
    have hlink : s.link a = info.parents := by rw [State.link, hinfo, Option.bind_some]
    simp only [Hierarchy.isALoop, getTypeInfo_of_ne_none hT, hinfo, htarget]
    by_cases heq : T = a
    · subst heq
      obtain rfl := Option.some.inj (hinfo.symm.trans htarget)
      simp
    · have hid : info.id ≠ target.id := fun hid =>
        heq (h.distinct a T info target hinfo htarget hid).symm
      rw [if_neg hid, ih (hlink ▸ hrest) (fun b hb => has b (List.mem_cons_of_mem a hb))
        (Nat.le_of_succ_le_succ hfuel)]
      simp [heq]

theorem isALoop_state (hT : s.table T ≠ none) {parents : Option C} {fuel : ℕ} {b : Bool}
    (h : H.isALoop T fuel s parents = some (s', b)) : s' = s := by
  induction fuel generalizing parents with
  | zero =>
    cases parents with
    | none => exact (Prod.mk.inj (Option.some.inj h)).1.symm
    | some p => cases h
  | succ fuel ih =>
    cases parents with
    | none => exact (Prod.mk.inj (Option.some.inj h)).1.symm
    | some p =>
      simp only [Hierarchy.isALoop, getTypeInfo_of_ne_none hT] at h
      split at h
      · split at h
        · exact (Prod.mk.inj (Option.some.inj h)).1.symm
        · exact ih h
      · cases h

theorem isA_state {fuel : ℕ} {obj : Object C} {b : Bool} (h : Inv H s)
    (hrun : H.isA fuel s T obj = some (s', b)) :
    s' = H.getTypeInfo (H.getTypeInfo s obj.dynamicType) T := by
  have hT := ((h.getTypeInfo obj.dynamicType).1.getTypeInfo T).2.1
  simp only [Hierarchy.isA] at hrun
  split at hrun
  · split at hrun
    · exact (Prod.mk.inj (Option.some.inj hrun)).1.symm
    · exact isALoop_state hT hrun
  · cases hrun

theorem isA_eq (h : Inv H s) (T : C) (obj : Object C) : ∃ s', Inv H s' ∧ Extends s s' ∧
    ∀ fuel, (H.ancestors obj.dynamicType).length ≤ fuel →
      H.isA fuel s T obj = some (s', decide (H.IsKind obj.dynamicType T)) := by
  obtain ⟨hinv, hne, hext⟩ := h.getTypeInfo obj.dynamicType
  obtain ⟨hinv', hne', hext'⟩ := hinv.getTypeInfo T
  obtain ⟨info, hinfo⟩ := Option.ne_none_iff_exists'.mp hne
  obtain ⟨target, htarget⟩ := Option.ne_none_iff_exists'.mp hne'
  have hinfo' := hext' _ info hinfo
  refine ⟨_, hinv', fun c i hc => hext' c i (hext c i hc), fun fuel hfuel => ?_⟩
  simp only [Hierarchy.isA, hinfo', htarget]
  by_cases heq : T = obj.dynamicType
  · subst heq
    obtain rfl := Option.some.inj (hinfo'.symm.trans htarget)
    simp [Hierarchy.IsKind]
  · have hid : info.id ≠ target.id := fun hid =>
      heq (hinv'.distinct _ T info target hinfo' htarget hid).symm
    have hconstructed := hinv'.ancestors_constructed (c := obj.dynamicType) (by simp [hinfo'])
    rw [if_neg hid, isALoop_eq hinv' hne' (hinv'.chain hinfo') hconstructed hfuel]
    simp [Hierarchy.IsKind, heq]

theorem Inv.step (h : Inv H s) {u : Use C} (hu : H.step s u = some s') :
    Inv H s' ∧ Extends s s' := by
  have htypeInfos : ∀ c T, Inv H (H.getTypeInfo (H.getTypeInfo s c) T) ∧
      Extends s (H.getTypeInfo (H.getTypeInfo s c) T) := by
    intro c T
    obtain ⟨hinv, -, hext⟩ := h.getTypeInfo c
    obtain ⟨hinv', -, hext'⟩ := hinv.getTypeInfo T
    exact ⟨hinv', fun d info hd => hext' d info (hext d info hd)⟩
  cases u with
  | typeInfo c =>
    obtain rfl := Option.some.inj hu
    obtain ⟨hinv, -, hext⟩ := h.getTypeInfo c
    exact ⟨hinv, hext⟩
  | isA fuel T obj =>
    obtain ⟨⟨t, b⟩, hrun, rfl⟩ := Option.map_eq_some_iff.mp hu
    exact isA_state h hrun ▸ htypeInfos _ T
  | cast fuel T obj =>
    obtain ⟨r, hr, rfl⟩ := Option.map_eq_some_iff.mp hu
    obtain ⟨⟨t, b⟩, hrun, rfl⟩ := Option.map_eq_some_iff.mp hr
    exact isA_state h hrun ▸ htypeInfos _ T
  | sharedCast fuel T ptr =>
    obtain ⟨r, hr, rfl⟩ := Option.map_eq_some_iff.mp hu
    obtain ⟨⟨t, b⟩, hrun, rfl⟩ := Option.map_eq_some_iff.mp hr
    exact isA_state h hrun ▸ htypeInfos _ T

theorem inv_exec {uses : List (Use C)} (h : exec H.step init uses = some s) : Inv H s :=
  exec_invariant (fun _ _ _ hs hu => (hs.step hu).1) (inv_init H) h

/-- After any uses in any order the ids are different, the pointers lead through the ancestors,
and the templates tell the kinds of an object from other classes. -/
theorem rtti_agrees (H : Hierarchy C) {uses : List (Use C)}
    (hrun : exec H.step init uses = some s) :
    (∀ c d ic id, s.table c = some ic → s.table d = some id → ic.id = id.id → c = d) ∧
    (∀ c info, s.table c = some info → Chain s.link info.parents (H.ancestors c)) ∧
    (∀ T obj, ∃ n s', ∀ fuel, n ≤ fuel →
      H.isA fuel s T obj = some (s', decide (H.IsKind obj.dynamicType T)) ∧
      H.cast fuel s T obj =
        some (s', if H.IsKind obj.dynamicType T then some obj else none)) ∧
    ∀ T ptr, ∃ n s', ∀ fuel, n ≤ fuel → H.sharedCast fuel s T ptr =
      some (s', if H.IsKind ptr.object.dynamicType T then some ptr else none) := by
  have h := inv_exec hrun
  refine ⟨h.distinct, fun c info hc => h.chain hc, fun T obj => ?_, fun T ptr => ?_⟩
  · obtain ⟨s', -, -, hisA⟩ := isA_eq h T obj
    refine ⟨_, s', fun fuel hfuel => ⟨hisA fuel hfuel, ?_⟩⟩
    rw [Hierarchy.cast, hisA fuel hfuel, Option.map_some]
    simp
  · obtain ⟨s', -, -, hisA⟩ := isA_eq h T ptr.object
    refine ⟨(H.ancestors ptr.object.dynamicType).length, s', fun fuel hfuel => ?_⟩
    rw [Hierarchy.sharedCast, hisA fuel hfuel, Option.map_some]
    simp

end Uses

inductive Sample
  | actor
  | player
  | monster
  | item
  deriving DecidableEq, Repr

def sampleHierarchy : Hierarchy Sample where
  super
    | .player => some .actor
    | .monster => some .actor
    | _ => none
  order
    | .player => 1
    | .monster => 1
    | _ => 0
  super_order c p h := by
    cases c <;> cases h <;> decide

def derivedFirst : List (Use Sample) := [.typeInfo .monster, .isA 1 .item ⟨16, .player⟩]

theorem derivedFirst_agrees : ∃ s, exec sampleHierarchy.step init derivedFirst = some s ∧
    (s.table .actor).map TypeInfo.id = some 0 ∧ (s.table .monster).map TypeInfo.id = some 1 ∧
    (∃ n s', ∀ fuel, n ≤ fuel →
      sampleHierarchy.isA fuel s .actor ⟨16, .player⟩ = some (s', true)) ∧
    ∃ n s', ∀ fuel, n ≤ fuel →
      sampleHierarchy.cast fuel s .monster ⟨16, .player⟩ = some (s', none) := by
  have hids : (exec sampleHierarchy.step init derivedFirst).map
      (fun s => ((s.table .actor).map TypeInfo.id, (s.table .monster).map TypeInfo.id)) =
        some (some 0, some 1) := by decide +kernel
  obtain ⟨s, hrun, hs⟩ := Option.map_eq_some_iff.mp hids
  obtain ⟨hactor, hmonster⟩ := Prod.mk.inj hs
  have hplayer : sampleHierarchy.ancestors .player = [.actor] := by decide +kernel
  have hkind : sampleHierarchy.IsKind .player .actor := by simp [Hierarchy.IsKind, hplayer]
  have hother : ¬ sampleHierarchy.IsKind .player .monster := by simp [Hierarchy.IsKind, hplayer]
  obtain ⟨-, -, hall, -⟩ := rtti_agrees sampleHierarchy hrun
  refine ⟨s, hrun, hactor, hmonster, ?_, ?_⟩
  · obtain ⟨n, s', h⟩ := hall .actor ⟨16, .player⟩
    refine ⟨n, s', fun fuel hfuel => ?_⟩
    rw [(h fuel hfuel).1, decide_eq_true hkind]
  · obtain ⟨n, s', h⟩ := hall .monster ⟨16, .player⟩
    refine ⟨n, s', fun fuel hfuel => ?_⟩
    rw [(h fuel hfuel).2, if_neg hother]

end Bugat.RTTI
