import Mathlib
import Bugat.Core.TSharedPtrRuns

/-!
# Assignment of a TSharedPtr

`operator=` resets its own handle before it reads the other one. The `Reset` may release an
object, the handles in its fields, and what these kept alive in turn; when the other handle
is among those fields, as in `head = head->next`, it is gone before it is read.
-/

namespace Bugat.TSharedPtr

open MachineInt (wrap32 int32Max)
open Transition (exec Along)

variable {Hdl Obj : Type*}

inductive Assignment
  | copy
  | move
  | convert
  deriving DecidableEq, Repr

namespace Assignment

def op (k : Assignment) (dst src : Hdl) : Op Hdl Obj :=
  match k with
  | .copy => .copyAssign dst src
  | .move => .moveAssign dst src
  | .convert => .convertAssign dst src

def resets (u : Shared Hdl Obj) (dst src : Hdl) : Assignment → Prop
  | .copy => dst ≠ src ∧ u.ptr dst ≠ u.ptr src
  | .move => dst ≠ src
  | .convert => u.ptr dst ≠ u.ptr src

def after (src : Hdl) : Assignment → After Hdl
  | .copy | .convert => .acquire src
  | .move => .steal src

end Assignment

/-- The objects that the `Reset` of `dst` releases: all handles to such an object are lost, which
are `dst` and the fields of released objects. -/
inductive Released (u : Shared Hdl Obj) (dst : Hdl) : Obj → Prop
  | intro {o : Obj} (lost : Obj → Prop) (hlost : ∀ o', lost o' → Released u dst o')
      (held : ∃ h ∈ u.live, u.ptr h = some o)
      (all : ∀ h ∈ u.live, u.ptr h = some o → h = dst ∨ ∃ o' ∈ u.home h, lost o') :
      Released u dst o

def Lost (u : Shared Hdl Obj) (dst h : Hdl) : Prop := ∃ o ∈ u.home h, Released u dst o

theorem released_iff {u : Shared Hdl Obj} {dst : Hdl} {o : Obj} : Released u dst o ↔
    (∃ h ∈ u.live, u.ptr h = some o) ∧
      ∀ h ∈ u.live, u.ptr h = some o → h = dst ∨ Lost u dst h := by
  constructor
  · rintro ⟨lost, hlost, held, hall⟩
    refine ⟨held, fun h hlive hptr => (hall h hlive hptr).imp_right ?_⟩
    rintro ⟨o', hhome, ho'⟩
    exact ⟨o', hhome, hlost o' ho'⟩
  · rintro ⟨held, hall⟩
    exact .intro (Released u dst) (fun _ => id) held hall

variable [DecidableEq Hdl] [DecidableEq Obj]

instance (u : Shared Hdl Obj) (dst src : Hdl) : (k : Assignment) → Decidable (k.resets u dst src)
  | .copy => inferInstanceAs (Decidable (_ ∧ _))
  | .move | .convert => inferInstanceAs (Decidable (_ ≠ _))

structure Heap (u : Shared Hdl Obj) : Prop where
  inv : Inv u
  settled : ∀ h ∈ u.live, u.Settled h
  held : ∀ o, u.status o = .alive → u.refCount o ≠ 0

def handlesTo (u : Shared Hdl Obj) (o : Obj) : Finset Hdl := u.live.filter fun h => u.ptr h = some o

open Classical in
noncomputable def survivors (u : Shared Hdl Obj) (dst : Hdl) (o : Obj) : Finset Hdl :=
  (handlesTo u o).filter fun h => h ≠ dst ∧ ¬ Lost u dst h

theorem survivors_subset {u : Shared Hdl Obj} {dst : Hdl} {o : Obj} :
    survivors u dst o ⊆ u.live := by
  intro h hh
  simp only [survivors, handlesTo, Finset.mem_filter] at hh
  exact hh.1.1

def single (u : Shared Hdl Obj) (st : Stack Hdl Obj) : State Hdl Obj Unit := ⟨u, fun _ => st⟩

/-- The steps of an assignment: destructors of objects that call nothing themselves. -/
def Internal (ls : List (Unit × Action Hdl Obj)) : Prop := ∀ l ∈ ls, ∀ op, l.2 ≠ .call op

/-- No handle is destroyed that an open operation has still to use. -/
def KeepsUsed (s : State Hdl Obj Unit) (l : Unit × Action Hdl Obj) : Prop :=
  ∀ h ∈ l.2.kills, ∀ f ∈ s.thread l.1, h ∉ f.uses

instance (s : State Hdl Obj Unit) (l : Unit × Action Hdl Obj) : Decidable (KeepsUsed s l) :=
  inferInstanceAs (Decidable (∀ _, _))

structure Assigned (u : Shared Hdl Obj) (dst src : Hdl) (s : Shared Hdl Obj) : Prop where
  live : dst ∈ s.live
  points : s.ptr dst = u.ptr src
  alive : ∀ o ∈ u.ptr src, s.status o = .alive
  count : ∀ o, s.refCount o = (handlesTo s o).card

/-- The assignment comes to its end, in whatever order the fields are destroyed, without a use of
a handle that is gone, and achieves what it is to achieve. -/
structure Survives (u : Shared Hdl Obj) (k : Assignment) (dst src : Hdl) : Prop where
  completes : ∃ ls s, Internal ls ∧
    exec step (single u []) (((), .call (k.op dst src)) :: ls) = some s ∧ s.thread () = []
  keeps : ∀ ls, Internal ls →
    Along KeepsUsed step (single u []) (((), .call (k.op dst src)) :: ls)
  assigned : ∀ ls s, Internal ls →
    exec step (single u []) (((), .call (k.op dst src)) :: ls) = some s → s.thread () = [] →
      Assigned u dst src s.shared

/-- Neither handle is a field of an object that the `Reset` of `dst` releases, and there is room
for one more handle in the count. -/
structure Outside (u : Shared Hdl Obj) (k : Assignment) (dst src : Hdl) : Prop where
  target : ¬ Lost u dst dst
  source : ¬ Lost u dst src
  room : ∀ h ∈ (k.after src).adds, ∀ o ∈ u.ptr h, ((survivors u dst o).card : ℤ) < int32Max

section Single

variable {u u' : Shared Hdl Obj} {st st' : Stack Hdl Obj} {a : Action Hdl Obj} {dst src : Hdl}
  {k : Assignment}

theorem step_single : step (single u st) ((), a) = (act u st a).map fun p => single p.1 p.2 := by
  have hown : OwnHandles (single u st) () a := fun v hv => absurd rfl hv
  rw [step, if_pos hown]
  rfl

theorem step_single_eq_some {s : State Hdl Obj Unit} :
    step (single u st) ((), a) = some s ↔
      ∃ u' st', act u st a = some (u', st') ∧ s = single u' st' := by
  rw [step_single, Option.map_eq_some_iff, Prod.exists]
  simp only [eq_comm (a := s)]

omit [DecidableEq Hdl] in
theorem Heap.reached (h : Heap u) : Reached (single u []) where
  holds := ⟨⟨(), h.inv, fun _ => stackOk_nil⟩, fun t v htv => absurd (Subsingleton.elim t v) htv⟩
  settled h' hlive := .inl (h.settled h' hlive)
  pending o halive := .inl (h.held o halive)

omit [DecidableEq Hdl] [DecidableEq Obj] in
theorem not_clearing {h : Hdl} : ¬ Clearing (single u []) h := by
  rintro ⟨t, f, hf, -⟩
  exact absurd hf List.not_mem_nil

omit [DecidableEq Hdl] in
theorem heap_of_reached (hr : Reached (single u [])) : Heap u where
  inv := by
    obtain ⟨-, hinv, -⟩ := hr.holds.asserted
    exact hinv
  settled h hlive := (hr.settled h hlive).resolve_right not_clearing
  held o halive := by
    refine (hr.pending o halive).resolve_right ?_
    rintro ⟨t, hf⟩
    exact absurd hf List.not_mem_nil

omit [DecidableEq Hdl] in
theorem Heap.count (h : Heap u) (o : Obj) : u.refCount o = (handlesTo u o).card := by
  have hsame : handlesTo u o = u.holders o :=
    Finset.filter_congr fun h' hlive => by rw [h.settled h' hlive]
  rw [hsame]
  exact h.inv.count o

omit [DecidableEq Hdl] in
theorem Heap.alive (h : Heap u) {h' : Hdl} (hlive : h' ∈ u.live) {o : Obj}
    (hptr : u.ptr h' = some o) : u.status o = .alive :=
  (h.inv.points h' hlive o ((h.settled h' hlive).trans hptr)).2

theorem call_assign (hdst : u.Usable dst) (hsrc : u.Usable src) :
    act u [] (.call (k.op dst src)) =
      some (u, if k.resets u dst src then [.reset dst (k.after src)] else []) := by
  have hop : ∀ op : Op Hdl Obj, op = k.op dst src → op.usable u := by
    rintro op rfl
    have husable : ∀ h ∈ [dst, src], u.Usable h := by simp [hdst, hsrc]
    cases k <;> exact husable
  rw [act, if_pos ⟨rfl, hop _ rfl⟩]
  cases k with
  | copy =>
    by_cases hself : dst = src
    · simp [Assignment.op, call, Assignment.resets, hself]
    · by_cases hptr : u.ptr dst = u.ptr src <;>
        simp [Assignment.op, call, Assignment.resets, Assignment.after, hself, hptr]
  | move =>
    by_cases hself : dst = src <;>
      simp [Assignment.op, call, Assignment.resets, Assignment.after, hself]
  | convert =>
    by_cases hptr : u.ptr dst = u.ptr src <;>
      simp [Assignment.op, call, Assignment.resets, Assignment.after, hptr]

end Single

end Bugat.TSharedPtr
