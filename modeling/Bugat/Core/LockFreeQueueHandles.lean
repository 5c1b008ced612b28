import Mathlib
import Bugat.Core.LockFreeQueueNodes

/-!
# A LockFreeQueue of TSharedPtr

`Pop` copies the handle out of the node that it makes the new dummy. The copy takes nothing
away, so the dummy keeps a reference to the object popped last until the next `Pop`
destructs it.
-/

namespace Bugat.HandleQueue

open LockFree LockFree.Loops
open Transition (exec Along Throughout throughout_iff_along_of_step)

variable {X : Type*}

abbrev Handle (X : Type*) := Option X

abbrev State (X : Type*) := Loops.State (Handle X)

def copied (value : Option (Handle X)) : Option (Handle X) := value

/-- The handle in the dummy node, which its constructor or `~Node` has set to null. -/
def dummy (s : State X) : Handle X := (s.mem.value s.mem.head.ptr).join

def first (s : State X) : Handle X := s.waiting.head?.join.join

def TakesNull (s : State X) : Label (Handle X) → Prop
  | .pop true => s.TriesHead → first s = none
  | _ => True

instance (s : State X) : DecidablePred (TakesNull s)
  | .pop true => inferInstanceAs (Decidable (_ → _))
  | .pop false => isTrue trivial
  | .construct _ _ => isTrue trivial
  | .push _ _ => isTrue trivial

variable {s s' : State X} {l : Label (Handle X)} {chain free : List Addr} {a : Addr}

section Dummy

variable (h : Placed s chain free)
include h

theorem dummy_construct {v : Handle X} (hs : s.construct v a = some s') :
    dummy s' = dummy s := by
  obtain ⟨-, -, -, hdummy⟩ := h.ordered.construct hs
  rw [dummy, hdummy, dummy]

theorem dummy_push {linked swung : Bool} (hs : s.push linked swung = some s') :
    dummy s' = dummy s := by
  obtain ⟨-, -, -, hvalue, hhead, -⟩ := h.ordered.push hs
  rw [dummy, hvalue, hhead, dummy]

theorem dummy_pop_idle (htry : ¬ s.TriesHead) (ok : Bool) :
    dummy (s.pop copied ok) = dummy s := by
  obtain ⟨-, -, hvalue, hhead⟩ := h.pop_idle copied htry ok
  rw [dummy, hvalue, hhead, dummy]

theorem dummy_pop_fails (htry : s.TriesHead) : dummy (s.pop copied false) = dummy s := by
  obtain ⟨b, -, -, -, -, hhead, hvalue⟩ := h.pop_fails copied htry
  have hsame : (s.pop copied false).mem.value = s.mem.value := by
    rw [hvalue]
    exact Function.update_eq_self b s.mem.value
  rw [dummy, hsame, hhead, dummy]

theorem dummy_pop_succeeds (htry : s.TriesHead) : dummy (s.pop copied true) = first s := by
  obtain ⟨b, rest, rfl, -, -, hhead, hvalue⟩ := h.pop_succeeds copied htry
  have hne : b ≠ s.mem.head.ptr := by
    intro heq
    have hnodup := (List.nodup_cons.mp h.ordered.good.linked.nodup).1
    exact hnodup (heq ▸ List.mem_cons_self)
  rw [dummy, hhead, hvalue, Function.update_of_ne hne, Function.update_self, first,
    h.ordered.waiting_eq]
  rfl

end Dummy

section Counts

variable [DecidableEq X]

def references (s : State X) (x : X) : ℕ :=
  (s.mem.allocated.map s.mem.value).count (some (some x))

def queued (s : State X) (x : X) : ℕ := s.waiting.count (some (some x))

/-- The reference count of `x`, when `external` counts the handles outside of the queue. -/
def refCount (external : X → ℕ) (s : State X) (x : X) : ℕ := external x + references s x

/-- The nodes hold the references of the elements not yet popped and no other, so that an
object that nobody else holds and that is not queued is destroyed. -/
structure Released (s : State X) : Prop where
  references_eq : ∀ x, references s x = queued s x
  destroyed : ∀ external x, external x = 0 → queued s x = 0 → refCount external s x = 0

theorem references_eq_add (h : Placed s chain free) (x : X) :
    references s x = (dummy s).toList.count x + queued s x := by
  obtain ⟨rest, hrest⟩ := h.ordered.good.head_cons
  have hdummy : [s.mem.value s.mem.head.ptr].count (some (some x)) =
      (dummy s).toList.count x := by
    rw [dummy]
    rcases s.mem.value s.mem.head.ptr with _ | _ | y
    · rfl
    · rfl
    · simp [List.count_cons]
  have hfree : (free.map s.mem.value).count (some (some x)) = 0 := by
    apply List.count_eq_zero.mpr
    intro hmem
    obtain ⟨b, hb, hvalue⟩ := List.mem_map.mp hmem
    rw [h.cleared b hb] at hvalue
    exact absurd hvalue nofun
  calc references s x
      = ((chain ++ free ++ s.node.toList).map s.mem.value).count (some (some x)) :=
        (h.blocks.map s.mem.value).count_eq _
    _ = [s.mem.value s.mem.head.ptr].count (some (some x)) + queued s x := by
        rw [queued, h.ordered.waiting_eq, hrest]
        simp only [List.map_append, List.count_append, hfree, List.map_cons, List.tail_cons,
          List.count_cons, List.count_nil]
        omega
    _ = (dummy s).toList.count x + queued s x := by rw [hdummy]

theorem released_iff (h : Placed s chain free) : Released s ↔ dummy s = none := by
  constructor
  · intro hreleased
    apply Option.eq_none_iff_forall_ne_some.mpr
    intro x hx
    have hcount := references_eq_add h x
    rw [hreleased.references_eq x, hx, Option.toList_some, List.count_singleton_self] at hcount
    omega
  · intro hnull
    have heq : ∀ x, references s x = queued s x := by
      intro x
      rw [references_eq_add h x, hnull, Option.toList_none, List.count_nil, Nat.zero_add]
    refine ⟨heq, fun external x hext hqueued => ?_⟩
    rw [refCount, hext, heq x, hqueued]

structure Settled (s : State X) : Prop where
  placed : ∃ chain free, Placed s chain free
  null : dummy s = none

omit [DecidableEq X] in
theorem init_settled (h : a ≠ 0) : Settled (init a : State X) where
  placed := ⟨_, _, init_placed h⟩
  null := rfl

theorem Settled.released_step_iff (h : Settled s) (hs : Loops.step copied s l = some s') :
    Released s' ↔ TakesNull s l := by
  obtain ⟨chain, free, hplaced⟩ := h.placed
  obtain ⟨chain', free', hplaced', -⟩ := hplaced.step copied hs
  rw [released_iff hplaced']
  cases l with
  | construct v a => simp [TakesNull, dummy_construct hplaced hs, h.null]
  | push linked swung => simp [TakesNull, dummy_push hplaced hs, h.null]
  | pop ok =>
    obtain rfl := Option.some.inj hs
    by_cases htry : s.TriesHead
    · cases ok with
      | false => simp [TakesNull, dummy_pop_fails hplaced htry, h.null]
      | true => simp [TakesNull, dummy_pop_succeeds hplaced htry, htry]
    · cases ok <;> simp [TakesNull, dummy_pop_idle hplaced htry, htry, h.null]

theorem Settled.step (h : Settled s) (hnull : TakesNull s l)
    (hs : Loops.step copied s l = some s') : Settled s' := by
  obtain ⟨chain, free, hplaced⟩ := h.placed
  obtain ⟨chain', free', hplaced', -⟩ := hplaced.step copied hs
  have hreleased := (h.released_step_iff hs).mpr hnull
  exact ⟨⟨chain', free', hplaced'⟩, (released_iff hplaced').mp hreleased⟩

theorem Settled.released (h : Settled s) : Released s := by
  obtain ⟨chain, free, hplaced⟩ := h.placed
  exact (released_iff hplaced).mpr h.null

/-- The queue of a run keeps no reference to a popped object just when each `Pop` of the run
that takes an element takes a null handle. -/
theorem released_iff_takes_null (a : Addr) (ha : a ≠ 0) (ls : List (Label (Handle X))) :
    Throughout Released (Loops.step copied) (init a) ls ↔
      Along TakesNull (Loops.step copied) (init a) ls := by
  have hinit : Settled (init a : State X) := init_settled ha
  exact throughout_iff_along_of_step (fun s h => h.released)
    (fun s l t h hok hs => h.step hok hs) (fun s l t h hs => h.released_step_iff hs) hinit

end Counts

section Runs

def popFirst (v w : Handle ℕ) : List (Label (Handle ℕ)) :=
  [.construct v 2, .push true true, .construct w 3, .push true true, .pop true]

theorem popNull_released :
    Throughout Released (Loops.step copied) (init 1) (popFirst none (some 7)) ∧
      ∃ s, exec (Loops.step copied) (init 1) (popFirst none (some 7)) = some s ∧
        references s 7 = 1 := by
  have h : (exec (Loops.step copied) (init 1) (popFirst none (some 7))).map
      (references · 7) = some 1 := by decide +kernel
  obtain ⟨s, hrun, hs⟩ := Option.map_eq_some_iff.mp h
  exact ⟨(released_iff_takes_null 1 (by decide) _).mpr (by decide +kernel), s, hrun, hs⟩

theorem popObject_retains :
    ∃ s, exec (Loops.step copied) (init 1) (popFirst (some 7) none) = some s ∧
      s.node = none ∧ queued s 7 = 0 ∧ references s 7 = 1 ∧ ¬ Released s := by
  have h : (exec (Loops.step copied) (init 1) (popFirst (some 7) none)).map
      (fun s => (s.node, queued s 7, references s 7)) = some (none, 0, 1) := by decide +kernel
  obtain ⟨s, hrun, hs⟩ := Option.map_eq_some_iff.mp h
  obtain ⟨hnode, hs⟩ := Prod.mk.inj hs
  obtain ⟨hqueued, hreferences⟩ := Prod.mk.inj hs
  refine ⟨s, hrun, hnode, hqueued, hreferences, fun hreleased => ?_⟩
  have heq := hreleased.references_eq 7
  omega

end Runs

end Bugat.HandleQueue
