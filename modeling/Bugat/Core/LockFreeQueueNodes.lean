import Mathlib
import Bugat.Core.LockFreeQueueLoops

/-!
# Where the nodes of a LockFreeQueue are

A block that `Alloc::allocate` has returned is in one place: on the chain of the queue, on
the free list, or in the hand of the `Push` that has constructed it. The blocks of the
free list hold no value. One iteration moves at most one block.
-/

namespace Bugat.LockFree.Loops

variable {α : Type*}

structure Placed (s : State α) (chain free : List Addr) : Prop where
  ordered : Ordered s chain free
  blocks : s.mem.allocated.Perm (chain ++ free ++ s.node.toList)
  nodup : s.mem.allocated.Nodup
  cleared : ∀ b ∈ free, s.mem.value b = none

def State.built (s' : State α) : Label α → List Addr
  | .construct _ _ => s'.node.toList
  | _ => []

def State.razed (s : State α) : Label α → List Addr
  | .pop true => if s.TriesHead then [s.mem.head.ptr] else []
  | _ => []

variable {s s' : State α} {l : Label α} {chain free : List Addr} {a : Addr} {v : α}

theorem init_placed (h : a ≠ 0) : Placed (init a : State α) [a] [] where
  ordered := init_ordered h
  blocks := List.Perm.refl [a]
  nodup := List.nodup_singleton a
  cleared _ hb := absurd hb List.not_mem_nil

namespace Placed

variable (h : Placed s chain free)
include h

theorem head_not_free : s.mem.head.ptr ∉ free :=
  h.ordered.good.apart _ h.ordered.good.head_mem

theorem construct (hs : s.construct v a = some s') : Placed s' chain free.tail ∧
    s.node = none := by
  obtain ⟨node, fresh, hord, hnone, hsome, hfree, halloc, hnodup, hvalue, -⟩ :=
    h.ordered.constructs hs
  have hblocks := h.blocks
  rw [hnone, Option.toList_none, List.append_nil] at hblocks
  refine ⟨⟨hord, ?_, hnodup h.nodup, fun b hb => ?_⟩, hnone⟩
  · rw [halloc, hsome]
    have hmoved : (fresh ++ (chain ++ free)).Perm (chain ++ (node :: free.tail)) := by
      rw [← hfree, ← List.append_assoc, ← List.append_assoc]
      exact List.perm_append_comm.append_right free
    apply ((hblocks.append_left fresh).trans hmoved).trans
    rw [List.append_assoc]
    exact (List.perm_append_singleton node free.tail).symm.append_left chain
  · have hne : b ≠ node := ne_of_mem_of_not_mem (List.mem_append_right chain hb)
      (hord.ready node hsome).apart
    rw [hvalue, Function.update_of_ne hne]
    exact h.cleared b (List.mem_of_mem_tail hb)

theorem push {linked swung : Bool} (hs : s.push linked swung = some s') : ∃ chain',
    Placed s' chain' free ∧ chain' ++ s'.node.toList = chain ++ s.node.toList := by
  obtain ⟨chain', hord, -, hvalue, -, hnodes, halloc⟩ := h.ordered.push hs
  refine ⟨chain', ⟨hord, ?_, halloc ▸ h.nodup, fun b hb => ?_⟩, hnodes⟩
  · have hswap : ∀ xs ys zs : List Addr, (xs ++ ys ++ zs).Perm (xs ++ zs ++ ys) := by
      intro xs ys zs
      rw [List.append_assoc, List.append_assoc]
      exact List.perm_append_comm.append_left xs
    rw [halloc]
    apply (h.blocks.trans (hswap _ _ _)).trans
    rw [← hnodes]
    exact hswap _ _ _
  · rw [hvalue]
    exact h.cleared b hb

theorem pop_idle (leaves : Option α → Option α) (htry : ¬ s.TriesHead) (ok : Bool) :
    Placed (s.pop leaves ok) chain free ∧ (s.pop leaves ok).node = s.node ∧
      (s.pop leaves ok).mem.value = s.mem.value ∧ (s.pop leaves ok).mem.head = s.mem.head := by
  obtain ⟨m, hpop, hord, hvalue, hhead, halloc⟩ := h.ordered.pop_idle leaves htry ok
  rw [hpop]
  refine ⟨⟨hord, halloc.symm ▸ h.blocks, halloc.symm ▸ h.nodup, fun b hb => ?_⟩, rfl,
    hvalue, hhead⟩
  exact (congrFun hvalue b).trans (h.cleared b hb)

theorem pop_fails (leaves : Option α → Option α) (htry : s.TriesHead) :
    ∃ b rest, chain = s.mem.head.ptr :: b :: rest ∧ Placed (s.pop leaves false) chain free ∧
      (s.pop leaves false).node = s.node ∧ (s.pop leaves false).mem.head = s.mem.head ∧
      (s.pop leaves false).mem.value =
        Function.update s.mem.value b (leaves (s.mem.value b)) := by
  obtain ⟨b, rest, hchain, hpop⟩ := h.ordered.pop_fails leaves htry
  have hb : b ∈ chain := by simp [hchain]
  have hready : ∀ node, s.node = some node →
      Ready (s.mem.setValue b (leaves (s.mem.value b))) chain free node := by
    intro node hnode
    obtain ⟨hapart, hne, halloc, hnull⟩ := h.ordered.ready node hnode
    exact ⟨hapart, hne, halloc, hnull⟩
  rw [hpop]
  refine ⟨b, rest, hchain, ⟨⟨h.ordered.good.setValue, hready⟩, h.blocks, h.nodup,
    fun c hc => ?_⟩, rfl, rfl, rfl⟩
  have hne : c ≠ b := ne_of_mem_of_not_mem hc (h.ordered.good.apart b hb)
  exact (Memory.setValue_of_ne hne).trans (h.cleared c hc)

theorem pop_succeeds (leaves : Option α → Option α) (htry : s.TriesHead) :
    ∃ b rest, chain = s.mem.head.ptr :: b :: rest ∧
      Placed (s.pop leaves true) (b :: rest) (s.mem.head.ptr :: free) ∧
      (s.pop leaves true).node = s.node ∧ (s.pop leaves true).mem.head.ptr = b ∧
      (s.pop leaves true).mem.value = Function.update
        (Function.update s.mem.value b (leaves (s.mem.value b))) s.mem.head.ptr none := by
  obtain ⟨b, rest, rfl, hord, hvalue, hhead, -, hnode, -, -, halloc⟩ :=
    h.ordered.pop_succeeds leaves htry
  refine ⟨b, rest, rfl, ⟨hord, ?_, halloc.symm ▸ h.nodup, fun c hc => ?_⟩, hnode, hhead, hvalue⟩
  · rw [halloc, hnode]
    apply h.blocks.trans
    apply List.Perm.append_right
    have hmiddle : (b :: rest ++ s.mem.head.ptr :: free).Perm
        (s.mem.head.ptr :: (b :: rest ++ free)) := List.perm_middle
    exact hmiddle.symm
  · rw [hvalue]
    rcases List.mem_cons.mp hc with rfl | hc
    · exact Function.update_self _ _ _
    · have hhead : c ≠ s.mem.head.ptr := ne_of_mem_of_not_mem hc h.head_not_free
      have hb : c ≠ b := ne_of_mem_of_not_mem hc (h.ordered.good.apart b (by simp))
      rw [Function.update_of_ne hhead, Function.update_of_ne hb]
      exact h.cleared c hc

theorem step (leaves : Option α → Option α) (hs : step leaves s l = some s') :
    ∃ chain' free', Placed s' chain' free' ∧
      (s.razed l ++ (chain' ++ s'.node.toList)).Perm
        (chain ++ s.node.toList ++ s'.built l) := by
  cases l with
  | construct v a =>
    obtain ⟨hplaced, hnone⟩ := h.construct hs
    refine ⟨chain, free.tail, hplaced, ?_⟩
    simp [State.razed, State.built, hnone]
  | push linked swung =>
    obtain ⟨chain', hplaced, hnodes⟩ := h.push hs
    refine ⟨chain', free, hplaced, ?_⟩
    simp [State.razed, State.built, hnodes]
  | pop ok =>
    obtain rfl := Option.some.inj hs
    by_cases htry : s.TriesHead
    · cases ok with
      | true =>
        obtain ⟨b, rest, rfl, hplaced, hnode, -⟩ := h.pop_succeeds leaves htry
        refine ⟨_, _, hplaced, ?_⟩
        simp [State.razed, State.built, htry, hnode]
      | false =>
        obtain ⟨b, rest, -, hplaced, hnode, -⟩ := h.pop_fails leaves htry
        refine ⟨_, _, hplaced, ?_⟩
        simp [State.razed, State.built, hnode]
    · obtain ⟨hplaced, hnode, -⟩ := h.pop_idle leaves htry ok
      refine ⟨_, _, hplaced, ?_⟩
      cases ok <;> simp [State.razed, State.built, htry, hnode]

end Placed

end Bugat.LockFree.Loops
