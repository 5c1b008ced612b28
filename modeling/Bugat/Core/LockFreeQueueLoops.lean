import Mathlib
import Bugat.Core.LockFreeMemory
import Bugat.Lib.Transition

/-!
# LockFreeQueue one loop iteration at a time

One producer and one consumer take turns at whole iterations of the loops of
`InternalPush` and `Pop`. What remains open inside an iteration is the outcome of its
`compare_exchange_weak`, which may fail spuriously, and what a copy of the value type
leaves in the object it copies from.
-/

namespace Bugat.LockFree.Loops

open Memory (Good)

variable {α : Type*}

def poolAllocate (m : Memory α) (a : Addr) : Option (Memory α × Addr) :=
  if m.top.ptr = 0 then
    if a = 0 ∨ a ∈ m.allocated then none else some (m.allocate a, a)
  else some (m.takeTop (m.next m.top.ptr).ptr, m.top.ptr)

def poolDestruct (m : Memory α) (a : Addr) : Memory α :=
  ((m.setValue a none).setNext a ⟨m.top.ptr, 0⟩).giveTop a

def swingTail (m : Memory α) (ptr : Addr) (ok : Bool) : Memory α :=
  if ok then m.moveTail ptr else m

/-- `destroyed` lists the values that a destructor was run on while they were held by a
node or by a local variable of `Pop`; `returned` lists the outputs of the pops. -/
structure State (α : Type*) where
  mem : Memory α
  /-- The node that the `Push` in progress has constructed. -/
  node : Option Addr
  pushed : List α
  returned : List (Option α)
  destroyed : List α

def init (a : Addr) : State α := ⟨Memory.construct a, none, [], [], []⟩

/-- The flags say which exchanges of the iteration succeed. -/
inductive Label (α : Type*)
  | construct (v : α) (a : Addr)
  | push (linked swung : Bool)
  | pop (ok : Bool)

def State.construct (s : State α) (v : α) (a : Addr) : Option (State α) :=
  match s.node with
  | some _ => none
  | none => (poolAllocate s.mem a).map fun p =>
      { s with
        mem := p.1.constructNode p.2 v
        node := some p.2
        pushed := s.pushed ++ [v] }

def State.push (s : State α) (linked swung : Bool) : Option (State α) :=
  match s.node with
  | none => none
  | some node =>
    let tail := s.mem.tail
    let next := s.mem.next tail.ptr
    if next = nullHandle then
      if linked then
        let m := s.mem.setNext tail.ptr ⟨node, tail.tag⟩
        some { s with mem := (swingTail m node swung).addSize 1, node := none }
      else some s
    else some { s with mem := swingTail s.mem next.ptr swung }

/-- An iteration of the loop of `Pop`; `leaves` is what `T value = popNode->_value` leaves
in the node. -/
def State.pop (leaves : Option α → Option α) (s : State α) (ok : Bool) : State α :=
  let tail := s.mem.tail
  let head := s.mem.head
  let popNode := s.mem.next head.ptr
  if head.ptr = tail.ptr then
    if popNode = nullHandle then s
    else { s with mem := swingTail s.mem popNode.ptr ok }
  else if popNode = nullHandle then s
  else
    let value := s.mem.value popNode.ptr
    let copied := s.mem.setValue popNode.ptr (leaves value)
    if ok then
      { s with
        mem := poolDestruct ((copied.moveHead popNode.ptr).addSize (-1)) head.ptr
        returned := s.returned ++ [value]
        destroyed := s.destroyed ++ (copied.value head.ptr).toList }
    else { s with mem := copied, destroyed := s.destroyed ++ value.toList }

def step (leaves : Option α → Option α) (s : State α) : Label α → Option (State α)
  | .construct v a => s.construct v a
  | .push linked swung => s.push linked swung
  | .pop ok => some (s.pop leaves ok)

def State.TriesHead (s : State α) : Prop :=
  s.mem.head.ptr ≠ s.mem.tail.ptr ∧ s.mem.next s.mem.head.ptr ≠ nullHandle

instance (s : State α) : Decidable s.TriesHead := inferInstanceAs (Decidable (_ ∧ _))

def State.waiting (s : State α) : List (Option α) :=
  s.mem.content ++ s.node.toList.map s.mem.value

structure Ready (m : Memory α) (chain free : List Addr) (node : Addr) : Prop where
  apart : node ∉ chain ++ free
  ne_zero : node ≠ 0
  allocated : node ∈ m.allocated
  null : m.next node = nullHandle

structure Ordered (s : State α) (chain free : List Addr) : Prop where
  good : Good s.mem chain free
  ready : ∀ node, s.node = some node → Ready s.mem chain free node

variable {s s' : State α} {l : Label α} {m m' : Memory α}
  {chain free : List Addr} {a node : Addr} {v : α}

theorem init_ordered (h : a ≠ 0) : Ordered (init a : State α) [a] [] :=
  ⟨Memory.construct_good h, nofun⟩

theorem poolAllocate_cases (h : Good m chain free) (hm : poolAllocate m a = some (m', node)) :
    (node ≠ 0 ∧ node ∉ m.allocated ∧ free = [] ∧ m' = m.allocate node) ∨
      ∃ rest, free = node :: rest ∧ m' = m.takeTop (m.next node).ptr := by
  rw [poolAllocate] at hm
  split at hm
  · rename_i htop
    split at hm
    · exact absurd hm nofun
    · rename_i hfresh
      obtain ⟨rfl, rfl⟩ := Prod.mk.inj (Option.some.inj hm)
      rw [not_or] at hfresh
      have hnil : free = [] := h.listed.head_eq_none.mp (by simp [Memory.start, htop])
      exact .inl ⟨hfresh.1, hfresh.2, hnil, rfl⟩
  · rename_i htop
    obtain ⟨rfl, rfl⟩ := Prod.mk.inj (Option.some.inj hm)
    obtain ⟨rest, hrest⟩ := h.top_cons htop
    exact .inr ⟨rest, hrest, rfl⟩

theorem constructNode_good (h : Good m chain free) (hnode : node ∉ chain ++ free) :
    Good (m.constructNode node v) chain free :=
  (h.setNext hnode).setValue

theorem poolDestruct_good (h : Good m chain free) (hne : a ≠ 0) (ha : a ∉ chain ++ free)
    (hmem : a ∈ m.allocated) : Good (poolDestruct m a) chain (a :: free) :=
  ((h.setValue.setNext ha).giveTop hne ha hmem (by simp [Memory.setValue, Memory.setNext]))

@[simp] theorem swingTail_next {ok : Bool} : (swingTail m a ok).next = m.next := by
  cases ok <;> rfl

@[simp] theorem swingTail_value {ok : Bool} : (swingTail m a ok).value = m.value := by
  cases ok <;> rfl

@[simp] theorem swingTail_head {ok : Bool} : (swingTail m a ok).head = m.head := by
  cases ok <;> rfl

@[simp] theorem swingTail_allocated {ok : Bool} :
    (swingTail m a ok).allocated = m.allocated := by
  cases ok <;> rfl

theorem swingTail_good (h : Good m chain free) (ha : a ∈ chain) (ok : Bool) :
    Good (swingTail m a ok) chain free := by
  cases ok with
  | true => exact h.moveTail ha
  | false => exact h

namespace Ordered

variable (h : Ordered s chain free)
include h

theorem waiting_eq : s.waiting = chain.tail.map s.mem.value ++ s.node.toList.map s.mem.value := by
  rw [State.waiting, h.good.content_eq]

theorem constructs (hs : s.construct v a = some s') : ∃ node fresh,
    Ordered s' chain free.tail ∧ s.node = none ∧ s'.node = some node ∧
      fresh ++ free = node :: free.tail ∧ s'.mem.allocated = fresh ++ s.mem.allocated ∧
      (s.mem.allocated.Nodup → s'.mem.allocated.Nodup) ∧
      s'.mem.value = Function.update s.mem.value node (some v) ∧
      s'.mem.head = s.mem.head := by
  simp only [State.construct] at hs
  split at hs
  · exact absurd hs nofun
  · rename_i hnone
    obtain ⟨⟨m, node⟩, hm, rfl⟩ := Option.map_eq_some_iff.mp hs
    rcases poolAllocate_cases h.good hm with ⟨hne, hfresh, rfl, rfl⟩ | ⟨rest, rfl, rfl⟩
    · have hapart : node ∉ chain ++ [] := by
        intro hmem
        rw [List.append_nil] at hmem
        exact hfresh (h.good.chain_allocated node hmem)
      have hgood := constructNode_good (v := v) (h.good.allocate hfresh hne) hapart
      refine ⟨node, [node], ⟨hgood, fun b hb => ?_⟩, hnone, rfl, rfl, rfl,
        List.nodup_cons.mpr ∘ And.intro hfresh, ?_, rfl⟩
      · obtain rfl := Option.some.inj hb
        exact ⟨hapart, hne, List.mem_cons_self, Memory.setNext_self⟩
      · simp [Memory.constructNode, Memory.setNext, Memory.setValue, Memory.allocate]
    · have hne : node ≠ 0 := by
        rintro rfl
        exact h.good.allocated (h.good.free_allocated 0 List.mem_cons_self)
      have hapart : node ∉ chain ++ rest := by
        intro hmem
        rcases List.mem_append.mp hmem with hmem | hmem
        · exact h.good.apart node hmem List.mem_cons_self
        · exact (List.nodup_cons.mp h.good.listed.nodup).1 hmem
      have hgood := constructNode_good (v := v) (h.good.takeTop rfl) hapart
      refine ⟨node, [], ⟨hgood, fun b hb => ?_⟩, hnone, rfl, rfl, rfl, id, rfl, rfl⟩
      obtain rfl := Option.some.inj hb
      exact ⟨hapart, hne, h.good.free_allocated _ List.mem_cons_self, Memory.setNext_self⟩

theorem construct (hs : s.construct v a = some s') : ∃ free', Ordered s' chain free' ∧
    s'.waiting = s.waiting ++ [some v] ∧
    s'.mem.value s'.mem.head.ptr = s.mem.value s.mem.head.ptr := by
  obtain ⟨node, -, hord, hnone, hsome, -, -, -, hvalue, hhead⟩ := h.constructs hs
  have hkeep : ∀ b ∈ chain, s'.mem.value b = s.mem.value b := by
    intro b hb
    have hne : b ≠ node := ne_of_mem_of_not_mem (List.mem_append_left free.tail hb)
      (hord.ready node hsome).apart
    rw [hvalue, Function.update_of_ne hne]
  refine ⟨free.tail, hord, ?_, ?_⟩
  · have htail : chain.tail.map s'.mem.value = chain.tail.map s.mem.value :=
      List.map_congr_left fun b hb => hkeep b (List.mem_of_mem_tail hb)
    rw [hord.waiting_eq, h.waiting_eq, htail, hnone, hsome, hvalue]
    simp
  · rw [hhead]
    exact hkeep _ h.good.head_mem

theorem push {linked swung : Bool} (hs : s.push linked swung = some s') :
    ∃ chain', Ordered s' chain' free ∧ s'.waiting = s.waiting ∧
      s'.mem.value = s.mem.value ∧ s'.mem.head = s.mem.head ∧
      chain' ++ s'.node.toList = chain ++ s.node.toList ∧
      s'.mem.allocated = s.mem.allocated := by
  simp only [State.push] at hs
  split at hs
  · exact absurd hs nofun
  · rename_i node hnode
    have hready := h.ready node hnode
    split at hs
    · rename_i hnull
      split at hs
      · obtain rfl := Option.some.inj hs
        have hlink : Good (s.mem.setNext s.mem.tail.ptr ⟨node, s.mem.tail.tag⟩)
            (chain ++ [node]) free :=
          h.good.linkNode h.good.tail hnull hready.ne_zero hready.apart hready.allocated
            hready.null
        have hord : Ordered { s with
            mem := (swingTail (s.mem.setNext s.mem.tail.ptr ⟨node, s.mem.tail.tag⟩)
              node swung).addSize 1
            node := none } (chain ++ [node]) free :=
          ⟨(swingTail_good hlink (by simp) swung).addSize, nofun⟩
        refine ⟨chain ++ [node], hord, ?_, swingTail_value, swingTail_head, ?_,
          swingTail_allocated⟩
        · rw [hord.waiting_eq, h.waiting_eq, hnode,
            List.tail_append_of_ne_nil h.good.chain_ne_nil]
          simp [Memory.addSize, Memory.setNext]
        · rw [hnode]
          simp
      · obtain rfl := Option.some.inj hs
        exact ⟨chain, h, rfl, rfl, rfl, rfl, rfl⟩
    · rename_i hnext
      obtain rfl := Option.some.inj hs
      have hgood := swingTail_good h.good (h.good.next_mem h.good.tail hnext) swung
      have hord : Ordered { s with
          mem := swingTail s.mem (s.mem.next s.mem.tail.ptr).ptr swung } chain free := by
        refine ⟨hgood, fun b hb => ?_⟩
        obtain ⟨hapart, hne, halloc, hnull⟩ := h.ready b hb
        exact ⟨hapart, hne, by simpa using halloc, by simpa using hnull⟩
      refine ⟨chain, hord, ?_, swingTail_value, swingTail_head, rfl, swingTail_allocated⟩
      rw [hord.waiting_eq, h.waiting_eq]
      simp

theorem pop_idle (leaves : Option α → Option α) (htry : ¬ s.TriesHead) (ok : Bool) :
    ∃ m : Memory α, s.pop leaves ok = { s with mem := m } ∧
      Ordered { s with mem := m } chain free ∧ m.value = s.mem.value ∧
      m.head = s.mem.head ∧ m.allocated = s.mem.allocated := by
  simp only [State.pop]
  split
  · rename_i heq
    split
    · exact ⟨s.mem, rfl, h, rfl, rfl, rfl⟩
    · rename_i hnext
      have hgood := swingTail_good h.good (h.good.next_mem h.good.head_mem hnext) ok
      refine ⟨_, rfl, ⟨hgood, fun b hb => ?_⟩, swingTail_value, swingTail_head,
        swingTail_allocated⟩
      obtain ⟨hapart, hne, halloc, hnull⟩ := h.ready b hb
      exact ⟨hapart, hne, by simpa using halloc, by simpa using hnull⟩
  · rename_i hne
    split
    · exact ⟨s.mem, rfl, h, rfl, rfl, rfl⟩
    · rename_i hnext
      exact absurd ⟨hne, hnext⟩ htry

theorem pop_fails (leaves : Option α → Option α) (htry : s.TriesHead) :
    ∃ b rest, chain = s.mem.head.ptr :: b :: rest ∧
    s.pop leaves false =
      { s with
        mem := s.mem.setValue b (leaves (s.mem.value b))
        destroyed := s.destroyed ++ (s.mem.value b).toList } := by
  obtain ⟨rest, hrest⟩ := h.good.second htry.2
  refine ⟨_, rest, hrest, ?_⟩
  simp [State.pop, if_neg htry.1, if_neg htry.2]

theorem pop_succeeds (leaves : Option α → Option α) (htry : s.TriesHead) :
    ∃ b rest, chain = s.mem.head.ptr :: b :: rest ∧
    Ordered (s.pop leaves true) (b :: rest) (s.mem.head.ptr :: free) ∧
    (s.pop leaves true).mem.value = Function.update
      (Function.update s.mem.value b (leaves (s.mem.value b))) s.mem.head.ptr none ∧
    (s.pop leaves true).mem.head.ptr = b ∧
    (s.pop leaves true).pushed = s.pushed ∧ (s.pop leaves true).node = s.node ∧
    (s.pop leaves true).returned = s.returned ++ [s.mem.value b] ∧
    (s.pop leaves true).destroyed = s.destroyed ++ (s.mem.value s.mem.head.ptr).toList ∧
    (s.pop leaves true).mem.allocated = s.mem.allocated := by
  obtain ⟨rest, hrest⟩ := h.good.second htry.2
  subst hrest
  have hnodup := h.good.linked.nodup
  have hhead : s.mem.head.ptr ∉ (s.mem.next s.mem.head.ptr).ptr :: rest :=
    (List.nodup_cons.mp hnodup).1
  have hne : s.mem.head.ptr ≠ (s.mem.next s.mem.head.ptr).ptr := fun heq =>
    hhead (List.mem_cons.mpr (.inl heq))
  set b := (s.mem.next s.mem.head.ptr).ptr with hb
  have hpop : s.pop leaves true =
      { s with
        mem := poolDestruct (((s.mem.setValue b (leaves (s.mem.value b))).moveHead b).addSize (-1))
          s.mem.head.ptr
        returned := s.returned ++ [s.mem.value b]
        destroyed := s.destroyed ++ (s.mem.value s.mem.head.ptr).toList } := by
    simp [State.pop, if_neg htry.1, if_neg htry.2, Memory.setValue_of_ne hne, ← hb]
  have hgood : Good (((s.mem.setValue b (leaves (s.mem.value b))).moveHead b).addSize (-1))
      (b :: rest) free :=
    (h.good.setValue.moveHead rfl fun heq => htry.1 heq.symm).addSize
  have hapart : s.mem.head.ptr ∉ (b :: rest) ++ free := fun hmem =>
    (List.mem_append.mp hmem).elim hhead (h.good.apart _ List.mem_cons_self)
  have hdestruct := poolDestruct_good hgood (h.good.ne_zero List.mem_cons_self) hapart
    (h.good.chain_allocated _ List.mem_cons_self)
  rw [hpop]
  refine ⟨b, rest, rfl, ⟨hdestruct, fun node hnode => ?_⟩, rfl, rfl, rfl, rfl, rfl, rfl, rfl⟩
  obtain ⟨hnot, hne0, halloc, hnull⟩ := h.ready node hnode
  have hnh : node ≠ s.mem.head.ptr := fun heq => hnot (by simp [heq])
  refine ⟨fun hmem => ?_, hne0, halloc, ?_⟩
  · simp only [List.cons_append, List.mem_cons, List.mem_append] at hmem hnot
    tauto
  · change ((Memory.setNext _ _ _).next node) = _
    rw [Memory.setNext_of_ne hnh]
    exact hnull

end Ordered

end Bugat.LockFree.Loops
