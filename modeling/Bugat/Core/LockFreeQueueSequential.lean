import Mathlib
import Bugat.Core.LockFreeQueueNodes
import Bugat.Lib.WeakLoop

/-!
# LockFreeQueue used by one thread

Push, Pop, ConsumeOne, ConsumeAll and Clear one after another, with all their loops and on a
value type whose copies leave the source alone. Each `compare_exchange_weak` has its outcome
from a list; when the list is used up they all succeed. The tests of `_head` and `_tail` against
what was read before always hold here. The loops are given fuel, and enough of it is shown to
make no difference.
-/

namespace Bugat.LockFree.Sequential

open LinkedChain (Chain)
open Loops (Placed Ready poolAllocate poolAllocate_cases poolDestruct swingTail)
open Memory (Good start)
open WeakLoop (outcome outcome_length Ends)

variable {α : Type*}

def allocate (fresh : List Addr → Addr) (m : Memory α) : List Bool → (Memory α × Addr) × List Bool
  | [] =>
    if m.top.ptr = 0 then ((m.allocate (fresh m.allocated), fresh m.allocated), [])
    else ((m.takeTop (m.next m.top.ptr).ptr, m.top.ptr), [])
  | ok :: oks =>
    if m.top.ptr = 0 then ((m.allocate (fresh m.allocated), fresh m.allocated), ok :: oks)
    else if ok then ((m.takeTop (m.next m.top.ptr).ptr, m.top.ptr), oks)
    else allocate fresh m oks

/-- `freelist_stack::deallocate`, which links the node again before each exchange. -/
def deallocate (m : Memory α) (a : Addr) : List Bool → Memory α × List Bool
  | [] => ((m.setNext a ⟨m.top.ptr, 0⟩).giveTop a, [])
  | ok :: oks =>
    if ok then ((m.setNext a ⟨m.top.ptr, 0⟩).giveTop a, oks)
    else deallocate (m.setNext a ⟨m.top.ptr, 0⟩) a oks

def destruct (m : Memory α) (a : Addr) (oks : List Bool) : Memory α × List Bool :=
  deallocate (m.setValue a none) a oks

def internalPush : ℕ → List Bool → Memory α → Addr → Option (Memory α × List Bool)
  | 0, _, _, _ => none
  | fuel + 1, oks, m, node =>
    let tail := m.tail
    let next := m.next tail.ptr
    let (ok, oks) := outcome oks
    if next = nullHandle then
      if ok then
        let (swung, oks) := outcome oks
        some ((swingTail (m.setNext tail.ptr ⟨node, tail.tag⟩) node swung).addSize 1, oks)
      else internalPush fuel oks m node
    else internalPush fuel oks (swingTail m next.ptr ok) node

def push (fresh : List Addr → Addr) (fuel : ℕ) (oks : List Bool) (m : Memory α) (v : α) :
    Option (Memory α × List Bool) :=
  let ((m, node), oks) := allocate fresh m oks
  internalPush fuel oks (m.constructNode node v) node

def pop : ℕ → List Bool → Memory α → Option ((Option (Option α) × Memory α) × List Bool)
  | 0, _, _ => none
  | fuel + 1, oks, m =>
    let tail := m.tail
    let head := m.head
    let popNode := m.next head.ptr
    if head.ptr = tail.ptr then
      if popNode = nullHandle then some ((none, m), oks)
      else
        let (ok, oks) := outcome oks
        pop fuel oks (swingTail m popNode.ptr ok)
    else if popNode = nullHandle then pop fuel oks m
    else
      let value := m.value popNode.ptr
      let (ok, oks) := outcome oks
      if ok then
        let (m, oks) := destruct ((m.moveHead popNode.ptr).addSize (-1)) head.ptr oks
        some ((some value, m), oks)
      else pop fuel oks m

def consumeOne (fuel : ℕ) (oks : List Bool) (m : Memory α) :
    Option ((Option (Option α) × Memory α) × List Bool) := pop fuel oks m

def consumeAll : ℕ → List Bool → Memory α →
    Option (((ℕ × List (Option α)) × Memory α) × List Bool)
  | 0, _, _ => none
  | fuel + 1, oks, m =>
    match consumeOne fuel oks m with
    | none => none
    | some ((none, m), oks) => some (((0, []), m), oks)
    | some ((some value, m), oks) =>
      (consumeAll fuel oks m).map fun (((count, values), m), oks) =>
        (((count + 1, value :: values), m), oks)

inductive Op (α : Type*)
  | push (v : α)
  | pop
  | consumeOne
  | consumeAll
  | clear

inductive Result (α : Type*)
  | pushed
  | popped (output : Option (Option α))
  | consumed (argument : Option (Option α))
  | consumedAll (count : ℕ) (arguments : List (Option α))
  | cleared
  deriving DecidableEq

def runOp (fresh : List Addr → Addr) (fuel : ℕ) (oks : List Bool) (m : Memory α) :
    Op α → Option ((Result α × Memory α) × List Bool)
  | .push v => (push fresh fuel oks m v).map fun (m, oks) => ((.pushed, m), oks)
  | .pop => (pop fuel oks m).map fun ((output, m), oks) => ((.popped output, m), oks)
  | .consumeOne => (consumeOne fuel oks m).map fun ((v, m), oks) => ((.consumed v, m), oks)
  | .consumeAll =>
    (consumeAll fuel oks m).map fun (((n, vs), m), oks) => ((.consumedAll n vs, m), oks)
  | .clear => (consumeAll fuel oks m).map fun ((_, m), oks) => ((.cleared, m), oks)

def run (fresh : List Addr → Addr) (fuel : ℕ) : List Bool → Memory α → List (Op α) →
    Option (List (Result α × Memory α))
  | _, _, [] => some []
  | oks, m, op :: ops =>
    match runOp fresh fuel oks m op with
    | none => none
    | some ((result, m), oks) => (run fresh fuel oks m ops).map fun rest => (result, m) :: rest

/-! ## The queue as a list -/

structure Fifo (α : Type*) where
  content : List α
  /-- The largest length reached. -/
  largest : ℕ

def Fifo.empty : Fifo α := ⟨[], 0⟩

def Fifo.become (q : Fifo α) (content : List α) : Fifo α :=
  ⟨content, max q.largest content.length⟩

def Fifo.op (q : Fifo α) : Op α → Result α × Fifo α
  | .push v => (.pushed, q.become (q.content ++ [v]))
  | .pop => (.popped (q.content.head?.map some), q.become q.content.tail)
  | .consumeOne => (.consumed (q.content.head?.map some), q.become q.content.tail)
  | .consumeAll => (.consumedAll q.content.length (q.content.map some), q.become [])
  | .clear => (.cleared, q.become [])

def Fifo.run (q : Fifo α) : List (Op α) → List (Result α × Fifo α)
  | [] => []
  | op :: ops => q.op op :: (q.op op).2.run ops

structure Represents (m : Memory α) (chain free : List Addr) (content : List α) : Prop where
  good : Good m chain free
  blocks : m.allocated.Perm (chain ++ free)
  nodup : m.allocated.Nodup
  last : ∀ a ∈ chain.getLast?, m.next a = nullHandle
  tail : ∃ before after, chain = before ++ m.tail.ptr :: after ∧ after.length ≤ 1
  size : m.size = chain.length - 1
  content : chain.tail.map m.value = content.map some

/-! ## The exchanges of the free list -/

variable {m m' : Memory α} {chain free : List Addr} {content : List α} {node a : Addr} {v : α}
  {oks : List Bool} {fresh : List Addr → Addr} {fuel : ℕ}

/-- What `std::allocator` promises: memory that is not in use. -/
def Fresh (fresh : List Addr → Addr) : Prop := ∀ used, fresh used ≠ 0 ∧ fresh used ∉ used

theorem allocate_eq (hfresh : Fresh fresh) (m : Memory α) (oks : List Bool) :
    ∃ m' node oks', allocate fresh m oks = ((m', node), oks') ∧ oks'.length ≤ oks.length ∧
      poolAllocate m (fresh m.allocated) = some (m', node) := by
  obtain ⟨hne, hnew⟩ := hfresh m.allocated
  by_cases htop : m.top.ptr = 0
  · have hpool : poolAllocate m (fresh m.allocated) =
        some (m.allocate (fresh m.allocated), fresh m.allocated) := by
      simp [poolAllocate, htop, hne, hnew]
    refine ⟨_, _, oks, ?_, le_rfl, hpool⟩
    cases oks <;> simp [allocate, htop]
  · have hpool : poolAllocate m (fresh m.allocated) =
        some (m.takeTop (m.next m.top.ptr).ptr, m.top.ptr) := by
      simp [poolAllocate, htop]
    induction oks with
    | nil => exact ⟨_, _, [], by simp [allocate, htop], le_rfl, hpool⟩
    | cons ok oks ih =>
      cases ok with
      | true => exact ⟨_, _, oks, by simp [allocate, htop], Nat.le_succ _, hpool⟩
      | false =>
        obtain ⟨m', node, oks', heq, hlen, hpool'⟩ := ih
        exact ⟨m', node, oks', by simp [allocate, htop, heq], hlen.trans (Nat.le_succ _), hpool'⟩

theorem deallocate_eq (m : Memory α) (a : Addr) (oks : List Bool) :
    ∃ oks', deallocate m a oks = ((m.setNext a ⟨m.top.ptr, 0⟩).giveTop a, oks') ∧
      oks'.length ≤ oks.length := by
  induction oks generalizing m with
  | nil => exact ⟨[], rfl, le_rfl⟩
  | cons ok oks ih =>
    cases ok with
    | true => exact ⟨oks, rfl, Nat.le_succ _⟩
    | false =>
      obtain ⟨oks', heq, hlen⟩ := ih (m.setNext a ⟨m.top.ptr, 0⟩)
      refine ⟨oks', ?_, hlen.trans (Nat.le_succ _)⟩
      have hagain : (m.setNext a ⟨m.top.ptr, 0⟩).setNext a ⟨m.top.ptr, 0⟩ =
          m.setNext a ⟨m.top.ptr, 0⟩ := by simp [Memory.setNext]
      change deallocate (m.setNext a ⟨m.top.ptr, 0⟩) a oks = _
      rw [heq]
      change ((((m.setNext a ⟨m.top.ptr, 0⟩).setNext a ⟨m.top.ptr, 0⟩).giveTop a, oks') : _ × _) = _
      rw [hagain]

theorem destruct_eq (m : Memory α) (a : Addr) (oks : List Bool) :
    ∃ oks', destruct m a oks = (poolDestruct m a, oks') ∧ oks'.length ≤ oks.length :=
  deallocate_eq (m.setValue a none) a oks

/-! ## One operation -/

def state (m : Memory α) (node : Option Addr) : Loops.State α := ⟨m, node, [], [], []⟩

theorem placed_state {s : Loops.State α} (h : Placed s chain free) :
    Placed (state s.mem s.node) chain free :=
  ⟨⟨h.ordered.good, h.ordered.ready⟩, h.blocks, h.nodup, h.cleared⟩

structure Holds (m : Memory α) (node : Option Addr) (chain free : List Addr)
    (content : List α) : Prop where
  placed : Placed (state m node) chain free
  tail : ∃ before after, chain = before ++ m.tail.ptr :: after ∧ after.length ≤ 1
  size : m.size = chain.length - 1
  content : chain.tail.map m.value = content.map some

namespace Holds

theorem tail_cases {hand : Option Addr} (h : Holds m hand chain free content) :
    (m.next m.tail.ptr = nullHandle ∧ ∃ before, chain = before ++ [m.tail.ptr]) ∨
      (m.next m.tail.ptr ≠ nullHandle ∧
        ∃ before, chain = before ++ [m.tail.ptr, (m.next m.tail.ptr).ptr]) := by
  have hgood := h.placed.ordered.good
  obtain ⟨before, after, hchain, hlen⟩ := h.tail
  cases after with
  | nil => exact .inl ⟨hgood.last_null hchain, before, hchain⟩
  | cons b after =>
    have hnil : after = [] := by
      rw [List.length_cons] at hlen
      exact List.length_eq_zero_iff.mp (by omega)
    subst hnil
    have hlinked : Chain m.link (m.link m.tail.ptr) [b] := by
      have hlinked : Chain m.link (start m.head) chain := hgood.linked
      rw [hchain] at hlinked
      exact hlinked.drop.2
    obtain ⟨hptr, hne⟩ := Memory.start_eq_some.mp hlinked.1
    refine .inr ⟨fun hnull => hne (by rw [← hptr, hnull]; rfl), before, ?_⟩
    rw [hchain, hptr]

theorem moveTail {hand : Option Addr} (h : Holds m hand chain free content)
    (hnext : m.next m.tail.ptr ≠ nullHandle) :
    Holds (m.moveTail (m.next m.tail.ptr).ptr) hand chain free content ∧
      m.next (m.next m.tail.ptr).ptr = nullHandle := by
  have hgood := h.placed.ordered.good
  rcases h.tail_cases with ⟨hnull, -⟩ | ⟨-, before, hchain⟩
  · exact absurd hnull hnext
  · have hsplit : chain = (before ++ [m.tail.ptr]) ++ [(m.next m.tail.ptr).ptr] := by
      simp [hchain]
    have hord : Loops.Ordered (state (m.moveTail (m.next m.tail.ptr).ptr) hand) chain free := by
      refine ⟨hgood.moveTail (hgood.next_mem hgood.tail hnext), fun node hnode => ?_⟩
      obtain ⟨hapart, hne, halloc, hnull⟩ := h.placed.ordered.ready node hnode
      exact ⟨hapart, hne, halloc, hnull⟩
    have hplaced : Placed (state (m.moveTail (m.next m.tail.ptr).ptr) hand) chain free :=
      ⟨hord, h.placed.blocks, h.placed.nodup, h.placed.cleared⟩
    exact ⟨⟨hplaced, ⟨_, [], hsplit, Nat.zero_le _⟩, h.size, h.content⟩,
      hgood.last_null hsplit⟩

theorem length_allocated {hand : Option Addr} (h : Holds m hand chain free content) :
    m.allocated.length = chain.length + free.length + hand.toList.length := by
  have hlen := h.placed.blocks.length_eq
  rw [List.length_append, List.length_append] at hlen
  exact hlen

theorem length_chain {hand : Option Addr} (h : Holds m hand chain free content) :
    chain.length = content.length + 1 := by
  have hlen := congrArg List.length h.content
  have hpos := List.length_pos_iff.mpr h.placed.ordered.good.chain_ne_nil
  rw [List.length_map, List.length_map, List.length_tail] at hlen
  omega

theorem construct (h : Holds m none chain free content)
    (hm : poolAllocate m a = some (m', node)) :
    Holds (m'.constructNode node v) (some node) chain free.tail content ∧
      (m'.constructNode node v).value node = some v := by
  have hs : (state m none).construct v a =
      some ⟨m'.constructNode node v, some node, [v], [], []⟩ := by
    change (poolAllocate m a).map _ = _
    rw [hm]
    rfl
  have hframe : m'.tail = m.tail ∧ m'.size = m.size := by
    rcases poolAllocate_cases h.placed.ordered.good hm with ⟨-, -, -, rfl⟩ | ⟨-, -, rfl⟩
    · exact ⟨rfl, rfl⟩
    · exact ⟨rfl, rfl⟩
  obtain ⟨hplaced, -⟩ := h.placed.construct hs
  obtain ⟨b, -, hord, -, hb, -, -, -, hvalue, -⟩ := h.placed.ordered.constructs hs
  obtain rfl : node = b := Option.some.inj hb
  have hkeep : ∀ c ∈ chain.tail, (m'.constructNode node v).value c = m.value c := by
    intro c hc
    have hne : c ≠ node := ne_of_mem_of_not_mem
      (List.mem_append_left free.tail (List.mem_of_mem_tail hc)) (hord.ready node rfl).apart
    exact (congrFun hvalue c).trans (Function.update_of_ne hne _ _)
  refine ⟨⟨?_, ?_, ?_, ?_⟩, Memory.setValue_self⟩
  · exact placed_state hplaced
  · change ∃ before after, chain = before ++ m'.tail.ptr :: after ∧ after.length ≤ 1
    rw [hframe.1]
    exact h.tail
  · exact hframe.2.trans h.size
  · exact (List.map_congr_left hkeep).trans h.content

theorem link (h : Holds m (some node) chain free content) (hnull : m.next m.tail.ptr = nullHandle)
    (hvalue : m.value node = some v) (swung : Bool) :
    Holds ((swingTail (m.setNext m.tail.ptr ⟨node, m.tail.tag⟩) node swung).addSize 1) none
      (chain ++ [node]) free (content ++ [v]) := by
  have hs : (state m (some node)).push true swung = some (state
      ((swingTail (m.setNext m.tail.ptr ⟨node, m.tail.tag⟩) node swung).addSize 1) none) := by
    simp [Loops.State.push, state, hnull]
  obtain ⟨chain', hplaced, hnodes⟩ := h.placed.push hs
  obtain rfl : chain' = chain ++ [node] := by simpa [state] using hnodes
  have hne := h.placed.ordered.good.chain_ne_nil
  refine ⟨hplaced, ?_, ?_, ?_⟩
  · cases swung with
    | true => exact ⟨chain, [], rfl, Nat.zero_le _⟩
    | false =>
      rcases h.tail_cases with ⟨-, before, hchain⟩ | ⟨hnext, -⟩
      · refine ⟨before, [node], ?_, le_rfl⟩
        change chain ++ [node] = before ++ [m.tail.ptr, node]
        rw [hchain]
        simp
      · exact absurd hnull hnext
  · have hsize : ((swingTail (m.setNext m.tail.ptr ⟨node, m.tail.tag⟩) node swung).addSize 1).size =
        m.size + 1 := by cases swung <;> rfl
    rw [hsize, h.size, List.length_append]
    simp
  · rw [List.tail_append_of_ne_nil hne, List.map_append, List.map_append]
    have hkeep : ((swingTail (m.setNext m.tail.ptr ⟨node, m.tail.tag⟩) node swung).addSize 1).value
        = m.value := by cases swung <;> rfl
    rw [hkeep, h.content, List.map_singleton, hvalue]
    rfl

end Holds

/-! ## Push -/

theorem internalPush_swings (hnext : m.next m.tail.ptr ≠ nullHandle) :
    internalPush (fuel + 1) oks m node = internalPush fuel (outcome oks).2
      (swingTail m (m.next m.tail.ptr).ptr (outcome oks).1) node := by
  simp [internalPush, hnext]

theorem internalPush_fails (fuel : ℕ) (oks : List Bool) :
    internalPush (fuel + 1) (false :: oks) m node = internalPush fuel oks m node := by
  simp [internalPush, outcome, swingTail]

theorem internalPush_succeeds (hnull : m.next m.tail.ptr = nullHandle)
    (hok : (outcome oks).1 = true) : internalPush (fuel + 1) oks m node =
      some ((swingTail (m.setNext m.tail.ptr ⟨node, m.tail.tag⟩) node
        (outcome (outcome oks).2).1).addSize 1, (outcome (outcome oks).2).2) := by
  simp [internalPush, hnull, hok]

namespace Holds

theorem internalPush_last (h : Holds m (some node) chain free content)
    (hvalue : m.value node = some v) (hnull : m.next m.tail.ptr = nullHandle) (oks : List Bool) :
    Ends 1 oks (internalPush · oks m node) fun m' =>
      Holds m' none (chain ++ [node]) free (content ++ [v]) ∧ m'.allocated = m.allocated := by
  apply Ends.retry (f := fun fuel oks => internalPush fuel oks m node) internalPush_fails
  intro oks hok
  exact Ends.now
    ⟨h.link hnull hvalue (outcome (outcome oks).2).1, Loops.swingTail_allocated⟩
    ((outcome_length _).trans (outcome_length _)) fun _ => internalPush_succeeds hnull hok

theorem internalPush (h : Holds m (some node) chain free content)
    (hvalue : m.value node = some v) (oks : List Bool) :
    Ends 2 oks (Sequential.internalPush · oks m node) fun m' =>
      Holds m' none (chain ++ [node]) free (content ++ [v]) ∧ m'.allocated = m.allocated := by
  by_cases hnull : m.next m.tail.ptr = nullHandle
  · exact (h.internalPush_last hvalue hnull oks).of_le (Nat.le_succ _)
  · obtain ⟨hmoved, hlast⟩ := h.moveTail hnull
    apply Ends.retry (f := fun fuel oks => Sequential.internalPush fuel oks m node)
      internalPush_fails
    intro oks hok
    apply (hmoved.internalPush_last hvalue hlast (outcome oks).2).iterate (outcome_length oks)
    intro fuel
    rw [internalPush_swings hnull, hok]
    rfl

theorem push (hfresh : Fresh fresh) (h : Holds m none chain free content) (v : α)
    (oks : List Bool) :
    Ends 2 oks (Sequential.push fresh · oks m v) fun m' =>
      ∃ chain' free', Holds m' none chain' free' (content ++ [v]) ∧
        m'.allocated.length ≤ max m.allocated.length (content.length + 2) := by
  obtain ⟨m₁, node, oks₁, halloc, hlen₁, hpool⟩ := allocate_eq hfresh m oks
  obtain ⟨hnode, hvalue⟩ := h.construct (v := v) hpool
  obtain ⟨m', oks', ⟨hm', hsame⟩, hlen, hrun⟩ := hnode.internalPush hvalue oks₁
  refine ⟨m', oks', ⟨chain ++ [node], free.tail, hm', ?_⟩, hlen.trans hlen₁, fun fuel hfuel => ?_⟩
  · have hafter := hnode.length_allocated
    have hbefore := h.length_allocated
    have hchain := h.length_chain
    rw [hsame]
    simp only [Option.toList_some, Option.toList_none, List.length_singleton, List.length_nil,
      List.length_tail] at hafter hbefore
    omega
  · rw [← hrun fuel (by omega)]
    simp only [Sequential.push, halloc]

end Holds

/-! ## Pop -/

theorem pop_swings (heq : m.head.ptr = m.tail.ptr) (hnext : m.next m.tail.ptr ≠ nullHandle) :
    pop (fuel + 1) oks m =
      pop fuel (outcome oks).2 (swingTail m (m.next m.tail.ptr).ptr (outcome oks).1) := by
  simp [pop, heq, hnext]

theorem pop_fails (hnext : m.next m.head.ptr ≠ nullHandle) (fuel : ℕ) (oks : List Bool) :
    pop (fuel + 1) (false :: oks) m = pop fuel oks m := by
  simp [pop, outcome, swingTail, hnext]

theorem pop_succeeds (hne : m.head.ptr ≠ m.tail.ptr) (hnext : m.next m.head.ptr ≠ nullHandle)
    (hok : (outcome oks).1 = true) :
    ∃ oks', oks'.length ≤ (outcome oks).2.length ∧ ∀ fuel, pop (fuel + 1) oks m =
      some ((some (m.value (m.next m.head.ptr).ptr),
        poolDestruct ((m.moveHead (m.next m.head.ptr).ptr).addSize (-1)) m.head.ptr), oks') := by
  obtain ⟨oks', hdestruct, hlen⟩ := destruct_eq
    ((m.moveHead (m.next m.head.ptr).ptr).addSize (-1)) m.head.ptr (outcome oks).2
  refine ⟨oks', hlen, fun fuel => ?_⟩
  simp [pop, hne, hnext, hok, hdestruct]

namespace Holds

theorem popHead (h : Holds m none chain free content) (hne : m.head.ptr ≠ m.tail.ptr)
    (hnext : m.next m.head.ptr ≠ nullHandle) :
    ∃ v rest, content = v :: rest ∧ m.value (m.next m.head.ptr).ptr = some v ∧
      Holds (poolDestruct ((m.moveHead (m.next m.head.ptr).ptr).addSize (-1)) m.head.ptr) none
        chain.tail (m.head.ptr :: free) rest := by
  have htry : (state m none).TriesHead := ⟨hne, hnext⟩
  have hcopied : m.setValue (m.next m.head.ptr).ptr (m.value (m.next m.head.ptr).ptr) = m := by
    simp [Memory.setValue]
  have hmem : ((state m none).pop id true).mem =
      poolDestruct ((m.moveHead (m.next m.head.ptr).ptr).addSize (-1)) m.head.ptr := by
    simp [Loops.State.pop, state, hne, hnext, hcopied]
  obtain ⟨b, nodes, hchain, hplaced, hnode, hhead, hvalue⟩ := h.placed.pop_succeeds id htry
  have hb : b = (m.next m.head.ptr).ptr := by
    obtain ⟨nodes', hchain'⟩ := h.placed.ordered.good.second hnext
    have hcons := hchain.symm.trans hchain'
    exact (List.cons.inj (List.cons.inj hcons).2).1
  have htail : chain.tail = b :: nodes := by rw [hchain]; rfl
  have hcontent := h.content
  rw [htail, List.map_cons] at hcontent
  have hnodup := h.placed.ordered.good.linked.nodup
  have hstate := placed_state hplaced
  rw [hmem, hnode, ← htail] at hstate
  cases content with
  | nil => exact absurd hcontent (List.cons_ne_nil _ _)
  | cons v rest =>
    obtain ⟨hv, hrest⟩ := List.cons.inj hcontent
    refine ⟨v, rest, rfl, hb ▸ hv, hstate, ?_, ?_, ?_⟩
    · obtain ⟨before, after, hsplit, hlen⟩ := h.tail
      cases before with
      | nil =>
        rw [hchain] at hsplit
        exact absurd (List.cons.inj hsplit).1 hne
      | cons c before => exact ⟨before, after, by rw [hsplit]; rfl, hlen⟩
    · have hsize : (poolDestruct ((m.moveHead (m.next m.head.ptr).ptr).addSize (-1))
          m.head.ptr).size = m.size + -1 := rfl
      rw [hsize, h.size, htail, hchain]
      push_cast [List.length_cons]
      ring
    · rw [← hmem, hvalue, htail, List.tail_cons, ← hrest]
      refine List.map_congr_left fun c hc => ?_
      have hcne : c ≠ m.head.ptr := by
        rintro rfl
        rw [hchain] at hnodup
        exact (List.nodup_cons.mp hnodup).1 (List.mem_cons_of_mem b hc)
      change Function.update (Function.update m.value b (m.value b)) m.head.ptr none c = _
      rw [Function.update_of_ne hcne, Function.update_eq_self]

def Popped (m : Memory α) (content : List α) (p : Option (Option α) × Memory α) : Prop :=
  p.1 = content.head?.map some ∧ p.2.allocated = m.allocated ∧
    ∃ chain' free', Holds p.2 none chain' free' content.tail

theorem pop_tries (h : Holds m none chain free content) (hne : m.head.ptr ≠ m.tail.ptr)
    (hnext : m.next m.head.ptr ≠ nullHandle) (oks : List Bool) :
    Ends 1 oks (pop · oks m) (Popped m content) := by
  obtain ⟨v, rest, rfl, hv, hpopped⟩ := h.popHead hne hnext
  apply Ends.retry (f := fun fuel oks => pop fuel oks m) (pop_fails hnext)
  intro oks hok
  obtain ⟨oks', hlen, hrun⟩ := pop_succeeds hne hnext hok
  rw [hv] at hrun
  have hpop : Popped m (v :: rest) (some (some v),
      poolDestruct ((m.moveHead (m.next m.head.ptr).ptr).addSize (-1)) m.head.ptr) :=
    ⟨rfl, rfl, chain.tail, m.head.ptr :: free, hpopped⟩
  exact Ends.now hpop (hlen.trans (outcome_length oks)) hrun

theorem pop_empty (h : Holds m none chain free content) (hnext : m.next m.head.ptr = nullHandle)
    (oks : List Bool) : Ends 1 oks (pop · oks m) (Popped m content) := by
  have hchain := h.placed.ordered.good.single hnext
  have heq : m.tail.ptr = m.head.ptr := by
    have htail := h.placed.ordered.good.tail
    rw [hchain] at htail
    exact List.mem_singleton.mp htail
  have hnil : content = [] := by
    have hlen := h.length_chain
    rw [hchain, List.length_singleton] at hlen
    exact List.length_eq_zero_iff.mp (by omega)
  subst hnil
  have hpop : Popped m ([] : List α) (none, m) := ⟨rfl, rfl, chain, free, h⟩
  exact Ends.now hpop le_rfl fun fuel => by simp [pop, heq, hnext]

theorem pop (h : Holds m none chain free content) (oks : List Bool) :
    Ends 2 oks (Sequential.pop · oks m) (Popped m content) := by
  by_cases hnext : m.next m.head.ptr = nullHandle
  · exact (h.pop_empty hnext oks).of_le (Nat.le_succ _)
  by_cases heq : m.head.ptr = m.tail.ptr
  · have hlag : m.next m.tail.ptr ≠ nullHandle := heq ▸ hnext
    obtain ⟨hmoved, -⟩ := h.moveTail hlag
    have hapart : m.head.ptr ≠ (m.next m.tail.ptr).ptr := by
      obtain ⟨rest, hchain⟩ := h.placed.ordered.good.second hnext
      have hnodup := h.placed.ordered.good.linked.nodup
      rw [hchain] at hnodup
      rw [← heq]
      exact fun hsame => (List.nodup_cons.mp hnodup).1 (List.mem_cons.mpr (.inl hsame))
    apply Ends.retry (f := fun fuel oks => Sequential.pop fuel oks m) (pop_fails hnext)
    intro oks hok
    apply (hmoved.pop_tries hapart hnext (outcome oks).2).iterate (outcome_length oks)
    intro fuel
    rw [pop_swings heq hlag, hok]
    rfl
  · exact (h.pop_tries heq hnext oks).of_le (Nat.le_succ _)

/-! ## ConsumeAll and the rest -/

theorem consumeAll (h : Holds m none chain free content) (oks : List Bool) :
    Ends (content.length + 3) oks (Sequential.consumeAll · oks m) fun p =>
      p.1 = (content.length, content.map some) ∧ p.2.allocated = m.allocated ∧
        ∃ chain' free', Holds p.2 none chain' free' ([] : List α) := by
  induction content generalizing m oks chain free with
  | nil =>
    obtain ⟨⟨out, m'⟩, oks', ⟨hout, halloc, chain', free', hm'⟩, hlen, hrun⟩ := h.pop oks
    obtain rfl : out = none := hout
    refine ⟨((0, []), m'), oks', ⟨rfl, halloc, chain', free', hm'⟩, hlen, fun fuel hfuel => ?_⟩
    cases fuel with
    | zero => omega
    | succ fuel =>
      rw [List.length_nil] at hfuel
      simp only [Sequential.consumeAll, consumeOne, hrun fuel (by omega)]
  | cons v rest ih =>
    obtain ⟨⟨out, m₁⟩, oks₁, ⟨hout, halloc₁, chain₁, free₁, hm₁⟩, hlen₁, hrun₁⟩ := h.pop oks
    obtain rfl : out = some (some v) := hout
    obtain ⟨⟨r, m'⟩, oks', ⟨hr, halloc, chain', free', hm'⟩, hlen, hrun⟩ := ih hm₁ oks₁
    obtain rfl : r = (rest.length, rest.map some) := hr
    refine ⟨((rest.length + 1, some v :: rest.map some), m'), oks',
      ⟨rfl, halloc.trans halloc₁, chain', free', hm'⟩, hlen.trans hlen₁, fun fuel hfuel => ?_⟩
    cases fuel with
    | zero => omega
    | succ fuel =>
      rw [List.length_cons] at hfuel
      simp only [Sequential.consumeAll, consumeOne, hrun₁ fuel (by omega), hrun fuel (by omega),
        Option.map_some]

end Holds

theorem Holds.represents (h : Holds m none chain free content) :
    Represents m chain free content where
  good := h.placed.ordered.good
  blocks := by
    have hblocks := h.placed.blocks
    rw [show (state m none).node.toList = [] from rfl, List.append_nil] at hblocks
    exact hblocks
  nodup := h.placed.nodup
  last a ha := by
    obtain ⟨before, hbefore⟩ := List.getLast?_eq_some_iff.mp ha
    exact h.placed.ordered.good.last_null hbefore
  tail := h.tail
  size := h.size
  content := h.content

theorem construct_holds (ha : a ≠ 0) : Holds (Memory.construct a : Memory α) none [a] [] [] where
  placed := placed_state (Loops.init_placed ha)
  tail := ⟨[], [], rfl, Nat.zero_le _⟩
  size := rfl
  content := rfl

def Matches (m : Memory α) (q : Fifo α) : Prop :=
  m.allocated.length ≤ q.largest + 1 ∧ ∃ chain free, Holds m none chain free q.content

theorem Matches.become {q : Fifo α} {rest : List α} (h : Matches m q)
    (halloc : m'.allocated = m.allocated) (hm' : ∃ chain free, Holds m' none chain free rest) :
    Matches m' (q.become rest) := by
  refine ⟨?_, hm'⟩
  have hbound := h.1
  change m'.allocated.length ≤ max q.largest rest.length + 1
  rw [halloc]
  omega

theorem Matches.runOp (hfresh : Fresh fresh) {q : Fifo α} (h : Matches m q) (op : Op α)
    (oks : List Bool) :
    Ends (q.content.length + 3) oks (Sequential.runOp fresh · oks m op) fun p =>
      p.1 = (q.op op).1 ∧ Matches p.2 (q.op op).2 := by
  have hholds := h
  obtain ⟨hbound, chain, free, hholds⟩ := hholds
  cases op with
  | push v =>
    apply Ends.map (e := fun m => (Result.pushed, m))
      ((hholds.push hfresh v oks).of_le (by omega)) fun _ _ => rfl
    rintro m' ⟨chain', free', hm', hlen⟩
    refine ⟨rfl, ?_, chain', free', hm'⟩
    change m'.allocated.length ≤ max q.largest (q.content ++ [v]).length + 1
    rw [List.length_append, List.length_singleton]
    omega
  | pop =>
    apply Ends.map (e := fun p => (Result.popped p.1, p.2))
      ((hholds.pop oks).of_le (by omega)) fun _ _ => rfl
    rintro ⟨out, m'⟩ ⟨hout, halloc, hm'⟩
    exact ⟨congrArg Result.popped hout, h.become halloc hm'⟩
  | consumeOne =>
    apply Ends.map (e := fun p => (Result.consumed p.1, p.2))
      ((hholds.pop oks).of_le (by omega)) fun _ _ => rfl
    rintro ⟨out, m'⟩ ⟨hout, halloc, hm'⟩
    exact ⟨congrArg Result.consumed hout, h.become halloc hm'⟩
  | consumeAll =>
    apply Ends.map (e := fun p => (Result.consumedAll p.1.1 p.1.2, p.2))
      (hholds.consumeAll oks) fun _ _ => rfl
    rintro ⟨⟨count, arguments⟩, m'⟩ ⟨hr, halloc, hm'⟩
    obtain ⟨rfl, rfl⟩ := Prod.mk.inj hr
    exact ⟨rfl, h.become halloc hm'⟩
  | clear =>
    apply Ends.map (e := fun p => (Result.cleared, p.2)) (hholds.consumeAll oks) fun _ _ => rfl
    rintro ⟨r, m'⟩ ⟨-, halloc, hm'⟩
    exact ⟨rfl, h.become halloc hm'⟩

theorem Fifo.op_length (q : Fifo α) (op : Op α) :
    (q.op op).2.content.length ≤ q.content.length + 1 := by
  cases op with
  | push v => exact List.length_append.le
  | pop => exact (List.length_tail.trans_le (Nat.sub_le _ _)).trans (Nat.le_succ _)
  | consumeOne => exact (List.length_tail.trans_le (Nat.sub_le _ _)).trans (Nat.le_succ _)
  | consumeAll => exact Nat.zero_le _
  | clear => exact Nat.zero_le _

theorem Matches.run (hfresh : Fresh fresh) {q : Fifo α} (h : Matches m q) (oks : List Bool)
    (ops : List (Op α)) :
    ∃ trace, (∀ fuel, q.content.length + ops.length + oks.length + 3 ≤ fuel →
        Sequential.run fresh fuel oks m ops = some trace) ∧
      List.Forall₂ (fun p r => p.1 = r.1 ∧ Matches p.2 r.2) trace (q.run ops) := by
  induction ops generalizing m q oks with
  | nil => exact ⟨[], fun _ _ => rfl, List.Forall₂.nil⟩
  | cons op ops ih =>
    obtain ⟨p, oks', ⟨hp, hm'⟩, hlen, hrun⟩ := h.runOp hfresh op oks
    obtain ⟨trace, htrace, hall⟩ := ih hm' oks'
    refine ⟨p :: trace, fun fuel hfuel => ?_, List.Forall₂.cons ⟨hp, hm'⟩ hall⟩
    have hop := q.op_length op
    rw [List.length_cons] at hfuel
    have hfirst : Sequential.runOp fresh fuel oks m op = some (p, oks') := hrun fuel (by omega)
    rw [Sequential.run, hfirst]
    change (Sequential.run fresh fuel oks' p.2 ops).map _ = _
    rw [htrace fuel (by omega)]
    rfl

/-- Whatever exchanges fail, every run of operations returns what the list returns, and
after each operation the memory represents the list. -/
theorem run_eq_fifo (hfresh : Fresh fresh) (ha : a ≠ 0) (oks : List Bool) (ops : List (Op α)) :
    ∃ trace, (∀ fuel, ops.length + oks.length + 3 ≤ fuel →
        run fresh fuel oks (Memory.construct a) ops = some trace) ∧
      List.Forall₂ (fun p r => p.1 = r.1 ∧ (∃ chain free, Represents p.2 chain free r.2.content) ∧
        p.2.allocated.length ≤ r.2.largest + 1) trace (Fifo.empty.run ops) := by
  have hempty : Matches (Memory.construct a : Memory α) Fifo.empty :=
    ⟨le_rfl, [a], [], construct_holds ha⟩
  obtain ⟨trace, htrace, hall⟩ := hempty.run hfresh oks ops
  refine ⟨trace, fun fuel hfuel => htrace fuel ?_, hall.imp ?_⟩
  · simpa [Fifo.empty] using hfuel
  · rintro p r ⟨hresult, hbound, chain, free, hholds⟩
    exact ⟨hresult, ⟨chain, free, hholds.represents⟩, hbound⟩

def above (used : List Addr) : Addr := used.foldr max 0 + 1

theorem above_fresh : Fresh above := by
  have hle : ∀ used : List Addr, ∀ a ∈ used, a < above used := by
    intro used
    induction used with
    | nil => exact fun a ha => absurd ha List.not_mem_nil
    | cons b used ih =>
      intro a ha
      rcases List.mem_cons.mp ha with rfl | ha
      · exact Nat.lt_succ_of_le (le_max_left _ _)
      · exact (ih a ha).trans_le (Nat.succ_le_succ (le_max_right _ _))
  exact fun used => ⟨Nat.succ_ne_zero _, fun hmem => lt_irrefl _ (hle used _ hmem)⟩

theorem pushPopPush_eq_fifo :
    ∃ trace, (∀ fuel, 12 ≤ fuel → run above fuel [false, true, false, true] (Memory.construct 1)
        [.push 5, .push 6, .pop, .push 7, .consumeAll] = some trace) ∧
      List.Forall₂ (fun p r => p.1 = r.1 ∧ (∃ chain free, Represents p.2 chain free r.2.content) ∧
          p.2.allocated.length ≤ r.2.largest + 1) trace
        (Fifo.empty.run [.push 5, .push 6, .pop, .push 7, .consumeAll]) :=
  run_eq_fifo above_fresh one_ne_zero [false, true, false, true]
    [.push 5, .push 6, .pop, .push 7, .consumeAll]

end Bugat.LockFree.Sequential
