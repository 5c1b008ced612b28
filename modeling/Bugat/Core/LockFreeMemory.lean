import Mathlib
import Bugat.Lib.LinkedChain

/-!
# The memory of a LockFreeQueue and its free list

`LockFreeQueue` keeps its nodes on a chain from `_head`, whose first node is a dummy,
and `freelist_stack` keeps the freed ones on a chain from `_top`. The free list has
no memory of its own: its link is the first word of the node, which is `_next` while
the node is in the queue. The operations of this module are single writes of the
code; what interleaves them is the business of the modules that use them.
-/

namespace Bugat.LockFree

open LinkedChain (Chain follow follow_eq chain_cons)

abbrev Addr := ℕ

/-- `tagged_ptr`: an address, `0` for `nullptr`, and a 16-bit tag in one word. -/
structure TaggedPtr where
  ptr : Addr
  tag : ℕ
  deriving DecidableEq, Repr

def maxTag : ℕ := 2 ^ 16 - 1

def TaggedPtr.nextTag (p : TaggedPtr) : ℕ := (p.tag + 1) % maxTag

def nullHandle : TaggedPtr := ⟨0, 0⟩

variable {α : Type*}

/-- `next` is the first word of each node. A `value` is `none` in a node whose value is
zeroed, destroyed or moved away. `allocated` lists what `Alloc::allocate` has returned. -/
structure Memory (α : Type*) where
  next : Addr → TaggedPtr
  value : Addr → Option α
  head : TaggedPtr
  tail : TaggedPtr
  top : TaggedPtr
  size : ℤ
  allocated : List Addr

namespace Memory

def construct (a : Addr) : Memory α where
  next _ := nullHandle
  value _ := none
  head := ⟨a, 0⟩
  tail := ⟨a, 0⟩
  top := nullHandle
  size := 0
  allocated := [a]

def link (m : Memory α) (a : Addr) : Option Addr :=
  if (m.next a).ptr = 0 then none else some (m.next a).ptr

def start (p : TaggedPtr) : Option Addr := if p.ptr = 0 then none else some p.ptr

def nodes (m : Memory α) : List Addr := follow m.link m.allocated.length (start m.head)

def content (m : Memory α) : List (Option α) := m.nodes.tail.map m.value

/-- `Alloc::allocate(1)` and the `memset`, when it returns `a`. -/
def allocate (m : Memory α) (a : Addr) : Memory α :=
  { m with
    next := Function.update m.next a nullHandle
    value := Function.update m.value a none
    allocated := a :: m.allocated }

def takeTop (m : Memory α) (ptr : Addr) : Memory α := { m with top := ⟨ptr, m.top.nextTag⟩ }

def setNext (m : Memory α) (a : Addr) (p : TaggedPtr) : Memory α :=
  { m with next := Function.update m.next a p }

def setValue (m : Memory α) (a : Addr) (v : Option α) : Memory α :=
  { m with value := Function.update m.value a v }

def constructNode (m : Memory α) (a : Addr) (v : α) : Memory α :=
  (m.setNext a nullHandle).setValue a (some v)

def moveTail (m : Memory α) (ptr : Addr) : Memory α := { m with tail := ⟨ptr, m.tail.nextTag⟩ }

/-- `_head` set to another node, by a successful exchange. -/
def moveHead (m : Memory α) (ptr : Addr) : Memory α := { m with head := ⟨ptr, m.head.nextTag⟩ }

def addSize (m : Memory α) (n : ℤ) : Memory α := { m with size := m.size + n }

def giveTop (m : Memory α) (a : Addr) : Memory α := { m with top := ⟨a, m.top.tag⟩ }

/-- The two chains of a memory in order: from `_head` the nodes `chain` with `_tail` among
them, from `_top` the nodes `free`, and no node on both. -/
structure Good (m : Memory α) (chain free : List Addr) : Prop where
  linked : Chain m.link (start m.head) chain
  last : ∀ a ∈ chain, (m.next a).ptr = 0 → m.next a = nullHandle
  tail : m.tail.ptr ∈ chain
  listed : Chain m.link (start m.top) free
  apart : ∀ a ∈ chain, a ∉ free
  chain_allocated : ∀ a ∈ chain, a ∈ m.allocated
  free_allocated : ∀ a ∈ free, a ∈ m.allocated
  allocated : 0 ∉ m.allocated

variable {m m' : Memory α} {chain free : List Addr} {a b : Addr} {p : TaggedPtr}

theorem start_of_ne (h : p.ptr ≠ 0) : start p = some p.ptr := if_neg h

theorem start_eq_some : start p = some a ↔ p.ptr = a ∧ a ≠ 0 := by
  simp only [start]
  split
  · rename_i h
    simp [h, eq_comm]
  · rename_i h
    simp only [Option.some.injEq, iff_self_and]
    rintro rfl
    exact h

theorem link_eq_start (m : Memory α) (a : Addr) : m.link a = start (m.next a) := rfl

@[simp] theorem setNext_self : (m.setNext a p).next a = p := by simp [setNext]

theorem setNext_of_ne (h : b ≠ a) : (m.setNext a p).next b = m.next b := by simp [setNext, h]

@[simp] theorem setValue_self {v : Option α} : (m.setValue a v).value a = v := by simp [setValue]

theorem setValue_of_ne {v : Option α} (h : b ≠ a) : (m.setValue a v).value b = m.value b := by
  simp [setValue, h]

theorem construct_good (h : a ≠ 0) : Good (construct a : Memory α) [a] [] where
  linked := ⟨start_of_ne h, rfl⟩
  last _ _ _ := rfl
  tail := List.mem_singleton_self a
  listed := rfl
  apart _ _ := List.not_mem_nil
  chain_allocated _ hb := hb
  free_allocated _ hb := nomatch hb
  allocated hmem := h (List.mem_singleton.mp hmem).symm

namespace Good

variable (h : Good m chain free)
include h

theorem chain_ne_nil : chain ≠ [] := List.ne_nil_of_mem h.tail

theorem head_cons : ∃ rest, chain = m.head.ptr :: rest := by
  have hc := h.linked
  cases chain with
  | nil => exact absurd rfl h.chain_ne_nil
  | cons a rest => exact ⟨rest, by rw [(start_eq_some.mp hc.1).1]⟩

theorem head_mem : m.head.ptr ∈ chain := by
  obtain ⟨rest, hrest⟩ := h.head_cons
  rw [hrest]
  exact List.mem_cons_self

theorem top_cons (hne : m.top.ptr ≠ 0) : ∃ rest, free = m.top.ptr :: rest := by
  have hf := h.listed
  cases free with
  | nil => exact absurd ((start_of_ne hne).symm.trans hf) nofun
  | cons a rest => exact ⟨rest, by rw [(start_eq_some.mp hf.1).1]⟩

theorem ne_zero (ha : a ∈ chain) : a ≠ 0 := fun heq =>
  h.allocated (heq ▸ h.chain_allocated a ha)

theorem length_le : chain.length ≤ m.allocated.length :=
  (h.linked.nodup.subperm h.chain_allocated).length_le

theorem nodes_eq : m.nodes = chain := follow_eq h.linked h.length_le

theorem content_eq : m.content = chain.tail.map m.value := by
  rw [content, h.nodes_eq]

theorem congr (hhead : m'.head = m.head) (htail : m'.tail = m.tail) (htop : m'.top = m.top)
    (hnext : ∀ a ∈ chain ++ free, m'.next a = m.next a)
    (halloc : ∀ a ∈ m.allocated, a ∈ m'.allocated) (hzero : 0 ∉ m'.allocated) :
    Good m' chain free := by
  have hlink : ∀ a ∈ chain ++ free, m'.link a = m.link a := fun a ha => by
    rw [link_eq_start, hnext a ha, link_eq_start]
  refine ⟨?_, fun a ha => ?_, htail ▸ h.tail, ?_, h.apart,
    fun a ha => halloc a (h.chain_allocated a ha),
    fun a ha => halloc a (h.free_allocated a ha), hzero⟩
  · rw [hhead]
    exact h.linked.congr fun a ha => hlink a (List.mem_append_left _ ha)
  · rw [hnext a (List.mem_append_left _ ha)]
    exact h.last a ha
  · rw [htop]
    exact h.listed.congr fun a ha => hlink a (List.mem_append_right _ ha)

theorem allocate (ha : a ∉ m.allocated) (hne : a ≠ 0) : Good (m.allocate a) chain free := by
  refine h.congr rfl rfl rfl (fun b hb => Function.update_of_ne ?_ _ _)
    (fun b hb => List.mem_cons_of_mem a hb) ?_
  · rintro rfl
    rcases List.mem_append.mp hb with hb | hb
    · exact ha (h.chain_allocated _ hb)
    · exact ha (h.free_allocated _ hb)
  · exact fun hmem => (List.mem_cons.mp hmem).elim (fun heq => hne heq.symm) h.allocated

theorem setNext (ha : a ∉ chain ++ free) : Good (m.setNext a p) chain free :=
  h.congr rfl rfl rfl (fun _ hb => setNext_of_ne (ne_of_mem_of_not_mem hb ha))
    (fun _ hb => hb) h.allocated

theorem setValue {v : Option α} : Good (m.setValue a v) chain free :=
  h.congr rfl rfl rfl (fun _ _ => rfl) (fun _ hb => hb) h.allocated

theorem addSize {n : ℤ} : Good (m.addSize n) chain free :=
  h.congr rfl rfl rfl (fun _ _ => rfl) (fun _ hb => hb) h.allocated

theorem takeTop {rest : List Addr} (hfree : free = a :: rest) :
    Good (m.takeTop (m.next a).ptr) chain rest := by
  subst hfree
  refine ⟨h.linked, h.last, h.tail, h.listed.2, fun b hb hr => h.apart b hb ?_, h.chain_allocated,
    fun b hb => h.free_allocated b (List.mem_cons_of_mem a hb), h.allocated⟩
  exact List.mem_cons_of_mem a hr

theorem giveTop (hne : a ≠ 0) (ha : a ∉ chain ++ free) (hmem : a ∈ m.allocated)
    (hnext : (m.next a).ptr = m.top.ptr) : Good (m.giveTop a) chain (a :: free) := by
  rw [List.mem_append, not_or] at ha
  refine ⟨h.linked, h.last, h.tail, ⟨start_of_ne hne, ?_⟩, fun b hb hf => ?_, h.chain_allocated,
    fun b hb => ?_, h.allocated⟩
  · have hlink : m.link a = start m.top := by rw [link_eq_start, start, start, hnext]
    change Chain m.link (m.link a) free
    rw [hlink]
    exact h.listed
  · rcases List.mem_cons.mp hf with rfl | hf
    · exact ha.1 hb
    · exact h.apart b hb hf
  · rcases List.mem_cons.mp hb with rfl | hb
    · exact hmem
    · exact h.free_allocated b hb

theorem moveTail (ha : a ∈ chain) : Good (m.moveTail a) chain free :=
  ⟨h.linked, h.last, ha, h.listed, h.apart, h.chain_allocated, h.free_allocated, h.allocated⟩

theorem moveHead {rest : List Addr} (hchain : chain = a :: b :: rest) (htail : m.tail.ptr ≠ a) :
    Good (m.moveHead b) (b :: rest) free := by
  subst hchain
  have hb : b ≠ 0 := h.ne_zero (by simp)
  refine ⟨⟨start_of_ne hb, h.linked.2.2⟩, fun c hc => h.last c (List.mem_cons_of_mem a hc), ?_,
    h.listed, fun c hc => h.apart c (List.mem_cons_of_mem a hc),
    fun c hc => h.chain_allocated c (List.mem_cons_of_mem a hc), h.free_allocated, h.allocated⟩
  exact (List.mem_cons.mp h.tail).resolve_left htail

theorem eq_getLast (ha : a ∈ chain) (hnext : m.next a = nullHandle) :
    a = chain.getLast h.chain_ne_nil := by
  obtain ⟨xs, ys, rfl⟩ := List.append_of_mem ha
  have hend : Chain m.link (m.link a) ys := h.linked.drop.2
  have hnil : ys = [] := hend.head_eq_none.mp (by rw [link_eq_start, hnext]; rfl)
  subst hnil
  simp

theorem last_null {before : List Addr} (hchain : chain = before ++ [a]) :
    m.next a = nullHandle := by
  subst hchain
  have hend : Chain m.link (m.link a) [] := h.linked.drop.2
  refine h.last a (by simp) ?_
  by_contra hne
  exact absurd (hend.symm.trans (start_of_ne hne)) nofun

theorem linkNode {t : Addr} {tag : ℕ} (ht : t ∈ chain) (hnull : m.next t = nullHandle)
    (hne : a ≠ 0) (ha : a ∉ chain ++ free) (hmem : a ∈ m.allocated)
    (hnext : m.next a = nullHandle) :
    Good (m.setNext t ⟨a, tag⟩) (chain ++ [a]) free := by
  rw [List.mem_append, not_or] at ha
  have hlast := h.eq_getLast ht hnull
  have hat : a ≠ t := fun heq => ha.1 (heq ▸ ht)
  have hlink : ∀ b, b ≠ t → (m.setNext t ⟨a, tag⟩).link b = m.link b := fun b hb => by
    rw [link_eq_start, setNext_of_ne hb, link_eq_start]
  refine ⟨?_, fun b hb hb0 => ?_, List.mem_append_left _ h.tail, ?_, fun b hb hf => ?_,
    fun b hb => ?_, h.free_allocated, h.allocated⟩
  · refine h.linked.snoc h.chain_ne_nil ?_ ?_ fun b _ hb => hlink b (hlast ▸ hb)
    · rw [← hlast, link_eq_start, setNext_self]
      exact start_of_ne hne
    · rw [hlink a hat, link_eq_start, hnext]
      rfl
  · by_cases hbt : b = t
    · subst hbt
      rw [setNext_self] at hb0
      exact absurd hb0 hne
    · rw [setNext_of_ne hbt] at hb0 ⊢
      rcases List.mem_append.mp hb with hb | hb
      · exact h.last b hb hb0
      · rw [List.mem_singleton.mp hb]
        exact hnext
  · refine h.listed.congr fun b hb => hlink b fun heq => ?_
    exact h.apart t ht (heq ▸ hb)
  · rcases List.mem_append.mp hb with hb | hb
    · exact h.apart b hb hf
    · exact ha.2 (List.mem_singleton.mp hb ▸ hf)
  · rcases List.mem_append.mp hb with hb | hb
    · exact h.chain_allocated b hb
    · exact List.mem_singleton.mp hb ▸ hmem

theorem next_mem (ha : a ∈ chain) (hnext : m.next a ≠ nullHandle) : (m.next a).ptr ∈ chain := by
  have hne : (m.next a).ptr ≠ 0 := fun h0 => hnext (h.last a ha h0)
  obtain ⟨xs, ys, rfl⟩ := List.append_of_mem ha
  have hend : Chain m.link (m.link a) ys := h.linked.drop.2
  rw [link_eq_start, start_of_ne hne] at hend
  cases ys with
  | nil => exact absurd hend nofun
  | cons b ys =>
    rw [Option.some.inj hend.1]
    simp

theorem second (hnext : m.next m.head.ptr ≠ nullHandle) :
    ∃ rest, chain = m.head.ptr :: (m.next m.head.ptr).ptr :: rest := by
  obtain ⟨rest, hrest⟩ := h.head_cons
  have hne : (m.next m.head.ptr).ptr ≠ 0 := fun h0 => hnext (h.last _ h.head_mem h0)
  have hend : Chain m.link (m.link m.head.ptr) rest := by
    have hc := h.linked
    rw [hrest] at hc
    exact hc.2
  rw [link_eq_start, start_of_ne hne] at hend
  cases rest with
  | nil => exact absurd hend nofun
  | cons b rest => exact ⟨rest, by rw [hrest, Option.some.inj hend.1]⟩

theorem single (hnext : m.next m.head.ptr = nullHandle) : chain = [m.head.ptr] := by
  obtain ⟨rest, hrest⟩ := h.head_cons
  have hend : Chain m.link (m.link m.head.ptr) rest := by
    have hc := h.linked
    rw [hrest] at hc
    exact hc.2
  have hnil : rest = [] := hend.head_eq_none.mp (by rw [link_eq_start, hnext]; rfl)
  rw [hrest, hnil]

end Good

end Memory

end Bugat.LockFree
