import Mathlib
import Bugat.Core.LockFreeQueueHistory
import Bugat.Lib.Transition

/-!
# The tail of a LockFreeQueue

Any number of threads, when no node is used again after it was freed. `Pop` loads `_tail`
before `_head` and compares the two, but only `_head` is loaded again. Whether its exchange
of `_head` overtakes `_tail` depends on where `_tail` is by then.
-/

namespace Bugat.LockFree.NoReuse

open LinkedChain (reaches_iff)
open Queue (Action Item Pc Seen)
open Transition (exec Along Throughout throughout_iff_along_of_step)

variable {α Tid : Type*}

structure Shared (α : Type*) where
  queue : Queue.Shared α
  /-- The nodes passed to `_pool.destruct`. -/
  destructed : List Addr

/-- A step of the queue, except that `freelist_stack::allocate` takes every node from
`Alloc::allocate`. The freed nodes are still linked to a list. -/
def act (u : Shared α) : Pc α → Action α → Option (Shared α × Pc α)
  | .allocTop x, .go _ => some (u, .allocNew x)
  | .destroy value node, a =>
    (Queue.advance u.queue (.destroy value node) a).map fun q =>
      (⟨q.1, node :: u.destructed⟩, q.2)
  | pc, a => (Queue.advance u.queue pc a).map fun q => (⟨q.1, u.destructed⟩, q.2)

abbrev State (α Tid : Type*) := Threads.System (Shared α) (Pc α) Tid

def init (a : Addr) : State α Tid := ⟨⟨Queue.Shared.init a, []⟩, fun _ => .idle⟩

abbrev step [DecidableEq Tid] : State α Tid → Tid × Action α → Option (State α Tid) :=
  Threads.step act

structure TailOk (u : Shared α) : Prop where
  reached : Relation.ReflTransGen (fun a b => u.queue.mem.link a = some b)
    u.queue.mem.head.ptr u.queue.mem.tail.ptr
  kept : u.queue.mem.tail.ptr ∉ u.destructed

def expected : Pc α → Action α → Option Seen
  | .popSwap _ head _ _, .go false => some head
  | _, _ => none

/-- The exchange of `_head` in `Pop` takes the node away that `_tail` is at. -/
def Overtakes (u : Shared α) (pc : Pc α) (b : Action α) : Prop :=
  ∃ head ∈ expected pc b, u.queue.mem.head = head.word ∧ u.queue.mem.tail.ptr = head.word.ptr

/-! ## The nodes in the order in which they were linked -/

structure View where
  next : Addr → TaggedPtr
  head : TaggedPtr
  tail : TaggedPtr
  allocated : List Addr
  pops : ℕ
  moves : ℕ
  destructed : List Addr

def Shared.view (u : Shared α) : View :=
  ⟨u.queue.mem.next, u.queue.mem.head, u.queue.mem.tail, u.queue.mem.allocated,
    u.queue.popped.length, u.queue.tailMoves, u.destructed⟩

/-- The nodes that were ever linked, in this order: `_head` is at the one whose position is
the number of its exchanges, and so is `_tail`. -/
structure Inv (order : List Addr) (w : View) : Prop where
  nodup : order.Nodup
  links : ∀ k a, w.pops ≤ k → order[k]? = some a →
    Memory.start (w.next a) = order[k + 1]? ∧ ((w.next a).ptr = 0 → w.next a = nullHandle)
  head : order[w.pops]? = some w.head.ptr
  tail : order[w.moves]? = some w.tail.ptr
  behind : w.pops ≤ w.moves
  allocated : ∀ a ∈ order, a ∈ w.allocated
  zero : 0 ∉ w.allocated
  destructed : ∀ a ∈ w.destructed, a ∈ order.take w.pops

def At (order : List Addr) (moves : ℕ) (seen : Seen) : Prop :=
  order[seen.moves]? = some seen.word.ptr ∧ seen.moves ≤ moves

def Succ (order : List Addr) (k : ℕ) (next : TaggedPtr) : Prop :=
  next ≠ nullHandle → order[k + 1]? = some next.ptr

def Own (order : List Addr) (w : View) (node : Addr) : Prop := node ∉ order ∧ node ∈ w.allocated

def Constructed (order : List Addr) (w : View) (node : Addr) : Prop :=
  Own order w node ∧ w.next node = nullHandle

def Assert (order : List Addr) (w : View) : Pc α → Prop
  | .idle | .allocTop _ | .allocNew _ | .addSize _ | .popTail _ => True
  | .allocNext _ _ | .allocCas _ _ _ => False
  | .construct _ node => Own order w node
  | .loadTail _ node => Constructed order w node
  | .loadNext _ node tail | .link _ node tail => Constructed order w node ∧ At order w.moves tail
  | .checkTail _ node tail next => Constructed order w node ∧ At order w.moves tail ∧
      (w.moves = tail.moves → Succ order tail.moves next)
  | .help _ node tail next => Constructed order w node ∧ At order w.moves tail ∧
      order[tail.moves + 1]? = some next.ptr
  | .swing _ node tail => At order w.moves tail ∧
      (w.moves = tail.moves → order[tail.moves + 1]? = some node)
  | .popHead _ tail => At order w.moves tail
  | .popNext _ tail head => At order w.moves tail ∧ At order w.pops head
  | .popCheck _ tail head next => At order w.moves tail ∧ At order w.pops head ∧
      (w.pops = head.moves → Succ order head.moves next)
  | .popHelp _ tail next => At order w.moves tail ∧ order[tail.moves + 1]? = some next.ptr
  | .popValue _ head next | .popSwap _ head next _ => At order w.pops head ∧
      order[head.moves + 1]? = some next.ptr
  | .subSize _ node | .destroy _ node | .freeTop _ node | .freeWrite _ node _
  | .freeCas _ node _ => node ∈ order.take w.pops

def unlinked : Pc α → Option Addr
  | .construct _ node | .loadTail _ node | .loadNext _ node _ | .checkTail _ node _ _
  | .link _ node _ | .help _ node _ _ => some node
  | _ => none

def Apart (pc pc' : Pc α) : Prop := ∀ a, unlinked pc = some a → unlinked pc' ≠ some a

theorem Apart.symm {pc pc' : Pc α} (h : Apart pc pc') : Apart pc' pc :=
  fun a ha ha' => h a ha' ha

structure Guarantee (mine : Option Addr) (order : List Addr) (w : View) (order' : List Addr)
    (w' : View) : Prop where
  grows : order <+: order'
  pops : w.pops ≤ w'.pops
  moves : w.moves ≤ w'.moves
  foreign : ∀ a, Own order w a → mine ≠ some a → Own order' w' a ∧ w'.next a = w.next a

variable {u u' : Shared α} {w w' : View} {order order' : List Addr} {mine : Option Addr}
  {pc pc' : Pc α} {a node : Addr} {tail head seen : Seen} {next p : TaggedPtr} {k moves : ℕ}
  {x : Item α} {spurious : Bool}

namespace Guarantee

theorem weaken {mine : Option Addr} (h : Guarantee none order w order' w') :
    Guarantee mine order w order' w' :=
  { h with foreign := fun a ha _ => h.foreign a ha nofun }

variable (h : Guarantee mine order w order' w')
include h

theorem position (ha : order[k]? = some a) : order'[k]? = some a := by
  obtain ⟨rest, rfl⟩ := h.grows
  obtain ⟨hlt, -⟩ := List.getElem?_eq_some_iff.mp ha
  rw [List.getElem?_append_left hlt]
  exact ha

theorem seenTail (hs : At order w.moves tail) : At order' w'.moves tail :=
  ⟨h.position hs.1, hs.2.trans h.moves⟩

theorem seenHead (hs : At order w.pops head) : At order' w'.pops head :=
  ⟨h.position hs.1, hs.2.trans h.pops⟩

theorem taken (ha : a ∈ order.take w.pops) : a ∈ order'.take w'.pops := by
  obtain ⟨rest, rfl⟩ := h.grows
  have hmem : a ∈ (order ++ rest).take w.pops := by
    rw [List.take_append]
    exact List.mem_append_left _ ha
  exact (List.take_subset_take_left _ h.pops) hmem

theorem constructed (hne : mine ≠ some node) (hc : Constructed order w node) :
    Constructed order' w' node := by
  obtain ⟨hown, hnext⟩ := h.foreign node hc.1 hne
  exact ⟨hown, hnext.trans hc.2⟩

theorem assert (hmine : ∀ a, unlinked pc = some a → mine ≠ some a) (ha : Assert order w pc) :
    Assert order' w' pc := by
  cases pc with
  | idle | allocTop x | allocNew x | addSize x | popTail since => trivial
  | allocNext x top => exact ha
  | allocCas x top next => exact ha
  | construct x node => exact (h.foreign node ha (hmine node rfl)).1
  | loadTail x node => exact h.constructed (hmine node rfl) ha
  | loadNext x node tail | link x node tail =>
    exact ⟨h.constructed (hmine node rfl) ha.1, h.seenTail ha.2⟩
  | checkTail x node tail next =>
    obtain ⟨hc, hs, hnext⟩ := ha
    refine ⟨h.constructed (hmine node rfl) hc, h.seenTail hs, fun heq hne => ?_⟩
    exact h.position (hnext (le_antisymm (h.moves.trans heq.le) hs.2) hne)
  | help x node tail next =>
    exact ⟨h.constructed (hmine node rfl) ha.1, h.seenTail ha.2.1, h.position ha.2.2⟩
  | swing x node tail =>
    refine ⟨h.seenTail ha.1, fun heq => ?_⟩
    exact h.position (ha.2 (le_antisymm (h.moves.trans heq.le) ha.1.2))
  | popHead since tail => exact h.seenTail ha
  | popNext since tail head => exact ⟨h.seenTail ha.1, h.seenHead ha.2⟩
  | popCheck since tail head next =>
    obtain ⟨htail, hhead, hnext⟩ := ha
    refine ⟨h.seenTail htail, h.seenHead hhead, fun heq hne => ?_⟩
    exact h.position (hnext (le_antisymm (h.pops.trans heq.le) hhead.2) hne)
  | popHelp since tail next => exact ⟨h.seenTail ha.1, h.position ha.2⟩
  | popValue since head next | popSwap since head next value =>
    exact ⟨h.seenHead ha.1, h.position ha.2⟩
  | subSize value node | destroy value node | freeTop value node | freeWrite value node top
  | freeCas value node top => exact h.taken ha

end Guarantee

/-! ## The words of the queue -/

theorem position_inj {j : ℕ} (hnodup : order.Nodup) (hj : order[j]? = some a)
    (hk : order[k]? = some a) : j = k := by
  obtain ⟨hlt, -⟩ := List.getElem?_eq_some_iff.mp hj
  exact (List.getElem?_inj hlt hnodup).mp (hj.trans hk.symm)

theorem mem_take_of_position {n : ℕ} (hk : order[k]? = some a) (hlt : k < n) :
    a ∈ order.take n := by
  refine List.mem_of_getElem? (i := k) ?_
  rw [List.getElem?_take_of_lt hlt]
  exact hk

theorem position_lt {n : ℕ} (hnodup : order.Nodup) (hmem : a ∈ order.take n)
    (hk : order[k]? = some a) : k < n := by
  obtain ⟨j, hj⟩ := List.getElem?_of_mem hmem
  rw [List.getElem?_take] at hj
  split at hj
  · rename_i hlt
    exact position_inj hnodup hj hk ▸ hlt
  · exact absurd hj nofun

def View.write (w : View) (a : Addr) (p : TaggedPtr) : View :=
  { w with next := Function.update w.next a p }

def View.allocate (w : View) (a : Addr) : View :=
  { w.write a nullHandle with allocated := a :: w.allocated }

theorem write_same : (w.write a p).next a = p := Function.update_self _ _ _

theorem write_other {b : Addr} (h : b ≠ a) : (w.write a p).next b = w.next b :=
  Function.update_of_ne h _ _

namespace Inv

variable (h : Inv order w)
include h

theorem seeTail : At order w.moves ⟨w.tail, w.moves⟩ := ⟨h.tail, le_rfl⟩

theorem seeHead : At order w.pops ⟨w.head, w.pops⟩ := ⟨h.head, le_rfl⟩

/-- Nodes are not used again, so that a word at the same node was not moved. -/
theorem tail_unmoved (hs : At order moves tail) (heq : w.tail.ptr = tail.word.ptr) :
    w.moves = tail.moves :=
  position_inj h.nodup (h.tail.trans (congrArg some heq)) hs.1

theorem head_unmoved (hs : At order moves head) (heq : w.head.ptr = head.word.ptr) :
    w.pops = head.moves :=
  position_inj h.nodup (h.head.trans (congrArg some heq)) hs.1

theorem succ_read (hk : order[k]? = some a) (hle : w.pops ≤ k) : Succ order k (w.next a) := by
  obtain ⟨hlink, hnull⟩ := h.links k a hle hk
  intro hne
  rw [← hlink]
  exact Memory.start_of_ne fun h0 => hne (hnull h0)

theorem write (hoff : ∀ k, w.pops ≤ k → order[k]? ≠ some a) : Inv order (w.write a p) where
  nodup := h.nodup
  links k b hk hb := by
    have hne : b ≠ a := by
      rintro rfl
      exact hoff k hk hb
    rw [write_other hne]
    exact h.links k b hk hb
  head := h.head
  tail := h.tail
  behind := h.behind
  allocated := h.allocated
  zero := h.zero
  destructed := h.destructed

theorem write_own (hown : Own order w node) : Inv order (w.write node p) ∧
    Guarantee (some node) order w order (w.write node p) := by
  refine ⟨h.write fun k _ hk => hown.1 (List.mem_of_getElem? hk), List.prefix_refl _, le_rfl,
    le_rfl, fun b hb hne => ⟨hb, write_other ?_⟩⟩
  rintro rfl
  exact hne rfl

theorem write_taken (mine : Option Addr) (hmem : node ∈ order.take w.pops) :
    Inv order (w.write node p) ∧ Guarantee mine order w order (w.write node p) := by
  refine ⟨h.write fun k hk hnode => ?_, List.prefix_refl _, le_rfl, le_rfl,
    fun b hb _ => ⟨hb, write_other ?_⟩⟩
  · exact absurd (position_lt h.nodup hmem hnode) (not_lt.mpr hk)
  · rintro rfl
    exact hb.1 (List.mem_of_mem_take hmem)

theorem link (ha : order[k]? = some a) (hle : w.pops ≤ k) (hnull : w.next a = nullHandle)
    (hnode : Constructed order w node) (tag : ℕ) :
    Inv (order ++ [node]) (w.write a ⟨node, tag⟩) ∧
      Guarantee (some node) order w (order ++ [node]) (w.write a ⟨node, tag⟩) ∧
      (order ++ [node])[k + 1]? = some node := by
  obtain ⟨⟨hnew, halloc⟩, hnext⟩ := hnode
  obtain ⟨hklt, -⟩ := List.getElem?_eq_some_iff.mp ha
  have hlength : order.length = k + 1 := by
    have hend := (h.links k a hle ha).1
    rw [hnull] at hend
    have := List.getElem?_eq_none_iff.mp hend.symm
    omega
  have hstays : ∀ {j : ℕ} {b : Addr}, order[j]? = some b → (order ++ [node])[j]? = some b := by
    intro j b hj
    rw [List.getElem?_append_left (List.getElem?_eq_some_iff.mp hj).1]
    exact hj
  have hlast : (order ++ [node])[k + 1]? = some node := by
    rw [← hlength]
    exact List.getElem?_concat_length
  have hne : node ≠ 0 := fun h0 => h.zero (h0 ▸ halloc)
  have hna : node ≠ a := fun heq => hnew (heq ▸ List.mem_of_getElem? ha)
  refine ⟨⟨?_, fun j b hj hb => ?_, hstays h.head, hstays h.tail, h.behind, fun b hb => ?_,
    h.zero, fun b hb => ?_⟩, ⟨List.prefix_append _ _, le_rfl, le_rfl, fun b hb hmine => ?_⟩, hlast⟩
  · refine List.nodup_append.mpr ⟨h.nodup, List.nodup_singleton node, fun b hb c hc => ?_⟩
    rw [List.mem_singleton.mp hc]
    exact ne_of_mem_of_not_mem hb hnew
  · rcases lt_trichotomy j k with hlt | rfl | hgt
    · have hb' : order[j]? = some b := by
        rwa [List.getElem?_append_left (hlt.trans hklt)] at hb
      have hba : b ≠ a := by
        rintro rfl
        exact hlt.ne (position_inj h.nodup hb' ha)
      rw [write_other hba, List.getElem?_append_left (by omega)]
      exact h.links j b hj hb'
    · obtain rfl := Option.some.inj ((hstays ha).symm.trans hb)
      rw [write_same, hlast]
      exact ⟨Memory.start_of_ne hne, fun h0 => absurd h0 hne⟩
    · obtain ⟨hjlt, -⟩ := List.getElem?_eq_some_iff.mp hb
      rw [List.length_append, List.length_singleton] at hjlt
      obtain rfl : j = k + 1 := by omega
      obtain rfl := Option.some.inj (hlast.symm.trans hb)
      rw [write_other hna, hnext, List.getElem?_eq_none (by simp [hlength])]
      exact ⟨rfl, fun _ => rfl⟩
  · rcases List.mem_append.mp hb with hb | hb
    · exact h.allocated b hb
    · exact List.mem_singleton.mp hb ▸ halloc
  · rw [List.take_append]
    exact List.mem_append_left _ (h.destructed b hb)
  · have hbn : b ≠ node := fun heq => hmine (heq ▸ rfl)
    have hba : b ≠ a := fun heq => hb.1 (heq ▸ List.mem_of_getElem? ha)
    refine ⟨⟨fun hmem => ?_, hb.2⟩, write_other hba⟩
    rcases List.mem_append.mp hmem with hmem | hmem
    · exact hb.1 hmem
    · exact hbn (List.mem_singleton.mp hmem)

theorem moveTail (mine : Option Addr) (ha : order[w.moves + 1]? = some a) (tag : ℕ) :
    Inv order { w with tail := ⟨a, tag⟩, moves := w.moves + 1 } ∧
      Guarantee mine order w order { w with tail := ⟨a, tag⟩, moves := w.moves + 1 } :=
  ⟨⟨h.nodup, h.links, h.head, ha, Nat.le_succ_of_le h.behind, h.allocated, h.zero, h.destructed⟩,
    ⟨List.prefix_refl _, le_rfl, Nat.le_succ _, fun _ hb _ => ⟨hb, rfl⟩⟩⟩

theorem moveHead (mine : Option Addr) (ha : order[w.pops + 1]? = some a)
    (hahead : w.pops < w.moves) (tag : ℕ) :
    Inv order { w with head := ⟨a, tag⟩, pops := w.pops + 1 } ∧
      Guarantee mine order w order { w with head := ⟨a, tag⟩, pops := w.pops + 1 } := by
  refine ⟨⟨h.nodup, fun k b hk hb => h.links k b (Nat.le_of_succ_le hk) hb, ha, h.tail, hahead,
    h.allocated, h.zero, fun b hb => ?_⟩, ⟨List.prefix_refl _, Nat.le_succ _, le_rfl,
    fun _ hb _ => ⟨hb, rfl⟩⟩⟩
  exact List.take_subset_take_left _ (Nat.le_succ _) (h.destructed b hb)

theorem allocate (mine : Option Addr) (hne : a ≠ 0) (hfresh : a ∉ w.allocated) :
    Inv order (w.allocate a) ∧ Guarantee mine order w order (w.allocate a) ∧
      Own order (w.allocate a) a := by
  have hnew : a ∉ order := fun hmem => hfresh (h.allocated a hmem)
  have hwrite : Inv order (w.write a nullHandle) :=
    h.write fun k _ hk => hnew (List.mem_of_getElem? hk)
  refine ⟨⟨h.nodup, hwrite.links, h.head, h.tail, h.behind, fun b hb => ?_, fun hmem => ?_,
    h.destructed⟩, ⟨List.prefix_refl _, le_rfl, le_rfl, fun b hb _ => ?_⟩, hnew,
    List.mem_cons_self⟩
  · exact List.mem_cons_of_mem a (h.allocated b hb)
  · exact (List.mem_cons.mp hmem).elim (fun heq => hne heq.symm) h.zero
  · have hba : b ≠ a := ne_of_mem_of_not_mem hb.2 hfresh
    exact ⟨⟨hb.1, List.mem_cons_of_mem a hb.2⟩, write_other hba⟩

theorem destruct (mine : Option Addr) (hmem : node ∈ order.take w.pops) :
    Inv order { w with destructed := node :: w.destructed } ∧
      Guarantee mine order w order { w with destructed := node :: w.destructed } := by
  refine ⟨⟨h.nodup, h.links, h.head, h.tail, h.behind, h.allocated, h.zero, fun b hb => ?_⟩,
    ⟨List.prefix_refl _, le_rfl, le_rfl, fun _ hb _ => ⟨hb, rfl⟩⟩⟩
  rcases List.mem_cons.mp hb with rfl | hb
  · exact hmem
  · exact h.destructed b hb

end Inv

/-! ## The steps of the threads -/

structure Advanced (order : List Addr) (w : View) (pc : Pc α) (order' : List Addr) (w' : View)
    (pc' : Pc α) : Prop where
  inv : Inv order' w'
  assert : Assert order' w' pc'
  guarantee : Guarantee (unlinked pc) order w order' w'
  fresh : ∀ a, unlinked pc' = some a → unlinked pc = some a ∨ ¬ Own order w a

theorem fresh_of_none (h : unlinked pc' = none) :
    ∀ a, unlinked pc' = some a → unlinked pc = some a ∨ ¬ Own order w a := by
  intro a ha
  rw [h] at ha
  exact absurd ha nofun

theorem Inv.stay (h : Inv order w) (ha : Assert order w pc')
    (hfresh : unlinked pc' = none ∨ unlinked pc' = unlinked pc) :
    Advanced order w pc order w pc' where
  inv := h
  assert := ha
  guarantee := ⟨List.prefix_refl _, le_rfl, le_rfl, fun _ hb _ => ⟨hb, rfl⟩⟩
  fresh := by
    rcases hfresh with hnone | hsame
    · exact fresh_of_none hnone
    · exact fun a ha => .inl (hsame ▸ ha)

theorem swingTail_sound (hinv : Inv order u.view) (hs : At order moves tail)
    (hnext : u.view.moves = tail.moves → order[tail.moves + 1]? = some a) (spurious : Bool) :
    Inv order (Shared.view ⟨u.queue.swingTail tail a spurious, u.destructed⟩) ∧
      Guarantee none order u.view order
        (Shared.view ⟨u.queue.swingTail tail a spurious, u.destructed⟩) := by
  rw [Queue.Shared.swingTail]
  split
  · rename_i hok
    have heq := hinv.tail_unmoved hs (congrArg TaggedPtr.ptr hok.1)
    have hmoved := hnext heq
    rw [← heq] at hmoved
    exact hinv.moveTail none hmoved u.queue.mem.tail.nextTag
  · exact ⟨hinv, List.prefix_refl _, le_rfl, le_rfl, fun _ hb _ => ⟨hb, rfl⟩⟩

theorem advancePush_sound {q : Queue.Shared α} (hinv : Inv order u.view)
    (ha : Assert order u.view pc) (hpc : ∀ x, pc ≠ .allocTop x)
    (hs : Queue.advancePush u.queue spurious pc = some (q, pc')) :
    ∃ order', Advanced order u.view pc order' (Shared.view ⟨q, u.destructed⟩) pc' := by
  cases pc with
  | allocTop x => exact absurd rfl (hpc x)
  | allocNext x top => exact ha.elim
  | allocCas x top next => exact ha.elim
  | construct x node =>
    obtain ⟨rfl, rfl⟩ := Prod.mk.inj (Option.some.inj hs)
    obtain ⟨hinv', hg⟩ := hinv.write_own (p := nullHandle) ha
    exact ⟨order, hinv', ⟨ha, Function.update_self _ _ _⟩, hg, fun _ h => .inl h⟩
  | loadTail x node =>
    obtain ⟨rfl, rfl⟩ := Prod.mk.inj (Option.some.inj hs)
    exact ⟨order, hinv.stay ⟨ha, hinv.seeTail⟩ (.inr rfl)⟩
  | loadNext x node tail =>
    obtain ⟨rfl, rfl⟩ := Prod.mk.inj (Option.some.inj hs)
    refine ⟨order, hinv.stay ⟨ha.1, ha.2, fun heq => ?_⟩ (.inr rfl)⟩
    exact hinv.succ_read ha.2.1 (hinv.behind.trans heq.le)
  | checkTail x node tail next =>
    obtain ⟨rfl, rfl⟩ := Prod.mk.inj (Option.some.inj hs)
    obtain ⟨hnode, hseen, hnext⟩ := ha
    refine ⟨order, hinv.stay ?_ (.inr ?_)⟩
    · split
      · rename_i hword
        split
        · exact ⟨hnode, hseen⟩
        · rename_i hne
          exact ⟨hnode, hseen, hnext (hinv.tail_unmoved hseen (congrArg TaggedPtr.ptr hword)) hne⟩
      · exact hnode
    · split
      · split <;> rfl
      · rfl
  | link x node tail =>
    obtain ⟨hnode, hseen⟩ := ha
    rw [Queue.advancePush] at hs
    split at hs
    · rename_i hok
      obtain ⟨rfl, rfl⟩ := Prod.mk.inj (Option.some.inj hs)
      rcases le_or_gt u.view.pops tail.moves with hle | hgt
      · obtain ⟨hinv', hg, hlast⟩ := hinv.link hseen.1 hle hok.1 hnode tail.word.tag
        exact ⟨_, hinv', ⟨hg.seenTail hseen, fun _ => hlast⟩, hg, fresh_of_none rfl⟩
      · -- the node of `tail` is freed, and the value is lost, but `_tail` is elsewhere
        obtain ⟨hinv', hg⟩ := hinv.write_taken (p := ⟨node, tail.word.tag⟩) (some node)
          (mem_take_of_position hseen.1 hgt)
        refine ⟨order, hinv', ⟨hseen, fun heq => ?_⟩, hg, fresh_of_none rfl⟩
        exact absurd (hinv.behind.trans heq.le) (not_le.mpr hgt)
    · obtain ⟨rfl, rfl⟩ := Prod.mk.inj (Option.some.inj hs)
      exact ⟨order, hinv.stay hnode (.inr rfl)⟩
  | help x node tail next =>
    obtain ⟨rfl, rfl⟩ := Prod.mk.inj (Option.some.inj hs)
    obtain ⟨hnode, hseen, hnext⟩ := ha
    obtain ⟨hinv', hg⟩ := swingTail_sound hinv hseen (fun _ => hnext) spurious
    exact ⟨order, hinv', hg.constructed (Option.some_ne_none _).symm hnode, hg.weaken,
      fun _ h => .inl h⟩
  | swing x node tail =>
    obtain ⟨rfl, rfl⟩ := Prod.mk.inj (Option.some.inj hs)
    obtain ⟨hinv', hg⟩ := swingTail_sound hinv ha.1 ha.2 spurious
    exact ⟨order, hinv', trivial, hg, fresh_of_none rfl⟩
  | addSize x =>
    obtain ⟨rfl, rfl⟩ := Prod.mk.inj (Option.some.inj hs)
    exact ⟨order, hinv.stay (w := u.view) trivial (.inl rfl)⟩
  | _ => exact absurd hs.symm (Option.some_ne_none _)

theorem view_moveHead (u : Shared α) (a : Addr) (value : Option (Item α)) :
    Shared.view ⟨{ u.queue with
        mem := u.queue.mem.moveHead a, popped := u.queue.popped ++ [value] }, u.destructed⟩ =
      { u.view with head := ⟨a, u.queue.mem.head.nextTag⟩, pops := u.view.pops + 1 } := by
  simp [Shared.view, Memory.moveHead]

theorem advancePop_sound {q : Queue.Shared α} (hinv : Inv order u.view)
    (ha : Assert order u.view pc) (hkeeps : ¬ Overtakes u pc (.go spurious))
    (hs : Queue.advancePop u.queue spurious pc = some (q, pc')) :
    ∃ order', Advanced order u.view pc order' (Shared.view ⟨q, u.destructed⟩) pc' := by
  cases pc with
  | popTail since =>
    obtain ⟨rfl, rfl⟩ := Prod.mk.inj (Option.some.inj hs)
    exact ⟨order, hinv.stay hinv.seeTail (.inl rfl)⟩
  | popHead since tail =>
    obtain ⟨rfl, rfl⟩ := Prod.mk.inj (Option.some.inj hs)
    exact ⟨order, hinv.stay ⟨ha, hinv.seeHead⟩ (.inl rfl)⟩
  | popNext since tail head =>
    obtain ⟨rfl, rfl⟩ := Prod.mk.inj (Option.some.inj hs)
    exact ⟨order, hinv.stay ⟨ha.1, ha.2, fun heq => hinv.succ_read ha.2.1 heq.le⟩ (.inl rfl)⟩
  | popCheck since tail head next =>
    obtain ⟨htail, hhead, hnext⟩ := ha
    rw [Queue.advancePop] at hs
    split at hs
    · rename_i hword
      have hread := hnext (hinv.head_unmoved hhead (congrArg TaggedPtr.ptr hword))
      split at hs
      · rename_i heq
        split at hs
        · obtain ⟨rfl, rfl⟩ := Prod.mk.inj (Option.some.inj hs)
          exact ⟨order, hinv.stay (w := u.view) trivial (.inl rfl)⟩
        · rename_i hne
          obtain ⟨rfl, rfl⟩ := Prod.mk.inj (Option.some.inj hs)
          have hsame := position_inj hinv.nodup hhead.1 (heq ▸ htail.1)
          exact ⟨order, hinv.stay ⟨htail, hsame ▸ hread hne⟩ (.inl rfl)⟩
      · obtain ⟨rfl, rfl⟩ := Prod.mk.inj (Option.some.inj hs)
        refine ⟨order, hinv.stay ?_ (.inl ?_)⟩
        · split
          · trivial
          · rename_i hne
            exact ⟨hhead, hread hne⟩
        · split <;> rfl
    · obtain ⟨rfl, rfl⟩ := Prod.mk.inj (Option.some.inj hs)
      exact ⟨order, hinv.stay trivial (.inl rfl)⟩
  | popHelp since tail next =>
    obtain ⟨rfl, rfl⟩ := Prod.mk.inj (Option.some.inj hs)
    obtain ⟨hinv', hg⟩ := swingTail_sound hinv ha.1 (fun _ => ha.2) spurious
    exact ⟨order, hinv', trivial, hg, fresh_of_none rfl⟩
  | popValue since head next =>
    obtain ⟨rfl, rfl⟩ := Prod.mk.inj (Option.some.inj hs)
    exact ⟨order, hinv.stay ha (.inl rfl)⟩
  | popSwap since head next value =>
    rw [Queue.advancePop] at hs
    split at hs
    · rename_i hok
      obtain ⟨rfl, rfl⟩ := Prod.mk.inj (Option.some.inj hs)
      obtain ⟨hword, rfl⟩ := hok
      have hahead : u.view.pops < u.view.moves := by
        refine lt_of_le_of_ne hinv.behind fun heq => hkeeps ⟨head, rfl, hword, ?_⟩
        have hsame := hinv.head
        rw [heq] at hsame
        exact (Option.some.inj (hinv.tail.symm.trans hsame)).trans (congrArg TaggedPtr.ptr hword)
      have heq := hinv.head_unmoved ha.1 (congrArg TaggedPtr.ptr hword)
      obtain ⟨⟨hposition, -⟩, hnext⟩ := ha
      rw [← heq] at hposition hnext
      obtain ⟨hinv', hg⟩ := hinv.moveHead none hnext hahead u.queue.mem.head.nextTag
      refine ⟨order, ?_⟩
      rw [view_moveHead]
      exact ⟨hinv', mem_take_of_position hposition (Nat.lt_succ_self _), hg, fresh_of_none rfl⟩
    · obtain ⟨rfl, rfl⟩ := Prod.mk.inj (Option.some.inj hs)
      exact ⟨order, hinv.stay trivial (.inl rfl)⟩
  | subSize value node =>
    obtain ⟨rfl, rfl⟩ := Prod.mk.inj (Option.some.inj hs)
    exact ⟨order, hinv.stay (w := u.view) ha (.inl rfl)⟩
  | destroy value node =>
    obtain ⟨rfl, rfl⟩ := Prod.mk.inj (Option.some.inj hs)
    exact ⟨order, hinv.stay (w := u.view) ha (.inl rfl)⟩
  | freeTop value node =>
    obtain ⟨rfl, rfl⟩ := Prod.mk.inj (Option.some.inj hs)
    exact ⟨order, hinv.stay ha (.inl rfl)⟩
  | freeWrite value node top =>
    obtain ⟨rfl, rfl⟩ := Prod.mk.inj (Option.some.inj hs)
    obtain ⟨hinv', hg⟩ := hinv.write_taken (p := ⟨top.ptr, 0⟩) none ha
    exact ⟨order, hinv', ha, hg, fresh_of_none rfl⟩
  | freeCas value node top =>
    rw [Queue.advancePop] at hs
    split at hs <;> obtain ⟨rfl, rfl⟩ := Prod.mk.inj (Option.some.inj hs)
    · exact ⟨order, hinv.stay (w := u.view) trivial (.inl rfl)⟩
    · exact ⟨order, hinv.stay ha (.inl rfl)⟩
  | _ => exact absurd hs.symm (Option.some_ne_none _)

theorem advance_sound {q : Queue.Shared α} {b : Action α} (hinv : Inv order u.view)
    (ha : Assert order u.view pc) (hpc : ∀ x, pc ≠ .allocTop x) (hkeeps : ¬ Overtakes u pc b)
    (hs : Queue.advance u.queue pc b = some (q, pc')) :
    ∃ order', Advanced order u.view pc order' (Shared.view ⟨q, u.destructed⟩) pc' := by
  cases b with
  | go spurious =>
    rcases Queue.advance_go_eq_some hs with hs | hs
    · exact advancePush_sound hinv ha hpc hs
    · exact advancePop_sound hinv ha hkeeps hs
  | push v =>
    cases pc with
    | idle =>
      obtain ⟨rfl, rfl⟩ := Prod.mk.inj (Option.some.inj hs)
      exact ⟨order, hinv.stay (w := u.view) trivial (.inl rfl)⟩
    | _ => exact absurd hs.symm (Option.some_ne_none _)
  | pop =>
    cases pc with
    | idle =>
      obtain ⟨rfl, rfl⟩ := Prod.mk.inj (Option.some.inj hs)
      exact ⟨order, hinv.stay trivial (.inl rfl)⟩
    | _ => exact absurd hs.symm (Option.some_ne_none _)
  | fresh b =>
    cases pc with
    | allocNew x =>
      rw [Queue.advance] at hs
      split at hs
      · exact absurd hs.symm (Option.some_ne_none _)
      · rename_i hfresh
        obtain ⟨rfl, rfl⟩ := Prod.mk.inj (Option.some.inj hs)
        rw [not_or] at hfresh
        obtain ⟨hinv', hg, hown⟩ := hinv.allocate none hfresh.1 hfresh.2
        refine ⟨order, hinv', hown, hg, fun c hc => ?_⟩
        obtain rfl := Option.some.inj hc
        exact .inr fun hown => hfresh.2 hown.2
    | _ => exact absurd hs.symm (Option.some_ne_none _)

theorem act_cases {b : Action α} (hs : act u pc b = some (u', pc')) :
    (∃ x, pc = .allocTop x ∧ pc' = .allocNew x ∧ u' = u) ∨
      (∀ x, pc ≠ .allocTop x) ∧ ∃ q, Queue.advance u.queue pc b = some (q, pc') ∧
        ((∃ value node, pc = .destroy value node ∧ u' = ⟨q, node :: u.destructed⟩) ∨
          u' = ⟨q, u.destructed⟩) := by
  cases pc with
  | allocTop x =>
    cases b with
    | go spurious =>
      obtain ⟨rfl, rfl⟩ := Prod.mk.inj (Option.some.inj hs)
      exact .inl ⟨x, rfl, rfl, rfl⟩
    | _ => exact absurd hs.symm (Option.some_ne_none _)
  | destroy value node =>
    obtain ⟨⟨q, qc⟩, hadv, heq⟩ := Option.map_eq_some_iff.mp hs
    obtain ⟨rfl, rfl⟩ := Prod.mk.inj heq
    exact .inr ⟨fun _ => nofun, q, hadv, .inl ⟨value, node, rfl, rfl⟩⟩
  | _ =>
    obtain ⟨⟨q, qc⟩, hadv, heq⟩ := Option.map_eq_some_iff.mp hs
    obtain ⟨rfl, rfl⟩ := Prod.mk.inj heq
    exact .inr ⟨fun _ => nofun, q, hadv, .inr rfl⟩

theorem Assert.own {order : List Addr} {w : View} {pc : Pc α} (ha : Assert order w pc)
    (hpc : unlinked pc = some node) : Own order w node := by
  cases pc with
  | construct x n =>
    obtain rfl := Option.some.inj hpc
    exact ha
  | loadTail x n =>
    obtain rfl := Option.some.inj hpc
    exact And.left ha
  | loadNext x n tail | checkTail x n tail next | link x n tail | help x n tail next =>
    obtain rfl := Option.some.inj hpc
    exact ha.1.1
  | _ => exact absurd hpc.symm (Option.some_ne_none _)

theorem act_advanced {b : Action α} (hinv : Inv order u.view) (ha : Assert order u.view pc)
    (hkeeps : ¬ Overtakes u pc b) (hs : act u pc b = some (u', pc')) :
    ∃ order', Advanced order u.view pc order' u'.view pc' := by
  rcases act_cases hs with ⟨x, rfl, rfl, rfl⟩ | ⟨hpc, q, hadv, hu⟩
  · exact ⟨order, hinv.stay trivial (.inl rfl)⟩
  · obtain ⟨order', hadvanced⟩ := advance_sound hinv ha hpc hkeeps hadv
    rcases hu with ⟨value, node, rfl, rfl⟩ | rfl
    · obtain ⟨hinv', hassert, hg, hfresh⟩ := hadvanced
      obtain ⟨hdestruct, hkept⟩ := hinv'.destruct none (hg.taken ha)
      exact ⟨order', hdestruct, hkept.assert (fun _ _ => nofun) hassert,
        ⟨hg.grows, hg.pops, hg.moves, hg.foreign⟩, hfresh⟩
    · exact ⟨order', hadvanced⟩

theorem act_sound : Threads.Sound (act : Shared α → Pc α → Action α → _)
    (fun u pc b => ¬ Overtakes u pc b) (fun order u => Inv order u.view)
    (fun order u => Assert order u.view) Apart := by
  intro order u pc b u' pc' hinv ha hkeeps hs
  obtain ⟨order', hadvanced⟩ := act_advanced hinv ha hkeeps hs
  refine ⟨order', hadvanced.inv, hadvanced.assert, fun other hother hapart => ⟨?_, ?_⟩⟩
  · exact hadvanced.guarantee.assert (fun c hc hc' => hapart c hc' hc) hother
  · intro c hc hc'
    rcases hadvanced.fresh c hc with hpc | hnot
    · exact hapart c hpc hc'
    · exact hnot (hother.own hc')

/-! ## Runs -/

theorem tailOk_of_inv (hinv : Inv order u.view) : TailOk u where
  reached := (reaches_iff hinv.head fun k a hk ha => (hinv.links k a hk ha).1).mpr
    ⟨u.view.moves, hinv.behind, hinv.tail⟩
  kept hmem := not_lt.mpr hinv.behind (position_lt hinv.nodup (hinv.destructed _ hmem) hinv.tail)

/-- When `_head` overtakes `_tail`, the queue does not lead to `_tail` any more. -/
theorem not_tailOk_of_overtakes {b : Action α} (hinv : Inv order u.view)
    (ha : Assert order u.view pc) (hover : Overtakes u pc b) (hs : act u pc b = some (u', pc')) :
    ¬ TailOk u' := by
  obtain ⟨head, hexpected, hword, htail⟩ := hover
  cases pc with
  | popSwap since seen next value =>
    cases b with
    | go spurious =>
      cases spurious with
      | false =>
        obtain rfl : seen = head := Option.some.inj hexpected
        obtain ⟨hhead, hnext⟩ := ha
        have hact : act u (.popSwap since seen next value) (.go false) =
            some (⟨{ u.queue with
                mem := u.queue.mem.moveHead next.ptr,
                popped := u.queue.popped ++ [value] }, u.destructed⟩,
              .subSize value seen.word.ptr) := by
          simp [act, Queue.advance, Queue.advancePush, Queue.advancePop, hword]
        obtain ⟨rfl, -⟩ := Prod.mk.inj (Option.some.inj (hs.symm.trans hact))
        have heq := hinv.head_unmoved hhead (congrArg TaggedPtr.ptr hword)
        rw [← heq] at hnext
        rintro ⟨hreached, -⟩
        obtain ⟨k, hk, hposition⟩ := (reaches_iff hnext fun k c hk hc =>
          (hinv.links k c (Nat.le_of_succ_le hk) hc).1).mp hreached
        have hsame : order[k]? = some u.queue.mem.head.ptr := by
          rw [hword, ← htail]
          exact hposition
        exact absurd (position_inj hinv.nodup hinv.head hsame) (Nat.ne_of_lt hk)
      | true => exact absurd hexpected (Option.not_mem_none head)
    | _ => exact absurd hexpected (Option.not_mem_none head)
  | _ => exact absurd hexpected (Option.not_mem_none head)

section Runs

variable [DecidableEq Tid] {s s' : State α Tid}

def OvertakesStep (s : State α Tid) (l : Tid × Action α) : Prop :=
  Overtakes s.shared (s.thread l.1) l.2

def Queued (s : State α Tid) : Prop :=
  Threads.Holds (fun order u => Inv order u.view) (fun order u => Assert order u.view) Apart s

omit [DecidableEq Tid] in
theorem init_queued {b : Addr} (hb : b ≠ 0) : Queued (init b : State α Tid) := by
  refine ⟨⟨[b], ?_, fun _ => trivial⟩, fun _ _ _ => nofun⟩
  refine ⟨List.nodup_singleton b, fun k a _ ha => ?_, rfl, rfl, le_rfl, fun _ => id, ?_, nofun⟩
  · obtain ⟨hlt, -⟩ := List.getElem?_eq_some_iff.mp ha
    rw [List.getElem?_eq_none (by simp)]
    exact ⟨rfl, fun _ => rfl⟩
  · exact fun hmem => hb (List.mem_singleton.mp hmem).symm

omit [DecidableEq Tid] in
theorem Queued.tailOk (h : Queued s) : TailOk s.shared := by
  obtain ⟨order, hinv, -⟩ := h.asserted
  exact tailOk_of_inv hinv

theorem Queued.step {l : Tid × Action α} (h : Queued s) (hkeeps : ¬ OvertakesStep s l)
    (hs : step s l = some s') : Queued s' :=
  Threads.Holds.step h act_sound (fun _ _ => Apart.symm) hkeeps hs

theorem Queued.tailOk_iff {l : Tid × Action α} (h : Queued s) (hs : NoReuse.step s l = some s') :
    TailOk s'.shared ↔ ¬ OvertakesStep s l := by
  constructor
  · intro hok hover
    obtain ⟨u, pc, hact, rfl⟩ := Threads.step_eq_some.mp hs
    obtain ⟨order, hinv, hassert⟩ := h.asserted
    exact not_tailOk_of_overtakes hinv (hassert l.1) hover hact hok
  · exact fun hkeeps => (h.step hkeeps hs).tailOk

theorem tailOk_iff_never_overtakes (b : Addr) (hb : b ≠ 0) (ls : List (Tid × Action α)) :
    Throughout (fun s => TailOk s.shared) step (init b : State α Tid) ls ↔
      Along (fun s l => ¬ OvertakesStep s l) step (init b) ls := by
  have hinit : Queued (init b : State α Tid) := init_queued hb
  exact throughout_iff_along_of_step (fun s h => h.tailOk)
    (fun s l t h hkeeps hs => h.step hkeeps hs) (fun s l t h hs => h.tailOk_iff hs) hinit

instance (u : Shared α) (pc : Pc α) (b : Action α) : Decidable (Overtakes u pc b) :=
  inferInstanceAs (Decidable (∃ _ ∈ expected pc b, _))

instance (s : State α Tid) (l : Tid × Action α) : Decidable (OvertakesStep s l) :=
  inferInstanceAs (Decidable (Overtakes _ _ _))

inductive Worker
  | producer
  | first
  | second
  deriving DecidableEq

def steps (t : Worker) (n : ℕ) : List (Worker × Action ℕ) := List.replicate n (t, .go false)

def pushFresh (t : Worker) (v : ℕ) (a : Addr) : List (Worker × Action ℕ) :=
  [(t, .push v), (t, .go false), (t, .fresh a)]

/-- The first consumer loads `_tail` and stalls. A value is pushed, a second one is linked,
and the other consumer pops the first value, which brings `_head` to the node of `_tail`. -/
def lagging : List (Worker × Action ℕ) :=
  (.first, .pop) :: steps .first 1 ++ pushFresh .producer 7 2 ++ steps .producer 7 ++
    pushFresh .producer 8 3 ++ steps .producer 5 ++ (.second, .pop) :: steps .second 6

def inTime : List (Worker × Action ℕ) := lagging ++ steps .producer 1 ++ steps .first 7

theorem inTime_tailOk : ((exec step (init 1) inTime).map fun s =>
      (s.shared.queue.mem.tail.ptr, s.shared.destructed, s.shared.queue.mem.nodes)) =
        some (3, [2], [3]) ∧
    Throughout (fun s => TailOk s.shared) step (init 1) inTime :=
  ⟨by decide +kernel, (tailOk_iff_never_overtakes 1 one_ne_zero inTime).mpr (by decide +kernel)⟩

/-- The first consumer goes on at once: it compares `_head` with the `_tail` that it loaded
before the first push, and frees the node that `_tail` is at. -/
def overtaking : List (Worker × Action ℕ) := lagging ++ steps .first 7

theorem overtaking_frees_tail : ∃ s, exec step (init 1) overtaking = some s ∧
    s.shared.queue.mem.tail.ptr = 2 ∧ s.shared.destructed = [2] ∧
    s.shared.queue.mem.nodes = [3] ∧ ¬ TailOk s.shared := by
  have h : (exec step (init 1) overtaking).map (fun s =>
      (s.shared.queue.mem.tail.ptr, s.shared.destructed, s.shared.queue.mem.nodes)) =
        some (2, [2], [3]) := by
    decide +kernel
  obtain ⟨s, hrun, hs⟩ := Option.map_eq_some_iff.mp h
  obtain ⟨htail, hfreed, hnodes⟩ : s.shared.queue.mem.tail.ptr = 2 ∧ s.shared.destructed = [2] ∧
      s.shared.queue.mem.nodes = [3] := by simpa using hs
  refine ⟨s, hrun, htail, hfreed, hnodes, fun hok => hok.kept ?_⟩
  rw [htail, hfreed]
  exact List.mem_singleton_self 2

end Runs

end Bugat.LockFree.NoReuse
