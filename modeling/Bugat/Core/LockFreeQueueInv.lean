import Mathlib
import Bugat.Core.LockFreeQueue

/-!
# What the threads of a LockFreeQueue know

An assertion for each program counter says what its local variables still tell about the
shared state. A loaded word tells something only as long as it has not been moved since;
`Guarantee` lists what a step of one thread leaves to the assertions of the others.
-/

namespace Bugat.LockFree.Queue

open Memory (Good)

variable {α : Type*}

structure Chains where
  chain : List Addr
  free : List Addr

structure Seen.Dated (seen : Seen) (moves : ℕ) : Prop where
  le : seen.moves ≤ moves
  tag : seen.word.tag = seen.moves % maxTag

def Within (moves since : ℕ) : Prop := moves < since + maxTag

instance (moves since : ℕ) : Decidable (Within moves since) := inferInstanceAs (Decidable (_ < _))

/-- Inside the window an equal tag says that the word has not been moved. -/
theorem Seen.Dated.current {seen : Seen} {now : TaggedPtr} {moves : ℕ} (h : seen.Dated moves)
    (htag : now.tag = moves % maxTag) (hwithin : Within moves seen.moves)
    (heq : now = seen.word) : moves = seen.moves := by
  have hmod : moves % maxTag = seen.moves % maxTag := by rw [← htag, heq, h.tag]
  have hle := h.le
  simp only [Within, maxTag] at hmod hwithin
  omega

def Own (m : Memory (Item α)) (g : Chains) (a : Addr) : Prop :=
  a ∉ g.chain ++ g.free ∧ a ≠ 0 ∧ a ∈ m.allocated

structure Constructed (u : Shared α) (g : Chains) (x : Item α) (node : Addr) : Prop where
  own : Own u.mem g node
  next : u.mem.next node = nullHandle
  value : u.mem.value node = some x

structure SeenTail (u : Shared α) (tail : Seen) : Prop where
  dated : tail.Dated u.tailMoves
  eq : u.tailMoves = tail.moves → u.mem.tail = tail.word

structure SeenHead (u : Shared α) (head : Seen) : Prop where
  dated : head.Dated u.popped.length
  eq : u.popped.length = head.moves → u.mem.head = head.word

structure SeenTop (u : Shared α) (g : Chains) (top : Seen) : Prop where
  dated : top.Dated u.topMoves
  mem : u.topMoves = top.moves → top.word.ptr ∈ g.free

def Follows (u : Shared α) (tail : Seen) (next : TaggedPtr) : Prop :=
  u.tailMoves = tail.moves → next ≠ nullHandle → u.mem.next tail.word.ptr = next

def Leads (u : Shared α) (head : Seen) (next : TaggedPtr) : Prop :=
  u.popped.length = head.moves → next ≠ nullHandle → u.mem.next head.word.ptr = next

def SawEmpty (u : Shared α) (since : ℕ) (head : Seen) (next : TaggedPtr) : Prop :=
  u.popped.length = head.moves → next = nullHandle → since ≤ u.emptyAt

def Assert (g : Chains) (u : Shared α) : Pc α → Prop
  | .idle => True
  | .allocTop _ => True
  | .allocNew _ => True
  | .allocNext _ top => SeenTop u g top
  | .allocCas _ top next => SeenTop u g top ∧
      (u.topMoves = top.moves → (u.mem.next top.word.ptr).ptr = next)
  | .construct _ node => Own u.mem g node
  | .loadTail x node => Constructed u g x node
  | .loadNext x node tail => Constructed u g x node ∧ SeenTail u tail
  | .checkTail x node tail next => Constructed u g x node ∧ SeenTail u tail ∧ Follows u tail next
  | .link x node tail => Constructed u g x node ∧ SeenTail u tail
  | .help x node tail next => Constructed u g x node ∧ SeenTail u tail ∧ Follows u tail next ∧
      next ≠ nullHandle
  | .swing _ node tail => SeenTail u tail ∧ Follows u tail ⟨node, tail.word.tag⟩ ∧ node ≠ 0
  | .addSize _ => True
  | .popTail since => since ≤ u.clock
  | .popHead since tail => since ≤ u.clock ∧ SeenTail u tail
  | .popNext since tail head => since ≤ u.clock ∧ SeenTail u tail ∧ SeenHead u head
  | .popCheck since tail head next => since ≤ u.clock ∧ SeenTail u tail ∧ SeenHead u head ∧
      (head.word.ptr = tail.word.ptr → Follows u tail next) ∧ Leads u head next ∧
      SawEmpty u since head next
  | .popHelp since tail next => since ≤ u.clock ∧ SeenTail u tail ∧ Follows u tail next ∧
      next ≠ nullHandle
  | .popValue since head next => since ≤ u.clock ∧ SeenHead u head ∧ Leads u head next ∧
      next ≠ nullHandle
  | .popSwap since head next value => since ≤ u.clock ∧ SeenHead u head ∧ Leads u head next ∧
      next ≠ nullHandle ∧ (u.popped.length = head.moves → u.mem.value next.ptr = value)
  | .subSize _ node => Own u.mem g node
  | .destroy _ node => Own u.mem g node
  | .freeTop _ node => Own u.mem g node
  | .freeWrite _ node _ => Own u.mem g node
  | .freeCas _ node top => Own u.mem g node ∧ (u.mem.next node).ptr = top.ptr

def Pc.owned : Pc α → Option Addr
  | .construct _ node | .loadTail _ node | .loadNext _ node _ | .checkTail _ node _ _
  | .link _ node _ | .help _ node _ _ => some node
  | .subSize _ node | .destroy _ node | .freeTop _ node | .freeWrite _ node _
  | .freeCas _ node _ => some node
  | _ => none

def Apart (pc pc' : Pc α) : Prop := ∀ a, pc.owned = some a → pc'.owned ≠ some a

theorem Apart.symm {pc pc' : Pc α} (h : Apart pc pc') : Apart pc' pc :=
  fun a ha ha' => h a ha' ha

structure Inv (g : Chains) (u : Shared α) : Prop where
  good : Good u.mem g.chain g.free
  headTag : u.mem.head.tag = u.popped.length % maxTag
  tailTag : u.mem.tail.tag = u.tailMoves % maxTag
  topTag : u.mem.top.tag = u.topMoves % maxTag
  /-- Every linked value has been popped or stands in the queue, in order. -/
  order : u.popped ++ g.chain.tail.map u.mem.value = u.linked.map some
  /-- Each failed `Pop` was called before the queue was last empty. -/
  misses : ∀ m ∈ u.misses, m.since ≤ m.emptyAt

structure Timely (u : Shared α) : Prop where
  now : u.mem.content = [] → u.emptyAt = u.clock
  le : u.emptyAt ≤ u.clock

structure Guarantee (mine : Option Addr) (g : Chains) (u : Shared α) (g' : Chains)
    (u' : Shared α) : Prop where
  clock : u.clock ≤ u'.clock
  emptyAt : u.emptyAt ≤ u'.emptyAt
  head_le : u.popped.length ≤ u'.popped.length
  head : u'.popped.length = u.popped.length → u'.mem.head = u.mem.head
  tail_le : u.tailMoves ≤ u'.tailMoves
  tail : u'.tailMoves = u.tailMoves → u'.mem.tail = u.mem.tail
  top_le : u.topMoves ≤ u'.topMoves
  top : u'.topMoves = u.topMoves →
    ∀ a ∈ g.free, a ∈ g'.free ∧ u'.mem.next a = u.mem.next a
  next : ∀ a ∈ g.chain, u.mem.next a ≠ nullHandle → u'.mem.next a = u.mem.next a
  value : ∀ a ∈ g.chain, u'.mem.value a = u.mem.value a
  foreign : ∀ a, Own u.mem g a → mine ≠ some a → Own u'.mem g' a ∧
    u'.mem.next a = u.mem.next a ∧ u'.mem.value a = u.mem.value a

variable {u u' : Shared α} {g g' : Chains} {mine : Option Addr} {x : Item α} {node : Addr}
  {tail head top : Seen} {next : TaggedPtr}

namespace Guarantee

theorem unmoved {seen : Seen} {moves moves' : ℕ} (hs : seen.Dated moves) (hle : moves ≤ moves')
    (heq : moves' = seen.moves) : moves = seen.moves :=
  le_antisymm (hle.trans heq.le) hs.le

theorem weaken (h : Guarantee none g u g' u') : Guarantee mine g u g' u' :=
  { h with foreign := fun a ha _ => h.foreign a ha nofun }

theorem seenTail (h : Guarantee mine g u g' u') (hs : SeenTail u tail) : SeenTail u' tail := by
  refine ⟨⟨hs.dated.le.trans h.tail_le, hs.dated.tag⟩, fun heq => ?_⟩
  have hsame := unmoved hs.dated h.tail_le heq
  rw [h.tail (heq.trans hsame.symm)]
  exact hs.eq hsame

theorem seenHead (h : Guarantee mine g u g' u') (hs : SeenHead u head) : SeenHead u' head := by
  refine ⟨⟨hs.dated.le.trans h.head_le, hs.dated.tag⟩, fun heq => ?_⟩
  have hsame := unmoved hs.dated h.head_le heq
  rw [h.head (heq.trans hsame.symm)]
  exact hs.eq hsame

theorem seenTop (h : Guarantee mine g u g' u') (hs : SeenTop u g top) : SeenTop u' g' top := by
  refine ⟨⟨hs.dated.le.trans h.top_le, hs.dated.tag⟩, fun heq => ?_⟩
  have hsame := unmoved hs.dated h.top_le heq
  exact (h.top (heq.trans hsame.symm) _ (hs.mem hsame)).1

theorem top_next (h : Guarantee mine g u g' u') (hs : SeenTop u g top) {a : Addr}
    (hnext : u.topMoves = top.moves → (u.mem.next top.word.ptr).ptr = a)
    (heq : u'.topMoves = top.moves) : (u'.mem.next top.word.ptr).ptr = a := by
  have hsame := unmoved hs.dated h.top_le heq
  rw [(h.top (heq.trans hsame.symm) _ (hs.mem hsame)).2]
  exact hnext hsame

theorem follows (h : Guarantee mine g u g' u') (hinv : Inv g u) (hs : SeenTail u tail)
    (hf : Follows u tail next) : Follows u' tail next := by
  intro heq hne
  have hsame := unmoved hs.dated h.tail_le heq
  have hmem : tail.word.ptr ∈ g.chain := hs.eq hsame ▸ hinv.good.tail
  have hnext := hf hsame hne
  rw [h.next _ hmem (hnext ▸ hne), hnext]

theorem leads (h : Guarantee mine g u g' u') (hinv : Inv g u) (hs : SeenHead u head)
    (hl : Leads u head next) : Leads u' head next := by
  intro heq hne
  have hsame := unmoved hs.dated h.head_le heq
  have hmem : head.word.ptr ∈ g.chain := hs.eq hsame ▸ hinv.good.head_mem
  have hnext := hl hsame hne
  rw [h.next _ hmem (hnext ▸ hne), hnext]

theorem sawEmpty (h : Guarantee mine g u g' u') (hs : SeenHead u head) {since : ℕ}
    (he : SawEmpty u since head next) : SawEmpty u' since head next := fun heq hnull =>
  (he (unmoved hs.dated h.head_le heq) hnull).trans h.emptyAt

theorem seenValue (h : Guarantee mine g u g' u') (hinv : Inv g u) (hs : SeenHead u head)
    (hl : Leads u head next) (hne : next ≠ nullHandle) {value : Option (Item α)}
    (hv : u.popped.length = head.moves → u.mem.value next.ptr = value)
    (heq : u'.popped.length = head.moves) : u'.mem.value next.ptr = value := by
  have hsame := unmoved hs.dated h.head_le heq
  have hnext := hl hsame hne
  rw [← hs.eq hsame] at hnext
  have hmem : next.ptr ∈ g.chain := by
    have := hinv.good.next_mem hinv.good.head_mem (hnext ▸ hne)
    rwa [hnext] at this
  rw [h.value _ hmem]
  exact hv hsame

theorem constructed (h : Guarantee mine g u g' u') (hne : mine ≠ some node)
    (hc : Constructed u g x node) : Constructed u' g' x node := by
  obtain ⟨hown, hnext, hvalue⟩ := h.foreign node hc.own hne
  exact ⟨hown, hnext.trans hc.next, hvalue.trans hc.value⟩

theorem assert (h : Guarantee mine g u g' u') (hinv : Inv g u) {pc : Pc α}
    (hmine : ∀ a, pc.owned = some a → mine ≠ some a) (ha : Assert g u pc) : Assert g' u' pc := by
  cases pc with
  | idle | allocTop x | allocNew x | addSize x => trivial
  | allocNext x top => exact h.seenTop ha
  | allocCas x top a => exact ⟨h.seenTop ha.1, h.top_next ha.1 ha.2⟩
  | construct x node => exact (h.foreign node ha (hmine node rfl)).1
  | loadTail x node => exact h.constructed (hmine node rfl) ha
  | loadNext x node tail => exact ⟨h.constructed (hmine node rfl) ha.1, h.seenTail ha.2⟩
  | checkTail x node tail next =>
    exact ⟨h.constructed (hmine node rfl) ha.1, h.seenTail ha.2.1, h.follows hinv ha.2.1 ha.2.2⟩
  | link x node tail => exact ⟨h.constructed (hmine node rfl) ha.1, h.seenTail ha.2⟩
  | help x node tail next =>
    obtain ⟨hc, hs, hf, hne⟩ := ha
    exact ⟨h.constructed (hmine node rfl) hc, h.seenTail hs, h.follows hinv hs hf, hne⟩
  | swing x node tail => exact ⟨h.seenTail ha.1, h.follows hinv ha.1 ha.2.1, ha.2.2⟩
  | popTail since => exact Nat.le_trans ha h.clock
  | popHead since tail => exact ⟨ha.1.trans h.clock, h.seenTail ha.2⟩
  | popNext since tail head =>
    exact ⟨ha.1.trans h.clock, h.seenTail ha.2.1, h.seenHead ha.2.2⟩
  | popCheck since tail head next =>
    obtain ⟨hc, ht, hh, hf, hl, he⟩ := ha
    exact ⟨hc.trans h.clock, h.seenTail ht, h.seenHead hh,
      fun heq => h.follows hinv ht (hf heq), h.leads hinv hh hl, h.sawEmpty hh he⟩
  | popHelp since tail next =>
    obtain ⟨hc, ht, hf, hne⟩ := ha
    exact ⟨hc.trans h.clock, h.seenTail ht, h.follows hinv ht hf, hne⟩
  | popValue since head next =>
    obtain ⟨hc, hh, hl, hne⟩ := ha
    exact ⟨hc.trans h.clock, h.seenHead hh, h.leads hinv hh hl, hne⟩
  | popSwap since head next value =>
    obtain ⟨hc, hh, hl, hne, hv⟩ := ha
    exact ⟨hc.trans h.clock, h.seenHead hh, h.leads hinv hh hl, hne,
      h.seenValue hinv hh hl hne hv⟩
  | subSize value node | destroy value node | freeTop value node | freeWrite value node top =>
    exact (h.foreign node ha (hmine node rfl)).1
  | freeCas value node top =>
    obtain ⟨hown, hnext, -⟩ := h.foreign node ha.1 (hmine node rfl)
    exact ⟨hown, by rw [hnext]; exact ha.2⟩

end Guarantee

end Bugat.LockFree.Queue
