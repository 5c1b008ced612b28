import Mathlib
import Bugat.Core.LockFreeQueueHistory
import Bugat.Core.LockFreeQueueInv

/-!
# The steps of a LockFreeQueue

A step whose successful exchanges meet `Safe` keeps the two chains in order, establishes
the assertion of the next program counter and leaves the other threads what they know.
-/

namespace Bugat.LockFree.Queue

open Memory (Good)

variable {α : Type*}

/-- What a step must meet: a node is linked only behind a node of the queue, the node of
`_tail` is not popped, and a word that is equal to the loaded one has been moved less often
in between than there are tags. -/
def Safe (u : Shared α) : Pc α → Action α → Prop
  | .allocCas _ top _, .go false => u.mem.top = top.word → Within u.topMoves top.moves
  | .link _ _ tail, .go false =>
    u.mem.next tail.word.ptr = nullHandle → tail.word.ptr ∈ u.mem.nodes
  | .help _ _ tail _, .go false => u.mem.tail = tail.word → Within u.tailMoves tail.moves
  | .swing _ _ tail, .go false => u.mem.tail = tail.word → Within u.tailMoves tail.moves
  | .popHelp _ tail _, .go false => u.mem.tail = tail.word → Within u.tailMoves tail.moves
  | .popCheck _ tail head next, .go _ => u.mem.head = head.word →
      head.word.ptr = tail.word.ptr → next = nullHandle → Within u.popped.length head.moves
  | .popSwap _ head _ _, .go false => u.mem.head = head.word →
      Within u.popped.length head.moves ∧ u.mem.tail.ptr ≠ head.word.ptr
  | _, _ => True

variable {u u' : Shared α} {g g' : Chains} {mine : Option Addr} {x : Item α} {a node : Addr}
  {tail head top : Seen} {next : TaggedPtr} {pc pc' : Pc α} {spurious : Bool}

structure Advanced (g : Chains) (u : Shared α) (pc : Pc α) (g' : Chains) (u' : Shared α)
    (pc' : Pc α) : Prop where
  inv : Inv g' u'
  assert : Assert g' u' pc'
  guarantee : Guarantee pc.owned g u g' u'
  owned : ∀ a, pc'.owned = some a → pc.owned = some a ∨ ¬ Own u.mem g a

structure Same (u u' : Shared α) : Prop where
  next : u'.mem.next = u.mem.next
  value : u'.mem.value = u.mem.value
  head : u'.mem.head = u.mem.head
  tail : u'.mem.tail = u.mem.tail
  top : u'.mem.top = u.mem.top
  allocated : u'.mem.allocated = u.mem.allocated
  tailMoves : u'.tailMoves = u.tailMoves
  topMoves : u'.topMoves = u.topMoves
  linked : u'.linked = u.linked
  popped : u'.popped = u.popped
  misses : ∀ m ∈ u'.misses, m ∈ u.misses ∨ m.since ≤ m.emptyAt
  clock : u.clock ≤ u'.clock
  emptyAt : u.emptyAt ≤ u'.emptyAt

theorem Same.refl (u : Shared α) : Same u u :=
  ⟨rfl, rfl, rfl, rfl, rfl, rfl, rfl, rfl, rfl, rfl, fun _ => .inl, le_rfl, le_rfl⟩

theorem same_addSize (u : Shared α) (n : ℤ) (pushed : List (Item α)) :
    Same u { u with mem := u.mem.addSize n, pushed := pushed } :=
  ⟨rfl, rfl, rfl, rfl, rfl, rfl, rfl, rfl, rfl, rfl, fun _ => .inl, le_rfl, le_rfl⟩

theorem Same.inv (h : Same u u') (hinv : Inv g u) : Inv g u' where
  good := hinv.good.congr h.head h.tail h.top (fun a _ => congrFun h.next a)
    (fun a ha => h.allocated ▸ ha) (h.allocated ▸ hinv.good.allocated)
  headTag := by rw [h.head, h.popped, hinv.headTag]
  tailTag := by rw [h.tail, h.tailMoves, hinv.tailTag]
  topTag := by rw [h.top, h.topMoves, hinv.topTag]
  order := by rw [h.popped, h.value, h.linked, hinv.order]
  misses m hm := (h.misses m hm).elim (hinv.misses m) id

theorem Same.guarantee (h : Same u u') : Guarantee mine g u g u' where
  clock := h.clock
  emptyAt := h.emptyAt
  head_le := by rw [h.popped]
  head _ := h.head
  tail_le := h.tailMoves.ge
  tail _ := h.tail
  top_le := h.topMoves.ge
  top _ a ha := ⟨ha, congrFun h.next a⟩
  next a _ _ := congrFun h.next a
  value a _ := congrFun h.value a
  foreign a ha _ := ⟨⟨ha.1, ha.2.1, h.allocated ▸ ha.2.2⟩, congrFun h.next a, congrFun h.value a⟩

theorem owned_of_none (h : pc'.owned = none) :
    ∀ a, pc'.owned = some a → pc.owned = some a ∨ ¬ Own u.mem g a := by
  intro a ha
  rw [h] at ha
  exact absurd ha.symm (Option.some_ne_none a)

theorem Same.advanced (h : Same u u') (hinv : Inv g u) (ha : Assert g u' pc')
    (howned : pc'.owned = none ∨ pc'.owned = pc.owned) : Advanced g u pc g u' pc' where
  inv := h.inv hinv
  assert := ha
  guarantee := h.guarantee
  owned := by
    rcases howned with hnone | hsame
    · exact owned_of_none hnone
    · exact fun a h => .inl (hsame ▸ h)

structure Writes (a : Addr) (m m' : Memory (Item α)) : Prop where
  next : ∀ b, b ≠ a → m'.next b = m.next b
  value : ∀ b, b ≠ a → m'.value b = m.value b
  head : m'.head = m.head
  tail : m'.tail = m.tail
  top : m'.top = m.top
  allocated : ∀ b ∈ m.allocated, b ∈ m'.allocated
  zero : 0 ∉ m'.allocated

variable {m : Memory (Item α)}

theorem Writes.inv (h : Writes a u.mem m) (hinv : Inv g u) (ha : a ∉ g.chain ++ g.free) :
    Inv g { u with mem := m } where
  good := hinv.good.congr h.head h.tail h.top
    (fun b hb => h.next b (ne_of_mem_of_not_mem hb ha)) h.allocated h.zero
  headTag := by rw [h.head, hinv.headTag]
  tailTag := by rw [h.tail, hinv.tailTag]
  topTag := by rw [h.top, hinv.topTag]
  order := by
    rw [← hinv.order]
    refine congrArg _ (List.map_congr_left fun b hb => h.value b ?_)
    exact ne_of_mem_of_not_mem (List.mem_append_left _ (List.mem_of_mem_tail hb)) ha
  misses := hinv.misses

theorem Writes.guarantee (h : Writes a u.mem m) (ha : a ∉ g.chain ++ g.free)
    (hforeign : ∀ b, Own u.mem g b → mine ≠ some b → b ≠ a) :
    Guarantee mine g u g { u with mem := m } where
  clock := le_rfl
  emptyAt := le_rfl
  head_le := le_rfl
  head _ := h.head
  tail_le := le_rfl
  tail _ := h.tail
  top_le := le_rfl
  top _ b hb := ⟨hb, h.next b (ne_of_mem_of_not_mem (List.mem_append_right _ hb) ha)⟩
  next b hb _ := h.next b (ne_of_mem_of_not_mem (List.mem_append_left _ hb) ha)
  value b hb := h.value b (ne_of_mem_of_not_mem (List.mem_append_left _ hb) ha)
  foreign b hb hmine := ⟨⟨hb.1, hb.2.1, h.allocated b hb.2.2⟩, h.next b (hforeign b hb hmine),
    h.value b (hforeign b hb hmine)⟩

theorem Writes.advanced (h : Writes node u.mem m) (hinv : Inv g u) (hown : Own u.mem g node)
    (hpc : pc.owned = some node) (hpc' : pc'.owned = some node)
    (ha : Assert g { u with mem := m } pc') : Advanced g u pc g { u with mem := m } pc' where
  inv := h.inv hinv hown.1
  assert := ha
  guarantee := h.guarantee hown.1 fun b _ hb heq => hb (by rw [hpc, heq])
  owned b hb := .inl (by rw [hpc, ← hpc', hb])

theorem writes_setNext (m : Memory (Item α)) (a : Addr) (p : TaggedPtr)
    (hzero : 0 ∉ m.allocated) : Writes a m (m.setNext a p) :=
  ⟨fun _ hb => Memory.setNext_of_ne hb, fun _ _ => rfl, rfl, rfl, rfl, fun _ hb => hb, hzero⟩

theorem writes_setValue (m : Memory (Item α)) (a : Addr) (v : Option (Item α))
    (hzero : 0 ∉ m.allocated) : Writes a m (m.setValue a v) :=
  ⟨fun _ _ => rfl, fun _ hb => Memory.setValue_of_ne hb, rfl, rfl, rfl, fun _ hb => hb, hzero⟩

theorem writes_constructNode (m : Memory (Item α)) (a : Addr) (x : Item α)
    (hzero : 0 ∉ m.allocated) : Writes a m (m.constructNode a x) :=
  ⟨fun _ hb => Memory.setNext_of_ne hb, fun _ hb => Memory.setValue_of_ne hb, rfl, rfl, rfl,
    fun _ hb => hb, hzero⟩

theorem writes_allocate (m : Memory (Item α)) (a : Addr) (hne : a ≠ 0)
    (hzero : 0 ∉ m.allocated) : Writes a m (m.allocate a) where
  next _ hb := Function.update_of_ne hb _ _
  value _ hb := Function.update_of_ne hb _ _
  head := rfl
  tail := rfl
  top := rfl
  allocated _ hb := List.mem_cons_of_mem a hb
  zero hmem := (List.mem_cons.mp hmem).elim (fun heq => hne heq.symm) hzero

theorem nextTag_mod {p : TaggedPtr} {n : ℕ} (h : p.tag = n % maxTag) :
    p.nextTag = (n + 1) % maxTag := by
  simp only [TaggedPtr.nextTag, maxTag] at h ⊢
  omega

section Exchanges

variable (hinv : Inv g u)
include hinv

theorem takeTop_inv (mine : Option Addr) {rest : List Addr} (hfree : g.free = a :: rest) :
    Inv ⟨g.chain, rest⟩ { u with
      mem := u.mem.takeTop (u.mem.next a).ptr, topMoves := u.topMoves + 1 } ∧
    Guarantee mine g u ⟨g.chain, rest⟩ { u with
      mem := u.mem.takeTop (u.mem.next a).ptr, topMoves := u.topMoves + 1 } := by
  refine ⟨⟨hinv.good.takeTop hfree, hinv.headTag, hinv.tailTag, nextTag_mod hinv.topTag,
    hinv.order, hinv.misses⟩, ?_⟩
  exact {
    clock := le_rfl
    emptyAt := le_rfl
    head_le := le_rfl
    head _ := rfl
    tail_le := le_rfl
    tail _ := rfl
    top_le := Nat.le_succ _
    top heq := absurd heq (Nat.succ_ne_self _)
    next _ _ _ := rfl
    value _ _ := rfl
    foreign b hb _ := by
      obtain ⟨hnot, hne, halloc⟩ := hb
      refine ⟨⟨fun hmem => hnot ?_, hne, halloc⟩, rfl, rfl⟩
      rw [hfree]
      rcases List.mem_append.mp hmem with hmem | hmem
      · exact List.mem_append_left _ hmem
      · exact List.mem_append_right _ (List.mem_cons_of_mem a hmem) }

theorem giveTop_inv (hown : Own u.mem g a) (hnext : (u.mem.next a).ptr = u.mem.top.ptr)
    (returned : List (Option (Item α))) :
    Inv ⟨g.chain, a :: g.free⟩ { u with mem := u.mem.giveTop a, returned := returned } ∧
    Guarantee (some a) g u ⟨g.chain, a :: g.free⟩
      { u with mem := u.mem.giveTop a, returned := returned } := by
  refine ⟨⟨hinv.good.giveTop hown.2.1 hown.1 hown.2.2 hnext, hinv.headTag, hinv.tailTag,
    hinv.topTag, hinv.order, hinv.misses⟩, ?_⟩
  exact {
    clock := le_rfl
    emptyAt := le_rfl
    head_le := le_rfl
    head _ := rfl
    tail_le := le_rfl
    tail _ := rfl
    top_le := le_rfl
    top _ b hb := ⟨List.mem_cons_of_mem a hb, rfl⟩
    next _ _ _ := rfl
    value _ _ := rfl
    foreign b hb hmine := by
      obtain ⟨hnot, hne, halloc⟩ := hb
      refine ⟨⟨fun hmem => ?_, hne, halloc⟩, rfl, rfl⟩
      rcases List.mem_append.mp hmem with hmem | hmem
      · exact hnot (List.mem_append_left _ hmem)
      · rcases List.mem_cons.mp hmem with rfl | hmem
        · exact hmine rfl
        · exact hnot (List.mem_append_right _ hmem) }

theorem link_inv {t : Addr} (tag : ℕ) (ht : t ∈ g.chain) (hnull : u.mem.next t = nullHandle)
    (hnode : Constructed u g x node) :
    Inv ⟨g.chain ++ [node], g.free⟩ { u with
      mem := u.mem.setNext t ⟨node, tag⟩, linked := u.linked ++ [x] } ∧
    Guarantee (some node) g u ⟨g.chain ++ [node], g.free⟩ { u with
      mem := u.mem.setNext t ⟨node, tag⟩, linked := u.linked ++ [x] } := by
  obtain ⟨hnot, hne, halloc⟩ := hnode.own
  have hgood : Good (u.mem.setNext t ⟨node, tag⟩) (g.chain ++ [node]) g.free :=
    hinv.good.linkNode ht hnull hne hnot halloc hnode.next
  refine ⟨⟨hgood, hinv.headTag, hinv.tailTag, hinv.topTag, ?_, hinv.misses⟩, ?_⟩
  · change u.popped ++ (g.chain ++ [node]).tail.map u.mem.value = (u.linked ++ [x]).map some
    rw [List.tail_append_of_ne_nil hinv.good.chain_ne_nil, List.map_append, List.map_append,
      ← hinv.order, List.append_assoc, List.map_singleton, List.map_singleton, hnode.value]
  · exact {
      clock := le_rfl
      emptyAt := le_rfl
      head_le := le_rfl
      head _ := rfl
      tail_le := le_rfl
      tail _ := rfl
      top_le := le_rfl
      top _ b hb :=
        ⟨hb, Memory.setNext_of_ne fun heq => hinv.good.apart t ht (heq ▸ hb)⟩
      next b _ hb := Memory.setNext_of_ne fun heq => hb (heq ▸ hnull)
      value _ _ := rfl
      foreign b hb hmine := by
        have hbt : b ≠ t := fun heq => hb.1 (List.mem_append_left _ (heq ▸ ht))
        have hbn : b ≠ node := fun heq => hmine (heq ▸ rfl)
        refine ⟨⟨fun hmem => hb.1 ?_, hb.2⟩, Memory.setNext_of_ne hbt, rfl⟩
        simp only [List.append_assoc, List.mem_append, List.mem_singleton] at hmem ⊢
        rcases hmem with hmem | hmem | hmem
        · exact .inl hmem
        · exact absurd hmem hbn
        · exact .inr hmem }

theorem moveHead_inv (mine : Option Addr) {b : Addr} {rest : List Addr}
    (hchain : g.chain = a :: b :: rest) (htail : u.mem.tail.ptr ≠ a) :
    Inv ⟨b :: rest, g.free⟩ { u with
      mem := u.mem.moveHead b, popped := u.popped ++ [u.mem.value b] } ∧
    Guarantee mine g u ⟨b :: rest, g.free⟩ { u with
      mem := u.mem.moveHead b, popped := u.popped ++ [u.mem.value b] } ∧
    Own (u.mem.moveHead b) ⟨b :: rest, g.free⟩ a := by
  have hnodup := hinv.good.linked.nodup
  have hmem : a ∈ g.chain := by simp [hchain]
  have hsub : ∀ c ∈ (b :: rest) ++ g.free, c ∈ g.chain ++ g.free := fun c hc => by
    rw [hchain, List.cons_append]
    exact List.mem_cons_of_mem a hc
  refine ⟨⟨hinv.good.moveHead hchain htail, ?_, hinv.tailTag, hinv.topTag, ?_, hinv.misses⟩,
    ?_, ?_⟩
  · change u.mem.head.nextTag = _
    rw [List.length_append]
    exact nextTag_mod hinv.headTag
  · change (u.popped ++ [u.mem.value b]) ++ rest.map u.mem.value = u.linked.map some
    rw [← hinv.order, hchain, List.append_assoc]
    rfl
  · exact {
      clock := le_rfl
      emptyAt := le_rfl
      head_le := by simp
      head heq := by simp at heq
      tail_le := le_rfl
      tail _ := rfl
      top_le := le_rfl
      top _ c hc := ⟨hc, rfl⟩
      next _ _ _ := rfl
      value _ _ := rfl
      foreign c hc _ := ⟨⟨fun hmem => hc.1 (hsub c hmem), hc.2⟩, rfl, rfl⟩ }
  · rw [hchain] at hnodup
    refine ⟨fun hc => ?_, hinv.good.ne_zero hmem, hinv.good.chain_allocated a hmem⟩
    rcases List.mem_append.mp hc with hc | hc
    · exact (List.nodup_cons.mp hnodup).1 hc
    · exact hinv.good.apart a hmem hc

end Exchanges

section Locals

variable (hinv : Inv g u)
include hinv

theorem seeTail_spec : SeenTail u u.seeTail := ⟨⟨le_rfl, hinv.tailTag⟩, fun _ => rfl⟩

theorem seeHead_spec : SeenHead u u.seeHead := ⟨⟨le_rfl, hinv.headTag⟩, fun _ => rfl⟩

theorem seeTop_spec (hne : u.mem.top.ptr ≠ 0) : SeenTop u g u.seeTop := by
  obtain ⟨rest, hfree⟩ := hinv.good.top_cons hne
  refine ⟨⟨le_rfl, hinv.topTag⟩, fun _ => ?_⟩
  rw [hfree]
  exact List.mem_cons_self

theorem allocWith_advanced : Advanced g u pc g u (u.allocWith x) := by
  rw [Shared.allocWith]
  split
  · exact (Same.refl u).advanced hinv trivial (.inl rfl)
  · rename_i hne
    exact (Same.refl u).advanced hinv (seeTop_spec hinv hne) (.inl rfl)

theorem follows_mem (hs : SeenTail u tail) (hf : Follows u tail next) (hne : next ≠ nullHandle)
    (hwithin : u.mem.tail = tail.word → Within u.tailMoves tail.moves)
    (heq : u.mem.tail = tail.word) : next.ptr ∈ g.chain := by
  have hnext := hf (hs.dated.current hinv.tailTag (hwithin heq) heq) hne
  rw [← heq] at hnext
  rw [← hnext]
  exact hinv.good.next_mem hinv.good.tail (hnext ▸ hne)

theorem swingTail_inv (spurious : Bool) (hs : SeenTail u tail) (hf : Follows u tail next)
    (hne : next ≠ nullHandle)
    (hwithin : spurious = false → u.mem.tail = tail.word → Within u.tailMoves tail.moves) :
    Inv g (u.swingTail tail next.ptr spurious) ∧
      Guarantee none g u g (u.swingTail tail next.ptr spurious) := by
  rw [Shared.swingTail]
  split
  · rename_i hok
    have hmem := follows_mem hinv hs hf hne (hwithin hok.2) hok.1
    refine ⟨⟨hinv.good.moveTail hmem, hinv.headTag, nextTag_mod hinv.tailTag, hinv.topTag,
      hinv.order, hinv.misses⟩, ?_⟩
    exact {
      clock := le_rfl
      emptyAt := le_rfl
      head_le := le_rfl
      head _ := rfl
      tail_le := Nat.le_succ _
      tail heq := absurd heq (Nat.succ_ne_self _)
      top_le := le_rfl
      top _ a ha := ⟨ha, rfl⟩
      next _ _ _ := rfl
      value _ _ := rfl
      foreign a ha _ := ⟨ha, rfl, rfl⟩ }
  · exact ⟨hinv, (Same.refl u).guarantee⟩

end Locals

theorem advancePush_sound (hinv : Inv g u) (ha : Assert g u pc)
    (hsafe : Safe u pc (.go spurious)) (hs : advancePush u spurious pc = some (u', pc')) :
    ∃ g', Advanced g u pc g' u' pc' := by
  cases pc with
  | allocTop x =>
    obtain ⟨rfl, rfl⟩ := Prod.mk.inj (Option.some.inj hs)
    exact ⟨g, allocWith_advanced hinv⟩
  | allocNext x top =>
    obtain ⟨rfl, rfl⟩ := Prod.mk.inj (Option.some.inj hs)
    exact ⟨g, (Same.refl u).advanced hinv ⟨ha, fun _ => rfl⟩ (.inl rfl)⟩
  | allocCas x top next =>
    rw [advancePush] at hs
    split at hs
    · rename_i hok
      obtain ⟨rfl, rfl⟩ := Prod.mk.inj (Option.some.inj hs)
      obtain ⟨heq, rfl⟩ := hok
      obtain ⟨hseen, hnext⟩ := ha
      have hsame := hseen.dated.current hinv.topTag (hsafe heq) heq
      have hmem := hseen.mem hsame
      obtain ⟨rest, hfree⟩ := hinv.good.top_cons
        (heq ▸ fun h0 => hinv.good.allocated (h0 ▸ hinv.good.free_allocated _ hmem))
      rw [← hnext hsame, ← heq]
      rw [← heq] at hmem
      obtain ⟨hinv', hg⟩ := takeTop_inv hinv none hfree
      refine ⟨_, hinv', ⟨fun hc => ?_, ?_, hinv.good.free_allocated _ hmem⟩, hg, fun a h => ?_⟩
      · rcases List.mem_append.mp hc with hc | hc
        · exact hinv.good.apart _ hc hmem
        · have hnodup := hinv.good.listed.nodup
          rw [hfree] at hnodup
          exact (List.nodup_cons.mp hnodup).1 hc
      · exact fun h0 => hinv.good.allocated (h0 ▸ hinv.good.free_allocated _ hmem)
      · obtain rfl := Option.some.inj h
        exact .inr fun hown => hown.1 (List.mem_append_right _ hmem)
    · obtain ⟨rfl, rfl⟩ := Prod.mk.inj (Option.some.inj hs)
      exact ⟨g, allocWith_advanced hinv⟩
  | construct x node =>
    obtain ⟨rfl, rfl⟩ := Prod.mk.inj (Option.some.inj hs)
    have hown : Own u.mem g node := ha
    refine ⟨g, (writes_constructNode u.mem node x hinv.good.allocated).advanced hinv hown rfl rfl
      ⟨hown, Memory.setNext_self, Memory.setValue_self⟩⟩
  | loadTail x node =>
    obtain ⟨rfl, rfl⟩ := Prod.mk.inj (Option.some.inj hs)
    exact ⟨g, (Same.refl u).advanced hinv ⟨ha, seeTail_spec hinv⟩ (.inr rfl)⟩
  | loadNext x node tail =>
    obtain ⟨rfl, rfl⟩ := Prod.mk.inj (Option.some.inj hs)
    exact ⟨g, (Same.refl u).advanced hinv ⟨ha.1, ha.2, fun _ _ => rfl⟩ (.inr rfl)⟩
  | checkTail x node tail next =>
    obtain ⟨rfl, rfl⟩ := Prod.mk.inj (Option.some.inj hs)
    obtain ⟨hnode, hseen, hf⟩ := ha
    refine ⟨g, (Same.refl u).advanced hinv ?_ (.inr ?_)⟩
    · split
      · split
        · exact ⟨hnode, hseen⟩
        · rename_i hne
          exact ⟨hnode, hseen, hf, hne⟩
      · exact hnode
    · split
      · split <;> rfl
      · rfl
  | link x node tail =>
    rw [advancePush] at hs
    split at hs
    · rename_i hok
      obtain ⟨rfl, rfl⟩ := Prod.mk.inj (Option.some.inj hs)
      obtain ⟨hnull, rfl⟩ := hok
      obtain ⟨hnode, hseen⟩ := ha
      have hmem : tail.word.ptr ∈ g.chain := hinv.good.nodes_eq ▸ hsafe hnull
      obtain ⟨hinv', hg⟩ := link_inv hinv tail.word.tag hmem hnull hnode
      exact ⟨_, hinv', ⟨hg.seenTail hseen, fun _ _ => Memory.setNext_self, hnode.own.2.1⟩, hg,
        owned_of_none rfl⟩
    · obtain ⟨rfl, rfl⟩ := Prod.mk.inj (Option.some.inj hs)
      exact ⟨g, (Same.refl u).advanced hinv ha.1 (.inr rfl)⟩
  | help x node tail next =>
    obtain ⟨rfl, rfl⟩ := Prod.mk.inj (Option.some.inj hs)
    obtain ⟨hnode, hseen, hf, hne⟩ := ha
    obtain ⟨hinv', hg⟩ := swingTail_inv hinv spurious hseen hf hne fun hok => by
      subst hok
      exact hsafe
    exact ⟨g, hinv', hg.constructed (Option.some_ne_none _).symm hnode, hg.weaken,
      fun _ h => .inl h⟩
  | swing x node tail =>
    obtain ⟨rfl, rfl⟩ := Prod.mk.inj (Option.some.inj hs)
    obtain ⟨hseen, hf, hne⟩ := ha
    have hlinked : (⟨node, tail.word.tag⟩ : TaggedPtr) ≠ nullHandle := fun h =>
      hne (congrArg TaggedPtr.ptr h)
    obtain ⟨hinv', hg⟩ := swingTail_inv hinv spurious hseen hf hlinked fun hok => by
      subst hok
      exact hsafe
    exact ⟨g, hinv', trivial, hg, owned_of_none rfl⟩
  | addSize x =>
    obtain ⟨rfl, rfl⟩ := Prod.mk.inj (Option.some.inj hs)
    exact ⟨g, (same_addSize u 1 _).advanced hinv trivial (.inl rfl)⟩
  | _ => exact absurd hs.symm (Option.some_ne_none _)

theorem leads_second (hinv : Inv g u) (hs : SeenHead u head) (hl : Leads u head next)
    (hne : next ≠ nullHandle) (hsame : u.popped.length = head.moves) :
    ∃ rest, g.chain = head.word.ptr :: next.ptr :: rest := by
  have hnext := hl hsame hne
  rw [← hs.eq hsame] at hnext ⊢
  rw [← hnext]
  exact hinv.good.second (hnext ▸ hne)

theorem content_eq_nil (hinv : Inv g u) (hs : SeenHead u head)
    (hsame : u.popped.length = head.moves) (hnull : u.mem.next head.word.ptr = nullHandle) :
    u.mem.content = [] := by
  rw [← hs.eq hsame] at hnull
  rw [hinv.good.content_eq, hinv.good.single hnull]
  rfl

theorem advancePop_sound (hinv : Inv g u) (htimely : Timely u) (ha : Assert g u pc)
    (hsafe : Safe u pc (.go spurious)) (hs : advancePop u spurious pc = some (u', pc')) :
    ∃ g', Advanced g u pc g' u' pc' := by
  cases pc with
  | popTail since =>
    obtain ⟨rfl, rfl⟩ := Prod.mk.inj (Option.some.inj hs)
    exact ⟨g, (Same.refl u).advanced hinv ⟨ha, seeTail_spec hinv⟩ (.inl rfl)⟩
  | popHead since tail =>
    obtain ⟨rfl, rfl⟩ := Prod.mk.inj (Option.some.inj hs)
    exact ⟨g, (Same.refl u).advanced hinv ⟨ha.1, ha.2, seeHead_spec hinv⟩ (.inl rfl)⟩
  | popNext since tail head =>
    obtain ⟨rfl, rfl⟩ := Prod.mk.inj (Option.some.inj hs)
    obtain ⟨hsince, htail, hhead⟩ := ha
    refine ⟨g, (Same.refl u).advanced hinv ⟨hsince, htail, hhead, fun heq _ _ => by rw [heq],
      fun _ _ => rfl, fun hsame hnull => ?_⟩ (.inl rfl)⟩
    rw [htimely.now (content_eq_nil hinv hhead hsame hnull)]
    exact hsince
  | popCheck since tail head next =>
    obtain ⟨hsince, htail, hhead, hf, hl, he⟩ := ha
    rw [advancePop] at hs
    split at hs
    · rename_i hword
      split at hs
      · rename_i heq
        split at hs
        · rename_i hnull
          obtain ⟨rfl, rfl⟩ := Prod.mk.inj (Option.some.inj hs)
          have hmiss := he (hhead.dated.current hinv.headTag (hsafe hword heq hnull) hword)
            hnull
          refine ⟨g, Same.advanced ⟨rfl, rfl, rfl, rfl, rfl, rfl, rfl, rfl, rfl, rfl,
            fun m hm => ?_, le_rfl, le_rfl⟩ hinv trivial (.inl rfl)⟩
          rcases List.mem_append.mp hm with hm | hm
          · exact .inl hm
          · rw [List.mem_singleton.mp hm]
            exact .inr hmiss
        · rename_i hne
          obtain ⟨rfl, rfl⟩ := Prod.mk.inj (Option.some.inj hs)
          exact ⟨g, (Same.refl u).advanced hinv ⟨hsince, htail, hf heq, hne⟩ (.inl rfl)⟩
      · obtain ⟨rfl, rfl⟩ := Prod.mk.inj (Option.some.inj hs)
        refine ⟨g, (Same.refl u).advanced hinv ?_ (.inl ?_)⟩
        · split
          · exact hsince
          · rename_i hne
            exact ⟨hsince, hhead, hl, hne⟩
        · split <;> rfl
    · obtain ⟨rfl, rfl⟩ := Prod.mk.inj (Option.some.inj hs)
      exact ⟨g, (Same.refl u).advanced hinv hsince (.inl rfl)⟩
  | popHelp since tail next =>
    obtain ⟨rfl, rfl⟩ := Prod.mk.inj (Option.some.inj hs)
    obtain ⟨hsince, hseen, hf, hne⟩ := ha
    obtain ⟨hinv', hg⟩ := swingTail_inv hinv spurious hseen hf hne fun hok => by
      subst hok
      exact hsafe
    exact ⟨g, hinv', le_trans hsince hg.clock, hg, owned_of_none rfl⟩
  | popValue since head next =>
    obtain ⟨rfl, rfl⟩ := Prod.mk.inj (Option.some.inj hs)
    obtain ⟨hsince, hhead, hl, hne⟩ := ha
    exact ⟨g, (Same.refl u).advanced hinv ⟨hsince, hhead, hl, hne, fun _ => rfl⟩ (.inl rfl)⟩
  | popSwap since head next value =>
    obtain ⟨hsince, hhead, hl, hne, hv⟩ := ha
    rw [advancePop] at hs
    split at hs
    · rename_i hok
      obtain ⟨rfl, rfl⟩ := Prod.mk.inj (Option.some.inj hs)
      obtain ⟨heq, rfl⟩ := hok
      obtain ⟨hwithin, htail⟩ := hsafe heq
      have hsame := hhead.dated.current hinv.headTag hwithin heq
      obtain ⟨rest, hchain⟩ := leads_second hinv hhead hl hne hsame
      obtain ⟨hinv', hg, hown⟩ := moveHead_inv hinv none hchain htail
      rw [hv hsame] at hinv' hg
      refine ⟨_, hinv', hown, hg, fun a h => .inr fun hown => hown.1 ?_⟩
      obtain rfl := Option.some.inj h
      rw [hchain]
      exact List.mem_cons_self
    · obtain ⟨rfl, rfl⟩ := Prod.mk.inj (Option.some.inj hs)
      exact ⟨g, (Same.refl u).advanced hinv hsince (.inl rfl)⟩
  | subSize value node =>
    obtain ⟨rfl, rfl⟩ := Prod.mk.inj (Option.some.inj hs)
    exact ⟨g, (same_addSize u (-1) u.pushed).advanced hinv ha (.inr rfl)⟩
  | destroy value node =>
    obtain ⟨rfl, rfl⟩ := Prod.mk.inj (Option.some.inj hs)
    have hown : Own u.mem g node := ha
    exact ⟨g, (writes_setValue u.mem node none hinv.good.allocated).advanced hinv hown rfl rfl
      hown⟩
  | freeTop value node =>
    obtain ⟨rfl, rfl⟩ := Prod.mk.inj (Option.some.inj hs)
    exact ⟨g, (Same.refl u).advanced hinv ha (.inr rfl)⟩
  | freeWrite value node top =>
    obtain ⟨rfl, rfl⟩ := Prod.mk.inj (Option.some.inj hs)
    have hown : Own u.mem g node := ha
    exact ⟨g, (writes_setNext u.mem node ⟨top.ptr, 0⟩ hinv.good.allocated).advanced hinv hown rfl
      rfl ⟨hown, by simp⟩⟩
  | freeCas value node top =>
    obtain ⟨hown, hnext⟩ := ha
    rw [advancePop] at hs
    split at hs
    · rename_i hok
      obtain ⟨rfl, rfl⟩ := Prod.mk.inj (Option.some.inj hs)
      obtain ⟨hinv', hg⟩ := giveTop_inv hinv hown (by rw [hnext, hok.1]) (u.returned ++ [value])
      exact ⟨_, hinv', trivial, hg, owned_of_none rfl⟩
    · obtain ⟨rfl, rfl⟩ := Prod.mk.inj (Option.some.inj hs)
      exact ⟨g, (Same.refl u).advanced hinv hown (.inr rfl)⟩
  | _ => exact absurd hs.symm (Option.some_ne_none _)

theorem advance_sound {a : Action α} (hinv : Inv g u) (htimely : Timely u) (ha : Assert g u pc)
    (hsafe : Safe u pc a) (hs : advance u pc a = some (u', pc')) :
    ∃ g', Advanced g u pc g' u' pc' := by
  cases a with
  | go spurious =>
    rcases advance_go_eq_some hs with hs | hs
    · exact advancePush_sound hinv ha hsafe hs
    · exact advancePop_sound hinv htimely ha hsafe hs
  | push v =>
    cases pc with
    | idle =>
      obtain ⟨rfl, rfl⟩ := Prod.mk.inj (Option.some.inj hs)
      exact ⟨g, Same.advanced
        ⟨rfl, rfl, rfl, rfl, rfl, rfl, rfl, rfl, rfl, rfl, fun _ => .inl, le_rfl, le_rfl⟩
        hinv trivial (.inl rfl)⟩
    | _ => exact absurd hs.symm (Option.some_ne_none _)
  | pop =>
    cases pc with
    | idle =>
      obtain ⟨rfl, rfl⟩ := Prod.mk.inj (Option.some.inj hs)
      exact ⟨g, (Same.refl u).advanced hinv (le_refl u.clock) (.inl rfl)⟩
    | _ => exact absurd hs.symm (Option.some_ne_none _)
  | fresh b =>
    cases pc with
    | allocNew x =>
      rw [advance] at hs
      split at hs
      · exact absurd hs.symm (Option.some_ne_none _)
      · rename_i hfresh
        obtain ⟨rfl, rfl⟩ := Prod.mk.inj (Option.some.inj hs)
        rw [not_or] at hfresh
        have hapart : b ∉ g.chain ++ g.free := fun hmem => by
          rcases List.mem_append.mp hmem with hmem | hmem
          · exact hfresh.2 (hinv.good.chain_allocated b hmem)
          · exact hfresh.2 (hinv.good.free_allocated b hmem)
        have hwrites := writes_allocate u.mem b hfresh.1 hinv.good.allocated
        refine ⟨g, hwrites.inv hinv hapart, ⟨hapart, hfresh.1, List.mem_cons_self⟩,
          hwrites.guarantee hapart fun c hc _ heq => hfresh.2 (heq ▸ hc.2.2), fun c hc => ?_⟩
        obtain rfl := Option.some.inj hc
        exact .inr fun hown => hfresh.2 hown.2.2
    | _ => exact absurd hs.symm (Option.some_ne_none _)

theorem Assert.own (ha : Assert g u pc) (howned : pc.owned = some node) : Own u.mem g node := by
  cases pc with
  | construct x n | subSize value n | destroy value n | freeTop value n | freeWrite value n top =>
    obtain rfl := Option.some.inj howned
    exact ha
  | loadTail x n =>
    obtain rfl := Option.some.inj howned
    exact Constructed.own ha
  | loadNext x n tail | checkTail x n tail next | link x n tail | help x n tail next =>
    obtain rfl := Option.some.inj howned
    exact ha.1.own
  | freeCas value n top =>
    obtain rfl := Option.some.inj howned
    exact ha.1
  | _ => exact absurd howned.symm (Option.some_ne_none _)

theorem tick_same (h : u.emptyAt ≤ u.clock) : Same u u.tick := by
  refine ⟨rfl, rfl, rfl, rfl, rfl, rfl, rfl, rfl, rfl, rfl, fun _ => .inl, Nat.le_succ _, ?_⟩
  simp only [Shared.tick]
  split
  · exact Nat.le_succ_of_le h
  · exact le_rfl

theorem tick_timely (h : u.emptyAt ≤ u.clock) : Timely u.tick := by
  refine ⟨fun hnil => if_pos hnil, ?_⟩
  simp only [Shared.tick]
  split
  · exact le_rfl
  · exact Nat.le_succ_of_le h

theorem act_sound : Threads.Sound (act : Shared α → Pc α → Action α → _) Safe
    (fun g u => Inv g u ∧ Timely u) Assert Apart := by
  intro g u pc a u' pc' ⟨hinv, htimely⟩ ha hsafe hs
  obtain ⟨⟨v, qc⟩, hadv, heq⟩ := Option.map_eq_some_iff.mp hs
  obtain ⟨rfl, rfl⟩ := Prod.mk.inj heq
  obtain ⟨g', hadvanced⟩ := advance_sound hinv htimely ha hsafe hadv
  obtain ⟨hclock, hempty⟩ := (advance_logged hadv).clock
  have hle : v.emptyAt ≤ v.clock := by
    rw [hclock, hempty]
    exact htimely.le
  have htick := tick_same hle
  have hstays : Guarantee none g' v g' v.tick := htick.guarantee
  have hlater : ∀ qc : Pc α, Assert g' v qc → Assert g' v.tick qc := fun qc h =>
    hstays.assert hadvanced.inv (fun _ _ => (Option.some_ne_none _).symm) h
  refine ⟨g', ⟨htick.inv hadvanced.inv, tick_timely hle⟩, hlater _ hadvanced.assert,
    fun other hother hapart => ⟨hlater _ ?_, fun c hc hc' => ?_⟩⟩
  · exact hadvanced.guarantee.assert hinv (fun c hc hc' => hapart c hc' hc) hother
  · rcases hadvanced.owned c hc with hpc | hnot
    · exact hapart c hpc hc'
    · exact hnot (hother.own hc')

end Bugat.LockFree.Queue
