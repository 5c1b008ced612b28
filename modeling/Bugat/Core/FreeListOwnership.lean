import Mathlib
import Bugat.Core.FreeList
import Bugat.Lib.Counting
import Bugat.Lib.Transition

/-!
# Every block of a free list has one owner

A block is on the list from `_top`, once, or with one of the threads. What `allocate` has
read behind `_top` is only used by an exchange that finds the tag it has loaded; inside
the window of the tag the block has then stayed on the list, where nobody writes to it.
-/

open scoped BigOperators

namespace Bugat.LockFree.FreeList

open LinkedChain (Chain follow follow_eq)
open Memory (start start_of_ne start_eq_some)
open Queue (Seen Within nextTag_mod)

structure Inv (free : List Addr) (u : Shared) : Prop where
  listed : Chain u.link (start u.top) free
  tag : u.top.tag = u.moves % maxTag
  allocated : ∀ a ∈ free, a ∈ u.allocated
  nodup : u.allocated.Nodup
  zero : 0 ∉ u.allocated

structure SeenTop (free : List Addr) (u : Shared) (top : Seen) : Prop where
  dated : top.Dated u.moves
  mem : u.moves = top.moves → top.word.ptr ∈ free

def PcKnows (free : List Addr) (u : Shared) (o : Owner) : Pc → Prop
  | .idle | .allocTop | .allocNew => True
  | .allocNext top => SeenTop free u top
  | .allocCas top next =>
    SeenTop free u top ∧ (u.moves = top.moves → (u.next top.word.ptr).ptr = next)
  | .freeTop node => node ∈ o.owned
  | .freeWrite node _ => node ∈ o.owned
  | .freeCas node top => node ∈ o.owned ∧ (u.next node).ptr = top.ptr

structure Knows (free : List Addr) (u : Shared) (o : Owner) : Prop where
  owned : ∀ a ∈ o.owned, a ∈ u.allocated ∧ a ∉ free
  nodup : o.owned.Nodup
  pc : PcKnows free u o o.pc

def Apart (o o' : Owner) : Prop := o.owned.Disjoint o'.owned

structure Guarantee (mine : List Addr) (free : List Addr) (u : Shared) (free' : List Addr)
    (u' : Shared) : Prop where
  moves_le : u.moves ≤ u'.moves
  kept : u'.moves = u.moves → ∀ a ∈ free, a ∈ free' ∧ u'.next a = u.next a
  foreign : ∀ a ∈ u.allocated, a ∉ free → a ∉ mine →
    a ∈ u'.allocated ∧ a ∉ free' ∧ u'.next a = u.next a

variable {u u' : Shared} {o o' other : Owner} {free free' mine : List Addr} {a node : Addr}
  {top : Seen} {word : TaggedPtr} {spurious : Bool}

section Others

variable (h : Guarantee mine free u free' u')
include h

theorem Guarantee.seenTop (hs : SeenTop free u top) : SeenTop free' u' top where
  dated := ⟨hs.dated.le.trans h.moves_le, hs.dated.tag⟩
  mem heq := by
    have hsame : u'.moves = u.moves := le_antisymm (heq.trans_le hs.dated.le) h.moves_le
    exact (h.kept hsame _ (hs.mem (hsame ▸ heq))).1

theorem Guarantee.knows (hk : Knows free u other) (hdisj : mine.Disjoint other.owned) :
    Knows free' u' other := by
  have hforeign : ∀ a ∈ other.owned, a ∈ u'.allocated ∧ a ∉ free' ∧ u'.next a = u.next a := by
    intro a ha
    obtain ⟨halloc, hfree⟩ := hk.owned a ha
    exact h.foreign a halloc hfree fun hmine => hdisj hmine ha
  refine ⟨fun a ha => ⟨(hforeign a ha).1, (hforeign a ha).2.1⟩, hk.nodup, ?_⟩
  have hpc := hk.pc
  cases hopc : other.pc with
  | idle | allocTop | allocNew => trivial
  | allocNext top =>
    rw [hopc] at hpc
    exact h.seenTop hpc
  | allocCas top next =>
    rw [hopc] at hpc
    refine ⟨h.seenTop hpc.1, fun heq => ?_⟩
    have hsame : u'.moves = u.moves := le_antisymm (heq.trans_le hpc.1.dated.le) h.moves_le
    have hold := hsame ▸ heq
    rw [(h.kept hsame _ (hpc.1.mem hold)).2]
    exact hpc.2 hold
  | freeTop node | freeWrite node top =>
    rw [hopc] at hpc
    exact hpc
  | freeCas node top =>
    rw [hopc] at hpc
    refine ⟨hpc.1, ?_⟩
    rw [(hforeign node hpc.1).2.2]
    exact hpc.2

end Others

/-- The result of a step. The blocks that are new to the thread were on the list or are newly
allocated, and no block gets lost. -/
structure Stepped (free : List Addr) (u : Shared) (o : Owner) (free' : List Addr) (u' : Shared)
    (o' : Owner) : Prop where
  inv : Inv free' u'
  knows : Knows free' u' o'
  guarantee : Guarantee o.owned free u free' u'
  owned : ∀ a ∈ o'.owned, a ∈ o.owned ∨ a ∈ free ∨ a ∉ u.allocated
  blocks : (u'.allocated + free + o.owned : Multiset Addr) = u.allocated + free' + o'.owned

theorem Guarantee.refl (mine free : List Addr) (u : Shared) : Guarantee mine free u free u where
  moves_le := le_rfl
  kept _ _ ha := ⟨ha, rfl⟩
  foreign _ ha hfree _ := ⟨ha, hfree, rfl⟩

theorem stepped_pc (hinv : Inv free u) (hk : Knows free u o) {pc : Pc}
    (hpc : PcKnows free u o pc) : Stepped free u o free u { o with pc := pc } where
  inv := hinv
  knows := ⟨hk.owned, hk.nodup, by cases pc <;> exact hpc⟩
  guarantee := .refl _ _ _
  owned _ ha := .inl ha
  blocks := rfl

theorem Inv.setNext (hinv : Inv free u) (ha : a ∉ free) : Inv free (u.setNext a word) where
  listed := hinv.listed.congr fun b hb => by
    change start (Function.update u.next a word b) = start (u.next b)
    rw [Function.update_of_ne (ne_of_mem_of_not_mem hb ha)]
  tag := hinv.tag
  allocated := hinv.allocated
  nodup := hinv.nodup
  zero := hinv.zero

theorem guarantee_setNext (hmine : a ∈ mine) (ha : a ∉ free) :
    Guarantee mine free u free (u.setNext a word) where
  moves_le := le_rfl
  kept _ _ hb := ⟨hb, Function.update_of_ne (ne_of_mem_of_not_mem hb ha) _ _⟩
  foreign _ hb hfree hnot :=
    ⟨hb, hfree, Function.update_of_ne (ne_of_mem_of_not_mem hmine hnot).symm _ _⟩

theorem stepped_setNext (hinv : Inv free u) (hk : Knows free u o) (ha : a ∈ o.owned) {pc : Pc}
    (hpc : PcKnows free (u.setNext a word) o pc) :
    Stepped free u o free (u.setNext a word) { o with pc := pc } where
  inv := hinv.setNext (hk.owned a ha).2
  knows := ⟨hk.owned, hk.nodup, by cases pc <;> exact hpc⟩
  guarantee := guarantee_setNext ha (hk.owned a ha).2
  owned _ hb := .inl hb
  blocks := rfl

theorem allocWith_knows (hinv : Inv free u) : PcKnows free u o u.allocWith := by
  rw [Shared.allocWith]
  split
  · trivial
  · rename_i hne
    refine ⟨⟨le_rfl, hinv.tag⟩, fun _ => ?_⟩
    have hlisted := hinv.listed
    change u.top.ptr ∈ free
    rw [start_of_ne hne] at hlisted
    cases free with
    | nil => exact absurd hlisted (Option.some_ne_none _)
    | cons b rest =>
      rw [Option.some.inj hlisted.1]
      exact List.mem_cons_self

/-- The exchange of `allocate` that succeeds: the tag says that the block never left the
list, so the link that was read is its link. -/
theorem stepped_take {next : Addr} (hinv : Inv free u) (hk : Knows free u o)
    (hseen : SeenTop free u top) (hnext : u.moves = top.moves → (u.next top.word.ptr).ptr = next)
    (hwithin : Within u.moves top.moves) (heq : u.top = top.word) :
    ∃ free', Stepped free u o free' (u.takeTop next) ⟨.idle, top.word.ptr :: o.owned⟩ := by
  have hmoves := hseen.dated.current hinv.tag hwithin heq
  have hmem := hseen.mem hmoves
  have hlisted := hinv.listed
  have hne : u.top.ptr ≠ 0 := by
    rw [heq]
    exact fun h0 => hinv.zero (h0 ▸ hinv.allocated _ hmem)
  rw [start_of_ne hne] at hlisted
  cases hfree : free with
  | nil => exact absurd (hfree ▸ hmem) List.not_mem_nil
  | cons b rest =>
    subst hfree
    obtain rfl := Option.some.inj hlisted.1
    have hnodup := List.nodup_cons.mp hinv.listed.nodup
    have hnot : u.top.ptr ∉ o.owned := fun hown => (hk.owned _ hown).2 List.mem_cons_self
    have hsucc : start ⟨next, u.top.nextTag⟩ = u.link u.top.ptr := by
      rw [Shared.link, heq, ← hnext hmoves]
      rfl
    rw [← heq]
    refine ⟨rest, ?_, ?_, ?_, fun a ha => ?_, ?_⟩
    · refine ⟨?_, nextTag_mod hinv.tag, fun a ha => ?_, hinv.nodup, hinv.zero⟩
      · change Chain u.link (start ⟨next, u.top.nextTag⟩) rest
        rw [hsucc]
        exact hlisted.2
      · exact hinv.allocated a (List.mem_cons_of_mem _ ha)
    · refine ⟨fun a ha => ?_, List.nodup_cons.mpr ⟨hnot, hk.nodup⟩, trivial⟩
      rcases List.mem_cons.mp ha with rfl | ha
      · exact ⟨hinv.allocated _ List.mem_cons_self, hnodup.1⟩
      · obtain ⟨halloc, hnotfree⟩ := hk.owned a ha
        exact ⟨halloc, fun hrest => hnotfree (List.mem_cons_of_mem _ hrest)⟩
    · refine ⟨Nat.le_succ _, fun hsame => absurd hsame (Nat.succ_ne_self _), ?_⟩
      intro a halloc hnotfree _
      exact ⟨halloc, fun hrest => hnotfree (List.mem_cons_of_mem _ hrest), rfl⟩
    · rcases List.mem_cons.mp ha with rfl | ha
      · exact .inr (.inl List.mem_cons_self)
      · exact .inl ha
    · simp only [← Multiset.cons_coe, Multiset.add_cons, Multiset.cons_add]
      rfl

/-- The exchange of `deallocate` that succeeds needs no tag: the block links to whatever
`_top` points to. -/
theorem stepped_give (hinv : Inv free u) (hk : Knows free u o) (hown : node ∈ o.owned)
    (hnext : (u.next node).ptr = u.top.ptr) :
    Stepped free u o (node :: free) (u.giveTop node) ⟨.idle, o.owned.erase node⟩ := by
  obtain ⟨halloc, hfree⟩ := hk.owned node hown
  have hne : node ≠ 0 := fun h0 => hinv.zero (h0 ▸ halloc)
  have hlink : u.link node = start u.top := by
    rw [Shared.link, start, start, hnext]
  refine ⟨?_, ?_, ?_, fun a ha => .inl (List.mem_of_mem_erase ha), ?_⟩
  · refine ⟨⟨start_of_ne hne, ?_⟩, hinv.tag, fun a ha => ?_, hinv.nodup, hinv.zero⟩
    · change Chain u.link (u.link node) free
      rw [hlink]
      exact hinv.listed
    · rcases List.mem_cons.mp ha with rfl | ha
      · exact halloc
      · exact hinv.allocated a ha
  · refine ⟨fun a ha => ?_, hk.nodup.erase node, trivial⟩
    obtain ⟨hane, ha⟩ := (hk.nodup.mem_erase_iff).mp ha
    obtain ⟨halloc, hnotfree⟩ := hk.owned a ha
    exact ⟨halloc, fun hmem => (List.mem_cons.mp hmem).elim hane hnotfree⟩
  · refine ⟨le_rfl, fun _ a ha => ⟨List.mem_cons_of_mem _ ha, rfl⟩, fun a ha hnotfree hnot => ?_⟩
    refine ⟨ha, fun hmem => ?_, rfl⟩
    rcases List.mem_cons.mp hmem with rfl | hmem
    · exact hnot hown
    · exact hnotfree hmem
  · have howned : (o.owned : Multiset Addr) = node ::ₘ (o.owned.erase node : List Addr) :=
      Multiset.coe_eq_coe.mpr (List.perm_cons_erase hown)
    change (u.allocated + free + o.owned : Multiset Addr) =
      u.allocated + (node :: free : List Addr) + (o.owned.erase node : List Addr)
    rw [howned, ← Multiset.cons_coe, Multiset.add_cons, Multiset.add_cons, Multiset.cons_add]

theorem stepped_allocate (hinv : Inv free u) (hk : Knows free u o) (hne : a ≠ 0)
    (ha : a ∉ u.allocated) : Stepped free u o free (u.allocate a) ⟨.idle, a :: o.owned⟩ := by
  have hnot : ∀ b ∈ u.allocated, b ≠ a := fun b hb heq => ha (heq ▸ hb)
  refine ⟨?_, ?_, ?_, fun b hb => ?_, ?_⟩
  · refine ⟨hinv.listed.congr fun b hb => ?_, hinv.tag,
      fun b hb => List.mem_cons_of_mem _ (hinv.allocated b hb),
      List.nodup_cons.mpr ⟨ha, hinv.nodup⟩, fun hmem => ?_⟩
    · change start (Function.update u.next a nullHandle b) = start (u.next b)
      rw [Function.update_of_ne (hnot b (hinv.allocated b hb))]
    · exact (List.mem_cons.mp hmem).elim (fun heq => hne heq.symm) hinv.zero
  · refine ⟨fun b hb => ?_, List.nodup_cons.mpr ⟨fun hown => ha (hk.owned a hown).1, hk.nodup⟩,
      trivial⟩
    rcases List.mem_cons.mp hb with rfl | hb
    · exact ⟨List.mem_cons_self, fun hfree => ha (hinv.allocated _ hfree)⟩
    · exact ⟨List.mem_cons_of_mem _ (hk.owned b hb).1, (hk.owned b hb).2⟩
  · refine ⟨le_rfl, fun _ b hb => ⟨hb, Function.update_of_ne (hnot b (hinv.allocated b hb)) _ _⟩,
      fun b hb hfree _ => ?_⟩
    exact ⟨List.mem_cons_of_mem _ hb, hfree, Function.update_of_ne (hnot b hb) _ _⟩
  · rcases List.mem_cons.mp hb with rfl | hb
    · exact .inr (.inr ha)
    · exact .inl hb
  · change ((a :: u.allocated : List Addr) + free + o.owned : Multiset Addr) =
      u.allocated + free + (a :: o.owned : List Addr)
    rw [← Multiset.cons_coe, ← Multiset.cons_coe, Multiset.cons_add, Multiset.cons_add,
      Multiset.add_cons]

theorem advance_stepped (hinv : Inv free u) (hk : Knows free u o)
    (hwindow : InWindow u o (.go spurious)) (hs : advance u o spurious = some (u', o')) :
    ∃ free', Stepped free u o free' u' o' := by
  have hpc := hk.pc
  cases hopc : o.pc with
  | idle | allocNew =>
    rw [advance, hopc] at hs
    cases hs
  | allocTop =>
    rw [advance, hopc] at hs
    obtain ⟨rfl, rfl⟩ := Prod.mk.inj (Option.some.inj hs)
    exact ⟨free, stepped_pc hinv hk (allocWith_knows hinv)⟩
  | allocNext top =>
    rw [hopc] at hpc
    rw [advance, hopc] at hs
    obtain ⟨rfl, rfl⟩ := Prod.mk.inj (Option.some.inj hs)
    exact ⟨free, stepped_pc hinv hk ⟨hpc, fun _ => rfl⟩⟩
  | allocCas top next =>
    rw [hopc] at hpc
    rw [InWindow, hopc] at hwindow
    rw [advance, hopc] at hs
    dsimp only at hs
    split at hs
    · rename_i hok
      obtain ⟨rfl, rfl⟩ := Prod.mk.inj (Option.some.inj hs)
      exact stepped_take hinv hk hpc.1 hpc.2 hwindow hok.1
    · obtain ⟨rfl, rfl⟩ := Prod.mk.inj (Option.some.inj hs)
      exact ⟨free, stepped_pc hinv hk (allocWith_knows hinv)⟩
  | freeTop node =>
    rw [hopc] at hpc
    rw [advance, hopc] at hs
    obtain ⟨rfl, rfl⟩ := Prod.mk.inj (Option.some.inj hs)
    exact ⟨free, stepped_pc hinv hk hpc⟩
  | freeWrite node top =>
    rw [hopc] at hpc
    rw [advance, hopc] at hs
    obtain ⟨rfl, rfl⟩ := Prod.mk.inj (Option.some.inj hs)
    refine ⟨free, stepped_setNext hinv hk hpc ⟨hpc, ?_⟩⟩
    simp [Shared.setNext]
  | freeCas node top =>
    rw [hopc] at hpc
    rw [advance, hopc] at hs
    dsimp only at hs
    split at hs
    · rename_i hok
      obtain ⟨rfl, rfl⟩ := Prod.mk.inj (Option.some.inj hs)
      exact ⟨_, stepped_give hinv hk hpc.1 (hok.1 ▸ hpc.2)⟩
    · obtain ⟨rfl, rfl⟩ := Prod.mk.inj (Option.some.inj hs)
      exact ⟨free, stepped_pc hinv hk hpc.1⟩

theorem act_stepped {l : Action} (hinv : Inv free u) (hk : Knows free u o)
    (hwindow : InWindow u o l) (hs : act u o l = some (u', o')) :
    ∃ free', Stepped free u o free' u' o' := by
  cases l with
  | construct =>
    simp only [act] at hs
    split at hs
    · obtain ⟨rfl, rfl⟩ := Prod.mk.inj (Option.some.inj hs)
      exact ⟨free, stepped_pc hinv hk trivial⟩
    · cases hs
  | destruct node =>
    simp only [act] at hs
    split at hs
    · rename_i hok
      obtain ⟨rfl, rfl⟩ := Prod.mk.inj (Option.some.inj hs)
      exact ⟨free, stepped_pc hinv hk hok.2⟩
    · cases hs
  | write node word =>
    simp only [act] at hs
    split at hs
    · rename_i hok
      obtain ⟨rfl, rfl⟩ := Prod.mk.inj (Option.some.inj hs)
      refine ⟨free, stepped_setNext hinv hk hok.2 ?_⟩
      rw [hok.1]
      trivial
    · cases hs
  | go spurious => exact advance_stepped hinv hk hwindow hs
  | fresh a =>
    simp only [act] at hs
    split at hs
    · rename_i hok
      obtain ⟨rfl, rfl⟩ := Prod.mk.inj (Option.some.inj hs)
      exact ⟨free, stepped_allocate hinv hk hok.2.1 hok.2.2⟩
    · cases hs

theorem act_sound : Threads.Sound act InWindow Inv Knows Apart := by
  intro free u o l u' o' hinv hk hwindow hs
  obtain ⟨free', hinv', hk', hg, howned, -⟩ := act_stepped hinv hk hwindow hs
  refine ⟨free', hinv', hk', fun other hother hapart => ⟨hg.knows hother hapart, ?_⟩⟩
  intro a ha hmem
  obtain ⟨halloc, hfree⟩ := hother.owned a hmem
  rcases howned a ha with hold | hfresh | hnew
  · exact hapart hold hmem
  · exact hfree hfresh
  · exact hnew halloc

section Runs

variable {Tid : Type*} [Fintype Tid] [DecidableEq Tid] {s s' : State Tid}

structure Reached (s : State Tid) : Prop where
  holds : Threads.Holds Inv Knows Apart s
  blocks : ∀ free, Inv free s.shared →
    (s.shared.allocated : Multiset Addr) = free + ∑ t, ((s.thread t).owned : Multiset Addr)

omit [DecidableEq Tid] in
theorem init_reached (next : Addr → TaggedPtr) : Reached (init next : State Tid) where
  holds := ⟨⟨[], ⟨rfl, rfl, nofun, List.nodup_nil, List.not_mem_nil⟩,
    fun _ => ⟨nofun, List.nodup_nil, trivial⟩⟩, fun _ _ _ _ ha => absurd ha List.not_mem_nil⟩
  blocks free hfree := by
    have hnil : free = [] := hfree.listed.unique rfl
    rw [hnil]
    simp [init, Shared.init]

theorem Reached.step {l : Tid × Action} (h : Reached s)
    (hwindow : InWindow s.shared (s.thread l.1) l.2) (hs : step s l = some s') :
    Reached s' := by
  refine ⟨h.holds.step act_sound (fun _ _ hapart => hapart.symm) hwindow hs,
    fun free' hfree' => ?_⟩
  obtain ⟨u, o, hact, rfl⟩ := Threads.step_eq_some.mp hs
  obtain ⟨free, hinv, hknows⟩ := h.holds.asserted
  obtain ⟨free'', hstepped⟩ := act_stepped hinv (hknows l.1) hwindow hact
  obtain rfl := hfree'.listed.unique hstepped.inv.listed
  exact Counting.balance_update (w := fun o : Owner => (o.owned : Multiset Addr))
    (h.blocks free hinv) hstepped.blocks

structure Partitioned (s : State Tid) : Prop where
  walk : Chain s.shared.link (start s.shared.top) s.shared.list
  nodup : s.shared.list.Nodup
  list_allocated : ∀ a ∈ s.shared.list, a ∈ s.shared.allocated
  one_place : ∀ a ∈ s.shared.allocated,
    s.shared.list.count a + ∑ t, (s.thread t).owned.count a = 1

omit [DecidableEq Tid] in
theorem Reached.partitioned (h : Reached s) : Partitioned s := by
  obtain ⟨free, hinv, -⟩ := h.holds.asserted
  have hlength : free.length ≤ s.shared.allocated.length :=
    (hinv.listed.nodup.subperm hinv.allocated).length_le
  have hlist : s.shared.list = free := follow_eq hinv.listed hlength
  refine ⟨hlist ▸ hinv.listed, hlist ▸ hinv.listed.nodup, hlist ▸ hinv.allocated,
    fun a ha => ?_⟩
  have hcount := congrArg (Multiset.count a) (h.blocks free hinv)
  rw [Multiset.coe_count, List.count_eq_one_of_mem hinv.nodup ha, Multiset.count_add,
    Multiset.coe_count, Multiset.count_sum'] at hcount
  rw [hlist]
  simpa using hcount.symm

theorem free_list_partitioned (next : Addr → TaggedPtr) (ls : List (Tid × Action)) (s : State Tid)
    (hwindow : Transition.Along (fun s l => InWindow s.shared (s.thread l.1) l.2) step
      (init next) ls)
    (hrun : Transition.exec step (init next) ls = some s) : Partitioned s :=
  (Transition.exec_invariant_along (fun _ _ _ h hok hs => h.step hok hs) (init_reached next)
    hwindow hrun).partitioned

instance (u : Shared) (o : Owner) (l : Action) : Decidable (InWindow u o l) := by
  unfold InWindow
  split
  · split <;> infer_instance
  · infer_instance

def staleRead : List (Bool × Action) :=
  [(false, .construct), (false, .go false), (false, .fresh 8), (false, .destruct 8),
    (false, .go false), (false, .go false), (false, .go false), (true, .construct),
    (true, .go false), (false, .construct), (false, .go false), (false, .go false),
    (false, .go false), (false, .write 8 ⟨8, 7⟩), (true, .go false), (true, .go false),
    (true, .fresh 9), (true, .destruct 9), (true, .go false), (true, .go false),
    (true, .go false)]

theorem staleRead_partitioned : ∃ s : State Bool,
    Transition.exec step (init fun _ => ⟨3, 3⟩) staleRead = some s ∧ Partitioned s ∧
      (s.thread false).owned = [8] ∧ s.shared.list = [9] ∧ s.shared.top = ⟨9, 1⟩ := by
  have h : (Transition.exec step (init fun _ => ⟨3, 3⟩ : State Bool) staleRead).map
      (fun s => decide ((s.thread false).owned = [8] ∧ s.shared.list = [9] ∧
        s.shared.top = ⟨9, 1⟩)) = some true := by
    decide
  obtain ⟨s, hrun, hs⟩ := Option.map_eq_some_iff.mp h
  exact ⟨s, hrun, free_list_partitioned _ staleRead s (by decide) hrun, of_decide_eq_true hs⟩

end Runs

end Bugat.LockFree.FreeList
