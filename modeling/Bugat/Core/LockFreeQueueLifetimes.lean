import Mathlib
import Bugat.Core.LockFreeQueueNodes

/-!
# The lifetimes of the nodes of a LockFreeQueue

`freelist_stack::destruct` runs `~Node` before it links the block into the free list, and
`~freelist_stack` runs it again over every block of the list. The dummy is on no free list
when the queue is destroyed: its destructor never runs and its block is never given back.
-/

namespace Bugat.LockFree.Lifetimes

open LinkedChain (follow follow_eq)
open Loops (Label Placed)
open Transition (exec exec_invariant)

variable {α : Type*}

structure State (α : Type*) where
  queue : Loops.State α
  constructed : List Addr
  destructed : List Addr

def init (a : Addr) : State α := ⟨Loops.init a, [a], []⟩

def step (leaves : Option α → Option α) (t : State α) (l : Label α) : Option (State α) :=
  (Loops.step leaves t.queue l).map fun s =>
    { queue := s
      constructed := t.constructed ++ s.built l
      destructed := t.destructed ++ t.queue.razed l }

structure Cleared (s : Loops.State α) : Prop where
  idle : s.node = none
  meet : s.mem.head.ptr = s.mem.tail.ptr
  null : s.mem.next s.mem.head.ptr = nullHandle

instance (s : Loops.State α) : Decidable (Cleared s) :=
  decidable_of_iff (s.node = none ∧ s.mem.head.ptr = s.mem.tail.ptr ∧
      s.mem.next s.mem.head.ptr = nullHandle)
    ⟨fun ⟨hidle, hmeet, hnull⟩ => ⟨hidle, hmeet, hnull⟩,
      fun ⟨hidle, hmeet, hnull⟩ => ⟨hidle, hmeet, hnull⟩⟩

def listed (m : Memory α) : List Addr := follow m.link m.allocated.length (Memory.start m.top)

/-- The nodes of all runs of `~Node` until the end of `~LockFreeQueue`. -/
def State.destroyed (t : State α) : List Addr := t.destructed ++ listed t.queue.mem

def State.deallocated (t : State α) : List Addr := listed t.queue.mem

def DestroyedOnce (t : State α) : Prop :=
  ∀ b, t.destroyed.count b = t.constructed.count b

def DeallocatedOnce (t : State α) : Prop :=
  ∀ b ∈ t.queue.mem.allocated, t.deallocated.count b = 1

variable {leaves : Option α → Option α} {t t' : State α} {l : Label α}
  {chain free : List Addr} {a b : Addr}

structure Accounted (t : State α) (chain free : List Addr) : Prop where
  placed : Placed t.queue chain free
  alive : t.constructed.Perm (t.destructed ++ (chain ++ t.queue.node.toList))

theorem init_accounted (h : a ≠ 0) : Accounted (init a : State α) [a] [] where
  placed := Loops.init_placed h
  alive := List.Perm.refl [a]

theorem Accounted.step (h : Accounted t chain free) (hs : step leaves t l = some t') :
    ∃ chain' free', Accounted t' chain' free' := by
  obtain ⟨s, hstep, rfl⟩ := Option.map_eq_some_iff.mp hs
  obtain ⟨chain', free', hplaced, hmoved⟩ := h.placed.step leaves hstep
  refine ⟨chain', free', hplaced, ?_⟩
  calc (t.constructed ++ s.built l).Perm
        (t.destructed ++ (chain ++ t.queue.node.toList) ++ s.built l) :=
        h.alive.append_right _
    List.Perm _ (t.destructed ++ (t.queue.razed l ++ (chain' ++ s.node.toList))) := by
        rw [List.append_assoc]
        exact hmoved.symm.append_left t.destructed
    List.Perm _ (t.destructed ++ t.queue.razed l ++ (chain' ++ s.node.toList)) := by
        rw [List.append_assoc]

theorem run_accounted {ls : List (Label α)} (ha : a ≠ 0)
    (hrun : exec (step leaves) (init a) ls = some t) :
    ∃ chain free, Accounted t chain free := by
  refine exec_invariant (P := fun t => ∃ chain free, Accounted t chain free) ?_
    ⟨_, _, init_accounted ha⟩ hrun
  intro t l t' h hs
  obtain ⟨chain, free, hacc⟩ := h
  exact hacc.step hs

namespace Accounted

variable (h : Accounted t chain free)
include h

theorem listed_eq : listed t.queue.mem = free := by
  apply follow_eq h.placed.ordered.good.listed
  have hle : free.Subperm t.queue.mem.allocated :=
    h.placed.ordered.good.listed.nodup.subperm h.placed.ordered.good.free_allocated
  exact hle.length_le

variable (hclear : Cleared t.queue)
include hclear

theorem chain_eq : chain = [t.queue.mem.head.ptr] :=
  h.placed.ordered.good.single hclear.null

theorem allocated_perm : t.queue.mem.allocated.Perm (t.queue.mem.head.ptr :: free) := by
  have hblocks := h.placed.blocks
  rw [h.chain_eq hclear, hclear.idle] at hblocks
  simpa using hblocks

theorem constructed_count (b : Addr) : t.constructed.count b =
    t.destructed.count b + [t.queue.mem.head.ptr].count b := by
  have halive := h.alive.count_eq b
  rw [h.chain_eq hclear, hclear.idle] at halive
  simpa using halive

theorem dummy_leaked : t.destroyed.count t.queue.mem.head.ptr + 1 =
      t.constructed.count t.queue.mem.head.ptr ∧
    t.deallocated.count t.queue.mem.head.ptr = 0 := by
  have hfree : free.count t.queue.mem.head.ptr = 0 :=
    List.count_eq_zero.mpr h.placed.head_not_free
  rw [State.destroyed, State.deallocated, h.listed_eq, h.constructed_count hclear,
    List.count_append, hfree, List.count_singleton_self]
  exact ⟨rfl, rfl⟩

theorem other_destroyed_again (hb : b ∈ t.queue.mem.allocated)
    (hne : b ≠ t.queue.mem.head.ptr) :
    t.destroyed.count b = t.constructed.count b + 1 ∧ t.deallocated.count b = 1 := by
  have hmem : b ∈ free := by
    have hb' := (h.allocated_perm hclear).mem_iff.mp hb
    exact (List.mem_cons.mp hb').resolve_left hne
  have hfree : free.count b = 1 :=
    List.count_eq_one_of_mem h.placed.ordered.good.listed.nodup hmem
  have hdummy : [t.queue.mem.head.ptr].count b = 0 :=
    List.count_eq_zero.mpr fun h0 => hne (List.mem_singleton.mp h0)
  rw [State.destroyed, State.deallocated, h.listed_eq, h.constructed_count hclear,
    List.count_append, hfree, hdummy]
  exact ⟨rfl, rfl⟩

end Accounted

section Clear

variable {s : Loops.State α}

/-- Where `_tail` lags behind, an iteration of `Pop` moves it on. -/
theorem pop_catches_up (leaves : Option α → Option α) (h : Placed s chain free)
    (hmeet : s.mem.head.ptr = s.mem.tail.ptr)
    (hnext : s.mem.next s.mem.head.ptr ≠ nullHandle) : Placed (s.pop leaves true) chain free ∧
      (s.pop leaves true).node = s.node ∧ (s.pop leaves true).TriesHead := by
  have htry : ¬ s.TriesHead := fun htry => htry.1 hmeet
  obtain ⟨hplaced, hnode, -⟩ := h.pop_idle leaves htry true
  refine ⟨hplaced, hnode, ?_⟩
  obtain ⟨rest, hrest⟩ := h.ordered.good.second hnext
  have hnodup := h.ordered.good.linked.nodup
  rw [hrest] at hnodup
  have hpop : s.pop leaves true =
      { s with mem := s.mem.moveTail (s.mem.next s.mem.head.ptr).ptr } := by
    simp [Loops.State.pop, if_pos hmeet, if_neg hnext, Loops.swingTail]
  rw [hpop]
  refine ⟨fun heq => ?_, hnext⟩
  exact (List.nodup_cons.mp hnodup).1 (List.mem_cons.mpr (.inl heq))

theorem clear_from_head (n : ℕ) : ∀ {s : Loops.State α} {chain free : List Addr},
    Placed s chain free → s.node = none → chain.length ≤ n →
    ∃ (oks : List Bool) (s' : Loops.State α),
      exec (Loops.step leaves) s (oks.map Label.pop) = some s' ∧ Cleared s' := by
  induction n with
  | zero =>
    intro s chain free h _ hlen
    exact absurd (List.length_eq_zero_iff.mp (Nat.le_zero.mp hlen)) h.ordered.good.chain_ne_nil
  | succ n ih =>
    intro s chain free h hnode hlen
    -- a successful exchange of `_head` shortens the chain
    have hshorter : ∀ {s : Loops.State α}, Placed s chain free → s.node = none → s.TriesHead →
        ∃ (oks : List Bool) (s' : Loops.State α),
          exec (Loops.step leaves) s (oks.map Label.pop) = some s' ∧ Cleared s' := by
      intro s h hnode htry
      obtain ⟨b, rest, hchain, hplaced, hkeep, -⟩ := h.pop_succeeds leaves htry
      have hle : (b :: rest).length ≤ n := by
        rw [hchain] at hlen
        simp only [List.length_cons] at hlen ⊢
        omega
      obtain ⟨oks, s', hrun, hclear⟩ := ih hplaced (hkeep.trans hnode) hle
      exact ⟨true :: oks, s', hrun, hclear⟩
    by_cases hnext : s.mem.next s.mem.head.ptr = nullHandle
    · have htail := h.ordered.good.tail
      rw [h.ordered.good.single hnext] at htail
      exact ⟨[], s, rfl, hnode, (List.mem_singleton.mp htail).symm, hnext⟩
    · by_cases hmeet : s.mem.head.ptr = s.mem.tail.ptr
      · obtain ⟨hplaced, hkeep, htry⟩ := pop_catches_up leaves h hmeet hnext
        obtain ⟨oks, s', hrun, hclear⟩ := hshorter hplaced (hkeep.trans hnode) htry
        exact ⟨true :: oks, s', hrun, hclear⟩
      · exact hshorter h hnode ⟨hmeet, hnext⟩

theorem exec_lift {ls : List (Label α)} (hrun : exec (Loops.step leaves) t.queue ls = some s) :
    ∃ t', exec (step leaves) t ls = some t' ∧ t'.queue = s := by
  induction ls generalizing t with
  | nil => exact ⟨t, rfl, Option.some.inj hrun⟩
  | cons l ls ih =>
    obtain ⟨u, hstep, hrest⟩ := Transition.exec_cons_eq_some.mp hrun
    set t₁ : State α := ⟨u, t.constructed ++ u.built l, t.destructed ++ t.queue.razed l⟩ with ht₁
    have hstep' : step leaves t l = some t₁ := by rw [step, hstep, Option.map_some]
    obtain ⟨t', hrun', hqueue⟩ := ih (t := t₁) hrest
    exact ⟨t', Transition.exec_cons_eq_some.mpr ⟨t₁, hstep', hrun'⟩, hqueue⟩

theorem clear_ends {ls : List (Label α)} (ha : a ≠ 0)
    (hrun : exec (step leaves) (init a) ls = some t) (hidle : t.queue.node = none) :
    ∃ (oks : List Bool) (t' : State α),
      exec (step leaves) (init a) (ls ++ oks.map Label.pop) = some t' ∧ Cleared t'.queue := by
  obtain ⟨chain, free, hacc⟩ := run_accounted ha hrun
  obtain ⟨oks, s', hpops, hclear⟩ := clear_from_head chain.length hacc.placed hidle le_rfl
  obtain ⟨t', hpops', rfl⟩ := exec_lift hpops
  exact ⟨oks, t', Transition.exec_append_eq_some.mpr ⟨t, hrun, hpops'⟩, hclear⟩

end Clear

/-- Whatever was pushed and popped before, `~LockFreeQueue` leaves the dummy undestroyed and
its block allocated. -/
theorem never_once {ls : List (Label α)} (ha : a ≠ 0)
    (hrun : exec (step leaves) (init a) ls = some t) (hclear : Cleared t.queue) :
    ¬ DestroyedOnce t ∧ ¬ DeallocatedOnce t := by
  obtain ⟨chain, free, hacc⟩ := run_accounted ha hrun
  obtain ⟨hdestroyed, hdeallocated⟩ := hacc.dummy_leaked hclear
  have hmem : t.queue.mem.head.ptr ∈ t.queue.mem.allocated :=
    (hacc.allocated_perm hclear).mem_iff.mpr List.mem_cons_self
  constructor
  · intro honce
    have hcount := honce t.queue.mem.head.ptr
    omega
  · intro honce
    have hcount := honce t.queue.mem.head.ptr hmem
    omega

section Runs

def pushPop (v : ℕ) (a : Addr) : List (Label ℕ) := [.construct v a, .push true true, .pop true]

theorem recycled_never_once : ∃ t, exec (step id) (init 1) (pushPop 7 2 ++ pushPop 8 3) = some t ∧
    Cleared t.queue ∧ ¬ DestroyedOnce t ∧ ¬ DeallocatedOnce t := by
  have h : (exec (step id) (init 1) (pushPop 7 2 ++ pushPop 8 3)).map
      (fun t => decide (Cleared t.queue)) = some true := by decide +kernel
  obtain ⟨t, hrun, ht⟩ := Option.map_eq_some_iff.mp h
  have hclear := of_decide_eq_true ht
  exact ⟨t, hrun, hclear, never_once (by decide) hrun hclear⟩

theorem pushPop_destroys_twice : ∃ t, exec (step id) (init 1) (pushPop 7 2) = some t ∧
    Cleared t.queue ∧ t.constructed = [1, 2] ∧ t.destroyed = [1, 1] ∧ t.deallocated = [1] ∧
    ¬ (DestroyedOnce t ∧ DeallocatedOnce t) := by
  have h : (exec (step id) (init 1) (pushPop 7 2)).map (fun t =>
      (decide (Cleared t.queue), t.constructed, t.destroyed, t.deallocated)) =
      some (true, [1, 2], [1, 1], [1]) := by decide +kernel
  obtain ⟨t, hrun, ht⟩ := Option.map_eq_some_iff.mp h
  simp only [Prod.mk.injEq] at ht
  obtain ⟨hclear, hconstructed, hdestroyed, hdeallocated⟩ := ht
  refine ⟨t, hrun, of_decide_eq_true hclear, hconstructed, hdestroyed, hdeallocated,
    fun hboth => ?_⟩
  have hcount := hboth.1 1
  rw [hdestroyed, hconstructed] at hcount
  exact absurd hcount (by decide)

end Runs

end Bugat.LockFree.Lifetimes
