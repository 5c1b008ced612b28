import Mathlib
import Bugat.Core.LockFreeQueueSteps
import Bugat.Lib.Transition

/-!
# Runs of a LockFreeQueue

The invariants of the memory and of the history give what `Push` and `Pop` promise, for
the runs whose steps are `Safe`. The other runs are real: the exchange of a `Push` that
has stalled can link its node behind one that a `Pop` has freed.
-/

open scoped BigOperators

namespace Bugat.LockFree.Queue

open Threads (Holds)
open Transition (exec Along)

variable {α Tid : Type*} [Fintype Tid] [DecidableEq Tid] {s s' : State α Tid}

def SafeStep (s : State α Tid) (l : Tid × Action α) : Prop := Safe s.shared (s.thread l.1) l.2

def Quiescent (s : State α Tid) : Prop := ∀ t, s.thread t = .idle

structure QueueOk (s : State α Tid) : Prop where
  /-- Each pop returns a pushed value, and no two return the same. -/
  once : s.shared.returned.Nodup ∧ ∀ r ∈ s.shared.returned, ∃ x ∈ s.shared.called, r = some x
  /-- Between the calls the pushed values are the returned ones and those in the queue. -/
  quiescent : Quiescent s →
    (s.shared.returned ++ s.shared.mem.content).Perm (s.shared.pushed.map some) ∧
    s.shared.mem.size = s.shared.mem.content.length ∧
    s.shared.mem.tail.ptr ∈ s.shared.mem.nodes
  /-- A value whose `Push` returned before that of `y` was called is popped before `y`. -/
  fifo : ∀ x y, x ∈ s.shared.pushed.take y.after → some y ∈ s.shared.popped →
    [some x, some y].Sublist s.shared.popped
  /-- The queue was empty at some time during each `Pop` that returned false. -/
  misses : ∀ m ∈ s.shared.misses, m.since ≤ m.emptyAt

structure Reached (s : State α Tid) : Prop where
  holds : Holds (fun g u => Inv g u ∧ Timely u) Assert Apart s
  balanced : Balanced s
  recorded : Recorded s.shared

omit [DecidableEq Tid] in
theorem init_reached {b : Addr} (hb : b ≠ 0) : Reached (init b : State α Tid) where
  holds := by
    refine ⟨⟨⟨[b], []⟩, ⟨⟨Memory.construct_good hb, rfl, rfl, rfl, rfl, nofun⟩,
      ⟨fun _ => rfl, le_rfl⟩⟩, fun _ => trivial⟩, fun _ _ _ => nofun⟩
  balanced := init_balanced b
  recorded := ⟨rfl, nofun, nofun, .nil⟩

theorem Reached.step {l : Tid × Action α} (h : Reached s) (hsafe : SafeStep s l)
    (hs : step s l = some s') : Reached s' := by
  have hholds := h.holds.step act_sound (fun _ _ => Apart.symm) hsafe hs
  obtain ⟨u, pc, hact, rfl⟩ := Threads.step_eq_some.mp hs
  obtain ⟨⟨v, qc⟩, hadv, heq⟩ := Option.map_eq_some_iff.mp hact
  obtain ⟨rfl, rfl⟩ := Prod.mk.inj heq
  have hlog := advance_logged hadv
  have hrecorded : Recorded v := h.recorded.step (fun _ => h.balanced.pushed_linked)
    (fun _ => h.balanced.linked_called)
    (fun _ hx => (h.balanced.not_linked h.recorded.called_nodup hx).2) hlog
  exact ⟨hholds, h.balanced.step hlog, hrecorded.congr rfl rfl rfl⟩

omit [DecidableEq Tid] in
theorem Reached.linked_nodup (h : Reached s) : s.shared.linked.Nodup := by
  have hnodup := h.recorded.called_nodup
  rw [← Multiset.coe_nodup, h.balanced.called, Multiset.nodup_add] at hnodup
  exact hnodup.1

omit [DecidableEq Tid] in
theorem Reached.popped_append_content (h : Reached s) :
    s.shared.popped ++ s.shared.mem.content = s.shared.linked.map some := by
  obtain ⟨g, ⟨hinv, -⟩, -⟩ := h.holds.asserted
  rw [hinv.good.content_eq]
  exact hinv.order

omit [DecidableEq Tid] in
theorem Reached.once (h : Reached s) :
    s.shared.returned.Nodup ∧ ∀ r ∈ s.shared.returned, ∃ x ∈ s.shared.called, r = some x := by
  have hlinked : (s.shared.linked.map some).Nodup :=
    h.linked_nodup.map (Option.some_injective _)
  have hpopped : s.shared.popped.Nodup := by
    rw [← h.popped_append_content] at hlinked
    exact hlinked.of_append_left
  have hle : (s.shared.returned : Multiset (Option (Item α))) ≤ s.shared.popped := by
    rw [h.balanced.popped]
    exact Multiset.le_add_right _ _
  refine ⟨Multiset.coe_nodup.mp (Multiset.nodup_of_le hle (Multiset.coe_nodup.mpr hpopped)),
    fun r hr => ?_⟩
  have hmem : r ∈ s.shared.linked.map some := by
    rw [← h.popped_append_content]
    exact List.mem_append_left _ (Multiset.mem_coe.mp (Multiset.mem_of_le hle hr))
  obtain ⟨x, hx, rfl⟩ := List.mem_map.mp hmem
  exact ⟨x, h.balanced.linked_called hx, rfl⟩

omit [DecidableEq Tid] in
theorem Reached.quiescent (h : Reached s) (hq : Quiescent s) :
    (s.shared.returned ++ s.shared.mem.content).Perm (s.shared.pushed.map some) ∧
      s.shared.mem.size = s.shared.mem.content.length ∧
      s.shared.mem.tail.ptr ∈ s.shared.mem.nodes := by
  have hunreturned : ∑ t, (s.thread t).phase.unreturned = 0 :=
    Finset.sum_eq_zero fun t _ => by rw [hq t]; rfl
  have hheld : ∑ t, (s.thread t).phase.held = 0 :=
    Finset.sum_eq_zero fun t _ => by rw [hq t]; rfl
  have huncounted : ∑ t, (s.thread t).phase.uncounted = 0 :=
    Finset.sum_eq_zero fun t _ => by rw [hq t]; rfl
  have hlinked := h.balanced.linked
  have hpopped := h.balanced.popped
  have hsize := h.balanced.size
  rw [hunreturned, add_zero] at hlinked
  rw [hheld, add_zero] at hpopped
  rw [huncounted, add_zero] at hsize
  have hperm : (s.shared.returned ++ s.shared.mem.content).Perm (s.shared.pushed.map some) :=
    calc (s.shared.returned ++ s.shared.mem.content).Perm
          (s.shared.popped ++ s.shared.mem.content) :=
            (Multiset.coe_eq_coe.mp hpopped).symm.append_right _
      _ = s.shared.linked.map some := h.popped_append_content
      _ |>.Perm (s.shared.pushed.map some) := (Multiset.coe_eq_coe.mp hlinked).map some
  refine ⟨hperm, ?_, ?_⟩
  · have hlength := hperm.length_eq
    simp only [List.length_append, List.length_map] at hlength
    omega
  · obtain ⟨g, ⟨hinv, -⟩, -⟩ := h.holds.asserted
    rw [hinv.good.nodes_eq]
    exact hinv.good.tail

omit [DecidableEq Tid] in
theorem Reached.fifo (h : Reached s) {x y : Item α} (hx : x ∈ s.shared.pushed.take y.after)
    (hy : some y ∈ s.shared.popped) : [some x, some y].Sublist s.shared.popped := by
  obtain ⟨out, rest, hlinked, hpopped, -⟩ := List.map_eq_append_iff.mp h.popped_append_content.symm
  rw [← hpopped] at hy ⊢
  obtain ⟨y', hy', heq⟩ := List.mem_map.mp hy
  obtain rfl := Option.some.inj heq
  obtain ⟨before, later, rfl⟩ := List.append_of_mem hy'
  have horder := h.recorded.order
  have hxlinked : x ∈ s.shared.linked := h.balanced.pushed_linked (List.mem_of_mem_take hx)
  have hycalled : y' ∈ s.shared.called := by
    refine h.balanced.linked_called ?_
    rw [hlinked]
    exact List.mem_append_left _ hy'
  rw [hlinked, List.append_assoc, List.cons_append] at horder hxlinked
  have hafter := (List.pairwise_cons.mp (List.pairwise_append.mp horder).2.1).1
  have hbefore : x ∈ before := by
    rcases List.mem_append.mp hxlinked with hmem | hmem
    · exact hmem
    · rcases List.mem_cons.mp hmem with rfl | hmem
      · exact absurd hx (h.recorded.self x hycalled)
      · exact absurd hx (hafter x hmem)
  have hpair : [x, y'].Sublist (before ++ y' :: later) :=
    (List.singleton_sublist.mpr hbefore).append
      (List.singleton_sublist.mpr List.mem_cons_self)
  exact hpair.map some

omit [DecidableEq Tid] in
theorem Reached.queueOk (h : Reached s) : QueueOk s where
  once := h.once
  quiescent := h.quiescent
  fifo _ _ := h.fifo
  misses := by
    obtain ⟨g, ⟨hinv, -⟩, -⟩ := h.holds.asserted
    exact hinv.misses

theorem queue_ok_of_safe (b : Addr) (hb : b ≠ 0) (ls : List (Tid × Action α)) (s : State α Tid)
    (hsafe : Along SafeStep step (init b) ls) (hrun : exec step (init b) ls = some s) :
    QueueOk s :=
  (Transition.exec_invariant_along (fun _ _ _ h hok hs => h.step hok hs) (init_reached hb) hsafe
    hrun).queueOk

section Runs

instance (u : Shared α) (pc : Pc α) (a : Action α) : Decidable (Safe u pc a) := by
  unfold Safe
  split <;> infer_instance

instance (s : State α Tid) (l : Tid × Action α) : Decidable (SafeStep s l) :=
  inferInstanceAs (Decidable (Safe _ _ _))

inductive Caller
  | first
  | second
  deriving DecidableEq

instance : Fintype Caller where
  elems := {.first, .second}
  complete c := by cases c <;> decide

instance (s : State ℕ Caller) : Decidable (Quiescent s) :=
  inferInstanceAs (Decidable (∀ _, _))

def steps (t : Caller) (n : ℕ) : List (Caller × Action ℕ) := List.replicate n (t, .go false)

def pushFresh (t : Caller) (v : ℕ) (a : Addr) : List (Caller × Action ℕ) :=
  [(t, .push v), (t, .go false), (t, .fresh a)]

def race : List (Caller × Action ℕ) :=
  pushFresh .first 7 2 ++ steps .first 4 ++ pushFresh .second 8 3 ++ steps .second 4 ++
    steps .first 1 ++ steps .second 9 ++ steps .first 2 ++ steps .second 2 ++ [(.first, .pop)] ++
    steps .first 10 ++ [(.second, .pop)] ++ steps .second 11 ++ [(.second, .pop)] ++
    steps .second 4 ++ steps .first 3 ++ [(.first, .push 9)] ++ steps .first 10

theorem race_ok : ∃ s : State ℕ Caller, exec step (init 1) race = some s ∧ QueueOk s ∧
    Quiescent s ∧ s.shared.pushed.map Item.value = [7, 8, 9] ∧
    s.shared.returned.map (Option.map Item.value) = [some 8, some 7] ∧
    s.shared.mem.nodes = [3, 1] ∧ s.shared.misses = [⟨51, 55⟩] := by
  have h : (exec step (init 1 : State ℕ Caller) race).map (fun s => decide
      (Quiescent s ∧ s.shared.pushed.map Item.value = [7, 8, 9] ∧
        s.shared.returned.map (Option.map Item.value) = [some 8, some 7] ∧
        s.shared.mem.nodes = [3, 1] ∧ s.shared.misses = [⟨51, 55⟩])) = some true := by
    decide +kernel
  obtain ⟨s, hrun, hs⟩ := Option.map_eq_some_iff.mp h
  exact ⟨s, hrun, queue_ok_of_safe 1 (by decide) race s (by decide +kernel) hrun,
    of_decide_eq_true hs⟩

/-- The first push stalls in front of its exchange. The second goes through, its value is
popped, and the dummy that the first push is going to link behind is freed. -/
def stalled : List (Caller × Action ℕ) :=
  pushFresh .first 7 2 ++ steps .first 4 ++ pushFresh .second 8 3 ++ steps .second 7 ++
    [(.second, .pop)] ++ steps .second 11 ++ steps .first 3

theorem stalled_loses_value : ∃ s : State ℕ Caller, exec step (init 1) stalled = some s ∧
    Quiescent s ∧ s.shared.pushed.map Item.value = [8, 7] ∧
    s.shared.returned.map (Option.map Item.value) = [some 8] ∧ s.shared.mem.content = [] ∧
    s.shared.mem.size = 1 ∧ ¬ QueueOk s := by
  have h : (exec step (init 1 : State ℕ Caller) stalled).map (fun s => decide
      (Quiescent s ∧ s.shared.pushed.map Item.value = [8, 7] ∧
        s.shared.returned.map (Option.map Item.value) = [some 8] ∧ s.shared.mem.content = [] ∧
        s.shared.mem.size = 1)) = some true := by
    decide +kernel
  obtain ⟨s, hrun, hs⟩ := Option.map_eq_some_iff.mp h
  obtain ⟨hq, hpushed, hreturned, hcontent, hsize⟩ := of_decide_eq_true hs
  refine ⟨s, hrun, hq, hpushed, hreturned, hcontent, hsize, fun hok => ?_⟩
  have hcount := (hok.quiescent hq).2.1
  rw [hsize, hcontent] at hcount
  exact absurd hcount (by decide)

end Runs

end Bugat.LockFree.Queue
