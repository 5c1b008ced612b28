import Mathlib
import Bugat.Base.ContextFair

/-!
# Endless runs of a Context

The swap counter names every slot again and again, so a queue leaves its slot, waits, and is
drained. What is in a queue at some time comes out of it in order.
-/

open scoped BigOperators

namespace Bugat.Context

open Fairness (Run eventually_of_rank)
open WorkerPc (hand)

variable {n : ℕ} {Tid Pid Obj : Type*} [DecidableEq Tid] [DecidableEq Pid] [NeZero n]
  [Fintype Tid] {s s' : State n Tid Pid Obj} {l : Label Tid Pid Obj} {t : Tid}
  {r : Run (@step n Tid Pid Obj _ _ _)} {m : ℕ}

section Slots

omit [Fintype Tid] in
theorem counter_cases (hs : step s l = some s') :
    (s'.swapCounter = s.swapCounter ∧ ∀ u, l ≠ .swapIndex u) ∨
    ∃ u localQue, s'.worker u = .load localQue (slotIndex s.swapCounter) ∧
      s'.swapCounter = (s.swapCounter + 1) % 2 ^ 32 := by
  cases l with
  | swapIndex t =>
    simp only [step] at hs
    split at hs
    · rename_i localQue hworker
      obtain rfl := Option.some.inj hs
      refine .inr ⟨t, localQue, ?_, rfl⟩
      simp only [State.swapIndex, State.setWorker, Function.update_self]
    · cases hs
  | enter t a =>
    simp only [step] at hs
    split at hs
    · split at hs
      · cases hs
      · obtain rfl := Option.some.inj hs
        exact .inl ⟨rfl, by simp⟩
    · cases hs
  | testStop t =>
    simp only [step] at hs
    split at hs
    · split at hs
      · obtain rfl := Option.some.inj hs
        exact .inl ⟨rfl, by simp⟩
      split at hs <;> obtain rfl := Option.some.inj hs <;> exact .inl ⟨rfl, by simp⟩
    · cases hs
  | exchange t =>
    simp only [step] at hs
    split at hs
    · obtain rfl := Option.some.inj hs
      rw [State.exchange]
      split <;> exact .inl ⟨rfl, by simp⟩
    · cases hs
  | pop t =>
    simp only [step] at hs
    split at hs
    · obtain rfl := Option.some.inj hs
      rw [State.pop]
      split <;> exact .inl ⟨rfl, by simp⟩
    · cases hs
  | popObject t =>
    simp only [step] at hs
    split at hs
    · obtain rfl := Option.some.inj hs
      rw [State.popObject]
      split <;> exact .inl ⟨rfl, by simp⟩
    · cases hs
  | delete t =>
    simp only [step] at hs
    split at hs
    · obtain rfl := Option.some.inj hs
      exact .inl ⟨rfl, by simp⟩
    · obtain rfl := Option.some.inj hs
      exact .inl ⟨rfl, by simp⟩
    · cases hs
  | load t | push t | objectRuns t k | objectThrows t | post t obj | postLoad t | postPush t =>
    simp only [step] at hs
    split at hs
    · obtain rfl := Option.some.inj hs
      exact .inl ⟨rfl, by simp⟩
    · cases hs
  | stop =>
    obtain rfl := Option.some.inj hs
    exact .inl ⟨rfl, by simp⟩

variable [Fintype Pid] {i : Fin n} {a : Addr}

def State.distance (s : State n Tid Pid Obj) (i : Fin n) : ℕ :=
  (i + 2 ^ 32 - s.swapCounter) % 2 ^ 32

omit [DecidableEq Tid] [DecidableEq Pid] [NeZero n] [Fintype Tid] [Fintype Pid] in
theorem initializeContext_swapCounter :
    (initializeContext n : State n Tid Pid Obj).swapCounter = 0 := by
  have hloop : ∀ (todo : List (Fin n)) (s : State n Tid Pid Obj),
      (todo.foldl State.initSlot s).swapCounter = s.swapCounter := by
    intro todo
    induction todo with
    | nil => exact fun s => rfl
    | cons i todo ih => exact fun s => ih (s.initSlot i)
  exact hloop (List.finRange n) construct

namespace FairRun

omit [Fintype Tid] [Fintype Pid] in
theorem counter_lt (h : FairRun r) (m : ℕ) : (r.state m).swapCounter < 2 ^ 32 := by
  induction m with
  | zero =>
    rw [h.start, initializeContext_swapCounter]
    exact Nat.two_pow_pos 32
  | succ m ih =>
    obtain ⟨hsame, -⟩ | ⟨u, localQue, -, hnext⟩ := counter_cases (r.next m)
    · rw [hsame]
      exact ih
    · rw [hnext]
      exact Nat.mod_lt _ (Nat.two_pow_pos 32)

theorem slot_named (h : FairRun r) (hn : n ≤ 2 ^ 32) (hin : (r.state m).worker t ≠ .outside)
    (i : Fin n) : ∃ k ≥ m, ∃ u localQue, (r.state k).worker u = .load localQue i := by
  refine eventually_of_rank (P := fun j => (r.state j).worker t ≠ .outside)
    (E := fun j => r.label j = .swapIndex t) (fun j => (r.state j).distance i) hin
    (fun hstays k hk => ?_) (fun j hj hinside => ?_)
  · obtain ⟨j, hj, hlabel, -⟩ := h.swaps_again (hstays k hk)
    exact ⟨j, hj, hlabel⟩
  · have hlt := h.counter_lt j
    have hi := i.isLt
    have hstill := h.inside hinside (Nat.le_succ j)
    obtain ⟨hsame, hne⟩ | ⟨u, localQue, hload, hnext⟩ := counter_cases (r.next j)
    · refine .inr ⟨hstill, by rw [State.distance, State.distance, hsame], fun hlabel => ?_⟩
      exact absurd hlabel (hne t)
    · by_cases hnamed : (r.state j).swapCounter = i
      · rw [hnamed] at hload
        have hself : slotIndex (i : ℕ) = i := Fin.ofNat_val_eq_self i
        exact .inl ⟨u, localQue, hself ▸ hload⟩
      · refine .inr ⟨hstill, ?_, fun _ => ?_⟩
        · rw [State.distance, State.distance, hnext]
          omega
        · rw [State.distance, State.distance, hnext]
          omega

theorem slot_leaves (h : FairRun r) (hn : n ≤ 2 ^ 32) (hin : (r.state m).worker t ≠ .outside)
    (i : Fin n) (a : Addr) : ∃ k ≥ m, (r.state k).globalQue i ≠ some a := by
  obtain ⟨k, hk, u, localQue, hload⟩ := h.slot_named hn hin i
  obtain ⟨k₁, hk₁, expect, hexchange⟩ := h.from_load hload
  obtain ⟨j, hj, hhand, hque, -⟩ := h.from_exchange hexchange
  by_cases ha : localQue = some a
  · exact ⟨j, by omega, (h.active j).kept.owned.slot_ne_hand i (hhand.trans ha)⟩
  · refine ⟨j + 1, by omega, ?_⟩
    rw [hque, Function.update_self]
    exact ha

theorem slot_waits (h : FairRun r) (hn : n ≤ 2 ^ 32) (hin : (r.state m).worker t ≠ .outside)
    (ha : (r.state m).globalQue i = some a) : ∃ k ≥ m, some a ∈ (r.state k).waitQue := by
  obtain ⟨k, hk, hleft⟩ := h.slot_leaves hn hin i a
  obtain ⟨j, hj, -, hslot, hlost⟩ :=
    r.first_loss (P := fun s => s.globalQue i = some a) ha hk hleft
  have hswapped : ∃ u localQue, (r.state (j + 1)).worker u = .push localQue (some a) := by
    cases step_move (r.next j) with
    | stay hque | keep _ _ hque | enter _ _ _ _ hque | push _ _ _ _ hque | pop _ _ _ _ hque
    | delete _ _ _ hque =>
      exact absurd (hque ▸ hslot) hlost
    | exchange u localQue i' hpc hque hwait hlive hworker =>
      by_cases hi : i = i'
      · subst hi
        exact ⟨u, localQue, by rw [hworker, Function.update_self, hslot]⟩
      · rw [hque, Function.update_of_ne hi] at hlost
        exact absurd hslot hlost
    | popFails u localQue hpc hwait =>
      exact absurd hwait ((h.active j).kept.owned.wait_ne_nil hpc)
  obtain ⟨u, localQue, hpush⟩ := hswapped
  obtain ⟨k', hk', hwait, -⟩ := h.from_push hpush
  refine ⟨k' + 1, by omega, ?_⟩
  rw [hwait]
  exact List.mem_append_right _ (List.mem_singleton_self _)

end FairRun

omit [Fintype Pid] in
theorem pop_label (hown : Owned s) (hs : step s (.pop t) = some s') :
    ∃ q, s.waitQue = q :: s'.waitQue ∧ s'.worker t = .drain q 0 := by
  simp only [step] at hs
  split at hs
  · rename_i localQue hpc
    obtain rfl := Option.some.inj hs
    rw [State.pop]
    split
    · rename_i hwait
      exact absurd hwait (hown.wait_ne_nil hpc)
    · rename_i q rest hwait
      exact ⟨q, hwait, setWorker_self ..⟩
  · cases hs

omit [Fintype Pid] in
theorem wait_cases (hown : Owned s) (hs : step s l = some s') :
    (∃ new, s'.waitQue = s.waitQue ++ new ∧ ∀ u, l ≠ .pop u) ∨
      ∃ u q, s.waitQue = q :: s'.waitQue ∧ s'.worker u = .drain q 0 := by
  by_cases hpop : ∃ u, l = .pop u
  · obtain ⟨u, rfl⟩ := hpop
    obtain ⟨q, hwait, hworker⟩ := pop_label hown hs
    exact .inr ⟨u, q, hwait, hworker⟩
  · push Not at hpop
    cases step_move hs with
    | stay _ hwait | keep _ _ _ hwait | enter _ _ _ _ _ hwait | exchange _ _ _ _ _ hwait
    | delete _ _ _ _ hwait =>
      exact .inl ⟨[], by rw [hwait, List.append_nil], hpop⟩
    | push u localQue expect hpc hque hwait => exact .inl ⟨[expect], hwait, hpop⟩
    | pop u localQue q hpc hque hwait hlive hworker =>
      exact .inr ⟨u, q, hwait, by rw [hworker, Function.update_self]⟩
    | popFails u localQue hpc hwait => exact absurd hwait (hown.wait_ne_nil hpc)

namespace FairRun

theorem wait_drained (h : FairRun r) (hin : (r.state m).worker t ≠ .outside)
    (ha : some a ∈ (r.state m).waitQue) :
    ∃ k ≥ m, ∃ u, (r.state k).worker u = .drain (some a) 0 := by
  refine eventually_of_rank
    (P := fun j => (r.state j).worker t ≠ .outside ∧ some a ∈ (r.state j).waitQue)
    (E := fun j => r.label j = .pop t) (fun j => (r.state j).waitQue.idxOf (some a))
    ⟨hin, ha⟩ (fun hstays k hk => ?_) (fun j hj hP => ?_)
  · exact h.pops_again (hstays k hk).1
  · obtain ⟨hinside, hmem⟩ := hP
    have hstill := h.inside hinside (Nat.le_succ j)
    obtain ⟨new, hwait, hne⟩ | ⟨u, q, hwait, hworker⟩ :=
      wait_cases (h.active j).kept.owned (r.next j)
    · refine .inr ⟨⟨hstill, ?_⟩, ?_, fun hlabel => absurd hlabel (hne t)⟩
      · rw [hwait]
        exact List.mem_append_left _ hmem
      · rw [hwait, List.idxOf_append_of_mem hmem]
    · by_cases hq : q = some a
      · exact .inl ⟨u, hq ▸ hworker⟩
      · rw [hwait, List.mem_cons] at hmem
        have hidx : (r.state j).waitQue.idxOf (some a) =
            (r.state (j + 1)).waitQue.idxOf (some a) + 1 := by
          rw [hwait, List.idxOf_cons_ne _ hq]
        exact .inr ⟨⟨hstill, hmem.resolve_left (Ne.symm hq)⟩, by omega, fun _ => by omega⟩

theorem slot_drained (h : FairRun r) (hn : n ≤ 2 ^ 32) (hin : (r.state m).worker t ≠ .outside)
    (ha : (r.state m).globalQue i = some a) :
    ∃ k ≥ m, ∃ u, (r.state k).worker u = .drain (some a) 0 := by
  obtain ⟨k, hk, hwait⟩ := h.slot_waits hn hin ha
  obtain ⟨j, hj, hdrain⟩ := h.wait_drained (h.inside hin hk) hwait
  exact ⟨j, by omega, hdrain⟩

theorem exchange_drained (h : FairRun r) (hn : n ≤ 2 ^ 32) {expect : Option Addr}
    (ht : (r.state m).worker t = .exchange (some a) i expect) :
    ∃ k ≥ m, ∃ u, (r.state k).worker u = .drain (some a) 0 := by
  obtain ⟨k, hk, -, hque, hpush⟩ := h.from_exchange ht
  have hin : (r.state (k + 1)).worker t ≠ .outside := by
    rw [hpush]
    simp
  obtain ⟨j, hj, hdrain⟩ := h.slot_drained hn hin (by rw [hque, Function.update_self])
  exact ⟨j, by omega, hdrain⟩

theorem load_drained (h : FairRun r) (hn : n ≤ 2 ^ 32)
    (ht : (r.state m).worker t = .load (some a) i) :
    ∃ k ≥ m, ∃ u, (r.state k).worker u = .drain (some a) 0 := by
  obtain ⟨k, hk, expect, hexchange⟩ := h.from_load ht
  obtain ⟨j, hj, hdrain⟩ := h.exchange_drained hn hexchange
  exact ⟨j, by omega, hdrain⟩

theorem swapIndex_drained (h : FairRun r) (hn : n ≤ 2 ^ 32)
    (ht : (r.state m).worker t = .swapIndex (some a)) :
    ∃ k ≥ m, ∃ u, (r.state k).worker u = .drain (some a) 0 := by
  obtain ⟨k, hk, -, hload⟩ := h.from_swapIndex ht
  obtain ⟨j, hj, hdrain⟩ := h.load_drained hn hload
  exact ⟨j, by omega, hdrain⟩

theorem top_drained (h : FairRun r) (hn : n ≤ 2 ^ 32)
    (ht : (r.state m).worker t = .top (some a)) :
    ∃ k ≥ m, ∃ u, (r.state k).worker u = .drain (some a) 0 := by
  obtain ⟨k, hk, hswap⟩ := h.from_top ht
  obtain ⟨j, hj, hdrain⟩ := h.swapIndex_drained hn hswap
  exact ⟨j, by omega, hdrain⟩

end FairRun

omit [Fintype Pid] [DecidableEq Pid] [DecidableEq Tid] [NeZero n] in
theorem Owned.place (hown : Owned s) (ha : a ∈ s.live) : (∃ i, s.globalQue i = some a) ∨
    some a ∈ s.waitQue ∨ ∃ u, (s.worker u).hand = some a := by
  by_contra hnone
  push Not at hnone
  obtain ⟨hslot, hwait, hhand⟩ := hnone
  have hone := hown.places a
  have hslots : ∑ i, pointsTo a (s.globalQue i) = 0 :=
    Finset.sum_eq_zero fun i _ => if_neg (hslot i)
  have hhands : ∑ u, pointsTo a (hand (s.worker u)) = 0 :=
    Finset.sum_eq_zero fun u _ => if_neg (hhand u)
  rw [if_pos ha, State.places, hslots, hhands, List.count_eq_zero.mpr hwait] at hone
  cases hone

namespace FairRun

theorem drains_again (h : FairRun r) (hn : n ≤ 2 ^ 32) (hin : (r.state m).worker t ≠ .outside)
    (ha : a ∈ (r.state m).live) :
    ∃ k ≥ m, ∃ u, (r.state k).worker u = .drain (some a) 0 := by
  obtain ⟨i, hi⟩ | hwait | ⟨u, hhand⟩ := (h.active m).kept.owned.place ha
  · exact h.slot_drained hn hin hi
  · exact h.wait_drained hin hwait
  · have hdrains : ∀ count, (r.state m).worker u = .drain (some a) count ∨
        (r.state m).worker u = .execute (some a) count →
        ∃ k ≥ m, ∃ v, (r.state k).worker v = .drain (some a) 0 := by
      intro count hpc
      obtain ⟨k, hk, htop⟩ := h.from_drain hpc
      obtain ⟨j, hj, hdrain⟩ := h.top_drained hn htop
      exact ⟨j, by omega, hdrain⟩
    cases hpc : (r.state m).worker u with
    | outside | pop =>
      rw [hpc] at hhand
      cases hhand
    | top localQue =>
      rw [hpc] at hhand
      exact h.top_drained hn (hpc.trans (congrArg WorkerPc.top hhand))
    | swapIndex localQue =>
      rw [hpc] at hhand
      exact h.swapIndex_drained hn (hpc.trans (congrArg WorkerPc.swapIndex hhand))
    | load localQue i =>
      rw [hpc] at hhand
      exact h.load_drained hn (hpc.trans (congrArg (WorkerPc.load · i) hhand))
    | exchange localQue i expect =>
      rw [hpc] at hhand
      exact h.exchange_drained hn (hpc.trans (congrArg (WorkerPc.exchange · i expect) hhand))
    | push localQue expect =>
      obtain ⟨k, hk, hwait, -⟩ := h.from_push hpc
      have hmem : some a ∈ (r.state (k + 1)).waitQue := by
        rw [hpc] at hhand
        rw [hwait, ← hhand]
        exact List.mem_append_right _ (List.mem_singleton_self _)
      obtain ⟨j, hj, hdrain⟩ := h.wait_drained (h.inside hin (by omega)) hmem
      exact ⟨j, by omega, hdrain⟩
    | drain localQue count =>
      rw [hpc] at hhand
      exact hdrains count (.inl (hpc.trans (congrArg (WorkerPc.drain · count) hhand)))
    | execute localQue count =>
      rw [hpc] at hhand
      exact hdrains count (.inr (hpc.trans (congrArg (WorkerPc.execute · count) hhand)))
    | stopped localQue =>
      have hdoomed := (h.active m).undoomed u
      rw [hpc] at hdoomed hhand
      exact absurd (hdoomed.symm.trans hhand) (by simp)

end FairRun

end Slots

def taken (s : State n Tid Pid Obj) (l : Label Tid Pid Obj) (a : Addr) : List (Option Obj) :=
  match l with
  | .popObject t =>
    match s.worker t with
    | .drain (some b) _ => if b = a then (s.content b).take 1 else []
    | _ => []
  | _ => []

def popped (r : Run (@step n Tid Pid Obj _ _ _)) (a : Addr) (m : ℕ) :
    ℕ → List (Option Obj)
  | 0 => []
  | d + 1 => popped r a m d ++ taken (r.state (m + d)) (r.label (m + d)) a

section Entries

variable {a : Addr}

omit [DecidableEq Pid] [NeZero n] [Fintype Tid] in
theorem popObject_content {b : Addr} {count : ℕ} (s : State n Tid Pid Obj) (t : Tid) :
    (s.popObject t b count).content =
      Function.update s.content b ((s.content b).drop 1) := by
  rw [State.popObject]
  split
  · rename_i hempty
    rw [hempty, List.drop_nil, ← hempty, Function.update_eq_self]
    rfl
  · rename_i rest hcons
    rw [hcons]
    rfl
  · rename_i obj rest hcons
    rw [hcons]
    rfl

theorem taken_append (ha : a ∈ s.live) (hs : step s l = some s') :
    ∃ new, taken s l a ++ s'.content a = s.content a ++ new := by
  by_cases hpop : ∃ t, l = .popObject t
  · obtain ⟨t, rfl⟩ := hpop
    refine ⟨[], ?_⟩
    simp only [step] at hs
    split at hs
    · rename_i b count hpc
      obtain rfl := Option.some.inj hs
      rw [popObject_content, List.append_nil]
      simp only [taken, hpc]
      split
      · rename_i hba
        subst hba
        rw [Function.update_self, List.take_append_drop]
      · rename_i hba
        rw [Function.update_of_ne (Ne.symm hba), List.nil_append]
    · cases hs
  · push Not at hpop
    have htaken : taken s l a = [] := by
      cases l with
      | popObject t => exact absurd rfl (hpop t)
      | _ => rfl
    rw [htaken, List.nil_append]
    cases step_flow hs with
    | quiet _ hcontent | delete _ _ _ _ hcontent | post _ _ _ _ _ _ hcontent =>
      exact ⟨[], by rw [hcontent, List.append_nil]⟩
    | enter b hb hlive hcontent =>
      rw [hcontent, Function.update_of_ne (ne_of_mem_of_not_mem ha hb)]
      exact ⟨[], (List.append_nil _).symm⟩
    | popObject t b count x rest hl => exact absurd hl (hpop t)
    | push p b obj hl hpush hlive hcontent =>
      rw [hcontent]
      by_cases hba : a = b
      · subst hba
        exact ⟨[obj], Function.update_self ..⟩
      · rw [Function.update_of_ne hba]
        exact ⟨[], (List.append_nil _).symm⟩

theorem Active.live_step (h : Active s) (ha : a ∈ s.live) (hs : step s l = some s') :
    a ∈ s'.live := by
  cases step_flow hs with
  | quiet hlive | popObject _ _ _ _ _ _ _ _ hlive | post _ _ _ _ _ hlive
  | push _ _ _ _ _ hlive =>
    rwa [hlive]
  | enter b hb hlive =>
    rw [hlive]
    exact Finset.mem_insert_of_mem ha
  | delete t b hworker =>
    have hdoomed := h.undoomed t
    rw [hworker] at hdoomed
    cases hdoomed

namespace FairRun

theorem live (h : FairRun r) (ha : a ∈ (r.state m).live) {k : ℕ} (hk : m ≤ k) :
    a ∈ (r.state k).live := by
  induction k, hk using Nat.le_induction with
  | base => exact ha
  | succ k _ ih => exact (h.active k).live_step ih (r.next k)

theorem popped_append (h : FairRun r) (ha : a ∈ (r.state m).live) (d : ℕ) :
    ∃ new, popped r a m d ++ (r.state (m + d)).content a = (r.state m).content a ++ new := by
  induction d with
  | zero => exact ⟨[], by simp [popped]⟩
  | succ d ih =>
    obtain ⟨new, hnew⟩ := ih
    obtain ⟨new', hnew'⟩ := taken_append (h.live ha (Nat.le_add_right m d)) (r.next (m + d))
    refine ⟨new ++ new', ?_⟩
    rw [popped, List.append_assoc, ← Nat.add_assoc, hnew', ← List.append_assoc, hnew,
      List.append_assoc]

variable [Fintype Pid]

theorem entry_taken (h : FairRun r) (hn : n ≤ 2 ^ 32) (hin : (r.state m).worker t ≠ .outside)
    (ha : a ∈ (r.state m).live) (hentry : (r.state m).content a ≠ []) :
    ∃ k ≥ m, taken (r.state k) (r.label k) a ≠ [] := by
  by_contra hnone
  push Not at hnone
  have hstays : ∀ d, (r.state (m + d)).content a ≠ [] := by
    intro d
    induction d with
    | zero => exact hentry
    | succ d ih =>
      obtain ⟨new, hnew⟩ := taken_append (h.live ha (Nat.le_add_right m d)) (r.next (m + d))
      rw [hnone _ (Nat.le_add_right m d), List.nil_append] at hnew
      rw [← add_assoc, hnew]
      exact fun hnil => ih (List.append_eq_nil_iff.mp hnil).1
  obtain ⟨k, hk, u, hdrain⟩ := h.drains_again hn hin ha
  obtain ⟨j, hj, pc', hpc, -, hstep⟩ := h.own_step hdrain (by simp)
  obtain ⟨d, rfl⟩ := Nat.exists_eq_add_of_le (show m ≤ j by omega)
  have htaken := hnone (m + d) (Nat.le_add_right m d)
  cases hstep with
  | drained _ _ hempty => exact hstays d hempty
  | skips _ _ rest hl hcons | takes _ _ obj rest hl hcons =>
    rw [hl] at htaken
    simp only [taken, hpc, hcons] at htaken
    cases htaken

omit [Fintype Tid] [Fintype Pid] in
theorem popped_stays {d e : ℕ}
    (hnone : ∀ i < e, taken (r.state (m + (d + i))) (r.label (m + (d + i))) a = []) :
    popped r a m (d + e) = popped r a m d := by
  induction e with
  | zero => rfl
  | succ e ih =>
    rw [← Nat.add_assoc, popped, hnone e (Nat.lt_succ_self e), List.append_nil]
    exact ih fun i hi => hnone i (Nat.lt_succ_of_lt hi)

omit [Fintype Tid] [Fintype Pid] [DecidableEq Tid] [DecidableEq Pid] [NeZero n] in
theorem taken_length_le (s : State n Tid Pid Obj) (l : Label Tid Pid Obj) (a : Addr) :
    (taken s l a).length ≤ 1 := by
  unfold taken
  split
  · split
    · split
      · exact List.length_take_le ..
      · exact Nat.zero_le 1
    · exact Nat.zero_le 1
  · exact Nat.zero_le 1

theorem popped_length (h : FairRun r) (hn : n ≤ 2 ^ 32) (hin : (r.state m).worker t ≠ .outside)
    (ha : a ∈ (r.state m).live) {j : ℕ} (hj : j ≤ ((r.state m).content a).length) :
    ∃ d, (popped r a m d).length = j := by
  induction j with
  | zero => exact ⟨0, rfl⟩
  | succ j ih =>
    obtain ⟨d, hd⟩ := ih (Nat.le_of_succ_le hj)
    obtain ⟨new, hnew⟩ := h.popped_append ha d
    have hlength := congrArg List.length hnew
    rw [List.length_append, List.length_append, hd] at hlength
    have hentry : (r.state (m + d)).content a ≠ [] := by
      intro hnil
      rw [hnil, List.length_nil] at hlength
      omega
    obtain ⟨k, hk, htaken⟩ := h.entry_taken hn (h.inside hin (Nat.le_add_right m d))
      (h.live ha (Nat.le_add_right m d)) hentry
    have hex : ∃ e, taken (r.state (m + (d + e))) (r.label (m + (d + e))) a ≠ [] := by
      obtain ⟨e, rfl⟩ := Nat.exists_eq_add_of_le hk
      exact ⟨e, by rwa [← Nat.add_assoc]⟩
    classical
    have hfirst := Nat.find_spec hex
    have hbefore := popped_stays (r := r) (m := m) (a := a) (d := d) (e := Nat.find hex) fun i hi =>
      not_not.mp (Nat.find_min hex hi)
    refine ⟨d + Nat.find hex + 1, ?_⟩
    have hone := taken_length_le (r.state (m + (d + Nat.find hex)))
      (r.label (m + (d + Nat.find hex))) a
    have hpos := List.length_pos_of_ne_nil hfirst
    rw [popped, List.length_append, hbefore, hd]
    omega

/-- Everything that is in a queue is popped by workers, in order. -/
theorem all_popped (h : FairRun r) (hn : n ≤ 2 ^ 32) (hin : (r.state m).worker t ≠ .outside)
    (ha : a ∈ (r.state m).live) : ∃ d, popped r a m d = (r.state m).content a := by
  obtain ⟨d, hd⟩ := h.popped_length hn hin ha le_rfl
  obtain ⟨new, hnew⟩ := h.popped_append ha d
  exact ⟨d, (List.append_inj hnew hd).1⟩

end FairRun

end Entries

section Runs

local instance one_slot : NeZero 1 := ⟨one_ne_zero⟩

def solo (s : State 1 Unit Unit ℕ) : Label Unit Unit ℕ :=
  match s.poster () with
  | .load _ _ => .postLoad ()
  | .push _ _ => .postPush ()
  | .idle =>
    if s.globalCounter = 0 then .post () (some 7)
    else match s.worker () with
      | .outside => .enter () s.freshAddr
      | .top _ => .testStop ()
      | .swapIndex _ => .swapIndex ()
      | .load _ _ => .load ()
      | .exchange _ _ _ => .exchange ()
      | .push _ _ => .push ()
      | .pop _ => .pop ()
      | .drain _ _ => .popObject ()
      | .execute _ _ => .objectRuns () 1
      | .stopped _ => .delete ()

def soloState : ℕ → State 1 Unit Unit ℕ
  | 0 => initializeContext 1
  | m + 1 => (step (soloState m) (solo (soloState m))).getD (soloState m)

omit [Fintype Tid] in
theorem worker_frame (hs : step s l = some s') (hl : l.actor = some t) :
    s'.stop = s.stop ∧ s'.poster = s.poster ∧ s'.globalCounter = s.globalCounter := by
  cases l with
  | post p obj | postLoad p | postPush p | stop => cases hl
  | enter u a =>
    simp only [step] at hs
    split at hs
    · split at hs
      · cases hs
      · obtain rfl := Option.some.inj hs
        exact ⟨rfl, rfl, rfl⟩
    · cases hs
  | testStop u =>
    simp only [step] at hs
    split at hs
    · split at hs
      · obtain rfl := Option.some.inj hs
        exact ⟨rfl, rfl, rfl⟩
      split at hs <;> obtain rfl := Option.some.inj hs <;> exact ⟨rfl, rfl, rfl⟩
    · cases hs
  | exchange u =>
    simp only [step] at hs
    split at hs
    · obtain rfl := Option.some.inj hs
      rw [State.exchange]
      split <;> exact ⟨rfl, rfl, rfl⟩
    · cases hs
  | pop u =>
    simp only [step] at hs
    split at hs
    · obtain rfl := Option.some.inj hs
      rw [State.pop]
      split <;> exact ⟨rfl, rfl, rfl⟩
    · cases hs
  | popObject u =>
    simp only [step] at hs
    split at hs
    · obtain rfl := Option.some.inj hs
      rw [State.popObject]
      split <;> exact ⟨rfl, rfl, rfl⟩
    · cases hs
  | delete u =>
    simp only [step] at hs
    split at hs
    · obtain rfl := Option.some.inj hs
      exact ⟨rfl, rfl, rfl⟩
    · obtain rfl := Option.some.inj hs
      exact ⟨rfl, rfl, rfl⟩
    · cases hs
  | swapIndex u | load u | push u | objectRuns u k | objectThrows u =>
    simp only [step] at hs
    split at hs
    · obtain rfl := Option.some.inj hs
      exact ⟨rfl, rfl, rfl⟩
    · cases hs

theorem solo_stop {s s' : State 1 Unit Unit ℕ} (hs : step s (solo s) = some s')
    (hne : solo s ≠ .stop) : s'.stop = s.stop := by
  generalize solo s = l at hs hne
  cases l with
  | post p obj | postLoad p | postPush p =>
    simp only [step] at hs
    split at hs
    · obtain rfl := Option.some.inj hs
      rfl
    · cases hs
  | stop => exact absurd rfl hne
  | enter t _ | testStop t | swapIndex t | load t | exchange t | push t | pop t | popObject t
  | objectRuns t _ | objectThrows t | delete t => exact (worker_frame hs rfl).1

theorem solo_enabled {s : State 1 Unit Unit ℕ} (h : Active s) (hrunning : s.stop = false) :
    (step s (solo s)).isSome ∧ solo s ≠ .stop := by
  have hholds := h.kept.owned.hands ()
  unfold solo
  cases hposter : s.poster () with
  | load i obj => exact ⟨by simp only [step, hposter]; rfl, by simp⟩
  | push que obj =>
    obtain ⟨a, -, rfl⟩ := h.kept.guarded.pushes () que obj hposter
    exact ⟨by simp only [step, hposter]; rfl, by simp⟩
  | idle =>
    dsimp only
    split
    · exact ⟨by simp only [step, hposter]; rfl, by simp⟩
    · cases hpc : s.worker () with
      | outside =>
        refine ⟨?_, by simp⟩
        simp only [step, hpc, if_neg s.freshAddr_notMem]
        rfl
      | top localQue =>
        refine ⟨?_, by simp⟩
        simp only [step, hpc, hrunning, Bool.false_eq_true, if_false]
        split <;> rfl
      | drain localQue count =>
        cases localQue with
        | none =>
          rw [hpc] at hholds
          exact absurd rfl hholds
        | some a => exact ⟨by simp only [step, hpc]; rfl, by simp⟩
      | stopped localQue => cases localQue <;> exact ⟨by simp only [step, hpc]; rfl, by simp⟩
      | swapIndex _ | load _ _ | exchange _ _ _ | push _ _ | pop _ | execute _ _ =>
        exact ⟨by simp only [step, hpc]; rfl, by simp⟩

theorem solo_active (m : ℕ) : Active (soloState m) ∧ (soloState m).stop = false ∧
    step (soloState m) (solo (soloState m)) = some (soloState (m + 1)) := by
  have hstep : ∀ m, Active (soloState m) → (soloState m).stop = false →
      step (soloState m) (solo (soloState m)) = some (soloState (m + 1)) := by
    intro m hactive hrunning
    obtain ⟨s', hs'⟩ := Option.isSome_iff_exists.mp (solo_enabled hactive hrunning).1
    rw [soloState, hs', Option.getD_some]
  induction m with
  | zero => exact ⟨initializeContext_active, rfl, hstep 0 initializeContext_active rfl⟩
  | succ m ih =>
    obtain ⟨hactive, hrunning, hnext⟩ := ih
    have hactive' := hactive.of_step hrunning hnext
    have hrunning' := (solo_stop hnext (solo_enabled hactive hrunning).2).trans hrunning
    exact ⟨hactive', hrunning', hstep _ hactive' hrunning'⟩

def soloRun : Run (@step 1 Unit Unit ℕ _ _ _) where
  state := soloState
  label m := solo (soloState m)
  next m := (solo_active m).2.2

theorem solo_actor {s : State 1 Unit Unit ℕ} (hposter : s.poster () = .idle)
    (hcounter : s.globalCounter = 1) : (solo s).actor = some () := by
  rw [solo, hposter]
  dsimp only
  rw [hcounter, if_neg one_ne_zero]
  split <;> rfl

theorem soloState_posted {m : ℕ} (hm : 3 ≤ m) :
    (soloState m).poster () = .idle ∧ (soloState m).globalCounter = 1 := by
  induction m, hm using Nat.le_induction with
  | base => exact ⟨rfl, rfl⟩
  | succ m _ ih =>
    have hactor := solo_actor ih.1 ih.2
    obtain ⟨-, hposter, hcounter⟩ := worker_frame (solo_active m).2.2 hactor
    rw [hposter, hcounter]
    exact ih

theorem soloState_exchange {m : ℕ} {localQue expect : Option Addr} {i : Fin 1} (hm : 3 ≤ m)
    (hpc : (soloState m).worker () = .exchange localQue i expect) :
    soloState (m + 1) = (soloState m).exchange () localQue i expect := by
  obtain ⟨hposter, hcounter⟩ := soloState_posted hm
  have hlabel : solo (soloState m) = .exchange () := by
    rw [solo, hposter]
    dsimp only
    rw [hcounter, if_neg one_ne_zero, hpc]
  have hnext := (solo_active m).2.2
  rw [hlabel] at hnext
  simp only [step, hpc] at hnext
  exact (Option.some.inj hnext).symm

theorem solo_ends (m : ℕ) : ∃ k ≥ m, ∀ localQue i expect,
    (soloState k).worker () ≠ .exchange localQue i expect := by
  by_contra hall
  push Not at hall
  obtain ⟨q, i, e, hpc⟩ := hall (m + 3) (Nat.le_add_right m 3)
  have hnext := soloState_exchange (Nat.le_add_left 3 m) hpc
  obtain ⟨q', i', e', hpc'⟩ := hall (m + 3 + 1) (by omega)
  have hnext' := soloState_exchange (m := m + 3 + 1) (by omega) hpc'
  obtain ⟨q'', i'', e'', hpc''⟩ := hall (m + 3 + 1 + 1) (by omega)
  rw [hnext, State.exchange] at hpc'
  split at hpc'
  · simp only [State.setWorker, Function.update_self] at hpc'
    cases hpc'
  · rename_i hne
    simp only [State.setWorker, Function.update_self] at hpc'
    cases hpc'
    have hslot : (soloState (m + 3 + 1)).globalQue i = (soloState (m + 3)).globalQue i := by
      rw [hnext, State.exchange, if_neg hne]
      rfl
    rw [hnext', State.exchange, if_pos hslot] at hpc''
    simp only [State.setWorker, Function.update_self] at hpc''
    cases hpc''

theorem soloRun_fair : FairRun soloRun where
  start := rfl
  running m := (solo_active m).2.1
  fair t m _ := by
    obtain ⟨hposter, hcounter⟩ := soloState_posted (Nat.le_add_left 3 m)
    exact ⟨m + 3, Nat.le_add_right m 3, solo_actor hposter hcounter⟩
  ends _ m := solo_ends m

theorem soloRun_all_popped : ∃ d, popped soloRun 1 4 d = [some 7] :=
  soloRun_fair.all_popped (t := ()) (by decide) (fun h => by cases h) (by decide)

end Runs

end Bugat.Context
