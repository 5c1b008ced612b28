import Mathlib
import Bugat.Base.Context
import Bugat.Lib.Counting

/-!
# Ownership of the SerializerQueues of a Context

Every SerializerQueue is in exactly one place: a global slot, an entry of the
waiting queue or the hand of one worker. The hand of a worker between the exchange
and `_waitQue.Push` is the `expect` that it swapped out, and between `_waitQue.Push`
and `_waitQue.Pop` it is empty. A step moves a queue from one place to another, so
the number of places that hold it stays one.
-/

open scoped BigOperators

namespace Bugat.Context

open Transition (exec exec_invariant)
open Counting (sum_update eq_of_sum_le_one)

variable {n : ℕ} {Tid Pid Obj : Type*}

namespace WorkerPc

def hand : WorkerPc n Obj → Option Addr
  | .outside => none
  | .top q => q
  | .swapIndex q => q
  | .load q _ => q
  | .exchange q _ _ => q
  | .push _ expect => expect
  | .pop _ => none
  | .drain q _ => q
  | .execute q _ => q
  | .stopped q => q

def popping : WorkerPc n Obj → ℕ
  | .pop _ => 1
  | _ => 0

def Holds : WorkerPc n Obj → Prop
  | .outside => True
  | .pop _ => True
  | pc => pc.hand ≠ none

def Drains (pc : WorkerPc n Obj) (q : Addr) : Prop :=
  ∃ count, pc = .drain (some q) count ∨ pc = .execute (some q) count

theorem Drains.hand {pc : WorkerPc n Obj} {q : Addr} (h : pc.Drains q) : pc.hand = some q := by
  obtain ⟨count, rfl | rfl⟩ := h <;> rfl

end WorkerPc

open WorkerPc (hand popping Holds Drains)

def pointsTo (q : Addr) (x : Option Addr) : ℕ := if x = some q then 1 else 0

def State.places [Fintype Tid] (s : State n Tid Pid Obj) (q : Addr) : ℕ :=
  ∑ i, pointsTo q (s.globalQue i) + s.waitQue.count (some q) +
    ∑ t, pointsTo q (hand (s.worker t))

inductive Move [DecidableEq Tid] (s s' : State n Tid Pid Obj) : Prop
  | stay (hque : s'.globalQue = s.globalQue) (hwait : s'.waitQue = s.waitQue)
      (hlive : s'.live = s.live) (hworker : s'.worker = s.worker)
  | keep (t : Tid) (pc : WorkerPc n Obj) (hque : s'.globalQue = s.globalQue)
      (hwait : s'.waitQue = s.waitQue) (hlive : s'.live = s.live)
      (hworker : s'.worker = Function.update s.worker t pc)
      (hhand : pc.hand = (s.worker t).hand) (hpop : pc.popping = (s.worker t).popping)
      (hholds : (s.worker t).Holds → pc.Holds)
  | enter (t : Tid) (a : Addr) (hout : s.worker t = .outside) (ha : a ∉ s.live)
      (hque : s'.globalQue = s.globalQue) (hwait : s'.waitQue = s.waitQue)
      (hlive : s'.live = insert a s.live)
      (hworker : s'.worker = Function.update s.worker t (.top (some a)))
  | exchange (t : Tid) (localQue : Option Addr) (i : Fin n)
      (hpc : s.worker t = .exchange localQue i (s.globalQue i))
      (hque : s'.globalQue = Function.update s.globalQue i localQue)
      (hwait : s'.waitQue = s.waitQue) (hlive : s'.live = s.live)
      (hworker : s'.worker = Function.update s.worker t (.push localQue (s.globalQue i)))
  | push (t : Tid) (localQue expect : Option Addr) (hpc : s.worker t = .push localQue expect)
      (hque : s'.globalQue = s.globalQue) (hwait : s'.waitQue = s.waitQue ++ [expect])
      (hlive : s'.live = s.live)
      (hworker : s'.worker = Function.update s.worker t (.pop localQue))
  | pop (t : Tid) (localQue q : Option Addr) (hpc : s.worker t = .pop localQue)
      (hque : s'.globalQue = s.globalQue) (hwait : s.waitQue = q :: s'.waitQue)
      (hlive : s'.live = s.live)
      (hworker : s'.worker = Function.update s.worker t (.drain q 0))
  | popFails (t : Tid) (localQue : Option Addr) (hpc : s.worker t = .pop localQue)
      (hwait : s.waitQue = [])
  | delete (t : Tid) (a : Addr) (hpc : s.worker t = .stopped (some a))
      (hque : s'.globalQue = s.globalQue) (hwait : s'.waitQue = s.waitQue)
      (hlive : s'.live = s.live.erase a)
      (hworker : s'.worker = Function.update s.worker t .outside)

section Moves

variable [DecidableEq Tid] {s : State n Tid Pid Obj} {t : Tid}

theorem keep_move {pc pc' : WorkerPc n Obj} (hpc : s.worker t = pc) (hhand : pc'.hand = pc.hand)
    (hpop : pc'.popping = pc.popping) (hholds : pc.Holds → pc'.Holds) :
    Move s (s.setWorker t pc') := by
  subst hpc
  exact .keep t pc' rfl rfl rfl rfl hhand hpop hholds

theorem exchange_move {localQue expect : Option Addr} {i : Fin n}
    (hpc : s.worker t = .exchange localQue i expect) : Move s (s.exchange t localQue i expect) := by
  unfold State.exchange
  split
  · rename_i heq
    subst heq
    exact .exchange t localQue i hpc rfl rfl rfl rfl
  · exact keep_move hpc rfl rfl id

theorem pop_move {localQue : Option Addr} (hpc : s.worker t = .pop localQue) :
    Move s (s.pop t localQue) := by
  unfold State.pop
  split
  · rename_i hwait
    exact .popFails t localQue hpc hwait
  · rename_i q rest hwait
    exact .pop t localQue q hpc rfl hwait rfl rfl

theorem popObject_move {a : Addr} {count : ℕ} (hpc : s.worker t = .drain (some a) count) :
    Move s (s.popObject t a count) := by
  have hhand : (s.worker t).hand = some a := by rw [hpc]; rfl
  have hpop : (s.worker t).popping = 0 := by rw [hpc]; rfl
  unfold State.popObject
  split
  · exact .keep t (.top (some a)) rfl rfl rfl rfl hhand.symm hpop.symm fun _ => nofun
  · exact .stay rfl rfl rfl rfl
  · exact .keep t (.execute (some a) count) rfl rfl rfl rfl hhand.symm hpop.symm fun _ => nofun

end Moves

section Steps

variable [DecidableEq Tid] [DecidableEq Pid] [NeZero n] {s s' : State n Tid Pid Obj}
  {l : Label Tid Pid Obj}

theorem step_move (h : step s l = some s') : Move s s' := by
  cases l with
  | enter t a =>
    simp only [step] at h
    split at h
    · rename_i hpc
      split at h
      · cases h
      · rename_i ha
        obtain rfl := Option.some.inj h
        exact .enter t a hpc ha rfl rfl rfl rfl
    · cases h
  | testStop t =>
    simp only [step] at h
    split at h
    · rename_i localQue hpc
      split at h
      · obtain rfl := Option.some.inj h
        exact keep_move hpc rfl rfl id
      split at h
      · rename_i hnull
        obtain rfl := Option.some.inj h
        subst hnull
        exact keep_move hpc rfl rfl fun _ => trivial
      · obtain rfl := Option.some.inj h
        exact keep_move hpc rfl rfl id
    · cases h
  | swapIndex t =>
    simp only [step] at h
    split at h
    · rename_i localQue hpc
      obtain rfl := Option.some.inj h
      exact .keep t _ rfl rfl rfl rfl (by rw [hpc]; rfl) (by rw [hpc]; rfl) (by rw [hpc]; exact id)
    · cases h
  | load t =>
    simp only [step] at h
    split at h
    · rename_i hpc
      obtain rfl := Option.some.inj h
      exact keep_move hpc rfl rfl id
    · cases h
  | exchange t =>
    simp only [step] at h
    split at h
    · rename_i hpc
      obtain rfl := Option.some.inj h
      exact exchange_move hpc
    · cases h
  | push t =>
    simp only [step] at h
    split at h
    · rename_i hpc
      obtain rfl := Option.some.inj h
      exact .push t _ _ hpc rfl rfl rfl rfl
    · cases h
  | pop t =>
    simp only [step] at h
    split at h
    · rename_i hpc
      obtain rfl := Option.some.inj h
      exact pop_move hpc
    · cases h
  | popObject t =>
    simp only [step] at h
    split at h
    · rename_i hpc
      obtain rfl := Option.some.inj h
      exact popObject_move hpc
    · cases h
  | objectRuns t executed =>
    simp only [step] at h
    split at h
    · rename_i hpc
      obtain rfl := Option.some.inj h
      exact keep_move hpc rfl rfl id
    · cases h
  | objectThrows t =>
    simp only [step] at h
    split at h
    · rename_i hpc
      obtain rfl := Option.some.inj h
      exact keep_move hpc rfl rfl id
    · cases h
  | delete t =>
    simp only [step] at h
    split at h
    · rename_i hpc
      obtain rfl := Option.some.inj h
      exact keep_move hpc rfl rfl fun _ => trivial
    · rename_i a hpc
      obtain rfl := Option.some.inj h
      exact .delete t a hpc rfl rfl rfl rfl
    · cases h
  | post p obj =>
    simp only [step] at h
    split at h
    · obtain rfl := Option.some.inj h
      exact .stay rfl rfl rfl rfl
    · cases h
  | postLoad p =>
    simp only [step] at h
    split at h
    · obtain rfl := Option.some.inj h
      exact .stay rfl rfl rfl rfl
    · cases h
  | postPush p =>
    simp only [step] at h
    split at h
    · obtain rfl := Option.some.inj h
      exact .stay rfl rfl rfl rfl
    · cases h
  | stop =>
    obtain rfl := Option.some.inj h
    exact .stay rfl rfl rfl rfl

end Steps

section Owned

variable [Fintype Tid]

structure Owned (s : State n Tid Pid Obj) : Prop where
  places : ∀ q, s.places q = if q ∈ s.live then 1 else 0
  slots : ∀ i, s.globalQue i ≠ none
  wait : none ∉ s.waitQue
  hands : ∀ t, (s.worker t).Holds
  length : s.waitQue.length = n + ∑ t, (s.worker t).popping

@[simp] theorem pointsTo_none (q : Addr) : pointsTo q none = 0 := rfl

theorem pointsTo_some (q a : Addr) : pointsTo q (some a) = if a = q then 1 else 0 := by
  simp [pointsTo]

theorem count_snoc (xs : List (Option Addr)) (x : Option Addr) (q : Addr) :
    (xs ++ [x]).count (some q) = xs.count (some q) + pointsTo q x := by
  simp [List.count_append, List.count_singleton, pointsTo]

theorem count_cons (xs : List (Option Addr)) (x : Option Addr) (q : Addr) :
    (x :: xs).count (some q) = xs.count (some q) + pointsTo q x := by
  simp [List.count_cons, pointsTo]

theorem Owned.wait_ne_nil {s : State n Tid Pid Obj} (h : Owned s) {t : Tid}
    {localQue : Option Addr} (hpc : s.worker t = .pop localQue) : s.waitQue ≠ [] := by
  intro hnil
  have hlen := h.length
  have hone : (s.worker t).popping ≤ ∑ u, (s.worker u).popping :=
    Finset.single_le_sum (f := fun u => (s.worker u).popping) (fun _ _ => Nat.zero_le _)
      (Finset.mem_univ t)
  rw [hpc, popping] at hone
  rw [hnil, List.length_nil] at hlen
  omega

variable [DecidableEq Tid] {s s' : State n Tid Pid Obj} {t : Tid}

theorem sum_step (w : WorkerPc n Obj → ℕ) {pc pc' : WorkerPc n Obj} (hpc : s.worker t = pc)
    (hworker : s'.worker = Function.update s.worker t pc') :
    ∑ u, w (s'.worker u) + w pc = ∑ u, w (s.worker u) + w pc' := by
  rw [hworker, ← hpc]
  exact sum_update s.worker t pc' w

theorem Owned.holds_step (h : Owned s) {pc : WorkerPc n Obj}
    (hworker : s'.worker = Function.update s.worker t pc) (hpc : pc.Holds) :
    ∀ u, (s'.worker u).Holds := by
  rw [hworker]
  exact (Function.forall_update_iff s.worker fun _ pc => pc.Holds).mpr ⟨hpc, fun u _ => h.hands u⟩

theorem Owned.of_move (h : Owned s) (hm : Move s s') : Owned s' := by
  cases hm with
  | stay hque hwait hlive hworker =>
    refine ⟨fun q => ?_, hque ▸ h.slots, hwait ▸ h.wait, hworker ▸ h.hands, ?_⟩
    · rw [hlive, ← h.places q, State.places, State.places, hque, hwait, hworker]
    · rw [hwait, hworker, h.length]
  | keep t pc hque hwait hlive hworker hhand hpop hholds =>
    refine ⟨fun q => ?_, hque ▸ h.slots, hwait ▸ h.wait,
      h.holds_step hworker (hholds (h.hands t)), ?_⟩
    · have hhands := sum_step (fun pc => pointsTo q pc.hand) rfl hworker
      have hq := h.places q
      rw [State.places] at hq ⊢
      simp only [hhand] at hhands
      rw [hque, hwait, hlive]
      omega
    · have hpops := sum_step popping rfl hworker
      rw [hwait, h.length]
      omega
  | enter t a hout ha hque hwait hlive hworker =>
    refine ⟨fun q => ?_, hque ▸ h.slots, hwait ▸ h.wait, h.holds_step hworker (by nofun), ?_⟩
    · have hhands := sum_step (fun pc => pointsTo q pc.hand) hout hworker
      have hq := h.places q
      change _ + 0 = _ + pointsTo q (some a) at hhands
      rw [State.places] at hq ⊢
      rw [hque, hwait, hlive]
      rw [pointsTo_some] at hhands
      by_cases haq : a = q
      · subst haq
        rw [if_neg ha] at hq
        rw [if_pos rfl] at hhands
        rw [if_pos (Finset.mem_insert_self a s.live)]
        omega
      · rw [if_neg haq] at hhands
        simp only [Finset.mem_insert, Ne.symm haq, false_or]
        omega
    · have hpops := sum_step popping hout hworker
      change _ + 0 = _ + 0 at hpops
      rw [hwait, h.length]
      omega
  | exchange t localQue i hpc hque hwait hlive hworker =>
    have hlocal : localQue ≠ none := by
      have := h.hands t
      rwa [hpc] at this
    refine ⟨fun q => ?_, ?_, hwait ▸ h.wait, h.holds_step hworker (h.slots i), ?_⟩
    · have hhands := sum_step (fun pc => pointsTo q pc.hand) hpc hworker
      have hslots := sum_update s.globalQue i localQue (pointsTo q)
      have hq := h.places q
      change _ + pointsTo q localQue = _ + pointsTo q (s.globalQue i) at hhands
      rw [State.places] at hq ⊢
      rw [hque, hwait, hlive]
      omega
    · rw [hque]
      exact (Function.forall_update_iff s.globalQue fun _ x => x ≠ none).mpr
        ⟨hlocal, fun j _ => h.slots j⟩
    · have hpops := sum_step popping hpc hworker
      change _ + 0 = _ + 0 at hpops
      rw [hwait, h.length]
      omega
  | push t localQue expect hpc hque hwait hlive hworker =>
    have hexpect : expect ≠ none := by
      have := h.hands t
      rwa [hpc] at this
    refine ⟨fun q => ?_, hque ▸ h.slots, ?_, h.holds_step hworker trivial, ?_⟩
    · have hhands := sum_step (fun pc => pointsTo q pc.hand) hpc hworker
      have hq := h.places q
      change _ + pointsTo q expect = _ + 0 at hhands
      rw [State.places] at hq ⊢
      rw [hque, hwait, hlive, count_snoc]
      omega
    · rw [hwait, List.mem_append, List.mem_singleton]
      exact not_or.mpr ⟨h.wait, hexpect.symm⟩
    · have hpops := sum_step popping hpc hworker
      change _ + 0 = _ + 1 at hpops
      rw [hwait, List.length_append, List.length_singleton, h.length]
      omega
  | pop t localQue q hpc hque hwait hlive hworker =>
    have hmem := h.wait
    rw [hwait, List.mem_cons, not_or] at hmem
    refine ⟨fun q' => ?_, hque ▸ h.slots, hmem.2, h.holds_step hworker (Ne.symm hmem.1), ?_⟩
    · have hhands := sum_step (fun pc => pointsTo q' pc.hand) hpc hworker
      have hq := h.places q'
      change _ + 0 = _ + pointsTo q' q at hhands
      rw [State.places] at hq ⊢
      rw [hwait, count_cons] at hq
      rw [hque, hlive]
      omega
    · have hpops := sum_step popping hpc hworker
      have hlen := h.length
      change _ + 1 = _ + 0 at hpops
      rw [hwait, List.length_cons] at hlen
      omega
  | popFails t localQue hpc hwait => exact absurd hwait (h.wait_ne_nil hpc)
  | delete t a hpc hque hwait hlive hworker =>
    refine ⟨fun q => ?_, hque ▸ h.slots, hwait ▸ h.wait, h.holds_step hworker trivial, ?_⟩
    · have hhands := sum_step (fun pc => pointsTo q pc.hand) hpc hworker
      have hq := h.places q
      change _ + pointsTo q (some a) = _ + 0 at hhands
      rw [State.places] at hq ⊢
      rw [hque, hwait, hlive]
      rw [pointsTo_some] at hhands
      by_cases haq : a = q
      · subst haq
        rw [if_pos rfl] at hhands
        rw [if_neg (Finset.notMem_erase a s.live)]
        split at hq <;> omega
      · rw [if_neg haq] at hhands
        simp only [Finset.mem_erase, ne_eq, Ne.symm haq, not_false_eq_true, true_and]
        omega
    · have hpops := sum_step popping hpc hworker
      change _ + 0 = _ + 0 at hpops
      rw [hwait, h.length]
      omega

structure Filling (s : State n Tid Pid Obj) (todo : List (Fin n)) : Prop where
  places : ∀ q, s.places q = if q ∈ s.live then 1 else 0
  slots : ∀ i, s.globalQue i = none ↔ i ∈ todo
  wait : none ∉ s.waitQue
  idle : ∀ t, s.worker t = .outside
  length : s.waitQue.length + todo.length = n

omit [DecidableEq Tid] in
theorem Filling.initSlot {i : Fin n} {todo : List (Fin n)} (h : Filling s (i :: todo))
    (hi : i ∉ todo) : Filling (s.initSlot i) todo := by
  have hslot : s.globalQue i = none := (h.slots i).mpr List.mem_cons_self
  have ha := s.freshAddr_notMem
  have hb := (s.newQue s.freshAddr).freshAddr_notMem
  generalize hb' : (s.newQue s.freshAddr).freshAddr = b at hb
  generalize ha' : s.freshAddr = a at ha hb hb'
  have hque : (s.initSlot i).globalQue = Function.update s.globalQue i (some a) := by
    rw [← ha']
    rfl
  have hwait : (s.initSlot i).waitQue = s.waitQue ++ [some b] := by
    rw [← hb', ← ha']
    rfl
  have hlive : (s.initSlot i).live = insert b (insert a s.live) := by
    rw [← hb', ← ha']
    rfl
  refine ⟨fun q => ?_, fun j => ?_, ?_, h.idle, ?_⟩
  · have hslots := sum_update s.globalQue i (some a) (pointsTo q)
    have hq := h.places q
    rw [hslot, pointsTo_none, pointsTo_some] at hslots
    rw [State.places] at hq ⊢
    rw [hque, hwait, hlive, count_snoc, pointsTo_some]
    change ∑ j, _ + (_ + _) + ∑ t, pointsTo q (s.worker t).hand = _
    have hb : b ∉ insert a s.live := hb
    simp only [Finset.mem_insert, not_or] at hb ⊢
    by_cases hqa : a = q
    · subst hqa
      simp only [if_neg ha, if_true, if_neg hb.1, true_or, or_true] at hq hslots ⊢
      omega
    by_cases hqb : b = q
    · subst hqb
      simp only [if_neg hb.2, if_true, if_neg hqa, true_or] at hq hslots ⊢
      omega
    · simp only [if_neg hqa, if_neg hqb, Ne.symm hqa, Ne.symm hqb, false_or] at hslots ⊢
      omega
  · rw [hque]
    by_cases hji : j = i
    · subst hji
      simp [hi]
    · rw [Function.update_of_ne hji, h.slots j, List.mem_cons, or_iff_right hji]
  · rw [hwait, List.mem_append, List.mem_singleton]
    exact not_or.mpr ⟨h.wait, by simp⟩
  · have hlen := h.length
    rw [hwait, List.length_append, List.length_singleton]
    rw [List.length_cons] at hlen
    omega

omit [DecidableEq Tid] in
theorem initializeContext_owned : Owned (initializeContext n : State n Tid Pid Obj) := by
  have hfill : ∀ (todo : List (Fin n)) (s : State n Tid Pid Obj), todo.Nodup → Filling s todo →
      Filling (todo.foldl State.initSlot s) [] := by
    intro todo
    induction todo with
    | nil => exact fun s _ h => h
    | cons i todo ih =>
      intro s hnd h
      obtain ⟨hi, hnd⟩ := List.nodup_cons.mp hnd
      exact ih _ hnd (h.initSlot hi)
  have hstart : Filling (construct : State n Tid Pid Obj) (List.finRange n) :=
    ⟨fun q => by simp [State.places, construct, hand], by simp [construct], by simp [construct],
      fun _ => rfl, by simp [construct]⟩
  have hend : Filling (initializeContext n : State n Tid Pid Obj) [] :=
    hfill _ _ (List.nodup_finRange n) hstart
  refine ⟨hend.places, fun i hi => by simpa using (hend.slots i).mp hi, hend.wait,
    fun t => by rw [hend.idle t]; trivial, ?_⟩
  simp only [hend.idle, popping, Finset.sum_const_zero]
  exact hend.length

end Owned

section Runs

variable [Fintype Tid]

/-- `_waitQue.Pop` never fails, no slot is null, and every SerializerQueue that lives is in
one place, so no two workers drain the same one. -/
structure Exclusive (s : State n Tid Pid Obj) : Prop where
  one_place : ∀ q ∈ s.live, s.places q = 1
  slot_live : ∀ i, ∃ q ∈ s.live, s.globalQue i = some q
  pop_succeeds : ∀ t localQue, s.worker t = .pop localQue → s.waitQue ≠ []
  drains_alone : ∀ t u q, (s.worker t).Drains q → (s.worker u).Drains q → t = u

variable [DecidableEq Tid]

theorem Owned.exclusive {s : State n Tid Pid Obj} (h : Owned s) : Exclusive s := by
  refine ⟨fun q hq => by rw [h.places q, if_pos hq], fun i => ?_, fun t _ => h.wait_ne_nil, ?_⟩
  · obtain ⟨q, hq⟩ := Option.ne_none_iff_exists'.mp (h.slots i)
    refine ⟨q, ?_, hq⟩
    by_contra hlive
    have hzero := h.places q
    rw [if_neg hlive, State.places] at hzero
    have hone : pointsTo q (s.globalQue i) ≤ ∑ j, pointsTo q (s.globalQue j) :=
      Finset.single_le_sum (f := fun j => pointsTo q (s.globalQue j))
        (fun _ _ => Nat.zero_le _) (Finset.mem_univ i)
    rw [hq, pointsTo_some, if_pos rfl] at hone
    omega
  · intro t u q ht hu
    have hle : ∑ t, pointsTo q (s.worker t).hand ≤ 1 := by
      have hq := h.places q
      rw [State.places] at hq
      split at hq <;> omega
    refine eq_of_sum_le_one s.worker (fun pc => pointsTo q pc.hand) hle ?_ ?_
    · simp [ht.hand, pointsTo]
    · simp [hu.hand, pointsTo]

/-- In every state of every run the SerializerQueues are exclusively owned. -/
theorem exclusive_ownership [DecidableEq Pid] [NeZero n] (ls : List (Label Tid Pid Obj))
    (s : State n Tid Pid Obj) (h : exec step (initializeContext n) ls = some s) : Exclusive s :=
  (exec_invariant (P := Owned) (fun _ _ _ hs ht => hs.of_move (step_move ht))
    initializeContext_owned h).exclusive

def contention : List (Label (Fin 2) (Fin 1) ℕ) :=
  [.enter 0 4, .testStop 0, .swapIndex 0, .load 0, .enter 1 5, .testStop 1, .swapIndex 1, .load 1,
    .exchange 0, .exchange 1, .post 0 (some 7), .postLoad 0, .exchange 1, .push 1, .push 0,
    .pop 1, .pop 0, .postPush 0]

theorem contention_exclusive : ∃ s : State 1 (Fin 2) (Fin 1) ℕ,
    exec step (initializeContext 1) contention = some s ∧ Exclusive s ∧ s.waitQue.length = 1 := by
  have hsome : (exec step (initializeContext 1 : State 1 (Fin 2) (Fin 1) ℕ)
      contention).isSome := by decide
  have hrun := (Option.some_get hsome).symm
  exact ⟨_, hrun, exclusive_ownership contention _ hrun, rfl⟩

end Runs

end Bugat.Context
