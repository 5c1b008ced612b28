import Mathlib
import Bugat.Lib.Counting

/-!
# Threads at the condition variables of a monitor

A thread of a monitor runs, is blocked at a condition variable, or has been woken there and is
still to test its predicate again. A section under the mutex is one step; waiting releases the
mutex and blocks in the same step. `notify_one` wakes some blocked thread if there is one.
-/

open scoped BigOperators

namespace Monitor

variable {ι Cond : Type*} [DecidableEq ι] [DecidableEq Cond]

inductive Phase (Cond : Type*)
  | running
  | blocked (c : Cond)
  | woken (c : Cond)
  deriving DecidableEq, Repr

def Phase.waitsAt (c : Cond) : Phase Cond → ℕ
  | .running => 0
  | .blocked d | .woken d => if d = c then 1 else 0

def Phase.cond : Phase Cond → Option Cond
  | .running => none
  | .blocked c | .woken c => some c

def waiting [Fintype ι] (phase : ι → Phase Cond) (c : Cond) : ℕ := ∑ t, (phase t).waitsAt c

def Blocked (phase : ι → Phase Cond) (c : Cond) : Prop := ∃ t, phase t = .blocked c

def Woken (phase : ι → Phase Cond) (c : Cond) : Prop := ∃ t, phase t = .woken c

instance [Fintype ι] (phase : ι → Phase Cond) (c : Cond) : Decidable (Blocked phase c) :=
  inferInstanceAs (Decidable (∃ _, _))

/-- `notify_one`, which wakes the given thread; no thread is given when none is blocked. -/
def notifyOne [Fintype ι] (phase : ι → Phase Cond) (c : Cond) (wake : Option ι) :
    Option (ι → Phase Cond) :=
  match wake with
  | none => if Blocked phase c then none else some phase
  | some t => if phase t = .blocked c then some (Function.update phase t (.woken c)) else none

def notifyAll (phase : ι → Phase Cond) (c : Cond) : ι → Phase Cond := fun t =>
  if phase t = .blocked c then .woken c else phase t

variable {phase phase' : ι → Phase Cond} {t u : ι} {c d : Cond} {p : Phase Cond} {wake : Option ι}

omit [DecidableEq Cond] in
theorem of_update {q : Phase Cond} (h : Function.update phase t p u = q) (hne : p ≠ q) :
    phase u = q := by
  by_cases hu : u = t
  · subst hu
    rw [Function.update_self] at h
    exact absurd h hne
  · rwa [Function.update_of_ne hu] at h

omit [DecidableEq Cond] in
theorem Woken.update (h : Woken phase c) (hne : phase t ≠ .woken c) :
    Woken (Function.update phase t p) c := by
  obtain ⟨u, hu⟩ := h
  refine ⟨u, ?_⟩
  rw [Function.update_of_ne, hu]
  intro heq
  apply hne
  rw [← heq, hu]

omit [DecidableEq Cond] in
theorem woken_update : Woken (Function.update phase t (.woken c)) c :=
  ⟨t, Function.update_self t _ phase⟩

section Count

variable [Fintype ι]

theorem waiting_update (phase : ι → Phase Cond) (t : ι) (p : Phase Cond) (c : Cond) :
    waiting (Function.update phase t p) c + (phase t).waitsAt c =
      waiting phase c + p.waitsAt c :=
  Counting.sum_update phase t p (Phase.waitsAt c)

omit [DecidableEq ι] in
theorem waitsAt_le (phase : ι → Phase Cond) (t : ι) (c : Cond) :
    (phase t).waitsAt c ≤ waiting phase c :=
  Counting.le_sum phase (Phase.waitsAt c) t

omit [DecidableEq ι] in
theorem waiting_pos_of_blocked (h : Blocked phase c) : 0 < waiting phase c := by
  obtain ⟨t, ht⟩ := h
  have hle := waitsAt_le phase t c
  rw [ht, Phase.waitsAt, if_pos rfl] at hle
  exact hle

theorem waiting_wake (h : phase t = .blocked c) :
    waiting (Function.update phase t (.woken c)) d = waiting phase d := by
  have hset := waiting_update phase t (.woken c) d
  rw [h] at hset
  exact Nat.add_right_cancel hset

theorem notifyOne_waiting (h : notifyOne phase c wake = some phase') :
    waiting phase' d = waiting phase d := by
  rw [notifyOne.eq_def] at h
  split at h
  · split at h
    · cases h
    · obtain rfl := Option.some.inj h
      rfl
  · split at h
    · rename_i hblocked
      obtain rfl := Option.some.inj h
      exact waiting_wake hblocked
    · cases h

/-- The wake-up reaches a thread: whoever is blocked, somebody is woken. -/
theorem notifyOne_woken (h : notifyOne phase c wake = some phase') (hb : Blocked phase' c) :
    Woken phase' c := by
  rw [notifyOne.eq_def] at h
  split at h
  · split at h
    · cases h
    · rename_i hnone
      obtain rfl := Option.some.inj h
      exact absurd hb hnone
  · split at h
    · obtain rfl := Option.some.inj h
      exact woken_update
    · cases h

theorem notifyOne_blocked (h : notifyOne phase c wake = some phase') (hb : Blocked phase' d) :
    Blocked phase d := by
  rw [notifyOne.eq_def] at h
  split at h
  · split at h
    · cases h
    · obtain rfl := Option.some.inj h
      exact hb
  · split at h
    · obtain rfl := Option.some.inj h
      obtain ⟨u, hu⟩ := hb
      exact ⟨u, of_update hu (by simp)⟩
    · cases h

theorem notifyOne_cond (h : notifyOne phase c wake = some phase') (u : ι) :
    (phase' u).cond = (phase u).cond := by
  rw [notifyOne.eq_def] at h
  split at h
  · split at h
    · cases h
    · obtain rfl := Option.some.inj h
      rfl
  · rename_i t
    split at h
    · rename_i hblocked
      obtain rfl := Option.some.inj h
      by_cases hu : u = t
      · subst hu
        rw [Function.update_self, hblocked]
        rfl
      · rw [Function.update_of_ne hu]
    · cases h

omit [DecidableEq ι] in
theorem waiting_notifyAll : waiting (notifyAll phase c) d = waiting phase d := by
  apply Finset.sum_congr rfl
  intro t _
  rw [notifyAll]
  split
  · rename_i hblocked
    rw [hblocked]
    rfl
  · rfl

end Count

omit [DecidableEq ι] in
theorem notifyAll_cond (phase : ι → Phase Cond) (c : Cond) (u : ι) :
    (notifyAll phase c u).cond = (phase u).cond := by
  rw [notifyAll]
  split
  · rename_i hblocked
    rw [hblocked]
    rfl
  · rfl

omit [DecidableEq ι] in
theorem not_blocked_notifyAll : ¬ Blocked (notifyAll phase c) c := by
  rintro ⟨t, ht⟩
  rw [notifyAll] at ht
  split at ht
  · cases ht
  · exact absurd ht ‹_›

omit [DecidableEq ι] in
theorem blocked_notifyAll (h : Blocked (notifyAll phase c) d) : Blocked phase d := by
  obtain ⟨t, ht⟩ := h
  refine ⟨t, ?_⟩
  rw [notifyAll] at ht
  split at ht
  · cases ht
  · exact ht

end Monitor
