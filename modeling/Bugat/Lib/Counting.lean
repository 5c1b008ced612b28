import Mathlib

/-!
# Counting over the threads of a system

A weight on thread states summed over all threads counts what the threads hold.
One thread's step changes one summand.
-/

open scoped BigOperators

namespace Counting

variable {ι α M : Type*} [DecidableEq ι]

theorem sum_update_mem [AddCommMonoid M] {s : Finset ι} {i : ι} (hi : i ∈ s) (f : ι → α) (a : α)
    (w : α → M) : ∑ j ∈ s, w (Function.update f i a j) + w (f i) = ∑ j ∈ s, w (f j) + w a := by
  rw [← Finset.add_sum_erase _ _ hi, ← Finset.add_sum_erase (a := i) _ (fun j => w (f j)) hi]
  have hrest : ∑ j ∈ s.erase i, w (Function.update f i a j) = ∑ j ∈ s.erase i, w (f j) := by
    apply Finset.sum_congr rfl
    intro j hj
    rw [Function.update_of_ne (Finset.ne_of_mem_erase hj)]
  rw [hrest, Function.update_self, add_right_comm, add_comm (w a), add_right_comm]

theorem card_filter_update {s : Finset ι} {i : ι} (hi : i ∈ s) (f : ι → α) (a : α) (p : α → Prop)
    [DecidablePred p] :
    (s.filter fun j => p (Function.update f i a j)).card + (if p (f i) then 1 else 0) =
      (s.filter fun j => p (f j)).card + if p a then 1 else 0 := by
  rw [Finset.card_filter, Finset.card_filter]
  exact sum_update_mem hi f a fun b => if p b then 1 else 0

variable [Fintype ι]

theorem sum_update [AddCommMonoid M] (f : ι → α) (i : ι) (a : α) (w : α → M) :
    ∑ j, w (Function.update f i a j) + w (f i) = ∑ j, w (f j) + w a :=
  sum_update_mem (Finset.mem_univ i) f a w

/-- A quantity that two logs differ by stays the weight of the threads when one step
changes the logs and the thread by the same amount. -/
theorem balance_update [AddCommMonoid M] [IsCancelAdd M] {f : ι → α} {i : ι} {a : α}
    {w : α → M} {x y x' y' : M} (h : x = y + ∑ j, w (f j))
    (hstep : x' + y + w (f i) = x + y' + w a) :
    x' = y' + ∑ j, w (Function.update f i a j) := by
  have hsum := sum_update f i a w
  refine add_right_cancel (b := y + w (f i)) ?_
  calc x' + (y + w (f i)) = x + y' + w a := by rw [← add_assoc, hstep]
    _ = y + y' + (∑ j, w (f j) + w a) := by rw [h]; ac_rfl
    _ = y + y' + (∑ j, w (Function.update f i a j) + w (f i)) := by rw [hsum]
    _ = y' + ∑ j, w (Function.update f i a j) + (y + w (f i)) := by ac_rfl

omit [DecidableEq ι] in
theorem le_sum [AddCommMonoid M] [PartialOrder M] [IsOrderedAddMonoid M] [CanonicallyOrderedAdd M]
    (f : ι → α) (w : α → M) (i : ι) : w (f i) ≤ ∑ j, w (f j) :=
  Finset.single_le_sum (f := fun j => w (f j)) (fun _ _ => zero_le) (Finset.mem_univ i)

theorem eq_of_sum_le_one (f : ι → α) (w : α → ℕ) (h : ∑ j, w (f j) ≤ 1) {i k : ι}
    (hi : 0 < w (f i)) (hk : 0 < w (f k)) : i = k := by
  by_contra hne
  have hpair : ∑ j ∈ {i, k}, w (f j) ≤ ∑ j, w (f j) :=
    Finset.sum_le_sum_of_subset (Finset.subset_univ _)
  rw [Finset.sum_pair hne] at hpair
  omega

end Counting
