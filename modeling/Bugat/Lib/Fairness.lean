import Mathlib
import Bugat.Lib.Transition

/-!
# Endless runs and weak fairness

An endless run has a state and a label at each time. An actor is treated fairly when it takes a
step again and again as long as it can. What must happen in the end follows from the next step
of one actor, from the first time at which a property is lost, or from a rank that no step
raises and that some steps lower.
-/

namespace Fairness

variable {σ α ι : Type*} {step : σ → α → Option σ}

structure Run (step : σ → α → Option σ) where
  state : ℕ → σ
  label : ℕ → α
  next : ∀ m, step (state m) (label m) = some (state (m + 1))

def Enabled (step : σ → α → Option σ) (actor : α → Option ι) (t : ι) (s : σ) : Prop :=
  ∃ l, actor l = some t ∧ (step s l).isSome

def Run.WeaklyFair (r : Run step) (actor : α → Option ι) (t : ι) : Prop :=
  ∀ m, (∀ k ≥ m, Enabled step actor t (r.state k)) → ∃ k ≥ m, actor (r.label k) = some t

namespace Run

variable {r : Run step} {P : σ → Prop} {m k : ℕ}

theorem first_loss (hm : P (r.state m)) (hmk : m ≤ k) (hk : ¬ P (r.state k)) :
    ∃ j ≥ m, j < k ∧ P (r.state j) ∧ ¬ P (r.state (j + 1)) := by
  induction k, hmk using Nat.le_induction with
  | base => exact absurd hm hk
  | succ k hmk ih =>
    by_cases hP : P (r.state k)
    · exact ⟨k, hmk, Nat.lt_succ_self k, hP, hk⟩
    · obtain ⟨j, hj, hjk, hPj, hnext⟩ := ih hP
      exact ⟨j, hj, Nat.lt_succ_of_lt hjk, hPj, hnext⟩

/-- A property that only the steps of one actor can end, and under which the actor can take a
step, still holds when the actor takes its next one. -/
theorem WeaklyFair.next_step {actor : α → Option ι} {t : ι} (hfair : r.WeaklyFair actor t)
    (henabled : ∀ j ≥ m, P (r.state j) → Enabled step actor t (r.state j))
    (hothers : ∀ j ≥ m, P (r.state j) → actor (r.label j) ≠ some t → P (r.state (j + 1)))
    (hm : P (r.state m)) : ∃ k ≥ m, actor (r.label k) = some t ∧ P (r.state k) := by
  by_contra hnone
  push Not at hnone
  have hstays : ∀ k ≥ m, P (r.state k) := by
    intro k hk
    induction k, hk using Nat.le_induction with
    | base => exact hm
    | succ k hk ih => exact hothers k hk ih fun hact => hnone k hk hact ih
  obtain ⟨k, hk, hact⟩ := hfair m fun k hk => henabled k hk (hstays k hk)
  exact hnone k hk hact (hstays k hk)

end Run

/-- A rank that no step raises and that goes down at events which keep happening ends in the
goal. -/
theorem eventually_of_rank {P goal E : ℕ → Prop} {m : ℕ} (rank : ℕ → ℕ) (hm : P m)
    (hevent : (∀ j ≥ m, P j) → ∀ k ≥ m, ∃ j ≥ k, E j)
    (hstep : ∀ j ≥ m, P j →
      goal (j + 1) ∨ P (j + 1) ∧ rank (j + 1) ≤ rank j ∧ (E j → rank (j + 1) < rank j)) :
    ∃ k ≥ m, goal k := by
  by_contra hnone
  push Not at hnone
  have hnext : ∀ j ≥ m, P j →
      P (j + 1) ∧ rank (j + 1) ≤ rank j ∧ (E j → rank (j + 1) < rank j) :=
    fun j hj hP => (hstep j hj hP).resolve_left (hnone _ (Nat.le_succ_of_le hj))
  have hstays : ∀ j ≥ m, P j := by
    intro j hj
    induction j, hj using Nat.le_induction with
    | base => exact hm
    | succ j hj ih => exact (hnext j hj ih).1
  have hmono : ∀ k ≥ m, ∀ j ≥ k, rank j ≤ rank k := by
    intro k hk j hj
    induction j, hj using Nat.le_induction with
    | base => exact le_rfl
    | succ j hj ih =>
      have hjm := le_trans hk hj
      exact (hnext j hjm (hstays j hjm)).2.1.trans ih
  have hfalls : ∀ a, ∃ k ≥ m, rank k + a ≤ rank m := by
    intro a
    induction a with
    | zero => exact ⟨m, le_rfl, le_rfl⟩
    | succ a ih =>
      obtain ⟨k, hk, hrank⟩ := ih
      obtain ⟨j, hj, hhappens⟩ := hevent hstays k hk
      have hjm := le_trans hk hj
      have hless := (hnext j hjm (hstays j hjm)).2.2 hhappens
      have hle := hmono k hk j hj
      exact ⟨j + 1, Nat.le_succ_of_le hjm, by omega⟩
  obtain ⟨k, -, hk⟩ := hfalls (rank m + 1)
  omega

end Fairness
