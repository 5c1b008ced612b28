import Mathlib

/-!
# Loops around a weak compare-exchange

The outcomes of the exchanges of one thread are a list; when it is used up, all exchanges
succeed. A loop has fuel, and returns what it produces with the outcomes that are left. The
rules give the fuel that is enough: one for each outcome, and a constant.
-/

namespace WeakLoop

variable {β γ : Type*}

def outcome : List Bool → Bool × List Bool
  | [] => (true, [])
  | ok :: oks => (ok, oks)

/-- With fuel for each outcome and for `k` iterations more the loop returns, and the fuel
makes no difference to what it returns. -/
def Ends (k : ℕ) (oks : List Bool) (g : ℕ → Option (β × List Bool)) (P : β → Prop) : Prop :=
  ∃ b oks', P b ∧ oks'.length ≤ oks.length ∧
    ∀ fuel, oks.length + k ≤ fuel → g fuel = some (b, oks')

variable {f : ℕ → List Bool → Option (β × List Bool)} {g g' : ℕ → Option (β × List Bool)}
  {P : β → Prop} {Q : γ → Prop} {k n : ℕ} {b : β} {oks oks' : List Bool}

theorem outcome_length (oks : List Bool) : (outcome oks).2.length ≤ oks.length := by
  cases oks with
  | nil => exact le_rfl
  | cons ok oks => exact Nat.le_succ _

theorem Ends.now (hb : P b) (hlen : oks'.length ≤ oks.length)
    (hrun : ∀ fuel, g (fuel + 1) = some (b, oks')) : Ends 1 oks g P := by
  refine ⟨b, oks', hb, hlen, fun fuel hfuel => ?_⟩
  cases fuel with
  | zero => omega
  | succ fuel => exact hrun fuel

theorem Ends.iterate (h : Ends k oks' g' P) (hlen : oks'.length ≤ oks.length)
    (hstep : ∀ fuel, g (fuel + 1) = g' fuel) : Ends (k + 1) oks g P := by
  obtain ⟨b, left, hb, hleft, hrun⟩ := h
  refine ⟨b, left, hb, hleft.trans hlen, fun fuel hfuel => ?_⟩
  cases fuel with
  | zero => omega
  | succ fuel => exact (hstep fuel).trans (hrun fuel (by omega))

theorem Ends.of_le (h : Ends k oks g P) (hkn : k ≤ n) : Ends n oks g P := by
  obtain ⟨b, oks', hb, hlen, hrun⟩ := h
  exact ⟨b, oks', hb, hlen, fun fuel hfuel => hrun fuel (by omega)⟩

theorem Ends.map {r : β × List Bool → γ × List Bool} {e : β → γ} (h : Ends k oks g P)
    (hr : ∀ b oks, r (b, oks) = (e b, oks)) (hpq : ∀ b, P b → Q (e b)) :
    Ends k oks (fun fuel => (g fuel).map r) Q := by
  obtain ⟨b, oks', hb, hlen, hrun⟩ := h
  refine ⟨e b, oks', hpq b hb, hlen, fun fuel hfuel => ?_⟩
  change (g fuel).map r = _
  rw [hrun fuel hfuel, Option.map_some, hr]

/-- When a failed exchange changes nothing, only the successful one counts. -/
theorem Ends.retry (hfails : ∀ fuel oks, f (fuel + 1) (false :: oks) = f fuel oks)
    (hdone : ∀ oks, (outcome oks).1 = true → Ends k oks (f · oks) P) (oks : List Bool) :
    Ends k oks (f · oks) P := by
  induction oks with
  | nil => exact hdone [] rfl
  | cons ok oks ih =>
    cases ok with
    | true => exact hdone (true :: oks) rfl
    | false =>
      obtain ⟨b, oks', hb, hlen, hrun⟩ := ih
      refine ⟨b, oks', hb, hlen.trans (Nat.le_succ _), fun fuel hfuel => ?_⟩
      rw [List.length_cons] at hfuel
      cases fuel with
      | zero => omega
      | succ fuel => exact (hfails fuel oks).trans (hrun fuel (by omega))

end WeakLoop
