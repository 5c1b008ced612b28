import Mathlib

/-!
# Threads over a shared state

A thread is a local state, and `act` is its next atomic step on its local state and the
shared one. The rule of this module is the rely and guarantee rule: each step keeps the
invariant of the shared state and the assertion of the thread that takes it, and no step
of one thread disturbs the assertion of another.
-/

namespace Threads

variable {σ τ α γ ι : Type*} [DecidableEq ι]

structure System (σ τ ι : Type*) where
  shared : σ
  thread : ι → τ

def step (act : σ → τ → α → Option (σ × τ)) (s : System σ τ ι) (l : ι × α) :
    Option (System σ τ ι) :=
  (act s.shared (s.thread l.1) l.2).map fun q => ⟨q.1, Function.update s.thread l.1 q.2⟩

theorem step_eq_some {act : σ → τ → α → Option (σ × τ)} {s s' : System σ τ ι} {l : ι × α} :
    step act s l = some s' ↔ ∃ u pc, act s.shared (s.thread l.1) l.2 = some (u, pc) ∧
      s' = ⟨u, Function.update s.thread l.1 pc⟩ := by
  simp only [step, Option.map_eq_some_iff, Prod.exists, eq_comm (a := s')]

/-- Steps that meet `ok` keep the invariant and the assertion of their own thread, and they
leave the assertion of every thread alone that is apart from it. The parameter `g` is what
the invariant knows about the shared state, such as the contents of a list. -/
def Sound (act : σ → τ → α → Option (σ × τ)) (ok : σ → τ → α → Prop) (Inv : γ → σ → Prop)
    (Local : γ → σ → τ → Prop) (Apart : τ → τ → Prop) : Prop :=
  ∀ g u pc a u' pc', Inv g u → Local g u pc → ok u pc a → act u pc a = some (u', pc') →
    ∃ g', Inv g' u' ∧ Local g' u' pc' ∧
      ∀ other, Local g u other → Apart pc other → Local g' u' other ∧ Apart pc' other

structure Holds (Inv : γ → σ → Prop) (Local : γ → σ → τ → Prop) (Apart : τ → τ → Prop)
    (s : System σ τ ι) : Prop where
  asserted : ∃ g, Inv g s.shared ∧ ∀ t, Local g s.shared (s.thread t)
  apart : ∀ t u, t ≠ u → Apart (s.thread t) (s.thread u)

variable {act : σ → τ → α → Option (σ × τ)} {ok : σ → τ → α → Prop} {Inv : γ → σ → Prop}
  {Local : γ → σ → τ → Prop} {Apart : τ → τ → Prop} {s s' : System σ τ ι} {l : ι × α}

theorem Holds.update (h : Holds Inv Local Apart s) (hsymm : ∀ pc pc', Apart pc pc' → Apart pc' pc)
    {i : ι} {u : σ} {pc : τ}
    (hres : ∀ g, Inv g s.shared → (∀ t, Local g s.shared (s.thread t)) → ∃ g', Inv g' u ∧
      Local g' u pc ∧ ∀ t, t ≠ i → Local g' u (s.thread t) ∧ Apart pc (s.thread t)) :
    Holds Inv Local Apart ⟨u, Function.update s.thread i pc⟩ := by
  obtain ⟨⟨g, hinv, hlocal⟩, hapart⟩ := h
  obtain ⟨g', hinv', hlocal', hother⟩ := hres g hinv hlocal
  refine ⟨⟨g', hinv', fun t => ?_⟩, fun t v htv => ?_⟩
  · by_cases ht : t = i
    · subst ht
      simpa using hlocal'
    · simpa [ht] using (hother t ht).1
  · by_cases ht : t = i
    · subst ht
      simpa [Ne.symm htv] using (hother v (Ne.symm htv)).2
    · by_cases hv : v = i
      · subst hv
        simpa [htv] using hsymm _ _ (hother t htv).2
      · simpa [ht, hv] using hapart t v htv

theorem Holds.step (h : Holds Inv Local Apart s) (hsound : Sound act ok Inv Local Apart)
    (hsymm : ∀ pc pc', Apart pc pc' → Apart pc' pc) (hok : ok s.shared (s.thread l.1) l.2)
    (hs : step act s l = some s') : Holds Inv Local Apart s' := by
  obtain ⟨u, pc, hact, rfl⟩ := step_eq_some.mp hs
  refine h.update hsymm fun g hinv hlocal => ?_
  obtain ⟨g', hinv', hlocal', hothers⟩ := hsound g _ _ _ _ _ hinv (hlocal l.1) hok hact
  exact ⟨g', hinv', hlocal', fun t ht => hothers _ (hlocal t) (h.apart l.1 t (Ne.symm ht))⟩

end Threads
