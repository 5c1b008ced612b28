import Mathlib

/-!
# Runs of a partial step function

A system is given by `step : σ → α → Option σ`, where a label names the actor and
the choices of one atomic step and `none` means that the step is not enabled.
A run is a list of labels. Statements about every reachable state quantify over all
runs from the initial state; statements about a condition on the steps use `Along`.
-/

namespace Transition

variable {σ τ α β : Type*}

def exec (step : σ → α → Option σ) : σ → List α → Option σ
  | s, [] => some s
  | s, a :: as => (step s a).bind fun t => exec step t as

/-- Every step taken in the run starts in a state, and with a label, that `ok` accepts. -/
def Along (ok : σ → α → Prop) (step : σ → α → Option σ) : σ → List α → Prop
  | _, [] => True
  | s, a :: as =>
    match step s a with
    | none => True
    | some t => ok s a ∧ Along ok step t as

def Throughout (P : σ → Prop) (step : σ → α → Option σ) : σ → List α → Prop
  | s, [] => P s
  | s, a :: as =>
    P s ∧ match step s a with
      | none => True
      | some t => Throughout P step t as

variable {step : σ → α → Option σ} {ok : σ → α → Prop} {P : σ → Prop}

@[simp] theorem exec_nil (s : σ) : exec step s [] = some s := rfl

theorem exec_cons_eq_some {s u : σ} {a : α} {as : List α} :
    exec step s (a :: as) = some u ↔ ∃ t, step s a = some t ∧ exec step t as = some u := by
  simp only [exec, Option.bind_eq_some_iff]

theorem exec_append (s : σ) (as bs : List α) :
    exec step s (as ++ bs) = (exec step s as).bind fun t => exec step t bs := by
  induction as generalizing s with
  | nil => rfl
  | cons a as ih =>
    cases ha : step s a with
    | none => simp [exec, ha]
    | some t => simpa [exec, ha] using ih t

theorem exec_append_eq_some {s u : σ} {as bs : List α} :
    exec step s (as ++ bs) = some u ↔ ∃ t, exec step s as = some t ∧ exec step t bs = some u := by
  rw [exec_append, Option.bind_eq_some_iff]

theorem along_cons {s : σ} {a : α} {as : List α} :
    Along ok step s (a :: as) ↔ ∀ t, step s a = some t → ok s a ∧ Along ok step t as := by
  cases ha : step s a with
  | none => simp [Along, ha]
  | some t => simp [Along, ha]

theorem throughout_cons {s : σ} {a : α} {as : List α} :
    Throughout P step s (a :: as) ↔ P s ∧ ∀ t, step s a = some t → Throughout P step t as := by
  cases ha : step s a with
  | none => simp [Throughout, ha]
  | some t => simp [Throughout, ha]

instance decidableAlong [∀ s a, Decidable (ok s a)] :
    (s : σ) → (as : List α) → Decidable (Along ok step s as)
  | _, [] => isTrue trivial
  | s, a :: as =>
    match ha : step s a with
    | none => isTrue (by simp [Along, ha])
    | some t =>
      have := decidableAlong t as
      decidable_of_iff (ok s a ∧ Along ok step t as) (by simp [Along, ha])

/-- The run rule: what every step preserves, every run preserves. -/
theorem exec_invariant (hstep : ∀ s a t, P s → step s a = some t → P t)
    {s u : σ} {as : List α} (hs : P s) (h : exec step s as = some u) : P u := by
  induction as generalizing s with
  | nil =>
    obtain rfl := Option.some.inj h
    exact hs
  | cons a as ih =>
    obtain ⟨t, ha, ht⟩ := exec_cons_eq_some.mp h
    exact ih (hstep s a t hs ha) ht

theorem exec_invariant_along (hstep : ∀ s a t, P s → ok s a → step s a = some t → P t)
    {s u : σ} {as : List α} (hs : P s) (hok : Along ok step s as)
    (h : exec step s as = some u) : P u := by
  induction as generalizing s with
  | nil =>
    obtain rfl := Option.some.inj h
    exact hs
  | cons a as ih =>
    obtain ⟨t, ha, ht⟩ := exec_cons_eq_some.mp h
    obtain ⟨hoka, hoks⟩ := along_cons.mp hok t ha
    exact ih (hstep s a t hs hoka ha) hoks ht

theorem along_of_step (h : ∀ s a t, step s a = some t → ok s a) (s : σ) (as : List α) :
    Along ok step s as := by
  induction as generalizing s with
  | nil => trivial
  | cons a as ih => exact along_cons.mpr fun t ha => ⟨h s a t ha, ih t⟩

theorem along_label {p : α → Prop} {s : σ} {as : List α} (h : ∀ a ∈ as, p a) :
    Along (fun _ a => p a) step s as := by
  induction as generalizing s with
  | nil => trivial
  | cons a as ih =>
    exact along_cons.mpr fun t _ =>
      ⟨h a List.mem_cons_self, ih fun b hb => h b (List.mem_cons_of_mem a hb)⟩

theorem Along.of_append {s t : σ} {as bs : List α} (h : Along ok step s (as ++ bs))
    (hs : exec step s as = some t) : Along ok step t bs := by
  induction as generalizing s with
  | nil =>
    obtain rfl := Option.some.inj hs
    exact h
  | cons a as ih =>
    obtain ⟨u, ha, hu⟩ := exec_cons_eq_some.mp hs
    exact ih (along_cons.mp h u ha).2 hu

theorem Along.and {ok' : σ → α → Prop} {s : σ} {as : List α} (h : Along ok step s as)
    (h' : Along ok' step s as) : Along (fun s a => ok s a ∧ ok' s a) step s as := by
  induction as generalizing s with
  | nil => trivial
  | cons a as ih =>
    refine along_cons.mpr fun t ha => ?_
    obtain ⟨hok, hrest⟩ := along_cons.mp h t ha
    obtain ⟨hok', hrest'⟩ := along_cons.mp h' t ha
    exact ⟨⟨hok, hok'⟩, ih hrest hrest'⟩

theorem Along.mono {ok' : σ → α → Prop} {s : σ} {as : List α} (h : Along ok step s as)
    (himp : ∀ s a, ok s a → ok' s a) : Along ok' step s as := by
  induction as generalizing s with
  | nil => trivial
  | cons a as ih =>
    refine along_cons.mpr fun t ha => ?_
    obtain ⟨hok, hrest⟩ := along_cons.mp h t ha
    exact ⟨himp s a hok, ih hrest⟩

theorem along_congr {ok' : σ → α → Prop} {I : σ → Prop}
    (hiff : ∀ s a t, I s → step s a = some t → (ok s a ↔ ok' s a))
    (hstep : ∀ s a t, I s → ok s a → step s a = some t → I t)
    {s : σ} {as : List α} (hs : I s) : Along ok step s as ↔ Along ok' step s as := by
  induction as generalizing s with
  | nil => exact Iff.rfl
  | cons a as ih =>
    rw [along_cons, along_cons]
    refine forall₂_congr fun t ha => ?_
    rw [← hiff s a t hs ha]
    exact and_congr_right fun hok => ih (hstep s a t hs hok ha)

theorem Throughout.first {s : σ} {as : List α} (h : Throughout P step s as) : P s := by
  cases as with
  | nil => exact h
  | cons a as => exact h.1

theorem throughout_iff_along {s : σ} {as : List α} : Throughout P step s as ↔
    P s ∧ Along (fun s a => ∀ t, step s a = some t → P t) step s as := by
  induction as generalizing s with
  | nil => simp [Throughout, Along]
  | cons a as ih =>
    rw [throughout_cons, along_cons]
    refine and_congr_right fun _ => forall₂_congr fun t ha => ?_
    rw [ih]
    refine and_congr_left fun _ => ⟨fun hP u hu => ?_, fun h => h t ha⟩
    obtain rfl := Option.some.inj (ha.symm.trans hu)
    exact hP

/-- The rule for a property that follows from an invariant: a step that is accepted keeps the
invariant, and a step is accepted just when the property holds after it. -/
theorem throughout_iff_along_of_step {I : σ → Prop} (hP : ∀ s, I s → P s)
    (hstep : ∀ s a t, I s → ok s a → step s a = some t → I t)
    (hiff : ∀ s a t, I s → step s a = some t → (P t ↔ ok s a)) {s : σ} {as : List α} (hs : I s) :
    Throughout P step s as ↔ Along ok step s as := by
  rw [throughout_iff_along, and_iff_right (hP s hs)]
  apply Iff.symm
  refine along_congr (fun s a t h ha => ?_) hstep hs
  rw [← hiff s a t h ha]
  refine ⟨fun ht u hu => ?_, fun h => h t ha⟩
  obtain rfl := Option.some.inj (ha.symm.trans hu)
  exact ht

theorem throughout_iff_along_of_step_under {I : σ → Prop} {pre : σ → α → Prop}
    (hP : ∀ s, I s → P s)
    (hstep : ∀ s a t, I s → pre s a → ok s a → step s a = some t → I t)
    (hiff : ∀ s a t, I s → pre s a → step s a = some t → (P t ↔ ok s a)) {s : σ} {as : List α}
    (hs : I s) (hpre : Along pre step s as) : Throughout P step s as ↔ Along ok step s as := by
  induction as generalizing s with
  | nil => exact iff_of_true (hP s hs) trivial
  | cons a as ih =>
    rw [throughout_cons, along_cons, and_iff_right (hP s hs)]
    refine forall₂_congr fun t ha => ?_
    obtain ⟨hprea, hpres⟩ := along_cons.mp hpre t ha
    constructor
    · intro h
      have hok := (hiff s a t hs hprea ha).mp h.first
      exact ⟨hok, (ih (hstep s a t hs hprea hok ha) hpres).mp h⟩
    · intro ⟨hok, hoks⟩
      exact (ih (hstep s a t hs hprea hok ha) hpres).mpr hoks

theorem throughout_iff_along_of_iff (hiff : ∀ s a t, P s → step s a = some t → (P t ↔ ok s a))
    {s : σ} {as : List α} (hs : P s) : Throughout P step s as ↔ Along ok step s as :=
  throughout_iff_along_of_step (fun _ h => h)
    (fun s a t h hok ha => (hiff s a t h ha).mpr hok) hiff hs

theorem Throughout.last {s u : σ} {as : List α} (h : Throughout P step s as)
    (hu : exec step s as = some u) : P u := by
  induction as generalizing s with
  | nil =>
    obtain rfl := Option.some.inj hu
    exact h
  | cons a as ih =>
    obtain ⟨t, ha, ht⟩ := exec_cons_eq_some.mp hu
    exact ih ((throughout_cons.mp h).2 t ha) ht

theorem exec_back {I : σ → Prop} (hI : ∀ s a t, I s → step s a = some t → I t)
    (hback : ∀ s a t, I s → step s a = some t → P t → P s) {s u : σ} {as : List α} (hs : I s)
    (h : exec step s as = some u) (hu : P u) : P s := by
  induction as generalizing s with
  | nil =>
    obtain rfl := Option.some.inj h
    exact hu
  | cons a as ih =>
    obtain ⟨t, ha, ht⟩ := exec_cons_eq_some.mp h
    exact hback s a t hs ha (ih (hI s a t hs ha) ht)

/-- A property that is never regained holds at the end of a run just when no step loses it. -/
theorem last_iff_along {I : σ → Prop} (hI : ∀ s a t, I s → step s a = some t → I t)
    (hback : ∀ s a t, I s → step s a = some t → P t → P s)
    (hiff : ∀ s a t, I s → P s → step s a = some t → (P t ↔ ok s a)) {s u : σ} {as : List α}
    (hs : I s) (hP : P s) (h : exec step s as = some u) : P u ↔ Along ok step s as := by
  induction as generalizing s with
  | nil =>
    obtain rfl := Option.some.inj h
    exact iff_of_true hP trivial
  | cons a as ih =>
    obtain ⟨t, ha, ht⟩ := exec_cons_eq_some.mp h
    have hIt := hI s a t hs ha
    constructor
    · intro hu
      have hPt := exec_back hI hback hIt ht hu
      refine along_cons.mpr fun t' ha' => ?_
      obtain rfl := Option.some.inj (ha.symm.trans ha')
      exact ⟨(hiff s a t hs hP ha).mp hPt, (ih hIt hPt ht).mp hu⟩
    · intro hok
      obtain ⟨hoka, hoks⟩ := along_cons.mp hok t ha
      have hPt := (hiff s a t hs hP ha).mpr hoka
      exact (ih hIt hPt ht).mpr hoks

theorem throughout_invariant (hstep : ∀ s a t, P s → step s a = some t → P t) {s : σ} (hs : P s)
    (as : List α) : Throughout P step s as := by
  induction as generalizing s with
  | nil => exact hs
  | cons a as ih => exact throughout_cons.mpr ⟨hs, fun t ha => ih (hstep s a t hs ha)⟩

theorem Throughout.mono {Q : σ → Prop} {s : σ} {as : List α} (h : Throughout P step s as)
    (himp : ∀ s, P s → Q s) : Throughout Q step s as := by
  induction as generalizing s with
  | nil => exact himp s h
  | cons a as ih =>
    obtain ⟨hs, hrest⟩ := throughout_cons.mp h
    exact throughout_cons.mpr ⟨himp s hs, fun t ha => ih (hrest t ha)⟩

theorem exec_map {step' : τ → β → Option τ} (f : σ → τ) (g : α → β)
    (hstep : ∀ s a t, step s a = some t → step' (f s) (g a) = some (f t))
    {s u : σ} {as : List α} (h : exec step s as = some u) :
    exec step' (f s) (as.map g) = some (f u) := by
  induction as generalizing s with
  | nil =>
    obtain rfl := Option.some.inj h
    rfl
  | cons a as ih =>
    obtain ⟨t, ha, ht⟩ := exec_cons_eq_some.mp h
    exact exec_cons_eq_some.mpr ⟨f t, hstep s a t ha, ih ht⟩

def outputs (out : σ → α → List β) (step : σ → α → Option σ) : σ → List α → List β
  | _, [] => []
  | s, a :: as =>
    match step s a with
    | none => []
    | some t => out s a ++ outputs out step t as

theorem outputs_cons {out : σ → α → List β} {s t : σ} {a : α} {as : List α}
    (ha : step s a = some t) :
    outputs out step s (a :: as) = out s a ++ outputs out step t as := by
  simp only [outputs, ha]

theorem exec_balance {M : Type*} [AddCommMonoid M] {I : σ → Prop} (inputs : α → M)
    (w : β → M) (out : σ → α → List β) (value : σ → M)
    (hstep : ∀ s a t, I s → ok s a → step s a = some t → I t)
    (hvalue : ∀ s a t, I s → ok s a → step s a = some t →
      value s + inputs a = value t + ((out s a).map w).sum)
    {s u : σ} {as : List α} (hs : I s) (hok : Along ok step s as) (h : exec step s as = some u) :
    value s + (as.map inputs).sum = value u + ((outputs out step s as).map w).sum := by
  induction as generalizing s with
  | nil =>
    obtain rfl := Option.some.inj h
    rfl
  | cons a as ih =>
    obtain ⟨t, ha, ht⟩ := exec_cons_eq_some.mp h
    obtain ⟨hoka, hoks⟩ := along_cons.mp hok t ha
    have hrest := ih (hstep s a t hs hoka ha) hoks ht
    have hone := hvalue s a t hs hoka ha
    calc value s + ((a :: as).map inputs).sum
        = value s + inputs a + (as.map inputs).sum := by
          rw [List.map_cons, List.sum_cons, add_assoc]
      _ = value t + (as.map inputs).sum + ((out s a).map w).sum := by rw [hone, add_right_comm]
      _ = value u + ((outputs out step t as).map w).sum + ((out s a).map w).sum := by rw [hrest]
      _ = value u + ((outputs out step s (a :: as)).map w).sum := by
        rw [outputs_cons ha, List.map_append, List.sum_append, add_assoc,
          add_comm ((out s a).map w).sum]

end Transition
