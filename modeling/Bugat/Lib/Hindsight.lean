import Mathlib
import Bugat.Lib.AtomicObject

/-!
# Calls that take effect in hindsight

A call that only reads may learn late that the object was once in the state that its result
tells of. Here such a call may take a place inside the order, behind everything that was in the
order when it was made. What refines this object is still linearizable.
-/

namespace Hindsight

open AtomicObject (Entry Event Linearization Linearizable run Legal pair_sublist_concat)
open Relation (ReflTransGen)
open Transition (exec Along exec_invariant_along)

variable {ι σ Op Res : Type*}

structure State (ι σ Op Res : Type*) where
  base : AtomicObject.State ι σ Op Res
  since : ι → List (Entry ι Op Res)

def init (s₀ : σ) : State ι σ Op Res := ⟨AtomicObject.init s₀, fun _ => []⟩

section Steps

variable [DecidableEq ι]

def look (s : AtomicObject.State ι σ Op Res) (t : ι) (op : Op) (res : Res)
    (before after : List (Entry ι Op Res)) : AtomicObject.State ι σ Op Res :=
  { s with
    phase := Function.update s.phase t (.applied op res)
    order := before ++ ⟨(t, s.count t), op, res⟩ :: after }

inductive Step (f : σ → Op → σ × Res) (s₀ : σ) (s : State ι σ Op Res) : State ι σ Op Res → Prop
  | call (t : ι) (op : Op) (hphase : s.base.phase t = .idle) :
    Step f s₀ s ⟨s.base.call t op, Function.update s.since t s.base.order⟩
  | apply (t : ι) (op : Op) (hphase : s.base.phase t = .called op) :
    Step f s₀ s ⟨s.base.apply t f op, s.since⟩
  | look (t : ι) (op : Op) (res : Res) (before after : List (Entry ι Op Res))
    (hphase : s.base.phase t = .called op) (horder : s.base.order = before ++ after)
    (hsince : ∀ a ∈ s.since t, a ∈ before)
    (hread : f (run f s₀ before) op = (run f s₀ before, res)) :
    Step f s₀ s ⟨look s.base t op res before after, s.since⟩
  | ret (t : ι) (op : Op) (res : Res) (hphase : s.base.phase t = .applied op res) :
    Step f s₀ s ⟨s.base.ret t res, s.since⟩

end Steps

section Insertion

variable {f : σ → Op → σ × Res} {s₀ : σ} {h : List (Event ι Op Res)}
  {before after : List (Entry ι Op Res)} {id : ι × ℕ} {op : Op} {res : Res}

theorem run_append : run f s₀ (before ++ after) = run f (run f s₀ before) after :=
  List.foldl_append

theorem legal_append :
    Legal f s₀ (before ++ after) ↔ Legal f s₀ before ∧ Legal f (run f s₀ before) after := by
  induction before generalizing s₀ with
  | nil => simp [Legal, run]
  | cons e before ih =>
    rw [List.cons_append, Legal, Legal, ih, and_assoc]
    rfl

/-- A call that leaves the object as it is has no effect on what stands behind it. -/
theorem run_insert (hread : f (run f s₀ before) op = (run f s₀ before, res)) :
    run f s₀ (before ++ ⟨id, op, res⟩ :: after) = run f s₀ (before ++ after) := by
  rw [run_append, run_append]
  change run f (f (run f s₀ before) op).1 after = _
  rw [hread]

theorem linearization_insert (hl : Linearization f s₀ h (before ++ after))
    (hcall : .call id op ∈ h) (hnew : ∀ e ∈ before ++ after, e.id ≠ id)
    (hread : f (run f s₀ before) op = (run f s₀ before, res))
    (hbefore : ∀ a ∈ before ++ after, [.ret a.id a.res, .call id op].Sublist h → a ∈ before) :
    Linearization f s₀ h (before ++ ⟨id, op, res⟩ :: after) := by
  have hmem : ∀ e, e ∈ before ++ ⟨id, op, res⟩ :: after ↔
      e = ⟨id, op, res⟩ ∨ e ∈ before ++ after := by
    intro e
    simp only [List.mem_append, List.mem_cons]
    tauto
  refine ⟨?_, ?_, ?_, ?_, ?_⟩
  · rw [List.map_append, List.map_cons, List.nodup_middle, List.nodup_cons, ← List.map_append]
    refine ⟨?_, hl.nodup⟩
    intro hid
    obtain ⟨e, he, heq⟩ := List.mem_map.mp hid
    exact hnew e he heq
  · intro e he
    rcases (hmem e).mp he with rfl | he
    · exact hcall
    · exact hl.called e he
  · intro id' res' hret
    obtain ⟨e, he, heq⟩ := hl.returned id' res' hret
    exact ⟨e, (hmem e).mpr (.inr he), heq⟩
  · obtain ⟨hfirst, hlast⟩ := legal_append.mp hl.legal
    refine legal_append.mpr ⟨hfirst, ?_, ?_⟩
    · rw [hread]
    · change Legal f (f (run f s₀ before) op).1 after
      rw [hread]
      exact hlast
  · intro a ha b hb hsub
    rcases (hmem a).mp ha with rfl | ha
    · -- the inserted call has not returned
      obtain ⟨e, he, hid, -⟩ := hl.returned id res (hsub.subset List.mem_cons_self)
      exact absurd hid (hnew e he)
    · rcases (hmem b).mp hb with rfl | hb
      · have hfirst := hbefore a ha hsub
        exact (List.singleton_sublist.mpr hfirst).append
          (List.singleton_sublist.mpr List.mem_cons_self)
      · exact (hl.realTime a ha b hb hsub).trans
          ((List.Sublist.refl before).append (List.sublist_cons_self _ _))

end Insertion

variable [DecidableEq ι] {f : σ → Op → σ × Res} {s₀ : σ} {s s' : State ι σ Op Res}

structure Inv (f : σ → Op → σ × Res) (s₀ : σ) (s : State ι σ Op Res) : Prop where
  base : AtomicObject.Inv f s₀ s.base
  old : ∀ t, ∀ a ∈ s.since t, a ∈ s.base.order
  since : ∀ t op, s.base.phase t = .called op → ∀ a ∈ s.base.order,
    [.ret a.id a.res, .call (t, s.base.count t) op].Sublist s.base.history → a ∈ s.since t

namespace Inv

variable {t : ι} {op : Op} {res : Res}

theorem init : Inv f s₀ (init s₀ : State ι σ Op Res) := by
  refine ⟨.init, ?_, ?_⟩
  · intro t a ha
    cases ha
  · intro t op hphase
    cases hphase

theorem call (h : Inv f s₀ s) (hphase : s.base.phase t = .idle) :
    Inv f s₀ ⟨s.base.call t op, Function.update s.since t s.base.order⟩ := by
  refine ⟨h.base.call hphase op, ?_, ?_⟩
  · intro u a ha
    dsimp only at ha
    by_cases hut : u = t
    · subst hut
      rwa [Function.update_self] at ha
    · rw [Function.update_of_ne hut] at ha
      exact h.old u a ha
  · intro u op' hu a ha hsub
    dsimp only [AtomicObject.State.call] at hu hsub ⊢
    by_cases hut : u = t
    · subst hut
      rw [Function.update_self]
      exact ha
    · rw [Function.update_of_ne hut] at hu ⊢
      rcases pair_sublist_concat hsub with hsub | hlast
      · exact h.since u op' hu a ha hsub
      · cases hlast
        exact absurd rfl hut

theorem called_of_update {u : ι} {op' : Op}
    (hu : Function.update s.base.phase t (.applied op res) u = .called op') :
    u ≠ t ∧ s.base.phase u = .called op' := by
  by_cases hut : u = t
  · subst hut
    rw [Function.update_self] at hu
    cases hu
  · rw [Function.update_of_ne hut] at hu
    exact ⟨hut, hu⟩

theorem since_of_placed (h : Inv f s₀ s) (hphase : s.base.phase t = .called op) {u : ι} {op' : Op}
    (hu : s.base.phase u = .called op') {a : Entry ι Op Res}
    (ha : a = ⟨(t, s.base.count t), op, res⟩ ∨ a ∈ s.base.order)
    (hsub : [.ret a.id a.res, .call (u, s.base.count u) op'].Sublist s.base.history) :
    a ∈ s.since u := by
  rcases ha with rfl | ha
  · obtain ⟨e, he, hid, -⟩ :=
      h.base.linearization.returned _ _ (hsub.subset List.mem_cons_self)
    exact absurd hid (h.base.called t op hphase e he)
  · exact h.since u op' hu a ha hsub

theorem apply (h : Inv f s₀ s) (hphase : s.base.phase t = .called op) :
    Inv f s₀ ⟨s.base.apply t f op, s.since⟩ := by
  refine ⟨h.base.apply hphase, ?_, ?_⟩
  · intro u a ha
    exact List.mem_append_left _ (h.old u a ha)
  · intro u op' hu a ha hsub
    have hplace : a = ⟨(t, s.base.count t), op, (f s.base.obj op).2⟩ ∨ a ∈ s.base.order := by
      rcases List.mem_append.mp ha with ha | ha
      · exact .inr ha
      · exact .inl (List.mem_singleton.mp ha)
    exact h.since_of_placed hphase (called_of_update hu).2 hplace hsub

theorem look_base {before after : List (Entry ι Op Res)} (h : Inv f s₀ s)
    (hphase : s.base.phase t = .called op) (horder : s.base.order = before ++ after)
    (hsince : ∀ a ∈ s.since t, a ∈ before)
    (hread : f (run f s₀ before) op = (run f s₀ before, res)) :
    AtomicObject.Inv f s₀ (look s.base t op res before after) := by
  have hnew := h.base.called t op hphase
  have hcall : .call (t, s.base.count t) op ∈ s.base.history := by
    obtain ⟨g, -, hhist⟩ := h.base.complete t
    rw [hphase] at hhist
    have hmem : .call (t, s.base.count t) op ∈ AtomicObject.ofThread t s.base.history := by
      rw [hhist]
      exact List.mem_append_right _ List.mem_cons_self
    exact List.mem_of_mem_filter hmem
  have hplaces : ∀ a ∈ s.base.order, a ∈ before ++ ⟨(t, s.base.count t), op, res⟩ :: after := by
    intro a ha
    rw [horder] at ha
    exact ((List.Sublist.refl before).append (List.sublist_cons_self _ _)).subset ha
  refine ⟨?_, ?_, ?_, ?_, ?_⟩
  · intro u
    obtain ⟨g, hg, hhist⟩ := h.base.complete u
    refine ⟨g, hg, ?_⟩
    dsimp only [look]
    rw [hhist]
    by_cases hut : u = t
    · subst hut
      rw [hphase, Function.update_self]
      rfl
    · rw [Function.update_of_ne hut]
  · have hl := h.base.linearization
    rw [horder] at hl hnew
    refine linearization_insert hl hcall hnew hread ?_
    intro a ha hsub
    rw [← horder] at ha
    exact hsince a (h.since t op hphase a ha hsub)
  · dsimp only [look]
    rw [run_insert hread, ← horder, h.base.obj]
  · intro u op' hu e he
    obtain ⟨hut, hu'⟩ := called_of_update hu
    dsimp only [look] at he ⊢
    rcases List.mem_append.mp he with he | he
    · exact h.base.called u op' hu' e (horder ▸ List.mem_append_left _ he)
    · rcases List.mem_cons.mp he with rfl | he
      · intro hid
        exact hut (congrArg Prod.fst hid).symm
      · exact h.base.called u op' hu' e (horder ▸ List.mem_append_right _ he)
  · intro u op' res' hu
    dsimp only [look] at hu ⊢
    by_cases hut : u = t
    · subst hut
      rw [Function.update_self] at hu
      cases hu
      exact List.mem_append_right _ List.mem_cons_self
    · rw [Function.update_of_ne hut] at hu
      exact hplaces _ (h.base.applied u op' res' hu)

theorem look {before after : List (Entry ι Op Res)} (h : Inv f s₀ s)
    (hphase : s.base.phase t = .called op) (horder : s.base.order = before ++ after)
    (hsince : ∀ a ∈ s.since t, a ∈ before)
    (hread : f (run f s₀ before) op = (run f s₀ before, res)) :
    Inv f s₀ ⟨look s.base t op res before after, s.since⟩ := by
  refine ⟨h.look_base hphase horder hsince hread, ?_, ?_⟩
  · intro u a ha
    have hmem := h.old u a ha
    rw [horder] at hmem
    exact ((List.Sublist.refl before).append (List.sublist_cons_self _ _)).subset hmem
  · intro u op' hu a ha hsub
    have hplace : a = ⟨(t, s.base.count t), op, res⟩ ∨ a ∈ s.base.order := by
      rw [horder]
      rcases List.mem_append.mp ha with ha | ha
      · exact .inr (List.mem_append_left _ ha)
      · rcases List.mem_cons.mp ha with rfl | ha
        · exact .inl rfl
        · exact .inr (List.mem_append_right _ ha)
    exact h.since_of_placed hphase (called_of_update hu).2 hplace hsub

theorem ret (h : Inv f s₀ s) (hphase : s.base.phase t = .applied op res) :
    Inv f s₀ ⟨s.base.ret t res, s.since⟩ := by
  refine ⟨h.base.ret hphase, h.old, ?_⟩
  intro u op' hu a ha hsub
  dsimp only [AtomicObject.State.ret] at hu hsub
  by_cases hut : u = t
  · subst hut
    rw [Function.update_self] at hu
    cases hu
  · rw [Function.update_of_ne hut] at hu hsub
    rcases pair_sublist_concat hsub with hsub | hlast
    · exact h.since u op' hu a ha hsub
    · cases hlast

theorem step (h : Inv f s₀ s) (hs : Step f s₀ s s') : Inv f s₀ s' := by
  cases hs with
  | call t op hphase => exact h.call hphase
  | apply t op hphase => exact h.apply hphase
  | look t op res before after hphase horder hsince hread =>
    exact h.look hphase horder hsince hread
  | ret t op res hphase => exact h.ret hphase

theorem steps (h : Inv f s₀ s) (hs : ReflTransGen (Step f s₀) s s') : Inv f s₀ s' := by
  induction hs with
  | refl => exact h
  | tail _ hlast ih => exact ih.step hlast

end Inv

/-- The refinement rule: each step of a system does what the object does in some steps. -/
theorem linearizable_of_refines {γ α : Type*} {ok : γ → α → Prop} {next : γ → α → Option γ}
    {history : γ → List (Event ι Op Res)} {R : γ → State ι σ Op Res → Prop}
    (hhist : ∀ c s, R c s → history c = s.base.history)
    (hnext : ∀ c a c' s, Inv f s₀ s → R c s → ok c a → next c a = some c' →
      ∃ s', ReflTransGen (Step f s₀) s s' ∧ R c' s')
    {c c' : γ} {as : List α} (hinit : R c (init s₀)) (hok : Along ok next c as)
    (hrun : exec next c as = some c') : Linearizable f s₀ (history c') := by
  have hreach : ∃ s, R c' s ∧ Inv f s₀ s := by
    refine exec_invariant_along (P := fun c => ∃ s, R c s ∧ Inv f s₀ s) ?_ ⟨_, hinit, .init⟩ hok
      hrun
    intro c a c' hc hok hs
    obtain ⟨s, hR, hi⟩ := hc
    obtain ⟨s', hsteps, hR'⟩ := hnext c a c' s hi hR hok hs
    exact ⟨s', hR', hi.steps hsteps⟩
  obtain ⟨s, hR, hi⟩ := hreach
  rw [hhist c' s hR]
  exact hi.base.linearizable

end Hindsight
