import Mathlib
import Bugat.Lib.Transition

/-!
# The atomic object and linearizable histories

Threads call the operations of an object. A call is known by its thread and by its number among
the calls of that thread. A history of calls and returns is linearizable when its calls can be
put in one order that keeps the real time order and in which a sequential object gives the same
results. The atomic object runs each operation in one step between the call and the return, and
what refines it is linearizable.
-/

namespace AtomicObject

open Transition (exec exec_invariant)

variable {ι σ Op Res : Type*}

inductive Event (ι Op Res : Type*)
  | call (id : ι × ℕ) (op : Op)
  | ret (id : ι × ℕ) (res : Res)
  deriving DecidableEq, Repr

def Event.id : Event ι Op Res → ι × ℕ
  | .call id _ | .ret id _ => id

structure Entry (ι Op Res : Type*) where
  id : ι × ℕ
  op : Op
  res : Res
  deriving DecidableEq, Repr

inductive Complete (t : ι) : ℕ → List (Event ι Op Res) → Prop
  | nil : Complete t 0 []
  | next {n : ℕ} {h : List (Event ι Op Res)} (hcomplete : Complete t n h) (op : Op) (res : Res) :
    Complete t (n + 1) (h ++ [.call (t, n) op] ++ [.ret (t, n) res])

section Histories

variable [DecidableEq ι]

def ofThread (t : ι) (h : List (Event ι Op Res)) : List (Event ι Op Res) :=
  h.filter fun e => e.id.1 = t

def WellFormed (h : List (Event ι Op Res)) : Prop :=
  ∀ t, ∃ n g, Complete t n g ∧
    (ofThread t h = g ∨ ∃ op, ofThread t h = g ++ [.call (t, n) op])

end Histories

def run (apply : σ → Op → σ × Res) (s : σ) (order : List (Entry ι Op Res)) : σ :=
  order.foldl (fun s e => (apply s e.op).1) s

def Legal (apply : σ → Op → σ × Res) : σ → List (Entry ι Op Res) → Prop
  | _, [] => True
  | s, e :: order => (apply s e.op).2 = e.res ∧ Legal apply (apply s e.op).1 order

/-- A sequential order of the calls of a history. A call that has not returned may be in it or
not; one that has returned is, with the result it has returned. -/
structure Linearization (apply : σ → Op → σ × Res) (s₀ : σ) (h : List (Event ι Op Res))
    (order : List (Entry ι Op Res)) : Prop where
  nodup : (order.map Entry.id).Nodup
  called : ∀ e ∈ order, .call e.id e.op ∈ h
  returned : ∀ id res, .ret id res ∈ h → ∃ e ∈ order, e.id = id ∧ e.res = res
  legal : Legal apply s₀ order
  realTime : ∀ a ∈ order, ∀ b ∈ order, [.ret a.id a.res, .call b.id b.op].Sublist h →
    [a, b].Sublist order

def Linearizable [DecidableEq ι] (apply : σ → Op → σ × Res) (s₀ : σ)
    (h : List (Event ι Op Res)) : Prop :=
  WellFormed h ∧ ∃ order, Linearization apply s₀ h order

inductive Phase (Op Res : Type*)
  | idle
  | called (op : Op)
  | applied (op : Op) (res : Res)
  deriving DecidableEq, Repr

structure State (ι σ Op Res : Type*) where
  obj : σ
  phase : ι → Phase Op Res
  count : ι → ℕ
  history : List (Event ι Op Res)
  order : List (Entry ι Op Res)

def init (s₀ : σ) : State ι σ Op Res := ⟨s₀, fun _ => .idle, fun _ => 0, [], []⟩

inductive Label (ι Op : Type*)
  | call (t : ι) (op : Op)
  | apply (t : ι)
  | ret (t : ι)

section Steps

variable [DecidableEq ι]

namespace State

variable (s : State ι σ Op Res) (t : ι)

def call (op : Op) : State ι σ Op Res :=
  { s with
    phase := Function.update s.phase t (.called op)
    history := s.history ++ [.call (t, s.count t) op] }

def apply (f : σ → Op → σ × Res) (op : Op) : State ι σ Op Res :=
  { s with
    obj := (f s.obj op).1
    phase := Function.update s.phase t (.applied op (f s.obj op).2)
    order := s.order ++ [⟨(t, s.count t), op, (f s.obj op).2⟩] }

def ret (res : Res) : State ι σ Op Res :=
  { s with
    phase := Function.update s.phase t .idle
    count := Function.update s.count t (s.count t + 1)
    history := s.history ++ [.ret (t, s.count t) res] }

end State

def step (f : σ → Op → σ × Res) (s : State ι σ Op Res) : Label ι Op → Option (State ι σ Op Res)
  | .call t op =>
    match s.phase t with
    | .idle => some (s.call t op)
    | _ => none
  | .apply t =>
    match s.phase t with
    | .called op => some (s.apply t f op)
    | _ => none
  | .ret t =>
    match s.phase t with
    | .applied _ res => some (s.ret t res)
    | _ => none

end Steps

def Phase.pending (id : ι × ℕ) : Phase Op Res → List (Event ι Op Res)
  | .idle => []
  | .called op | .applied op _ => [.call id op]

structure Inv [DecidableEq ι] (f : σ → Op → σ × Res) (s₀ : σ) (s : State ι σ Op Res) : Prop where
  complete : ∀ t, ∃ g, Complete t (s.count t) g ∧
    ofThread t s.history = g ++ (s.phase t).pending (t, s.count t)
  linearization : Linearization f s₀ s.history s.order
  obj : run f s₀ s.order = s.obj
  called : ∀ t op, s.phase t = .called op → ∀ e ∈ s.order, e.id ≠ (t, s.count t)
  applied : ∀ t op res, s.phase t = .applied op res → ⟨(t, s.count t), op, res⟩ ∈ s.order

section Lists

variable {f : σ → Op → σ × Res} {s₀ : σ} {h : List (Event ι Op Res)} {e : Event ι Op Res}
  {order : List (Entry ι Op Res)} {a : Entry ι Op Res} {t : ι} {n : ℕ}

theorem pair_sublist_concat {α : Type*} {x y z : α} {xs : List α}
    (hsub : [x, y].Sublist (xs ++ [z])) : [x, y].Sublist xs ∨ y = z := by
  have hrev : [y, x].Sublist (z :: xs.reverse) := by
    simpa using hsub.reverse
  rcases List.sublist_cons_iff.mp hrev with hsub | ⟨r, hr, -⟩
  · left
    simpa using hsub.reverse
  · exact .inr (List.cons.inj hr).1

theorem run_concat : run f s₀ (order ++ [a]) = (f (run f s₀ order) a.op).1 := by
  rw [run, List.foldl_append]
  rfl

theorem legal_concat : Legal f s₀ (order ++ [a]) ↔
    Legal f s₀ order ∧ (f (run f s₀ order) a.op).2 = a.res := by
  induction order generalizing s₀ with
  | nil => simp [Legal, run]
  | cons b order ih =>
    rw [List.cons_append, Legal, Legal, ih, and_assoc]
    rfl

theorem Complete.number_lt (hc : Complete t n h) (he : e ∈ h) : e.id.2 < n := by
  induction hc with
  | nil => cases he
  | next hc op res ih =>
    rw [List.mem_append, List.mem_append, List.mem_singleton, List.mem_singleton] at he
    rcases he with (he | rfl) | rfl
    · exact Nat.lt_succ_of_lt (ih he)
    · exact Nat.lt_succ_self _
    · exact Nat.lt_succ_self _

variable [DecidableEq ι]

theorem ofThread_concat_self (hid : e.id.1 = t) :
    ofThread t (h ++ [e]) = ofThread t h ++ [e] := by
  rw [ofThread, List.filter_append]
  simp [ofThread, hid]

theorem ofThread_concat_other (hid : e.id.1 ≠ t) : ofThread t (h ++ [e]) = ofThread t h := by
  rw [ofThread, List.filter_append]
  simp [ofThread, hid]

theorem mem_ofThread (he : e ∈ h) : e ∈ ofThread e.id.1 h := by
  rw [ofThread, List.mem_filter]
  exact ⟨he, decide_eq_true rfl⟩

end Lists

namespace Linearization

variable {f : σ → Op → σ × Res} {s₀ : σ} {h : List (Event ι Op Res)}
  {order : List (Entry ι Op Res)} {id : ι × ℕ} {op : Op} {res : Res}

theorem nil (f : σ → Op → σ × Res) (s₀ : σ) :
    Linearization f s₀ ([] : List (Event ι Op Res)) [] := by
  refine ⟨List.nodup_nil, ?_, ?_, trivial, ?_⟩
  · intro e he
    cases he
  · intro id res hret
    cases hret
  · intro a ha
    cases ha

theorem call (hl : Linearization f s₀ h order) (hnew : ∀ e ∈ order, e.id ≠ id) :
    Linearization f s₀ (h ++ [.call id op]) order := by
  refine ⟨hl.nodup, ?_, ?_, hl.legal, ?_⟩
  · intro e he
    exact List.mem_append_left _ (hl.called e he)
  · intro id' res hret
    rcases List.mem_append.mp hret with hret | hret
    · exact hl.returned id' res hret
    · cases List.mem_singleton.mp hret
  · intro a ha b hb hsub
    rcases pair_sublist_concat hsub with hsub | hlast
    · exact hl.realTime a ha b hb hsub
    · cases hlast
      exact absurd rfl (hnew b hb)

theorem apply (hl : Linearization f s₀ h order) (hcall : .call id op ∈ h)
    (hnew : ∀ e ∈ order, e.id ≠ id) (hres : (f (run f s₀ order) op).2 = res) :
    Linearization f s₀ h (order ++ [⟨id, op, res⟩]) := by
  refine ⟨?_, ?_, ?_, legal_concat.mpr ⟨hl.legal, hres⟩, ?_⟩
  · rw [List.map_append, List.map_singleton]
    refine hl.nodup.append (List.nodup_singleton _) ?_
    intro id' hmem hid
    obtain ⟨e, he, rfl⟩ := List.mem_map.mp hmem
    exact hnew e he (List.mem_singleton.mp hid)
  · intro e he
    rcases List.mem_append.mp he with he | he
    · exact hl.called e he
    · obtain rfl := List.mem_singleton.mp he
      exact hcall
  · intro id' res' hret
    obtain ⟨e, he, heq⟩ := hl.returned id' res' hret
    exact ⟨e, List.mem_append_left _ he, heq⟩
  · intro a ha b hb hsub
    rcases List.mem_append.mp ha with ha | ha
    · rcases List.mem_append.mp hb with hb | hb
      · exact (hl.realTime a ha b hb hsub).trans (List.sublist_append_left _ _)
      · exact (List.singleton_sublist.mpr ha).append (List.singleton_sublist.mpr hb)
    · -- the new call has not returned
      obtain rfl := List.mem_singleton.mp ha
      obtain ⟨e, he, hid, -⟩ := hl.returned id res (hsub.subset List.mem_cons_self)
      exact absurd hid (hnew e he)

theorem ret (hl : Linearization f s₀ h order) (he : ⟨id, op, res⟩ ∈ order) :
    Linearization f s₀ (h ++ [.ret id res]) order := by
  refine ⟨hl.nodup, ?_, ?_, hl.legal, ?_⟩
  · intro e he
    exact List.mem_append_left _ (hl.called e he)
  · intro id' res' hret
    rcases List.mem_append.mp hret with hret | hret
    · exact hl.returned id' res' hret
    · cases List.mem_singleton.mp hret
      exact ⟨_, he, rfl, rfl⟩
  · intro a ha b hb hsub
    rcases pair_sublist_concat hsub with hsub | hlast
    · exact hl.realTime a ha b hb hsub
    · cases hlast

end Linearization

namespace Inv

variable [DecidableEq ι] {f : σ → Op → σ × Res} {s₀ : σ} {s s' : State ι σ Op Res} {t : ι}
  {op : Op} {res : Res}

theorem init : Inv f s₀ (init s₀ : State ι σ Op Res) := by
  refine ⟨fun t => ⟨[], .nil, rfl⟩, .nil f s₀, rfl, ?_, ?_⟩
  · intro t op hphase
    cases hphase
  · intro t op res hphase
    cases hphase

theorem wellFormed (hi : Inv f s₀ s) : WellFormed s.history := by
  intro t
  obtain ⟨g, hg, hhist⟩ := hi.complete t
  refine ⟨s.count t, g, hg, ?_⟩
  rw [hhist]
  cases s.phase t with
  | idle => exact .inl (List.append_nil g)
  | called op => exact .inr ⟨op, rfl⟩
  | applied op res => exact .inr ⟨op, rfl⟩

theorem number_lt (hi : Inv f s₀ s) (hphase : s.phase t = .idle) {e : Entry ι Op Res}
    (he : e ∈ s.order) (ht : e.id.1 = t) : e.id.2 < s.count t := by
  obtain ⟨g, hg, hhist⟩ := hi.complete t
  have hmem := mem_ofThread (hi.linearization.called e he)
  rw [Event.id, ht, hhist, hphase, Phase.pending, List.append_nil] at hmem
  exact hg.number_lt hmem

theorem call (hi : Inv f s₀ s) (hphase : s.phase t = .idle) (op : Op) : Inv f s₀ (s.call t op) := by
  have hnew : ∀ e ∈ s.order, e.id ≠ (t, s.count t) := by
    intro e he hid
    have hlt := hi.number_lt hphase he (congrArg Prod.fst hid)
    rw [hid] at hlt
    exact lt_irrefl _ hlt
  refine ⟨?_, hi.linearization.call hnew, hi.obj, ?_, ?_⟩
  · intro u
    obtain ⟨g, hg, hhist⟩ := hi.complete u
    refine ⟨g, hg, ?_⟩
    dsimp only [State.call]
    by_cases hu : u = t
    · subst hu
      rw [hphase, Phase.pending, List.append_nil] at hhist
      rw [ofThread_concat_self (t := u) rfl, hhist, Function.update_self]
      rfl
    · rw [ofThread_concat_other (Ne.symm hu), hhist, Function.update_of_ne hu]
  · intro u op' hu
    by_cases hut : u = t
    · subst hut
      exact hnew
    · dsimp only [State.call] at hu
      rw [Function.update_of_ne hut] at hu
      exact hi.called u op' hu
  · intro u op' res hu
    dsimp only [State.call] at hu
    by_cases hut : u = t
    · subst hut
      rw [Function.update_self] at hu
      cases hu
    · rw [Function.update_of_ne hut] at hu
      exact hi.applied u op' res hu

theorem apply (hi : Inv f s₀ s) (hphase : s.phase t = .called op) : Inv f s₀ (s.apply t f op) := by
  have hcall : .call (t, s.count t) op ∈ s.history := by
    obtain ⟨g, -, hhist⟩ := hi.complete t
    rw [hphase] at hhist
    have hmem : .call (t, s.count t) op ∈ ofThread t s.history := by
      rw [hhist]
      exact List.mem_append_right _ List.mem_cons_self
    exact List.mem_of_mem_filter hmem
  refine ⟨?_, hi.linearization.apply hcall (hi.called t op hphase) ?_, ?_, ?_, ?_⟩
  · intro u
    obtain ⟨g, hg, hhist⟩ := hi.complete u
    refine ⟨g, hg, ?_⟩
    dsimp only [State.apply]
    rw [hhist]
    by_cases hu : u = t
    · subst hu
      rw [hphase, Function.update_self]
      rfl
    · rw [Function.update_of_ne hu]
  · rw [hi.obj]
  · dsimp only [State.apply]
    rw [run_concat, hi.obj]
  · intro u op' hu e he hid
    dsimp only [State.apply] at hu
    by_cases hut : u = t
    · subst hut
      rw [Function.update_self] at hu
      cases hu
    · rw [Function.update_of_ne hut] at hu
      rcases List.mem_append.mp he with he | he
      · exact hi.called u op' hu e he hid
      · obtain rfl := List.mem_singleton.mp he
        exact hut (congrArg Prod.fst hid).symm
  · intro u op' res hu
    dsimp only [State.apply] at hu
    by_cases hut : u = t
    · subst hut
      rw [Function.update_self] at hu
      cases hu
      exact List.mem_append_right _ List.mem_cons_self
    · rw [Function.update_of_ne hut] at hu
      exact List.mem_append_left _ (hi.applied u op' res hu)

theorem ret (hi : Inv f s₀ s) (hphase : s.phase t = .applied op res) : Inv f s₀ (s.ret t res) := by
  refine ⟨?_, hi.linearization.ret (hi.applied t op res hphase), hi.obj, ?_, ?_⟩
  · intro u
    obtain ⟨g, hg, hhist⟩ := hi.complete u
    dsimp only [State.ret]
    by_cases hu : u = t
    · subst hu
      refine ⟨g ++ [.call (u, s.count u) op] ++ [.ret (u, s.count u) res], ?_, ?_⟩
      · rw [Function.update_self]
        exact .next hg op res
      · rw [ofThread_concat_self (t := u) rfl, hhist, hphase,
          Function.update_self, Function.update_self]
        exact (List.append_nil _).symm
    · refine ⟨g, ?_, ?_⟩
      · rw [Function.update_of_ne hu]
        exact hg
      · rw [ofThread_concat_other (Ne.symm hu), hhist, Function.update_of_ne hu,
          Function.update_of_ne hu]
  · intro u op' hu
    dsimp only [State.ret] at hu ⊢
    by_cases hut : u = t
    · subst hut
      rw [Function.update_self] at hu
      cases hu
    · rw [Function.update_of_ne hut] at hu
      rw [Function.update_of_ne hut]
      exact hi.called u op' hu
  · intro u op' res' hu
    dsimp only [State.ret] at hu ⊢
    by_cases hut : u = t
    · subst hut
      rw [Function.update_self] at hu
      cases hu
    · rw [Function.update_of_ne hut] at hu
      rw [Function.update_of_ne hut]
      exact hi.applied u op' res' hu

theorem step {l : Label ι Op} (hi : Inv f s₀ s) (hs : step f s l = some s') : Inv f s₀ s' := by
  cases l with
  | call t op =>
    rw [AtomicObject.step] at hs
    split at hs
    · rename_i hphase
      obtain rfl := Option.some.inj hs
      exact hi.call hphase op
    · cases hs
  | apply t =>
    rw [AtomicObject.step] at hs
    split at hs
    · rename_i op hphase
      obtain rfl := Option.some.inj hs
      exact hi.apply hphase
    · cases hs
  | ret t =>
    rw [AtomicObject.step] at hs
    split at hs
    · rename_i op res hphase
      obtain rfl := Option.some.inj hs
      exact hi.ret hphase
    · cases hs

theorem linearizable (hi : Inv f s₀ s) : Linearizable f s₀ s.history :=
  ⟨hi.wellFormed, s.order, hi.linearization⟩

end Inv

/-- The refinement rule: each step of a system does what the atomic object does in a step, or
nothing that the atomic object sees. -/
theorem linearizable_of_refines [DecidableEq ι] {γ α : Type*} {f : σ → Op → σ × Res} {s₀ : σ}
    {next : γ → α → Option γ} {history : γ → List (Event ι Op Res)}
    {R : γ → State ι σ Op Res → Prop}
    (hhist : ∀ c s, R c s → history c = s.history)
    (hnext : ∀ c a c' s, R c s → next c a = some c' →
      R c' s ∨ ∃ l s', step f s l = some s' ∧ R c' s')
    {c c' : γ} {as : List α} (hinit : R c (init s₀)) (hrun : exec next c as = some c') :
    Linearizable f s₀ (history c') := by
  have hreach : ∃ s, R c' s ∧ Inv f s₀ s := by
    refine exec_invariant (P := fun c => ∃ s, R c s ∧ Inv f s₀ s) ?_ ⟨_, hinit, .init⟩ hrun
    rintro c a c' ⟨s, hR, hi⟩ hc
    rcases hnext c a c' s hR hc with hR' | ⟨l, s', hs, hR'⟩
    · exact ⟨s, hR', hi⟩
    · exact ⟨s', hR', hi.step hs⟩
  obtain ⟨s, hR, hi⟩ := hreach
  rw [hhist c' s hR]
  exact hi.linearizable

end AtomicObject
