import Mathlib

/-!
# Routines that call each other and move between places

A routine acts where it is, moves to another place, or calls a routine and goes on with its
value. The direct evaluation runs a call to its end. The machine keeps the callers on a stack,
and each of them goes on at the place from which it called.
-/

namespace Bugat

/-- A callee without a place of its own starts at the place of its caller. -/
inductive Routine (Place Act Ans Val : Type*)
  | ret (v : Val)
  | act (a : Act) (k : Ans → Routine Place Act Ans Val)
  | move (p : Place) (next : Routine Place Act Ans Val)
  | call (p : Option Place) (callee : Routine Place Act Ans Val)
      (k : Val → Routine Place Act Ans Val)

namespace Routine

variable {Place Act Ans Val : Type*}

structure Event (Place Act Ans : Type*) where
  place : Place
  act : Act
  answer : Ans
  deriving DecidableEq

inductive Eval : Place → Routine Place Act Ans Val → List (Event Place Act Ans) → Val → Prop
  | ret (p : Place) (v : Val) : Eval p (.ret v) [] v
  | act {p : Place} {a : Act} {k : Ans → Routine Place Act Ans Val} {r : Ans}
      {tr : List (Event Place Act Ans)} {v : Val} (h : Eval p (k r) tr v) :
      Eval p (.act a k) (⟨p, a, r⟩ :: tr) v
  | move {p q : Place} {next : Routine Place Act Ans Val} {tr : List (Event Place Act Ans)}
      {v : Val} (h : Eval q next tr v) : Eval p (.move q next) tr v
  | call {p : Place} {q : Option Place} {callee : Routine Place Act Ans Val}
      {k : Val → Routine Place Act Ans Val} {tr₁ tr₂ : List (Event Place Act Ans)} {w v : Val}
      (hcallee : Eval (q.getD p) callee tr₁ w) (hk : Eval p (k w) tr₂ v) :
      Eval p (.call q callee k) (tr₁ ++ tr₂) v

abbrev Caller (Place Act Ans Val : Type*) := Place × (Val → Routine Place Act Ans Val)

structure Control (Place Act Ans Val : Type*) where
  place : Place
  code : Routine Place Act Ans Val
  callers : List (Caller Place Act Ans Val)

inductive Reaches (p₀ : Place) (c₀ : Routine Place Act Ans Val) :
    List (Event Place Act Ans) → Control Place Act Ans Val → Prop
  | start : Reaches p₀ c₀ [] ⟨p₀, c₀, []⟩
  | act {tr : List (Event Place Act Ans)} {p : Place} {a : Act}
      {k : Ans → Routine Place Act Ans Val} {st : List (Caller Place Act Ans Val)}
      (h : Reaches p₀ c₀ tr ⟨p, .act a k, st⟩) (r : Ans) :
      Reaches p₀ c₀ (tr ++ [⟨p, a, r⟩]) ⟨p, k r, st⟩
  | move {tr : List (Event Place Act Ans)} {p q : Place} {next : Routine Place Act Ans Val}
      {st : List (Caller Place Act Ans Val)} (h : Reaches p₀ c₀ tr ⟨p, .move q next, st⟩) :
      Reaches p₀ c₀ tr ⟨q, next, st⟩
  | call {tr : List (Event Place Act Ans)} {p : Place} {q : Option Place}
      {callee : Routine Place Act Ans Val} {k : Val → Routine Place Act Ans Val}
      {st : List (Caller Place Act Ans Val)} (h : Reaches p₀ c₀ tr ⟨p, .call q callee k, st⟩) :
      Reaches p₀ c₀ tr ⟨q.getD p, callee, (p, k) :: st⟩
  | ret {tr : List (Event Place Act Ans)} {p q : Place} {v : Val}
      {k : Val → Routine Place Act Ans Val} {st : List (Caller Place Act Ans Val)}
      (h : Reaches p₀ c₀ tr ⟨p, .ret v, (q, k) :: st⟩) : Reaches p₀ c₀ tr ⟨q, k v, st⟩

inductive Finishes : Control Place Act Ans Val → List (Event Place Act Ans) → Val → Prop
  | last {p : Place} {c : Routine Place Act Ans Val} {tr : List (Event Place Act Ans)} {v : Val}
      (h : Eval p c tr v) : Finishes ⟨p, c, []⟩ tr v
  | caller {p q : Place} {c : Routine Place Act Ans Val} {k : Val → Routine Place Act Ans Val}
      {st : List (Caller Place Act Ans Val)} {tr₁ tr₂ : List (Event Place Act Ans)} {w v : Val}
      (h : Eval p c tr₁ w) (hst : Finishes ⟨q, k w, st⟩ tr₂ v) :
      Finishes ⟨p, c, (q, k) :: st⟩ (tr₁ ++ tr₂) v

variable {p₀ p q : Place} {c₀ c c' : Routine Place Act Ans Val} {v : Val}
  {st : List (Caller Place Act Ans Val)} {tr tr' : List (Event Place Act Ans)}

theorem Finishes.before {more : List (Event Place Act Ans)} (h : Finishes ⟨p, c, st⟩ tr v)
    (heval : ∀ tr v, Eval p c tr v → Eval q c' (more ++ tr) v) :
    Finishes ⟨q, c', st⟩ (more ++ tr) v := by
  cases h with
  | last h => exact .last (heval _ _ h)
  | caller h hst =>
    rw [← List.append_assoc]
    exact .caller (heval _ _ h) hst

theorem Finishes.of_call {o : Option Place} {callee : Routine Place Act Ans Val}
    {k : Val → Routine Place Act Ans Val}
    (h : Finishes ⟨o.getD p, callee, (p, k) :: st⟩ tr v) :
    Finishes ⟨p, .call o callee k, st⟩ tr v := by
  cases h with
  | caller hcallee hst =>
    cases hst with
    | last hk => exact .last (.call hcallee hk)
    | caller hk hst =>
      rw [← List.append_assoc]
      exact .caller (.call hcallee hk) hst

/-- The machine and then the direct evaluation of what is left make a direct evaluation. -/
theorem Reaches.finishes {s : Control Place Act Ans Val} (h : Reaches p₀ c₀ tr s)
    (hs : Finishes s tr' v) : Eval p₀ c₀ (tr ++ tr') v := by
  induction h generalizing tr' v with
  | start =>
    cases hs with
    | last h => exact h
  | act h r ih =>
    rw [List.append_assoc]
    apply ih
    apply hs.before
    intro tr v heval
    exact heval.act
  | move h ih =>
    apply ih
    change Finishes _ ([] ++ tr') v
    apply hs.before
    intro tr v heval
    exact heval.move
  | call h ih => exact ih hs.of_call
  | @ret _ p _ w _ _ _ ih =>
    apply ih
    change Finishes _ ([] ++ tr') v
    exact .caller (.ret p w) hs

theorem Reaches.eval (h : Reaches p₀ c₀ tr ⟨p, .ret v, []⟩) : Eval p₀ c₀ tr v := by
  have heval := h.finishes (.last (.ret p v))
  rwa [List.append_nil] at heval

section Completion

variable [Nonempty Ans]

theorem exists_eval (c : Routine Place Act Ans Val) (p : Place) : ∃ tr v, Eval p c tr v := by
  induction c generalizing p with
  | ret v => exact ⟨[], v, .ret p v⟩
  | act a k ih =>
    obtain ⟨r⟩ := ‹Nonempty Ans›
    obtain ⟨tr, v, h⟩ := ih r p
    exact ⟨_, v, h.act⟩
  | move q next ih =>
    obtain ⟨tr, v, h⟩ := ih q
    exact ⟨tr, v, h.move⟩
  | call o callee k ihcallee ih =>
    obtain ⟨tr₁, w, hcallee⟩ := ihcallee (o.getD p)
    obtain ⟨tr₂, v, hk⟩ := ih w p
    exact ⟨tr₁ ++ tr₂, v, .call hcallee hk⟩

theorem exists_finishes (st : List (Caller Place Act Ans Val)) (p : Place)
    (c : Routine Place Act Ans Val) : ∃ tr v, Finishes ⟨p, c, st⟩ tr v := by
  induction st generalizing p c with
  | nil =>
    obtain ⟨tr, v, h⟩ := exists_eval c p
    exact ⟨tr, v, .last h⟩
  | cons caller st ih =>
    obtain ⟨tr₁, w, h⟩ := exists_eval c p
    obtain ⟨tr₂, v, hst⟩ := ih caller.1 (caller.2 w)
    exact ⟨tr₁ ++ tr₂, v, .caller h hst⟩

theorem Reaches.extends {s : Control Place Act Ans Val} (h : Reaches p₀ c₀ tr s) :
    ∃ rest v, Eval p₀ c₀ (tr ++ rest) v := by
  obtain ⟨rest, v, hs⟩ := exists_finishes s.callers s.place s.code
  exact ⟨rest, v, h.finishes hs⟩

end Completion

end Routine

end Bugat
