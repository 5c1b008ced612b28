import Mathlib
import Bugat.Base.AwaitTaskCalls
import Bugat.Base.ExecutorTasks

/-!
# The frames of the coroutines and who resumes them

A coroutine that does not wait for another one is resumed by exactly one task or run by exactly
one thread. The coroutines of a spawned one wait one behind the other, and the innermost of them
goes on.
-/

namespace Bugat.AwaitCall

open Routine (Caller Eval Reaches)

variable {n : ℕ} {Tid Obj Task Act Ans Val : Type*}

def Job.handle : Job Task → Option Addr
  | .resume h => some h
  | .other _ => none

namespace Frame

variable (f : Frame Obj Act Ans Val)

def next : Option (Routine Obj Act Ans Val) :=
  match f.pc with
  | .ready code => some code
  | .awaiting (some v) k => some (k v)
  | .awaiting none _ | .final => none

def waits : Bool :=
  match f.pc with
  | .awaiting none _ => true
  | _ => false

def isFinal : Bool :=
  match f.pc with
  | .final => true
  | _ => false

end Frame

def recorded {β : Type*} (xs : List (ℕ × β)) (i : ℕ) : List β :=
  (xs.filter fun x => x.1 = i).map Prod.snd

theorem recorded_self {β : Type*} (xs : List (ℕ × β)) (i : ℕ) (x : β) :
    recorded (xs ++ [(i, x)]) i = recorded xs i ++ [x] := by
  simp [recorded]

theorem recorded_other {β : Type*} (xs : List (ℕ × β)) {i j : ℕ} (x : β) (hij : j ≠ i) :
    recorded (xs ++ [(i, x)]) j = recorded xs j := by
  simp [recorded, hij.symm]

def handles (base : Executor.State n Tid Obj (Job Task)) (o : Obj) : List Addr :=
  (base.tasks o).filterMap Job.handle

namespace State

variable (s : State n Tid Obj Task Act Ans Val)

def trace (i : ℕ) : List (Routine.Event Obj Act Ans) := recorded s.events i

def values (i : ℕ) : List Val := recorded s.returned i

end State

inductive Place (Tid Obj : Type*)
  | nowhere
  | queued (o : Obj)
  | running (t : Tid)
  deriving DecidableEq

structure Ghost (Tid Obj : Type*) where
  place : Addr → Place Tid Obj
  chain : ℕ → List Addr

inductive Callers (frame : Addr → Option (Frame Obj Act Ans Val)) (i : ℕ) :
    Option (Addr × Obj) → List Addr → List (Caller Obj Act Ans Val) → Prop
  | root : Callers frame i none [] []
  | caller {c : Addr} {q : Obj} {f : Frame Obj Act Ans Val} {k : Val → Routine Obj Act Ans Val}
      {as : List Addr} {st : List (Caller Obj Act Ans Val)} (hframe : frame c = some f)
      (hpc : f.pc = .awaiting none k) (hnumber : f.number = i) (hnotMem : c ∉ as)
      (h : Callers frame i f.callfunc as st) :
      Callers frame i (some (c, q)) (c :: as) ((q, k) :: st)

def Stands (base : Executor.State n Tid Obj (Job Task)) (place : Addr → Place Tid Obj) (a : Addr)
    (p : Obj) : Prop :=
  place a = .queued p ∨ ∃ t, place a = .running t ∧ base.inTask t p = true

inductive RootOk (s : State n Tid Obj Task Act Ans Val) (g : Ghost Tid Obj) (i : ℕ) (p₀ : Obj)
    (c₀ : Routine Obj Act Ans Val) : Prop
  | returned (v : Val) (hchain : g.chain i = []) (hvalues : s.values i = [v])
      (heval : Eval p₀ c₀ (s.trace i) v)
  | ongoing (a : Addr) (as : List Addr) (f : Frame Obj Act Ans Val)
      (code : Routine Obj Act Ans Val) (st : List (Caller Obj Act Ans Val)) (p : Obj)
      (hchain : g.chain i = a :: as) (hframe : s.frame a = some f) (hnumber : f.number = i)
      (hnext : f.next = some code) (hcallers : Callers s.frame i f.callfunc as st)
      (hstands : Stands s.base g.place a p) (hreaches : Reaches p₀ c₀ (s.trace i) ⟨p, code, st⟩)
      (hvalues : s.values i = [])

/-- Where no frame is there is no coroutine to be resumed. A frame that is not final belongs to
its spawned coroutine, and is nowhere while it waits. -/
def FrameOk (s : State n Tid Obj Task Act Ans Val) (g : Ghost Tid Obj) (a : Addr) : Prop :=
  match s.frame a with
  | none => g.place a = .nowhere
  | some f =>
    (f.isFinal = true ∧ ∃ t, g.place a = .running t) ∨
      (f.isFinal = false ∧ f.number < s.spawned.length ∧ a ∈ g.chain f.number ∧
        (g.place a = .nowhere ↔ f.waits = true))

section Frames

variable {s s' : State n Tid Obj Task Act Ans Val} {g g' : Ghost Tid Obj} {a b : Addr}
  {f : Frame Obj Act Ans Val} {i : ℕ}

theorem Callers.mem {frame : Addr → Option (Frame Obj Act Ans Val)} {x : Option (Addr × Obj)}
    {as : List Addr} {st : List (Caller Obj Act Ans Val)} (hc : Callers frame i x as st)
    (ha : a ∈ as) : ∃ f, frame a = some f ∧ f.number = i ∧ f.isFinal = false ∧ f.next = none := by
  induction hc with
  | root => cases ha
  | caller hframe hpc hnumber hnotMem h ih =>
    rcases List.mem_cons.mp ha with rfl | ha
    · exact ⟨_, hframe, hnumber, by rw [Frame.isFinal, hpc], by rw [Frame.next, hpc]⟩
    · exact ih ha

theorem Callers.congr {frame frame' : Addr → Option (Frame Obj Act Ans Val)}
    {x : Option (Addr × Obj)} {as : List Addr} {st : List (Caller Obj Act Ans Val)}
    (hc : Callers frame i x as st) (hsame : ∀ a ∈ as, frame' a = frame a) :
    Callers frame' i x as st := by
  induction hc with
  | root => exact .root
  | caller hframe hpc hnumber hnotMem h ih =>
    refine .caller ((hsame _ List.mem_cons_self).trans hframe) hpc hnumber hnotMem (ih ?_)
    intro a ha
    exact hsame a (List.mem_cons_of_mem _ ha)

theorem Callers.update {frame : Addr → Option (Frame Obj Act Ans Val)} {x : Option (Addr × Obj)}
    {as : List Addr} {st : List (Caller Obj Act Ans Val)} (hc : Callers frame i x as st)
    (ha : a ∉ as) (y : Option (Frame Obj Act Ans Val)) :
    Callers (Function.update frame a y) i x as st := by
  apply hc.congr
  intro b hb
  refine Function.update_of_ne ?_ ..
  rintro rfl
  exact ha hb

theorem Frame.isFinal_of_next {code : Routine Obj Act Ans Val} (hnext : f.next = some code) :
    f.isFinal = false ∧ f.waits = false := by
  rw [Frame.next] at hnext
  rw [Frame.isFinal, Frame.waits]
  split at hnext
  · simp [*]
  · simp [*]
  · cases hnext
  · cases hnext

theorem Frame.next_isSome (hfinal : f.isFinal = false) (hwaits : f.waits = false) :
    ∃ code, f.next = some code := by
  rw [Frame.isFinal] at hfinal
  rw [Frame.waits] at hwaits
  rw [Frame.next]
  cases hpc : f.pc with
  | ready code => exact ⟨code, rfl⟩
  | awaiting result k =>
    cases result with
    | some v => exact ⟨k v, rfl⟩
    | none =>
      rw [hpc] at hwaits
      cases hwaits
  | final =>
    rw [hpc] at hfinal
    cases hfinal

theorem RootOk.mem {p₀ : Obj} {c₀ : Routine Obj Act Ans Val} (hr : RootOk s g i p₀ c₀)
    (ha : a ∈ g.chain i) : ∃ f, s.frame a = some f ∧ f.number = i ∧ f.isFinal = false := by
  cases hr with
  | returned v hchain hvalues heval =>
    rw [hchain] at ha
    cases ha
  | ongoing b as f code st p hchain hframe hnumber hnext hcallers hstands hreaches hvalues =>
    rw [hchain] at ha
    rcases List.mem_cons.mp ha with rfl | ha
    · exact ⟨f, hframe, hnumber, (Frame.isFinal_of_next hnext).1⟩
    · obtain ⟨f', hframe', hnumber', hfinal, -⟩ := hcallers.mem ha
      exact ⟨f', hframe', hnumber', hfinal⟩

theorem FrameOk.keep (hf : FrameOk s g a) (hframe : s'.frame a = s.frame a)
    (hplace : g'.place a = g.place a) (hlength : s.spawned.length ≤ s'.spawned.length)
    (hchain : ∀ i, a ∈ g.chain i → a ∈ g'.chain i) : FrameOk s' g' a := by
  rw [FrameOk] at hf ⊢
  rw [hframe, hplace]
  split at hf
  · exact hf
  · rcases hf with hfinal | ⟨hfinal, hnumber, hmem, hwaits⟩
    · exact .inl hfinal
    · exact .inr ⟨hfinal, hnumber.trans_le hlength, hchain _ hmem, hwaits⟩

end Frames

section Tokens

variable [DecidableEq Tid] [DecidableEq Obj] {base base' : Executor.State n Tid Obj (Job Task)}
  {running : Tid → Option Addr} {place : Addr → Place Tid Obj} {a h : Addr} {t : Tid} {o p : Obj}

structure Tokens (base : Executor.State n Tid Obj (Job Task)) (running : Tid → Option Addr)
    (place : Addr → Place Tid Obj) : Prop where
  inTask : ∀ t a, running t = some a → ∃ p, base.inTask t p = true
  queued : ∀ o a, (handles base o).count a = if place a = .queued o then 1 else 0
  running : ∀ t a, running t = some a ↔ place a = .running t

theorem Tokens.leave (htokens : Tokens base running place) (hrunning : running t = some h) :
    Tokens base (Function.update running t none) (Function.update place h .nowhere) where
  inTask u a hu := by
    by_cases hut : u = t
    · subst hut
      rw [Function.update_self] at hu
      cases hu
    · rw [Function.update_of_ne hut] at hu
      exact htokens.inTask u a hu
  queued o a := by
    rw [htokens.queued o a]
    by_cases hah : a = h
    · subst hah
      rw [Function.update_self, (htokens.running t a).mp hrunning]
      simp
    · rw [Function.update_of_ne hah]
  running u a := by
    by_cases hah : a = h
    · subst hah
      rw [Function.update_self]
      simp only [reduceCtorEq, iff_false]
      by_cases hut : u = t
      · subst hut
        rw [Function.update_self]
        simp
      · rw [Function.update_of_ne hut]
        intro hu
        have hplace := (htokens.running u a).mp hu
        rw [(htokens.running t a).mp hrunning] at hplace
        exact hut (Place.running.inj hplace).symm
    · rw [Function.update_of_ne hah]
      by_cases hut : u = t
      · subst hut
        rw [Function.update_self, ← htokens.running u a, hrunning]
        simp [Ne.symm hah]
      · rw [Function.update_of_ne hut]
        exact htokens.running u a

theorem Tokens.start (htokens : Tokens base running place) (hplace : place a = .nowhere)
    (hrunning : running t = none) (hin : base.inTask t p = true) :
    Tokens base (Function.update running t (some a)) (Function.update place a (.running t)) where
  inTask u b hu := by
    by_cases hut : u = t
    · exact ⟨p, hut ▸ hin⟩
    · rw [Function.update_of_ne hut] at hu
      exact htokens.inTask u b hu
  queued o b := by
    rw [htokens.queued o b]
    by_cases hba : b = a
    · subst hba
      rw [Function.update_self, hplace]
      simp
    · rw [Function.update_of_ne hba]
  running u b := by
    by_cases hba : b = a
    · subst hba
      rw [Function.update_self]
      by_cases hut : u = t
      · subst hut
        simp
      · rw [Function.update_of_ne hut, htokens.running u b, hplace]
        simp [Ne.symm hut]
    · rw [Function.update_of_ne hba]
      by_cases hut : u = t
      · subst hut
        rw [Function.update_self, ← htokens.running u b, hrunning]
        simp [Ne.symm hba]
      · rw [Function.update_of_ne hut]
        exact htokens.running u b

theorem Tokens.post (htokens : Tokens base running place) (hplace : place a = .nowhere)
    (hin : ∀ t p, base.inTask t p = true → base'.inTask t p = true)
    (hself : handles base' o = handles base o ++ [a])
    (hother : ∀ p ≠ o, handles base' p = handles base p) :
    Tokens base' running (Function.update place a (.queued o)) where
  inTask t b ht := by
    obtain ⟨p, hp⟩ := htokens.inTask t b ht
    exact ⟨p, hin t p hp⟩
  queued p b := by
    have hbefore := htokens.queued p b
    by_cases hba : b = a
    · subst hba
      rw [hplace] at hbefore
      rw [Function.update_self]
      by_cases hpo : p = o
      · subst hpo
        rw [hself, List.count_append, hbefore]
        simp
      · rw [hother p hpo, hbefore]
        simp [Ne.symm hpo]
    · rw [Function.update_of_ne hba, ← hbefore]
      by_cases hpo : p = o
      · subst hpo
        rw [hself, List.count_append, List.count_singleton]
        simp [Ne.symm hba]
      · rw [hother p hpo]
  running t b := by
    rw [htokens.running t b]
    by_cases hba : b = a
    · subst hba
      rw [Function.update_self, hplace]
      simp
    · rw [Function.update_of_ne hba]

theorem Tokens.take (htokens : Tokens base running place)
    (hin : ∀ t a p, running t = some a → base.inTask t p = true → base'.inTask t p = true)
    (hself : handles base o = a :: handles base' o)
    (hother : ∀ p ≠ o, handles base' p = handles base p) :
    place a = .queued o ∧ Tokens base' running (Function.update place a .nowhere) := by
  have hplace : place a = .queued o := by
    have hcount := htokens.queued o a
    rw [hself, List.count_cons_self] at hcount
    by_contra hne
    rw [if_neg hne] at hcount
    cases hcount
  refine ⟨hplace, ?_, ?_, ?_⟩
  · intro t b ht
    obtain ⟨p, hp⟩ := htokens.inTask t b ht
    exact ⟨p, hin t b p ht hp⟩
  · intro p b
    have hbefore := htokens.queued p b
    by_cases hba : b = a
    · subst hba
      rw [Function.update_self]
      rw [hplace] at hbefore
      by_cases hpo : p = o
      · subst hpo
        rw [hself, List.count_cons_self, if_pos rfl] at hbefore
        simp only [reduceCtorEq, if_false]
        omega
      · rw [hother p hpo, hbefore]
        simp [Ne.symm hpo]
    · rw [Function.update_of_ne hba, ← hbefore]
      by_cases hpo : p = o
      · subst hpo
        rw [hself, List.count_cons_of_ne (Ne.symm hba)]
      · rw [hother p hpo]
  · intro t b
    rw [htokens.running t b]
    by_cases hba : b = a
    · subst hba
      rw [Function.update_self, hplace]
      simp
    · rw [Function.update_of_ne hba]

theorem Tokens.stay (htokens : Tokens base running place)
    (hin : ∀ t a p, running t = some a → base.inTask t p = true → base'.inTask t p = true)
    (hsame : ∀ p, handles base' p = handles base p) : Tokens base' running place where
  inTask t b ht := by
    obtain ⟨p, hp⟩ := htokens.inTask t b ht
    exact ⟨p, hin t b p ht hp⟩
  queued p b := by rw [hsame, htokens.queued p b]
  running := htokens.running

theorem RootOk.keep {s s' : State n Tid Obj Task Act Ans Val} {g g' : Ghost Tid Obj} {i : ℕ}
    {p₀ : Obj} {c₀ : Routine Obj Act Ans Val} (hr : RootOk s g i p₀ c₀)
    (htokens : Tokens s.base s.running g.place)
    (hin : ∀ t a p, s.running t = some a → s.base.inTask t p = true → s'.base.inTask t p = true)
    (hchain : g'.chain i = g.chain i)
    (hframe : ∀ b ∈ g.chain i, s'.frame b = s.frame b ∧ g'.place b = g.place b)
    (htrace : s'.trace i = s.trace i) (hvalues : s'.values i = s.values i) :
    RootOk s' g' i p₀ c₀ := by
  cases hr with
  | returned v hnil hv heval =>
    exact .returned v (hchain.trans hnil) (hvalues.trans hv) (by rwa [htrace])
  | ongoing a as f code st p hcons ha hnumber hnext hcallers hstands hreaches hv =>
    have hmem : ∀ b ∈ a :: as, s'.frame b = s.frame b ∧ g'.place b = g.place b := by
      rwa [← hcons]
    obtain ⟨hself, hplace⟩ := hmem a List.mem_cons_self
    refine .ongoing a as f code st p (hchain.trans hcons) (hself.trans ha) hnumber hnext
      (hcallers.congr fun b hb => (hmem b (List.mem_cons_of_mem _ hb)).1) ?_ (by rwa [htrace])
      (hvalues.trans hv)
    rw [Stands, hplace]
    rcases hstands with hqueued | ⟨t, hrunning, hstands⟩
    · exact .inl hqueued
    · exact .inr ⟨t, hrunning, hin t a p ((htokens.running t a).mpr hrunning) hstands⟩

end Tokens

end Bugat.AwaitCall
