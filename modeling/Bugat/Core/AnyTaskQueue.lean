import Mathlib
import Bugat.Core.LockFreeQueueLoops

/-!
# A LockFreeQueue of AnyTask

The copy constructor of `AnyTask` takes the pointer out of its source, also when `Pop`
copies a value it has not claimed yet. A task survives the attempt only when the
exchange of `_head` that follows the copy succeeds.
-/

namespace Bugat.AnyTaskQueue

open LockFree LockFree.Loops
open LockFree.Memory (Good)
open Transition (exec Along Throughout throughout_iff_along_of_step)

abbrev TaskConcept := ℕ

/-- `AnyTask(AnyTask& other)` sets `other._task` to `nullptr`. -/
def copied (_ : Option TaskConcept) : Option TaskConcept := none

abbrev State := Loops.State TaskConcept

def Intact (s : State) : Prop :=
  s.returned ++ s.waiting = s.pushed.map some ∧ s.destroyed = []

/-- The exchange of `_head` succeeds in every iteration of `Pop` that gets to it. -/
def ExchangeSucceeds (s : State) : Label TaskConcept → Prop
  | .pop ok => s.TriesHead → ok = true
  | _ => True

instance (s : State) : DecidablePred (ExchangeSucceeds s)
  | .pop _ => inferInstanceAs (Decidable (_ → _))
  | .construct _ _ => isTrue trivial
  | .push _ _ => isTrue trivial

structure Kept (s : State) : Prop where
  ordered : ∃ chain free, Ordered s chain free
  dummy : s.mem.value s.mem.head.ptr = none
  intact : Intact s

variable {s s' : State} {l : Label TaskConcept} {a : Addr}

theorem init_kept (h : a ≠ 0) : Kept (init a) where
  ordered := ⟨_, _, init_ordered h⟩
  dummy := rfl
  intact := ⟨by rw [(init_ordered h).waiting_eq]; rfl, rfl⟩

theorem Kept.construct {v : TaskConcept} (h : Kept s) (hs : s.construct v a = some s') :
    Kept s' := by
  obtain ⟨chain, free, hord⟩ := h.ordered
  obtain ⟨free', hord', hwait, hdummy⟩ := hord.construct hs
  obtain ⟨hpushed, hreturned, hdestroyed⟩ : s'.pushed = s.pushed ++ [v] ∧
      s'.returned = s.returned ∧ s'.destroyed = s.destroyed := by
    simp only [State.construct] at hs
    split at hs
    · exact absurd hs.symm (Option.some_ne_none _)
    · obtain ⟨p, -, rfl⟩ := Option.map_eq_some_iff.mp hs
      exact ⟨rfl, rfl, rfl⟩
  refine ⟨⟨chain, free', hord'⟩, hdummy.trans h.dummy, ?_, hdestroyed.trans h.intact.2⟩
  rw [hwait, hreturned, hpushed, ← List.append_assoc, h.intact.1]
  simp

theorem Kept.push {linked swung : Bool} (h : Kept s) (hs : s.push linked swung = some s') :
    Kept s' := by
  obtain ⟨chain, free, hord⟩ := h.ordered
  obtain ⟨chain', hord', hwait, hvalue, hhead, -⟩ := hord.push hs
  obtain ⟨hpushed, hreturned, hdestroyed⟩ : s'.pushed = s.pushed ∧
      s'.returned = s.returned ∧ s'.destroyed = s.destroyed := by
    simp only [State.push] at hs
    split at hs
    · exact absurd hs.symm (Option.some_ne_none _)
    · split at hs
      · split at hs <;> obtain rfl := Option.some.inj hs <;> exact ⟨rfl, rfl, rfl⟩
      · obtain rfl := Option.some.inj hs
        exact ⟨rfl, rfl, rfl⟩
  refine ⟨⟨chain', free, hord'⟩, ?_, ?_, hdestroyed.trans h.intact.2⟩
  · rw [hvalue, hhead]
    exact h.dummy
  · rw [hwait, hreturned, hpushed]
    exact h.intact.1

theorem waiting_cons {chain free rest : List Addr} {b : Addr} (h : Ordered s chain free)
    (hchain : chain = s.mem.head.ptr :: b :: rest) : s.waiting =
      s.mem.value b :: (rest.map s.mem.value ++ s.node.toList.map s.mem.value) := by
  rw [h.waiting_eq, hchain]
  rfl

theorem Kept.pop {ok : Bool} (h : Kept s) (hok : s.TriesHead → ok = true) :
    Kept (s.pop copied ok) := by
  obtain ⟨chain, free, hord⟩ := h.ordered
  by_cases htry : s.TriesHead
  · rw [hok htry]
    obtain ⟨b, rest, rfl, hord', hvalue, hhead, hpushed, hnode, hreturned, hdestroyed, -⟩ :=
      hord.pop_succeeds copied htry
    have hnodup := hord.good.linked.nodup
    simp only [List.nodup_cons, List.mem_cons, not_or] at hnodup
    obtain ⟨⟨hhb, hhrest⟩, hbrest, -⟩ := hnodup
    have hkeep : ∀ c, c ≠ b → c ≠ s.mem.head.ptr →
        (s.pop copied true).mem.value c = s.mem.value c := fun c hcb hch => by
      rw [hvalue, Function.update_of_ne hch, Function.update_of_ne hcb]
    have hrest : rest.map (s.pop copied true).mem.value = rest.map s.mem.value :=
      List.map_congr_left fun c hc =>
        hkeep c (ne_of_mem_of_not_mem hc hbrest) (ne_of_mem_of_not_mem hc hhrest)
    have hready : s.node.toList.map (s.pop copied true).mem.value =
        s.node.toList.map s.mem.value := by
      refine List.map_congr_left fun c hc => ?_
      have hapart := (hord.ready c (Option.mem_toList.mp hc)).apart
      exact hkeep c (fun heq => hapart (by simp [heq])) fun heq => hapart (by simp [heq])
    refine ⟨⟨_, _, hord'⟩, ?_, ?_, ?_⟩
    · rw [hvalue, hhead, Function.update_of_ne (Ne.symm hhb), Function.update_self]
      rfl
    · rw [hreturned, hpushed, ← h.intact.1, waiting_cons hord rfl, hord'.waiting_eq, hnode,
        List.tail_cons, hrest, hready, List.append_assoc]
      rfl
    · rw [hdestroyed, h.dummy, h.intact.2]
      rfl
  · obtain ⟨m, hpop, hord', hvalue, hhead, -⟩ := hord.pop_idle copied htry ok
    rw [hpop]
    refine ⟨⟨_, _, hord'⟩, ?_, ?_, h.intact.2⟩
    · rw [hvalue, hhead]
      exact h.dummy
    · rw [hord'.waiting_eq, hvalue, ← hord.waiting_eq]
      exact h.intact.1

theorem Kept.lost (h : Kept s) (htry : s.TriesHead) : ¬ Intact (s.pop copied false) := by
  obtain ⟨chain, free, hord⟩ := h.ordered
  obtain ⟨b, rest, hchain, hpop⟩ := hord.pop_fails copied htry
  have hmem : s.mem.value b ∈ s.pushed.map some := by
    rw [← h.intact.1, waiting_cons hord hchain]
    simp
  obtain ⟨v, -, hv⟩ := List.mem_map.mp hmem
  rintro ⟨-, hdestroyed⟩
  rw [hpop, h.intact.2, ← hv] at hdestroyed
  exact absurd hdestroyed nofun

theorem Kept.step (h : Kept s) (hok : ExchangeSucceeds s l)
    (hs : step copied s l = some s') : Kept s' := by
  cases l with
  | construct v a => exact h.construct hs
  | push linked swung => exact h.push hs
  | pop ok =>
    obtain rfl := Option.some.inj hs
    exact h.pop hok

theorem Kept.intact_step_iff (h : Kept s) (hs : Loops.step copied s l = some s') :
    Intact s' ↔ ExchangeSucceeds s l := by
  refine ⟨fun hint => ?_, fun hok => (h.step hok hs).intact⟩
  cases l with
  | construct v a => trivial
  | push linked swung => trivial
  | pop ok =>
    obtain rfl := Option.some.inj hs
    intro htry
    cases ok with
    | true => rfl
    | false => exact absurd hint (h.lost htry)

/-- The queue keeps every task in every state of a run just when each exchange of `_head`
that `Pop` makes in the run succeeds. -/
theorem intact_iff_exchanges_succeed (a : Addr) (ha : a ≠ 0) (ls : List (Label TaskConcept)) :
    Throughout Intact (Loops.step copied) (init a) ls ↔
      Along ExchangeSucceeds (Loops.step copied) (init a) ls := by
  have hinit := init_kept ha
  exact throughout_iff_along_of_step (fun s h => h.intact)
    (fun s l t h hok hs => h.step hok hs) (fun s l t h hs => h.intact_step_iff hs) hinit

section Runs

def twoTasks : List (Label TaskConcept) :=
  [.construct 7 2, .push false true, .push true false, .pop true, .pop true, .construct 8 3,
    .push true true, .pop true]

theorem twoTasks_intact : Throughout Intact (Loops.step copied) (init 1) twoTasks ∧
    ∃ s, exec (Loops.step copied) (init 1) twoTasks = some s ∧
      s.returned = [some 7, some 8] ∧ s.mem.allocated = [2, 1] := by
  have h : (exec (Loops.step copied) (init 1) twoTasks).map (fun s =>
      (s.returned, s.mem.allocated)) = some ([some 7, some 8], [2, 1]) := by decide +kernel
  obtain ⟨s, hrun, hs⟩ := Option.map_eq_some_iff.mp h
  obtain ⟨hreturned, hallocated⟩ := Prod.mk.inj hs
  exact ⟨(intact_iff_exchanges_succeed 1 (by decide) twoTasks).mpr (by decide +kernel),
    s, hrun, hreturned, hallocated⟩

def failedOnce : List (Label TaskConcept) :=
  [.construct 7 2, .push true true, .pop false, .pop true]

theorem failedOnce_loses_task : ∃ s, exec (Loops.step copied) (init 1) failedOnce = some s ∧
    s.pushed = [7] ∧ s.returned = [none] ∧ s.destroyed = [7] ∧ ¬ Intact s := by
  have h : (exec (Loops.step copied) (init 1) failedOnce).map (fun s =>
      (s.pushed, s.returned, s.destroyed)) = some ([7], [none], [7]) := by decide +kernel
  obtain ⟨s, hrun, hs⟩ := Option.map_eq_some_iff.mp h
  obtain ⟨hpushed, hs⟩ := Prod.mk.inj hs
  obtain ⟨hreturned, hdestroyed⟩ := Prod.mk.inj hs
  refine ⟨s, hrun, hpushed, hreturned, hdestroyed, fun hint => ?_⟩
  rw [Intact, hdestroyed] at hint
  exact absurd hint.2 nofun

end Runs

end Bugat.AnyTaskQueue
