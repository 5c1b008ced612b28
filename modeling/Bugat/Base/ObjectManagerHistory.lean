import Mathlib
import Bugat.Base.ObjectManagerLocks

/-!
# ObjectManager: the shards are one map

A key has one agent, so the maps of the agents together are one map. A call takes effect there
when it goes on from its search: at that step an ObjectManager does what an atomic map does.
-/

namespace Bugat.ObjectManager

open AtomicObject (Phase Linearizable linearizable_of_refines)
open Transition (exec)

variable {Key Obj Tid : Type*} {AgentCount : ℕ}

def Pc.phase : Pc Key Obj → Phase (Call Key Obj) (Result Obj)
  | .idle => .idle
  | .locking c | .locked c | .searched c _ => .called c
  | .unlocking c result | .returning c result => .applied c result

variable [DecidableEq Key]

/-- The calls on a single map. `Add` does not overwrite. -/
def applyCall (m : Objects Key Obj) : Call Key Obj → Objects Key Obj × Result Obj
  | .add key object => if key ∈ m then (m, .add false) else (m.insert key object, .add true)
  | .del key => (m.erase key, .del)
  | .find key => (m, .find (m.lookup key).join)

variable {m objects objects' : Objects Key Obj} {c : Call Key Obj} {key : Key}

theorem applyCall_lookup_other (hkey : key ≠ c.key) :
    (applyCall m c).1.lookup key = m.lookup key := by
  cases c with
  | add k object =>
    rw [applyCall]
    split
    · rfl
    · exact Finmap.lookup_insert_of_ne m hkey
  | del k => exact Finmap.lookup_erase_ne hkey
  | find k => rfl

theorem applyCall_keeps (hkey : key ∈ m) (hdel : c ≠ .del key) :
    (applyCall m c).1.lookup key = m.lookup key := by
  by_cases hc : key = c.key
  · cases c with
    | add k object =>
      obtain rfl : key = k := hc
      rw [applyCall, if_pos hkey]
    | del k =>
      obtain rfl : key = k := hc
      exact absurd rfl hdel
    | find k => rfl
  · exact applyCall_lookup_other hc

theorem erase_of_notMem (hkey : key ∉ m) : m.erase key = m := by
  apply Finmap.ext_lookup
  intro k
  by_cases hk : k = key
  · subst hk
    rw [Finmap.lookup_erase, Finmap.lookup_eq_none.mpr hkey]
  · exact Finmap.lookup_erase_ne hk

theorem access_eq (objects : Objects Key Obj) (c : Call Key Obj) :
    c.access objects (decide (c.key ∈ objects)) = some (applyCall objects c) := by
  cases c with
  | add key object =>
    rw [Call.access, applyCall]
    by_cases hkey : key ∈ objects
    · simp [Call.key, hkey]
    · simp [Call.key, hkey]
  | del key =>
    rw [Call.access, applyCall]
    by_cases hkey : key ∈ objects
    · simp [Call.key, hkey]
    · simp [Call.key, hkey, erase_of_notMem hkey]
  | find key =>
    rw [Call.access, applyCall]
    by_cases hkey : key ∈ objects
    · obtain ⟨object, hobject⟩ := Finmap.mem_iff.mp hkey
      simp [Call.key, hkey, hobject]
    · have hnone := Finmap.lookup_eq_none.mpr hkey
      simp [Call.key, hkey, hnone]

theorem applyCall_congr (hlookup : m.lookup c.key = objects.lookup c.key) :
    (applyCall m c).2 = (applyCall objects c).2 ∧
      (applyCall m c).1.lookup c.key = (applyCall objects c).1.lookup c.key := by
  have hmem : c.key ∈ m ↔ c.key ∈ objects := by
    rw [Finmap.mem_iff, Finmap.mem_iff, hlookup]
  cases c with
  | add key object =>
    rw [Call.key] at hlookup hmem
    rw [applyCall, applyCall]
    by_cases hkey : key ∈ objects
    · rw [if_pos hkey, if_pos (hmem.mpr hkey)]
      exact ⟨rfl, hlookup⟩
    · rw [if_neg hkey, if_neg (hmem.not.mpr hkey)]
      exact ⟨rfl, (Finmap.lookup_insert m).trans (Finmap.lookup_insert objects).symm⟩
  | del key =>
    exact ⟨rfl, (Finmap.lookup_erase key m).trans (Finmap.lookup_erase key objects).symm⟩
  | find key =>
    refine ⟨?_, hlookup⟩
    rw [Call.key] at hlookup
    rw [applyCall, applyCall, hlookup]

variable [DecidableEq Tid] [Fintype Tid] {h : Hash Key AgentCount}
  {s s' : State Key Obj Tid AgentCount} {t : Tid} {pc old : Pc Key Obj}
  {a : AtomicObject.State Tid (Objects Key Obj) (Call Key Obj) (Result Obj)}

structure Refines (h : Hash Key AgentCount) (s : State Key Obj Tid AgentCount)
    (a : AtomicObject.State Tid (Objects Key Obj) (Call Key Obj) (Result Obj)) : Prop where
  inv : Inv h s
  phase : ∀ t, a.phase t = (s.pc t).phase
  count : a.count = s.calls
  history : s.history = a.history
  lookup : ∀ key, a.obj.lookup key = (s.agents (h.getAgent key)).objects.lookup key

omit [DecidableEq Tid] in
theorem init_refines :
    Refines h (init : State Key Obj Tid AgentCount) (AtomicObject.init ∅) :=
  ⟨init_inv, fun _ => rfl, rfl, rfl, fun _ => rfl⟩

namespace Refines

theorem setPc_phase (hr : Refines h s a) (t : Tid) (pc : Pc Key Obj) (u : Tid) :
    Function.update a.phase t pc.phase u = ((s.setPc t pc).pc u).phase := by
  by_cases hu : u = t
  · subst hu
    rw [Function.update_self, State.setPc_self]
  · rw [Function.update_of_ne hu, State.setPc_other hu, hr.phase]

theorem unseen (hr : Refines h s a) (hpc : s.pc t = old) (hphase : pc.phase = old.phase)
    (hinv : Inv h (s'.setPc t pc)) (hsame : s'.pc = s.pc) (hcalls : s'.calls = s.calls)
    (hhist : s'.history = s.history)
    (hobjects : ∀ i, (s'.agents i).objects = (s.agents i).objects) :
    Refines h (s'.setPc t pc) a := by
  refine ⟨hinv, ?_, hr.count.trans hcalls.symm, hhist.trans hr.history, ?_⟩
  · intro u
    by_cases hu : u = t
    · subst hu
      rw [hr.phase, State.setPc_self, hpc, hphase]
    · rw [hr.phase, State.setPc_other hu, hsame]
  · intro key
    exact (hr.lookup key).trans (congrArg (Finmap.lookup key) (hobjects _).symm)

theorem access {found : Bool} {q : Objects Key Obj × Result Obj} (hr : Refines h s a)
    (hpc : s.pc t = .searched c found)
    (hq : c.access (s.agents (h.getAgent c.key)).objects found = some q) :
    Refines h ((s.setObjects (h.getAgent c.key) q.1).setPc t (.unlocking c q.2))
      (a.apply t applyCall c) := by
  have hinv := hr.inv.access hpc hq
  rw [hr.inv.found t c found hpc, access_eq] at hq
  obtain rfl := Option.some.inj hq
  obtain ⟨hresult, hself⟩ := applyCall_congr (hr.lookup c.key)
  refine ⟨hinv, ?_, hr.count, hr.history, ?_⟩
  · intro u
    rw [AtomicObject.State.apply, hresult]
    exact hr.setPc_phase t (.unlocking c _) u
  · intro key
    change (applyCall a.obj c).1.lookup key =
      ((s.setObjects (h.getAgent c.key) _).agents (h.getAgent key)).objects.lookup key
    by_cases hkey : key = c.key
    · subst hkey
      rw [State.setObjects_self, hself]
    · rw [applyCall_lookup_other hkey, hr.lookup]
      by_cases hagent : h.getAgent key = h.getAgent c.key
      · rw [hagent, State.setObjects_self, applyCall_lookup_other hkey]
      · rw [State.setObjects_other hagent]

theorem step {l : Label Key Obj Tid} (hr : Refines h s a) (hs : step h s l = some s') :
    Refines h s' a ∨ ∃ l' a', AtomicObject.step applyCall a l' = some a' ∧ Refines h s' a' := by
  have hinv := hr.inv.step hs
  cases step_stepped hs with
  | call t c hpc =>
    right
    refine ⟨.call t c, a.call t c, ?_, hinv, hr.setPc_phase t (.locking c), hr.count, ?_, hr.lookup⟩
    · rw [AtomicObject.step, hr.phase, hpc]
      rfl
    · change s.history ++ _ = a.history ++ _
      rw [hr.history, hr.count]
  | lock t c lock hpc hlock =>
    left
    refine hr.unseen hpc ?_ hinv rfl rfl rfl fun _ => State.setLock_objects
    split
    · rfl
    · rfl
  | search t c hpc =>
    left
    exact hr.unseen hpc rfl hinv rfl rfl rfl fun _ => rfl
  | access t c found q hpc hq =>
    right
    refine ⟨.apply t, a.apply t applyCall c, ?_, hr.access hpc hq⟩
    rw [AtomicObject.step, hr.phase, hpc]
    rfl
  | unlock t wake c result lock hpc hlock =>
    left
    exact hr.unseen hpc rfl hinv rfl rfl rfl fun _ => State.setLock_objects
  | ret t c result hpc =>
    right
    refine ⟨.ret t, a.ret t result, ?_, hinv, hr.setPc_phase t .idle, ?_, ?_, hr.lookup⟩
    · rw [AtomicObject.step, hr.phase, hpc]
      rfl
    · change Function.update a.count t (a.count t + 1) = Function.update s.calls t (s.calls t + 1)
      rw [hr.count]
    · change s.history ++ _ = a.history ++ _
      rw [hr.history, hr.count]

end Refines

theorem exec_linearizable {ls : List (Label Key Obj Tid)} (hrun : exec (step h) init ls = some s) :
    Linearizable applyCall (∅ : Objects Key Obj) s.history :=
  linearizable_of_refines (fun _ _ hr => hr.history) (fun _ _ _ _ hr hs => hr.step hs)
    init_refines hrun

/-- No call goes on with an iterator whose entry is gone. -/
theorem no_dangling_iterator {ls : List (Label Key Obj Tid)} {found : Bool}
    (hrun : exec (step h) init ls = some s) (hpc : s.pc t = .searched c found) :
    (step h s (.access t)).isSome := by
  have hfound := (exec_inv hrun).found t c found hpc
  rw [ObjectManager.step, hpc]
  dsimp only
  rw [hfound, access_eq]
  rfl

end Bugat.ObjectManager
