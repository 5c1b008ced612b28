import Mathlib
import Bugat.Lib.Counting
import Bugat.Base.ObjectManager

/-!
# ObjectManager: the calls on one agent exclude each other

The lock of an agent counts the threads between its `Lock` and its `UnLock`. A thread that
changes the map of an agent is alone there, so what another thread has found is still so.
-/

open scoped BigOperators

namespace Bugat.ObjectManager

open RWLockObject (ConditionVariable lockLabel unLockLabel lock_step unLock_step)
open Transition (exec exec_invariant)

variable {Key Obj Tid : Type*} {AgentCount : ℕ}

def Pc.inSection : Pc Key Obj → Option (Call Key Obj)
  | .locked c | .searched c _ | .unlocking c _ => some c
  | .idle | .locking _ | .returning _ _ => none

def Pc.holds (h : Hash Key AgentCount) (i : Fin AgentCount) (m : ConditionVariable)
    (pc : Pc Key Obj) : ℕ :=
  match pc.inSection with
  | some c => if h.getAgent c.key = i ∧ c.lock = m then 1 else 0
  | none => 0

theorem Pc.holds_congr {h : Hash Key AgentCount} {i : Fin AgentCount} {m : ConditionVariable}
    {pc pc' : Pc Key Obj} (heq : pc.inSection = pc'.inSection) :
    pc.holds h i m = pc'.holds h i m := by
  rw [Pc.holds, Pc.holds, heq]

theorem Pc.holds_none {h : Hash Key AgentCount} {i : Fin AgentCount} {m : ConditionVariable}
    {pc : Pc Key Obj} (hpc : pc.inSection = none) : pc.holds h i m = 0 := by
  rw [Pc.holds, hpc]

theorem Pc.holds_agent {h : Hash Key AgentCount} {m : ConditionVariable} {pc : Pc Key Obj}
    {c : Call Key Obj} (hpc : pc.inSection = some c) :
    pc.holds h (h.getAgent c.key) m = if c.lock = m then 1 else 0 := by
  simp only [Pc.holds, hpc, true_and]

theorem Pc.holds_other {h : Hash Key AgentCount} {i : Fin AgentCount} {m : ConditionVariable}
    {pc : Pc Key Obj} {c : Call Key Obj} (hpc : pc.inSection = some c)
    (hi : h.getAgent c.key ≠ i) : pc.holds h i m = 0 := by
  simp only [Pc.holds, hpc, hi, false_and, if_false]

section Frames

variable {s : State Key Obj Tid AgentCount} {i j : Fin AgentCount} {t u : Tid}
  {lock : RWLockObject.State Tid} {objects : Objects Key Obj} {pc : Pc Key Obj}

theorem State.setLock_self : ((s.setLock i lock).agents i).lock = lock := by
  dsimp only [State.setLock]
  rw [Function.update_self]

theorem State.setLock_other (hj : j ≠ i) : (s.setLock i lock).agents j = s.agents j := by
  dsimp only [State.setLock]
  rw [Function.update_of_ne hj]

theorem State.setLock_objects :
    ((s.setLock i lock).agents j).objects = (s.agents j).objects := by
  by_cases hj : j = i
  · subst hj
    dsimp only [State.setLock]
    rw [Function.update_self]
  · rw [State.setLock_other hj]

theorem State.setObjects_self : ((s.setObjects i objects).agents i).objects = objects := by
  dsimp only [State.setObjects]
  rw [Function.update_self]

theorem State.setObjects_other (hj : j ≠ i) : (s.setObjects i objects).agents j = s.agents j := by
  dsimp only [State.setObjects]
  rw [Function.update_of_ne hj]

theorem State.setObjects_lock :
    ((s.setObjects i objects).agents j).lock = (s.agents j).lock := by
  by_cases hj : j = i
  · subst hj
    dsimp only [State.setObjects]
    rw [Function.update_self]
  · rw [State.setObjects_other hj]

variable [DecidableEq Tid]

theorem State.setPc_self : (s.setPc t pc).pc t = pc := by
  dsimp only [State.setPc]
  rw [Function.update_self]

theorem State.setPc_other (hu : u ≠ t) : (s.setPc t pc).pc u = s.pc u := by
  dsimp only [State.setPc]
  rw [Function.update_of_ne hu]

end Frames

theorem Call.access_reader [DecidableEq Key] {c : Call Key Obj} {objects : Objects Key Obj}
    {found : Bool} {q : Objects Key Obj × Result Obj} (hlock : c.lock = .reader)
    (hq : c.access objects found = some q) : q.1 = objects := by
  cases c with
  | add key object => cases hlock
  | del key => cases hlock
  | find key =>
    rw [Call.access] at hq
    split at hq
    · obtain ⟨object, -, rfl⟩ := Option.map_eq_some_iff.mp hq
      rfl
    · obtain rfl := Option.some.inj hq
      rfl

variable [DecidableEq Tid] [DecidableEq Key] [Fintype Tid]

inductive Stepped (h : Hash Key AgentCount) (s : State Key Obj Tid AgentCount) :
    State Key Obj Tid AgentCount → Prop
  | call (t : Tid) (c : Call Key Obj) (hpc : s.pc t = .idle) : Stepped h s (s.call t c)
  | lock (t : Tid) (c : Call Key Obj) (lock : RWLockObject.State Tid) (hpc : s.pc t = .locking c)
    (hs : RWLockObject.step (s.agents (h.getAgent c.key)).lock
      (lockLabel c.lock t ((s.agents (h.getAgent c.key)).lock.phase t)) = some lock) :
    Stepped h s ((s.setLock (h.getAgent c.key) lock).setPc t
      (if lock.phase t = .running then .locked c else .locking c))
  | search (t : Tid) (c : Call Key Obj) (hpc : s.pc t = .locked c) :
    Stepped h s (s.setPc t
      (.searched c (decide (c.key ∈ (s.agents (h.getAgent c.key)).objects))))
  | access (t : Tid) (c : Call Key Obj) (found : Bool) (q : Objects Key Obj × Result Obj)
    (hpc : s.pc t = .searched c found)
    (hq : c.access (s.agents (h.getAgent c.key)).objects found = some q) :
    Stepped h s ((s.setObjects (h.getAgent c.key) q.1).setPc t (.unlocking c q.2))
  | unlock (t : Tid) (wake : Option Tid) (c : Call Key Obj) (result : Result Obj)
    (lock : RWLockObject.State Tid) (hpc : s.pc t = .unlocking c result)
    (hs : RWLockObject.step (s.agents (h.getAgent c.key)).lock
      (unLockLabel c.lock t wake) = some lock) :
    Stepped h s ((s.setLock (h.getAgent c.key) lock).setPc t (.returning c result))
  | ret (t : Tid) (c : Call Key Obj) (result : Result Obj) (hpc : s.pc t = .returning c result) :
    Stepped h s (s.ret t result)

structure Inv (h : Hash Key AgentCount) (s : State Key Obj Tid AgentCount) : Prop where
  lock : ∀ i, RWLockObject.Inv (s.agents i).lock
  waits : ∀ i t m, ((s.agents i).lock.phase t).cond = some m →
    ∃ c, s.pc t = .locking c ∧ h.getAgent c.key = i ∧ c.lock = m
  held : ∀ i m, (s.agents i).lock.held m = ∑ t, (s.pc t).holds h i m
  found : ∀ t c found, s.pc t = .searched c found →
    found = decide (c.key ∈ (s.agents (h.getAgent c.key)).objects)

variable {h : Hash Key AgentCount} {s s' : State Key Obj Tid AgentCount} {t u : Tid}
  {c d : Call Key Obj} {pc : Pc Key Obj} {found : Bool} {result : Result Obj}

theorem step_stepped {l : Label Key Obj Tid} (hs : step h s l = some s') : Stepped h s s' := by
  cases l with
  | call t c =>
    rw [step] at hs
    split at hs
    · obtain rfl := Option.some.inj hs
      exact .call t c ‹_›
    · cases hs
  | lock t =>
    rw [step] at hs
    split at hs
    · obtain ⟨lock, hlock, rfl⟩ := Option.map_eq_some_iff.mp hs
      exact .lock t _ lock ‹_› hlock
    · cases hs
  | search t =>
    rw [step] at hs
    split at hs
    · obtain rfl := Option.some.inj hs
      exact .search t _ ‹_›
    · cases hs
  | access t =>
    rw [step] at hs
    split at hs
    · obtain ⟨q, hq, rfl⟩ := Option.map_eq_some_iff.mp hs
      exact .access t _ _ q ‹_› hq
    · cases hs
  | unlock t wake =>
    rw [step] at hs
    split at hs
    · obtain ⟨lock, hlock, rfl⟩ := Option.map_eq_some_iff.mp hs
      exact .unlock t wake _ _ lock ‹_› hlock
    · cases hs
  | ret t =>
    rw [step] at hs
    split at hs
    · obtain rfl := Option.some.inj hs
      exact .ret t _ _ ‹_›
    · cases hs

omit [DecidableEq Tid] in
theorem init_inv : Inv h (init : State Key Obj Tid AgentCount) := by
  refine ⟨fun _ => RWLockObject.init_inv, ?_, ?_, ?_⟩
  · intro i t m hcond
    cases hcond
  · intro i m
    have hzero : (RWLockObject.init : RWLockObject.State Tid).held m = 0 := by
      cases m with
      | reader => rfl
      | writer => rfl
    exact hzero.trans (Finset.sum_eq_zero fun _ _ => rfl).symm
  · intro t c found hpc
    cases hpc

namespace Inv

theorem alone (hi : Inv h s) (ht : (s.pc t).inSection = some c) (hwrite : c.lock = .writer)
    (hu : (s.pc u).inSection = some d) (hkey : h.getAgent d.key = h.getAgent c.key) : u = t := by
  have htheld : (s.pc t).holds h (h.getAgent c.key) .writer = 1 := by
    rw [Pc.holds_agent ht, if_pos hwrite]
  have huheld : (s.pc u).holds h (h.getAgent c.key) d.lock = 1 := by
    rw [← hkey, Pc.holds_agent hu, if_pos rfl]
  have hsum := hi.held (h.getAgent c.key)
  have hle := fun m v => Counting.le_sum s.pc (Pc.holds h (h.getAgent c.key) m) v
  obtain ⟨hone, hzero⟩ := (hi.lock (h.getAgent c.key)).held_writer (by
    rw [hsum]
    exact (Nat.lt_of_lt_of_le Nat.zero_lt_one htheld.ge).trans_le (hle _ t))
  cases hd : d.lock with
  | reader =>
    rw [hd] at huheld
    have hread := hle .reader u
    rw [← hsum, hzero, huheld] at hread
    exact absurd hread (Nat.not_succ_le_zero 0)
  | writer =>
    rw [hd] at huheld
    refine Counting.eq_of_sum_le_one s.pc (Pc.holds h (h.getAgent c.key) .writer) ?_ ?_ ?_
    · rw [← hsum, hone]
    · rw [huheld]
      exact Nat.one_pos
    · rw [htheld]
      exact Nat.one_pos

theorem setPc {old : Pc Key Obj} (hi : Inv h s) (hpc : s.pc t = old)
    (hin : pc.inSection = old.inSection) (hwait : ∀ c, old ≠ .locking c)
    (hfound : ∀ c found, pc = .searched c found →
      found = decide (c.key ∈ (s.agents (h.getAgent c.key)).objects)) :
    Inv h (s.setPc t pc) := by
  refine ⟨hi.lock, ?_, ?_, ?_⟩
  · intro i u m hcond
    obtain ⟨c, hu, hc⟩ := hi.waits i u m hcond
    have hut : u ≠ t := by
      rintro rfl
      exact hwait c (hpc.symm.trans hu)
    exact ⟨c, (State.setPc_other hut).trans hu, hc⟩
  · intro i m
    have hsum := Counting.sum_update s.pc t pc (Pc.holds h i m)
    rw [hpc, Pc.holds_congr hin] at hsum
    exact (hi.held i m).trans (Nat.add_right_cancel hsum).symm
  · intro u c found hu
    by_cases hut : u = t
    · subst hut
      rw [State.setPc_self] at hu
      exact hfound c found hu
    · rw [State.setPc_other hut] at hu
      exact hi.found u c found hu

theorem setLock {i : Fin AgentCount} {lock : RWLockObject.State Tid} (hi : Inv h s)
    (hlock : RWLockObject.Inv lock)
    (hwaits : ∀ u m, (lock.phase u).cond = some m →
      ∃ c, (s.setPc t pc).pc u = .locking c ∧ h.getAgent c.key = i ∧ c.lock = m)
    (hagent : ∀ c, s.pc t = .locking c → h.getAgent c.key = i)
    (hheld : ∀ m, lock.held m + (s.pc t).holds h i m =
      (s.agents i).lock.held m + pc.holds h i m)
    (hsame : ∀ j m, j ≠ i → pc.holds h j m = (s.pc t).holds h j m)
    (hfound : ∀ c found, pc ≠ .searched c found) :
    Inv h ((s.setLock i lock).setPc t pc) := by
  refine ⟨?_, ?_, ?_, ?_⟩
  · intro j
    by_cases hj : j = i
    · subst hj
      exact State.setLock_self ▸ hlock
    · exact (State.setLock_other hj).symm ▸ hi.lock j
  · intro j u m hcond
    by_cases hj : j = i
    · subst hj
      refine hwaits u m ?_
      rwa [State.setPc, State.setLock_self] at hcond
    · rw [State.setPc, State.setLock_other hj] at hcond
      obtain ⟨c, hu, hc⟩ := hi.waits j u m hcond
      have hut : u ≠ t := by
        rintro rfl
        exact hj (hc.1.symm.trans (hagent c hu))
      exact ⟨c, (State.setPc_other hut).trans hu, hc⟩
  · intro j m
    have hsum := Counting.sum_update s.pc t pc (Pc.holds h j m)
    have hold := hi.held j m
    change ((s.setLock i lock).agents j).lock.held m =
      ∑ u, (Function.update s.pc t pc u).holds h j m
    by_cases hj : j = i
    · subst hj
      have hstep := hheld m
      rw [State.setLock_self]
      omega
    · rw [hsame j m hj] at hsum
      rw [State.setLock_other hj, hold]
      exact (Nat.add_right_cancel hsum).symm
  · intro u c found hu
    change found = decide (c.key ∈ ((s.setLock i lock).agents (h.getAgent c.key)).objects)
    rw [State.setLock_objects]
    by_cases hut : u = t
    · subst hut
      rw [State.setPc_self] at hu
      exact absurd hu (hfound c found)
    · rw [State.setPc_other hut] at hu
      exact hi.found u c found hu

omit [DecidableEq Tid] in
theorem waits_own {i : Fin AgentCount} {m : ConditionVariable} (hi : Inv h s)
    (hpc : s.pc t = .locking c) (hcond : ((s.agents i).lock.phase t).cond = some m) :
    m = c.lock := by
  obtain ⟨d, hd, -, rfl⟩ := hi.waits i t m hcond
  rw [hpc] at hd
  obtain rfl := Pc.locking.inj hd
  rfl

section Sections

variable {lock : RWLockObject.State Tid}

omit [DecidableEq Tid] [DecidableEq Key] [Fintype Tid] in
theorem locking_agent (hpc : s.pc t = .locking c) (hd : s.pc t = .locking d) :
    h.getAgent d.key = h.getAgent c.key := by
  rw [hpc] at hd
  obtain rfl := Pc.locking.inj hd
  rfl

theorem waits_other {i : Fin AgentCount} {m : ConditionVariable}
    {p : Monitor.Phase ConditionVariable} (hi : Inv h s) (hut : u ≠ t)
    (hphase : lock.phase = Function.update (s.agents i).lock.phase t p)
    (hcond : (lock.phase u).cond = some m) :
    ∃ d, (s.setPc t pc).pc u = .locking d ∧ h.getAgent d.key = i ∧ d.lock = m := by
  rw [hphase, Function.update_of_ne hut] at hcond
  rw [State.setPc_other hut]
  exact hi.waits i u m hcond

theorem enter (hi : Inv h s) (hpc : s.pc t = .locking c) (hlock : RWLockObject.Inv lock)
    (hphase : lock.phase = Function.update (s.agents (h.getAgent c.key)).lock.phase t .running)
    (hheld : lock.held = Function.update (s.agents (h.getAgent c.key)).lock.held c.lock
      ((s.agents (h.getAgent c.key)).lock.held c.lock + 1)) :
    Inv h ((s.setLock (h.getAgent c.key) lock).setPc t (.locked c)) := by
  refine hi.setLock hlock ?_ (fun d => locking_agent hpc) ?_ ?_ nofun
  · intro u m hcond
    by_cases hut : u = t
    · subst hut
      rw [hphase, Function.update_self] at hcond
      cases hcond
    · exact hi.waits_other hut hphase hcond
  · intro m
    rw [hheld, hpc, Pc.holds_none rfl, Pc.holds_agent rfl]
    by_cases hm : c.lock = m
    · subst hm
      rw [Function.update_self, if_pos rfl]
    · rw [Function.update_of_ne (Ne.symm hm), if_neg hm]
  · intro j m hj
    rw [hpc, Pc.holds_other rfl (Ne.symm hj)]
    exact (Pc.holds_none rfl).symm

theorem keepWaiting {p : Monitor.Phase ConditionVariable} (hi : Inv h s)
    (hpc : s.pc t = .locking c) (hlock : RWLockObject.Inv lock) (hp : p.cond = some c.lock)
    (hphase : lock.phase = Function.update (s.agents (h.getAgent c.key)).lock.phase t p)
    (hheld : lock.held = (s.agents (h.getAgent c.key)).lock.held) :
    Inv h ((s.setLock (h.getAgent c.key) lock).setPc t (.locking c)) := by
  refine hi.setLock hlock ?_ (fun d => locking_agent hpc) ?_ ?_ nofun
  · intro u m hcond
    by_cases hut : u = t
    · subst hut
      rw [hphase, Function.update_self, hp] at hcond
      exact ⟨c, State.setPc_self, rfl, Option.some.inj hcond⟩
    · exact hi.waits_other hut hphase hcond
  · intro m
    rw [hheld, hpc]
  · intro j m _
    rw [hpc]

theorem lock_section (hi : Inv h s) (hpc : s.pc t = .locking c)
    (hs : RWLockObject.step (s.agents (h.getAgent c.key)).lock
      (lockLabel c.lock t ((s.agents (h.getAgent c.key)).lock.phase t)) = some lock) :
    Inv h ((s.setLock (h.getAgent c.key) lock).setPc t
      (if lock.phase t = .running then .locked c else .locking c)) := by
  have hlock := (hi.lock _).step hs
  cases lock_step (fun m => hi.waits_own hpc) hs with
  | admitted hphase hheld =>
    have hrun : lock.phase t = .running := by
      rw [hphase, Function.update_self]
    rw [if_pos hrun]
    exact hi.enter hpc hlock hphase hheld
  | waits p hp hphase hheld =>
    have hrun : lock.phase t ≠ .running := by
      rw [hphase, Function.update_self]
      rintro rfl
      cases hp
    rw [if_neg hrun]
    exact hi.keepWaiting hpc hlock hp hphase hheld

theorem unLock_section {wake : Option Tid} (hi : Inv h s)
    (hpc : s.pc t = .unlocking c result)
    (hs : RWLockObject.step (s.agents (h.getAgent c.key)).lock
      (unLockLabel c.lock t wake) = some lock) :
    Inv h ((s.setLock (h.getAgent c.key) lock).setPc t (.returning c result)) := by
  have hunlocked := unLock_step hs
  refine hi.setLock ((hi.lock _).step hs) ?_ ?_ ?_ ?_ nofun
  · intro u m hcond
    rw [hunlocked.cond] at hcond
    obtain ⟨d, hd, hat⟩ := hi.waits _ u m hcond
    have hut : u ≠ t := by
      rintro rfl
      rw [hpc] at hd
      cases hd
    exact ⟨d, (State.setPc_other hut).trans hd, hat⟩
  · intro d hd
    rw [hpc] at hd
    cases hd
  · intro m
    rw [hunlocked.held, hpc, Pc.holds_agent rfl, Pc.holds_none rfl]
    by_cases hm : c.lock = m
    · subst hm
      rw [Function.update_self, if_pos rfl]
      exact Nat.sub_add_cancel hunlocked.held_pos
    · rw [Function.update_of_ne (Ne.symm hm), if_neg hm]
  · intro j m hj
    rw [hpc, Pc.holds_none rfl]
    exact (Pc.holds_other rfl (Ne.symm hj)).symm

end Sections

omit [DecidableEq Tid] in
theorem setObjects (hi : Inv h s) (i : Fin AgentCount) (objects : Objects Key Obj)
    (hfound : ∀ u d found, s.pc u = .searched d found → h.getAgent d.key = i →
      objects = (s.agents i).objects) : Inv h (s.setObjects i objects) := by
  refine ⟨?_, ?_, ?_, ?_⟩
  · intro j
    rw [State.setObjects_lock]
    exact hi.lock j
  · intro j u m hcond
    rw [State.setObjects_lock] at hcond
    exact hi.waits j u m hcond
  · intro j m
    rw [State.setObjects_lock]
    exact hi.held j m
  · intro u d found hu
    rw [hi.found u d found hu]
    by_cases hd : h.getAgent d.key = i
    · rw [hd, State.setObjects_self, hfound u d found hu hd]
    · rw [State.setObjects_other hd]

theorem access {q : Objects Key Obj × Result Obj} (hi : Inv h s)
    (hpc : s.pc t = .searched c found)
    (hq : c.access (s.agents (h.getAgent c.key)).objects found = some q) :
    Inv h ((s.setObjects (h.getAgent c.key) q.1).setPc t (.unlocking c q.2)) := by
  have hin : (s.pc t).inSection = some c := by
    rw [hpc]
    rfl
  have hmoved : Inv h (s.setPc t (.unlocking c q.2)) := hi.setPc hpc rfl nofun nofun
  refine hmoved.setObjects (h.getAgent c.key) q.1 ?_
  intro u d found' hu hkey
  have hut : u ≠ t := by
    rintro rfl
    rw [State.setPc_self] at hu
    cases hu
  rw [State.setPc_other hut] at hu
  cases hlock : c.lock with
  | reader => exact Call.access_reader hlock hq
  | writer =>
    have hu' : (s.pc u).inSection = some d := by
      rw [hu]
      rfl
    exact absurd (hi.alone hin hlock hu' hkey) hut

theorem step {l : Label Key Obj Tid} (hi : Inv h s) (hs : step h s l = some s') : Inv h s' := by
  cases step_stepped hs with
  | call t c hpc =>
    have hmoved : Inv h (s.setPc t (.locking c)) := hi.setPc hpc rfl nofun nofun
    exact ⟨hmoved.lock, hmoved.waits, hmoved.held, hmoved.found⟩
  | lock t c lock hpc hlock => exact hi.lock_section hpc hlock
  | search t c hpc =>
    refine hi.setPc hpc rfl nofun ?_
    intro d found hd
    cases hd
    rfl
  | access t c found q hpc hq => exact hi.access hpc hq
  | unlock t wake c result lock hpc hlock => exact hi.unLock_section hpc hlock
  | ret t c result hpc =>
    have hmoved : Inv h (s.setPc t .idle) := hi.setPc hpc rfl nofun nofun
    exact ⟨hmoved.lock, hmoved.waits, hmoved.held, hmoved.found⟩

end Inv

theorem exec_inv {ls : List (Label Key Obj Tid)} (hrun : exec (step h) init ls = some s) :
    Inv h s :=
  exec_invariant (fun _ _ _ hi hs => hi.step hs) init_inv hrun

end Bugat.ObjectManager
