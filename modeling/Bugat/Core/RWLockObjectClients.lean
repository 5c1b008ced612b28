import Mathlib
import Bugat.Core.RWLockObjectInv

/-!
# RWLockObject: what a thread gets from the lock

A thread that is inside `LockRead` or `LockWrite` has one next section, which its phase tells.
That section admits the thread or leaves it waiting at its own condition variable. Every section
leaves the waits of the other threads as they are.
-/

namespace Bugat.RWLockObject

open Monitor (Phase notifyOne notifyAll)

variable {Tid : Type*}

def State.held (s : State Tid) : ConditionVariable → ℕ
  | .reader => s.readObjects
  | .writer => s.writeObjects

def lockLabel (c : ConditionVariable) (t : Tid) : Phase ConditionVariable → Label Tid
  | .running =>
    match c with
    | .reader => .lockRead t
    | .writer => .lockWrite t
  | .blocked _ => .wakeUp t
  | .woken _ => .recheck t

def unLockLabel (c : ConditionVariable) (t : Tid) (wake : Option Tid) : Label Tid :=
  match c with
  | .reader => .unLockRead t wake
  | .writer => .unLockWrite t wake

variable {s s' : State Tid} {t : Tid} {c : ConditionVariable}

theorem held_eq {f : ConditionVariable → ℕ} (hread : s.readObjects = f .reader)
    (hwrite : s.writeObjects = f .writer) : s.held = f := by
  funext c
  cases c with
  | reader => exact hread
  | writer => exact hwrite

variable [DecidableEq Tid]

inductive Locked (c : ConditionVariable) (t : Tid) (s s' : State Tid) : Prop
  | admitted (hphase : s'.phase = Function.update s.phase t .running)
    (hheld : s'.held = Function.update s.held c (s.held c + 1))
  | waits (p : Phase ConditionVariable) (hp : p.cond = some c)
    (hphase : s'.phase = Function.update s.phase t p) (hheld : s'.held = s.held)

theorem waitRead_locked (hs : s.waitRead t = some s') : Locked .reader t s s' := by
  rw [State.waitRead] at hs
  split at hs
  · obtain ⟨n, -, rfl⟩ := Option.map_eq_some_iff.mp hs
    exact .admitted rfl (held_eq rfl rfl)
  · obtain rfl := Option.some.inj hs
    exact .waits (.blocked .reader) rfl rfl (held_eq rfl rfl)

theorem waitWrite_locked (n : ℤ) :
    Locked .writer t s ({ s with writerCount := n }.waitWrite t) := by
  rw [State.waitWrite]
  split
  · exact .admitted rfl (held_eq rfl rfl)
  · exact .waits (.blocked .writer) rfl rfl (held_eq rfl rfl)

variable [Fintype Tid]

theorem lock_step (hc : ∀ d, (s.phase t).cond = some d → d = c)
    (hs : step s (lockLabel c t (s.phase t)) = some s') : Locked c t s s' := by
  cases hphase : s.phase t with
  | running =>
    rw [hphase] at hs
    cases c with
    | reader =>
      change (if s.phase t = .running then s.waitRead t else none) = some s' at hs
      rw [if_pos hphase] at hs
      exact waitRead_locked hs
    | writer =>
      change (if s.phase t = .running then s.lockWrite t else none) = some s' at hs
      rw [if_pos hphase, State.lockWrite] at hs
      obtain ⟨n, -, rfl⟩ := Option.map_eq_some_iff.mp hs
      exact waitWrite_locked n
  | blocked d =>
    rw [hphase] at hs hc
    obtain rfl := hc d rfl
    simp only [lockLabel, step, hphase] at hs
    obtain rfl := Option.some.inj hs
    exact .waits (.woken d) rfl rfl (held_eq rfl rfl)
  | woken d =>
    rw [hphase] at hs hc
    obtain rfl := hc d rfl
    simp only [lockLabel, step, State.recheck, hphase] at hs
    cases d with
    | reader => exact waitRead_locked hs
    | writer =>
      obtain rfl := Option.some.inj hs
      exact waitWrite_locked s.writerCount

structure Unlocked (c : ConditionVariable) (s s' : State Tid) : Prop where
  held_pos : 0 < s.held c
  held : s'.held = Function.update s.held c (s.held c - 1)
  cond : ∀ u, (s'.phase u).cond = (s.phase u).cond

section Destructors

variable {wake : Option Tid}

theorem unLockRead_unlocked (hpos : 0 < s.readObjects) (hs : s.unLockRead wake = some s') :
    Unlocked .reader s s' := by
  rw [State.unLockRead] at hs
  dsimp only at hs
  split at hs
  · obtain ⟨phase, hnotify, rfl⟩ := Option.map_eq_some_iff.mp hs
    exact ⟨hpos, held_eq rfl rfl, Monitor.notifyOne_cond hnotify⟩
  · obtain rfl := Option.some.inj hs
    exact ⟨hpos, held_eq rfl rfl, fun _ => rfl⟩

theorem unLockWrite_unlocked (hpos : 0 < s.writeObjects) (hs : s.unLockWrite wake = some s') :
    Unlocked .writer s s' := by
  rw [State.unLockWrite] at hs
  dsimp only at hs
  split at hs
  · obtain ⟨phase, hnotify, rfl⟩ := Option.map_eq_some_iff.mp hs
    exact ⟨hpos, held_eq rfl rfl, Monitor.notifyOne_cond hnotify⟩
  · obtain rfl := Option.some.inj hs
    exact ⟨hpos, held_eq rfl rfl, Monitor.notifyAll_cond s.phase .reader⟩

theorem unLock_step (hs : step s (unLockLabel c t wake) = some s') : Unlocked c s s' := by
  cases c with
  | reader =>
    change (if s.phase t = .running ∧ 0 < s.readObjects then s.unLockRead wake else none) =
      some s' at hs
    split at hs
    · rename_i hheld
      exact unLockRead_unlocked hheld.2 hs
    · cases hs
  | writer =>
    change (if s.phase t = .running ∧ 0 < s.writeObjects then s.unLockWrite wake else none) =
      some s' at hs
    split at hs
    · rename_i hheld
      exact unLockWrite_unlocked hheld.2 hs
    · cases hs

end Destructors

theorem Inv.held_writer (h : Inv s) (hw : 0 < s.held .writer) :
    s.held .writer = 1 ∧ s.held .reader = 0 := by
  have hone := h.exclusive.one_writer
  refine ⟨?_, h.apart hw⟩
  change 0 < s.writeObjects at hw
  change s.writeObjects = 1
  omega

end Bugat.RWLockObject
