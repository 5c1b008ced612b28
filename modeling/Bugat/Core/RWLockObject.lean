import Mathlib
import Bugat.Lib.MachineInt
import Bugat.Lib.Monitor
import Bugat.Lib.Transition

/-!
# RWLockObject: a reader-writer lock as a monitor

Any number of threads take read and write locks and release them. Each section under `_mtx` is
one step; a wait that finds its predicate false blocks in the step that tests it. A ReadObject
or WriteObject belongs to no thread: whoever runs its destructor takes the step. An `int` that
would overflow is undefined and has no step.
-/

namespace Bugat.RWLockObject

open MachineInt (int32Max)
open Monitor (Phase notifyOne notifyAll)

inductive ConditionVariable
  | reader
  | writer
  deriving DecidableEq, Repr

variable {Tid : Type*}

structure State (Tid : Type*) where
  readerCount : ℤ
  writerCount : ℤ
  writerActive : Bool
  readObjects : ℕ
  writeObjects : ℕ
  phase : Tid → Phase ConditionVariable

def init : State Tid := ⟨0, 0, false, 0, 0, fun _ => .running⟩

/-- `wakeUp` is a spurious one, `recheck` the test of the predicate by a woken thread. The
destructors come with the thread that `notify_one` picks. -/
inductive Label (Tid : Type*)
  | lockRead (t : Tid)
  | lockWrite (t : Tid)
  | wakeUp (t : Tid)
  | recheck (t : Tid)
  | unLockRead (t : Tid) (wake : Option Tid)
  | unLockWrite (t : Tid) (wake : Option Tid)
  deriving DecidableEq, Repr

def increment (n : ℤ) : Option ℤ := if n < int32Max then some (n + 1) else none

variable [DecidableEq Tid]

namespace State

variable (s : State Tid)

def waitRead (t : Tid) : Option (State Tid) :=
  if s.writerCount = 0 then
    (increment s.readerCount).map fun n =>
      { s with
        readerCount := n
        readObjects := s.readObjects + 1
        phase := Function.update s.phase t .running }
  else some { s with phase := Function.update s.phase t (.blocked .reader) }

def waitWrite (t : Tid) : State Tid :=
  if s.readerCount = 0 ∧ s.writerActive = false then
    { s with
      writerActive := true
      writeObjects := s.writeObjects + 1
      phase := Function.update s.phase t .running }
  else { s with phase := Function.update s.phase t (.blocked .writer) }

def lockWrite (t : Tid) : Option (State Tid) :=
  (increment s.writerCount).map fun n => { s with writerCount := n }.waitWrite t

def recheck (t : Tid) : Option (State Tid) :=
  match s.phase t with
  | .woken .reader => s.waitRead t
  | .woken .writer => some (s.waitWrite t)
  | _ => none

variable [Fintype Tid]

def unLockRead (wake : Option Tid) : Option (State Tid) :=
  let s := { s with readerCount := s.readerCount - 1, readObjects := s.readObjects - 1 }
  if s.readerCount = 0 then
    (notifyOne s.phase .writer wake).map fun phase => { s with phase := phase }
  else some s

def unLockWrite (wake : Option Tid) : Option (State Tid) :=
  let s :=
    { s with
      writerActive := false
      writerCount := s.writerCount - 1
      writeObjects := s.writeObjects - 1 }
  if 0 < s.writerCount then
    (notifyOne s.phase .writer wake).map fun phase => { s with phase := phase }
  else some { s with phase := notifyAll s.phase .reader }

end State

variable [Fintype Tid]

def step (s : State Tid) : Label Tid → Option (State Tid)
  | .lockRead t => if s.phase t = .running then s.waitRead t else none
  | .lockWrite t => if s.phase t = .running then s.lockWrite t else none
  | .wakeUp t =>
    match s.phase t with
    | .blocked c => some { s with phase := Function.update s.phase t (.woken c) }
    | _ => none
  | .recheck t => s.recheck t
  | .unLockRead t wake =>
    if s.phase t = .running ∧ 0 < s.readObjects then s.unLockRead wake else none
  | .unLockWrite t wake =>
    if s.phase t = .running ∧ 0 < s.writeObjects then s.unLockWrite wake else none

end Bugat.RWLockObject
