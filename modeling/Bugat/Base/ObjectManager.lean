import Mathlib
import Bugat.Lib.AtomicObject
import Bugat.Core.RWLockObjectClients

/-!
# ObjectManager: a map in shards, each under its own reader-writer lock

Any number of threads call `Add`, `Del` and `Find`. A call takes the lock of the agent that the
hash gives for its key, searches the map of that agent, goes on from what it has found, and
unlocks. Each section of the lock, the search and the access are steps of their own, and any
other thread may come between them. Two keys are equal when neither is less than the other.
-/

namespace Bugat.ObjectManager

open RWLockObject (ConditionVariable lockLabel unLockLabel)

variable {Key Obj Tid : Type*} {AgentCount : ℕ}

def InRange (hash : Key → ℤ → ℤ) (size : ℤ) : Prop :=
  ∀ key, 0 ≤ hash key size ∧ hash key size < size

structure Hash (Key : Type*) (AgentCount : ℕ) where
  hash : Key → ℤ → ℤ
  inRange : InRange hash AgentCount

def Hash.getAgent (h : Hash Key AgentCount) (key : Key) : Fin AgentCount :=
  ⟨(h.hash key AgentCount).toNat, by
    have hrange := h.inRange key
    omega⟩

abbrev Objects (Key Obj : Type*) := Finmap fun _ : Key => Option Obj

structure ObjectAgent (Key Obj Tid : Type*) where
  lock : RWLockObject.State Tid
  objects : Objects Key Obj

inductive Call (Key Obj : Type*)
  | add (key : Key) (object : Option Obj)
  | del (key : Key)
  | find (key : Key)
  deriving DecidableEq, Repr

inductive Result (Obj : Type*)
  | add (result : Bool)
  | del
  | find (object : Option Obj)
  deriving DecidableEq, Repr

namespace Call

def key : Call Key Obj → Key
  | .add key _ | .del key | .find key => key

def lock : Call Key Obj → ConditionVariable
  | .add _ _ | .del _ => .writer
  | .find _ => .reader

variable [DecidableEq Key]

/-- What a call does after the search, which has found the key or not. A read through an iterator
whose entry is gone is undefined and has no result. -/
def access (objects : Objects Key Obj) (found : Bool) :
    Call Key Obj → Option (Objects Key Obj × Result Obj)
  | .add key object =>
    some (if found then (objects, .add false) else (objects.insert key object, .add true))
  | .del key => some (if found then objects.erase key else objects, .del)
  | .find key =>
    if found then (objects.lookup key).map fun object => (objects, .find object)
    else some (objects, .find none)

end Call

/-- Where a thread is: outside, inside `LockRead` or `LockWrite`, before the search, after it,
before the destructor that unlocks, before the return. -/
inductive Pc (Key Obj : Type*)
  | idle
  | locking (c : Call Key Obj)
  | locked (c : Call Key Obj)
  | searched (c : Call Key Obj) (found : Bool)
  | unlocking (c : Call Key Obj) (result : Result Obj)
  | returning (c : Call Key Obj) (result : Result Obj)

structure State (Key Obj Tid : Type*) (AgentCount : ℕ) where
  agents : Fin AgentCount → ObjectAgent Key Obj Tid
  pc : Tid → Pc Key Obj
  calls : Tid → ℕ
  history : List (AtomicObject.Event Tid (Call Key Obj) (Result Obj))

def init : State Key Obj Tid AgentCount :=
  ⟨fun _ => ⟨RWLockObject.init, ∅⟩, fun _ => .idle, fun _ => 0, []⟩

/-- `lock` is the next section of the thread in `LockRead` or `LockWrite`; a thread that is
blocked there wakes up. `unlock` comes with the thread that `notify_one` picks. -/
inductive Label (Key Obj Tid : Type*)
  | call (t : Tid) (c : Call Key Obj)
  | lock (t : Tid)
  | search (t : Tid)
  | access (t : Tid)
  | unlock (t : Tid) (wake : Option Tid)
  | ret (t : Tid)
  deriving DecidableEq, Repr

variable [DecidableEq Tid]

namespace State

variable (s : State Key Obj Tid AgentCount)

def setPc (t : Tid) (pc : Pc Key Obj) : State Key Obj Tid AgentCount :=
  { s with pc := Function.update s.pc t pc }

def setLock (i : Fin AgentCount) (lock : RWLockObject.State Tid) :
    State Key Obj Tid AgentCount :=
  { s with agents := Function.update s.agents i { s.agents i with lock := lock } }

def setObjects (i : Fin AgentCount) (objects : Objects Key Obj) :
    State Key Obj Tid AgentCount :=
  { s with agents := Function.update s.agents i { s.agents i with objects := objects } }

def call (t : Tid) (c : Call Key Obj) : State Key Obj Tid AgentCount :=
  { s.setPc t (.locking c) with history := s.history ++ [.call (t, s.calls t) c] }

def ret (t : Tid) (result : Result Obj) : State Key Obj Tid AgentCount :=
  { s.setPc t .idle with
    calls := Function.update s.calls t (s.calls t + 1)
    history := s.history ++ [.ret (t, s.calls t) result] }

end State

variable [DecidableEq Key] [Fintype Tid]

def step (h : Hash Key AgentCount) (s : State Key Obj Tid AgentCount) :
    Label Key Obj Tid → Option (State Key Obj Tid AgentCount)
  | .call t c =>
    match s.pc t with
    | .idle => some (s.call t c)
    | _ => none
  | .lock t =>
    match s.pc t with
    | .locking c =>
      let i := h.getAgent c.key
      let lock := (s.agents i).lock
      (RWLockObject.step lock (lockLabel c.lock t (lock.phase t))).map fun lock =>
        (s.setLock i lock).setPc t (if lock.phase t = .running then .locked c else .locking c)
    | _ => none
  | .search t =>
    match s.pc t with
    | .locked c =>
      some (s.setPc t (.searched c (decide (c.key ∈ (s.agents (h.getAgent c.key)).objects))))
    | _ => none
  | .access t =>
    match s.pc t with
    | .searched c found =>
      let i := h.getAgent c.key
      (c.access (s.agents i).objects found).map fun q =>
        (s.setObjects i q.1).setPc t (.unlocking c q.2)
    | _ => none
  | .unlock t wake =>
    match s.pc t with
    | .unlocking c result =>
      let i := h.getAgent c.key
      (RWLockObject.step (s.agents i).lock (unLockLabel c.lock t wake)).map fun lock =>
        (s.setLock i lock).setPc t (.returning c result)
    | _ => none
  | .ret t =>
    match s.pc t with
    | .returning _ result => some (s.ret t result)
    | _ => none

end Bugat.ObjectManager
