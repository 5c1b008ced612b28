import Mathlib
import Bugat.Base.SerializeObject
import Bugat.Core.TaskSerializerThreads

/-!
# AwaitTask: coroutines that keep their object alive

A `SerializeObject` is referenced by the handles of its owners, by its entries in the
SerializerQueues, by the current executor of a worker and by the `_executor` of each of its
coroutines that is not finished. An owner posts through its own handle. A callback that posts
the resumption of a coroutine has only a pointer that the frame of the coroutine keeps valid:
the `Connection*` of `AwaitRecv` and `AwaitSend`, or the `_caller` of `Await`.
-/

namespace Bugat.AwaitTask

open TaskSerializer (taken)

variable {Tid Cid Task : Type*}

inductive ObjectTask (Cid Task : Type*)
  | resume (c : Cid)
  | other (task : Task)
  deriving DecidableEq, Repr

inductive Coroutine (Tid : Type*)
  | notCreated
  | suspended
  | posted
  | running (t : Tid)
  | thrown
  | finished
  deriving DecidableEq, Repr

def Coroutine.unfinished : Coroutine Tid → Bool
  | .suspended | .posted | .running _ | .thrown => true
  | .notCreated | .finished => false

/-- `via` is the coroutine whose resumption a thread has linked last. `touches` has an entry
for each step of `Post` and `Run` and of a task: whether the object still existed. -/
structure State (Tid Cid Task : Type*) where
  object : SerializeObject.State Tid (ObjectTask Cid Task)
  handles : Tid → ℕ
  executor : Tid → Bool
  coroutine : Cid → Coroutine Tid
  via : Tid → Option Cid
  freed : Bool
  touches : List Bool

inductive Label (Tid Cid Task : Type*)
  | object (l : TaskSerializer.Label Tid (ObjectTask Cid Task))
  | copyHandle (t u : Tid)
  | dropHandle (t : Tid)
  | create (t : Tid) (c : Cid)
  | suspend (c : Cid)
  | finish (c : Cid)
  | release (t : Tid)
  deriving DecidableEq, Repr

namespace State

variable (s : State Tid Cid Task)

def holds (t : Tid) : Bool := decide (0 < s.handles t) || s.executor t

def Referenced : Prop :=
  (∃ t, s.holds t = true) ∨ 0 < s.object.scheduled ∨ ∃ c, (s.coroutine c).unfinished = true

instance [Fintype Tid] [Fintype Cid] : Decidable s.Referenced :=
  inferInstanceAs (Decidable (_ ∨ _))

def free [Fintype Tid] [Fintype Cid] : State Tid Cid Task :=
  if s.Referenced then s else { s with freed := true }

def busy (t : Tid) : Prop := (s.object.serializer.thread t).post ≠ .idle

instance (t : Tid) : Decidable (s.busy t) := inferInstanceAs (Decidable (_ ≠ _))

end State

variable [DecidableEq Tid]

def init (creator : Tid) : State Tid Cid Task where
  object := SerializeObject.init
  handles := Function.update (fun _ => 0) creator 1
  executor _ := false
  coroutine _ := .notCreated
  via _ := none
  freed := false
  touches := []

variable [DecidableEq Cid]

def setCoroutine (s : State Tid Cid Task) (c : Cid) (k : Coroutine Tid) : State Tid Cid Task :=
  { s with coroutine := Function.update s.coroutine c k }

variable [Fintype Tid] [Fintype Cid]

def refer (s s' : State Tid Cid Task) : TaskSerializer.Label Tid (ObjectTask Cid Task) →
    Option (State Tid Cid Task)
  | .link t (.resume c) =>
    if s.coroutine c = .suspended then
      some { setCoroutine s' c .posted with via := Function.update s.via t (some c) }
    else none
  | .link t (.other _) =>
    if s.holds t then some { s' with via := Function.update s.via t none } else none
  | .enter t => some { s' with executor := Function.update s.executor t true }
  | .pop t =>
    match taken s.object.serializer s'.object.serializer with
    | some (.resume c) => some (setCoroutine s' c (.running t))
    | some (.other _) | none => some s'
  | .taskReturns t => if ∃ c, s.coroutine c = .running t then none else some s'
  | .taskThrows t =>
    some { s' with
      coroutine := fun c => if s.coroutine c = .running t then .thrown else s.coroutine c }
  | .addSize _ | .addTaskCount _ | .onPost _ | .getSize _ | .subTaskCount _ | .onRun _ => some s'

def move (s : State Tid Cid Task) : Label Tid Cid Task → Option (State Tid Cid Task)
  | .object l =>
    (SerializeObject.step s.object l).bind fun object =>
      refer s { s with object, touches := s.touches ++ [!s.freed] } l
  | .copyHandle t u =>
    if s.holds t then some { s with handles := Function.update s.handles u (s.handles u + 1) }
    else none
  | .dropHandle t =>
    if 0 < s.handles t ∧ ¬ s.busy t then
      some { s with handles := Function.update s.handles t (s.handles t - 1) }
    else none
  | .create t c =>
    if s.holds t ∧ s.coroutine c = .notCreated then some (setCoroutine s c .suspended) else none
  | .suspend c =>
    match s.coroutine c with
    | .running _ => some (setCoroutine s c .suspended)
    | _ => none
  | .finish c =>
    match s.coroutine c with
    | .running _ => some (setCoroutine s c .finished)
    | _ => none
  | .release t =>
    if s.executor t = true ∧ s.object.serializer.thread t = ⟨.idle, .idle⟩ then
      some { s with executor := Function.update s.executor t false }
    else none

def step (s : State Tid Cid Task) (l : Label Tid Cid Task) : Option (State Tid Cid Task) :=
  (move s l).map fun u => u.free

/-- A coroutine finishes while no thread without a reference of its own is inside the `Post` of
one of its resumptions. -/
def FinishesAfterPost (s : State Tid Cid Task) (l : Label Tid Cid Task) : Prop :=
  ∀ c, l = .finish c → ∀ t, s.via t = some c → s.busy t → s.holds t = true

end Bugat.AwaitTask
