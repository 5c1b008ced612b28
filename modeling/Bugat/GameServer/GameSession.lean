import Mathlib
import Bugat.Base.NetworkMessage
import Bugat.Core.TaskSerializerThreads

/-!
# GameSession: from the received packets to their handler

A connection and its session are two mailboxes, run and posted to by any number of threads.
`Recv` is a coroutine that a task of the connection resumes, on whatever thread runs it. Each
packet that it cuts off goes through `OnRead` to `HandleMsg`, which posts a task to the
session, and this task passes the packet to `GameHandler::Handle`. All other tasks of the two
objects are arbitrary.
-/

namespace Bugat.GameSession

open TaskSerializer (Thread taken)

variable {Tid Task : Type*}

inductive ConnectionTask (Task : Type*)
  | recv
  | other (task : Task)
  deriving DecidableEq, Repr

inductive SessionTask (Task : Type*)
  | handleMsg (packet : RecvPacket)
  | other (task : Task)
  deriving DecidableEq, Repr

inductive RecvPc
  | test
  | decode
  | onRead (packet : RecvPacket)
  | handed
  | close
  deriving DecidableEq, Repr

/-- The coroutine. It is resumed by a task when it was spawned and when its read has completed,
with the bytes or an error. -/
inductive Recv (Tid : Type*)
  | notStarted
  | spawned
  | reading
  | completed (result : Option (List UInt8))
  | running (t : Tid) (pc : RecvPc)
  | finished
  deriving DecidableEq, Repr

/-- `yielded` records the packets that `GetNetMessage` has returned. -/
structure State (Tid Task : Type*) where
  connection : TaskSerializer.State Tid (ConnectionTask Task)
  session : TaskSerializer.State Tid (SessionTask Task)
  recv : Recv Tid
  msg : NetworkMessage
  yielded : List RecvPacket

def init (memory : ℕ → DataBlock) : State Tid Task where
  connection := TaskSerializer.init
  session := TaskSerializer.init
  recv := .notStarted
  msg := .init memory
  yielded := []

inductive Label (Tid Task : Type*)
  | connection (l : TaskSerializer.Label Tid (ConnectionTask Task))
  | session (l : TaskSerializer.Label Tid (SessionTask Task))
  | spawnRecv (t : Tid)
  | readCompletes (t : Tid) (result : Option (List UInt8))
  | recv (disconnected : Bool)
  deriving DecidableEq, Repr

/-- A thread takes part in one mailbox while it is outside the other one, or posts to it from
inside a task of the other one. -/
def outside (other : Tid → Thread) : TaskSerializer.Label Tid Task → Bool
  | .link t _ => (other t).post = .idle
  | .addSize _ | .addTaskCount _ | .onPost _ => true
  | .enter t | .getSize t | .pop t | .taskReturns t | .taskThrows t | .subTaskCount t | .onRun t =>
    other t = ⟨.idle, .idle⟩

variable [DecidableEq Tid] (packetSize : ℤ)

def resumeRecv (s : State Tid Task) (t : Tid) : State Tid Task :=
  match s.recv with
  | .spawned => { s with recv := .running t .test }
  | .completed none => { s with recv := .running t .close }
  | .completed (some bytes) =>
    { s with
      recv := .running t .decode
      msg := ((RecvLoop.fill s.msg bytes).update packetSize bytes.length).2 }
  | .notStarted | .reading | .running _ _ | .finished => s

/-- What a step of the mailbox of the connection means to `Recv`. A task that resumes it ends
when it suspends again, or by an exception of `Close`, which ends the coroutine as well. -/
def resumption (s s' : State Tid Task) : TaskSerializer.Label Tid (ConnectionTask Task) →
    Option (State Tid Task)
  | .pop t =>
    match taken s.connection s'.connection with
    | some .recv => some (resumeRecv packetSize s' t)
    | some (.other _) | none => some s'
  | .taskReturns t =>
    match s.recv with
    | .running u _ => if u = t then none else some s'
    | _ => some s'
  | .taskThrows t =>
    match s.recv with
    | .running u .close => some (if u = t then { s' with recv := .finished } else s')
    | .running u _ => if u = t then none else some s'
    | _ => some s'
  | .link _ .recv => none
  | _ => some s'

def postRecv (s : State Tid Task) (t : Tid) (recv : Recv Tid) : Option (State Tid Task) :=
  if outside s.session.thread (.link t (.recv : ConnectionTask Task)) then
    (TaskSerializer.step s.connection (.link t .recv)).map fun connection =>
      { s with connection, recv }
  else none

/-- The next step of `Recv`. Its call of `Close` ends it; the tasks that `Close` brings about
are among the other tasks. -/
def recvStep (s : State Tid Task) (disconnected : Bool) : Option (State Tid Task) :=
  match s.recv with
  | .running t .test =>
    if disconnected then some { s with recv := .running t .close }
    else some { s with recv := .reading, msg := (s.msg.getBufInfo packetSize).1 }
  | .running t .decode =>
    match s.msg.getNetMessage with
    | none => some { s with recv := .running t .test }
    | some (packet, msg) =>
      some { s with recv := .running t (.onRead packet), msg, yielded := s.yielded ++ [packet] }
  | .running t (.onRead packet) =>
    (TaskSerializer.step s.session (.link t (.handleMsg packet))).map fun session =>
      { s with session, recv := .running t .handed }
  | .running t .handed =>
    if (s.session.thread t).post = .idle then some { s with recv := .running t .decode } else none
  | .running _ .close => some { s with recv := .finished }
  | .notStarted | .spawned | .reading | .completed _ | .finished => none

def step (s : State Tid Task) : Label Tid Task → Option (State Tid Task)
  | .connection l =>
    if outside s.session.thread l then
      (TaskSerializer.step s.connection l).bind fun connection =>
        resumption packetSize s { s with connection } l
    else none
  | .session l =>
    if outside s.connection.thread l then
      match l with
      | .link _ (.handleMsg _) => none
      | l => (TaskSerializer.step s.session l).map fun session => { s with session }
    else none
  | .spawnRecv t =>
    match s.recv with
    | .notStarted => postRecv s t .spawned
    | _ => none
  | .readCompletes t result =>
    match s.recv with
    | .reading =>
      if ∀ bytes ∈ result, 1 ≤ bytes.length ∧ (bytes.length : ℤ) ≤ packetSize then
        postRecv s t (.completed result)
      else none
    | _ => none
  | .recv disconnected => recvStep packetSize s disconnected

def SessionTask.packet : SessionTask Task → Option RecvPacket
  | .handleMsg packet => some packet
  | .other _ => none

def packets (tasks : List (TaskSerializer.Posted Tid (SessionTask Task))) : List RecvPacket :=
  tasks.filterMap fun x => x.task.packet

/-- The packets passed to `GameHandler::Handle`. A worker that has popped the task of a packet
has called it. -/
def handled (s : State Tid Task) : List RecvPacket := packets s.session.executed

/-- A thread is inside `Post` of the session, or `Recv` is about to call it. -/
def PostInFlight (s : State Tid Task) : Prop :=
  (∃ t, (s.session.thread t).post ≠ .idle) ∨ ∃ t packet, s.recv = .running t (.onRead packet)

def executing (s : State Tid Task) (t : Tid) : Bool :=
  (s.session.thread t).run matches .executing _ _ _ _

def OneWorker (s : State Tid Task) (l : Label Tid Task) : Prop :=
  ∀ t, l = .session (.enter t) → ∀ u, (s.session.thread u).inRun = false

end Bugat.GameSession
