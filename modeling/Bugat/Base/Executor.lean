import Mathlib
import Bugat.Base.ContextEntries
import Bugat.Base.SerializeObjectRuns

/-!
# SerializeObjects on a Context

Any number of SerializeObjects share one Context. A worker that pops an object from its
SerializerQueue enters `Run` of that object, and `OnPost` and `OnRun` hand an object to
`Context::Post`, where the call reads a slot and pushes later. A thread does one thing at a
time: it is outside `Context::Run`, or it is a worker, and a task that a worker executes may
post to any object.
-/

namespace Bugat.Executor

variable {n : ℕ} {Tid Obj Task : Type*}

/-- `inPost` is the object on which a thread is inside `TaskSerializer::Post`. -/
structure State (n : ℕ) (Tid Obj Task : Type*) where
  context : Context.State n Tid Tid Obj
  object : Obj → TaskSerializer.State Tid Task
  inPost : Tid → Option Obj

def init (n : ℕ) : State n Tid Obj Task where
  context := Context.initializeContext n
  object _ := TaskSerializer.init
  inPost _ := none

inductive Label (Tid Obj Task : Type*)
  | context (l : Context.Label Tid Tid Obj)
  | mailbox (o : Obj) (l : TaskSerializer.Label Tid Task)

def Label.isThrow : Label Tid Obj Task → Bool
  | .mailbox _ l => l.isThrow
  | _ => false

namespace State

variable (s : State n Tid Obj Task) (t : Tid) (o : Obj)

def free : Prop := s.inPost t = none ∧ (s.context.poster t).calls = false

/-- The task of an object that the thread is in the middle of. -/
def inTask : Bool :=
  match ((s.object o).thread t).run with
  | .executing _ _ _ _ => true
  | _ => false

def mayPost : Bool :=
  match s.context.worker t with
  | .outside => true
  | .execute _ _ => (s.context.executor t).any (s.inTask t)
  | _ => false

def returned : Bool :=
  (s.context.executor t).all fun o => ((s.object o).thread t).run = .idle

end State

section Steps

variable [DecidableEq Tid] [DecidableEq Obj] [NeZero n]

instance (s : State n Tid Obj Task) (t : Tid) : Decidable (s.free t) :=
  inferInstanceAs (Decidable (_ ∧ _))

namespace State

variable (s : State n Tid Obj Task) (t : Tid) (o : Obj)

def setPosting (x : Option Obj) : State n Tid Obj Task :=
  { s with inPost := Function.update s.inPost t x }

def setObject (m : TaskSerializer.State Tid Task) : State n Tid Obj Task :=
  { s with object := Function.update s.object o m }

def setContext (c : Context.State n Tid Tid Obj) : State n Tid Obj Task := { s with context := c }

def ofContext (l : Context.Label Tid Tid Obj) : Option (State n Tid Obj Task) :=
  (Context.step s.context l).map s.setContext

def ofMailbox (l : TaskSerializer.Label Tid Task) : Option (State n Tid Obj Task) :=
  (TaskSerializer.step (s.object o) l).map (s.setObject o)

def onCount (schedules : Bool) : Option (State n Tid Obj Task) :=
  if schedules then s.ofContext (.post t (some o)) else some (s.setPosting t none)

end State

/-- The steps of a worker, which has no call of `Post` under way. `popObject` enters `Run` of the
object that it has popped. -/
def worker (s : State n Tid Obj Task) (t : Tid) (l : Context.Label Tid Tid Obj) :
    Option (State n Tid Obj Task) :=
  if s.free t then
    (s.ofContext l).bind fun s' =>
      match Context.executes s.context l with
      | o :: _ => s'.ofMailbox o (.enter t)
      | [] => some s'
  else none

def step (s : State n Tid Obj Task) : Label Tid Obj Task → Option (State n Tid Obj Task)
  | .context (.enter t a) => worker s t (.enter t a)
  | .context (.testStop t) => worker s t (.testStop t)
  | .context (.swapIndex t) => worker s t (.swapIndex t)
  | .context (.load t) => worker s t (.load t)
  | .context (.exchange t) => worker s t (.exchange t)
  | .context (.push t) => worker s t (.push t)
  | .context (.pop t) => worker s t (.pop t)
  | .context (.popObject t) => worker s t (.popObject t)
  | .context (.objectRuns t executed) =>
    if s.returned t then worker s t (.objectRuns t executed) else none
  | .context (.objectThrows _) => none
  | .context (.delete t) => worker s t (.delete t)
  | .context (.post _ _) => none
  | .context (.postLoad t) => s.ofContext (.postLoad t)
  | .context (.postPush t) => (s.ofContext (.postPush t)).map fun s' => s'.setPosting t none
  | .context .stop => s.ofContext .stop
  | .mailbox o (.link t task) =>
    if s.free t ∧ s.mayPost t then
      (s.ofMailbox o (.link t task)).map fun s' => s'.setPosting t (some o)
    else none
  | .mailbox o (.addSize t) => s.ofMailbox o (.addSize t)
  | .mailbox o (.addTaskCount t) => s.ofMailbox o (.addTaskCount t)
  | .mailbox o (.onPost t) =>
    match ((s.object o).thread t).post with
    | .counted c =>
      (s.ofMailbox o (.onPost t)).bind fun s' => s'.onCount t o (SerializeObject.onPost c)
    | _ => none
  | .mailbox _ (.enter _) => none
  | .mailbox o (.getSize t) => if s.free t then s.ofMailbox o (.getSize t) else none
  | .mailbox o (.pop t) => if s.free t then s.ofMailbox o (.pop t) else none
  | .mailbox o (.taskReturns t) => if s.free t then s.ofMailbox o (.taskReturns t) else none
  | .mailbox o (.taskThrows t) =>
    -- the exception passes through `SerializerQueue::Run` to the handlers of `Context::Run`
    if s.free t then
      (s.ofMailbox o (.taskThrows t)).bind fun s' => s'.ofContext (.objectThrows t)
    else none
  | .mailbox o (.subTaskCount t) => if s.free t then s.ofMailbox o (.subTaskCount t) else none
  | .mailbox o (.onRun t) =>
    match ((s.object o).thread t).run with
    | .counted c =>
      if s.free t then
        (s.ofMailbox o (.onRun t)).bind fun s' => s'.onCount t o (SerializeObject.onRun c)
      else none
    | _ => none

end Steps

end Bugat.Executor
