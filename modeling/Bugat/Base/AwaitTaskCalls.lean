import Mathlib
import Bugat.Lib.Routine
import Bugat.Base.ExecutorRuns

/-!
# AwaitTask: coroutines that await each other on SerializeObjects

Any number of coroutines are spawned on SerializeObjects of one Context. A coroutine runs inside
a task that a worker executes, and its body is a routine whose places are the objects: it takes a
step on the object of that worker, awaits another coroutine, or awaits `AwaitAlways`. A
coroutine that awaits is resumed by a task on the executor that it had at its `co_await`. Its
frame is at an address that `new` may return when no other frame is there.
-/

namespace Bugat.AwaitCall

open TaskSerializer (taken)

abbrev Addr := ℕ

variable {n : ℕ} {Tid Obj Task Act Ans Val : Type*}

inductive Job (Task : Type*)
  | resume (h : Addr)
  | other (task : Task)
  deriving DecidableEq, Repr

/-- What the frame of a coroutine goes on with. `awaiting` holds the `_result` of its Await, when
it is set; `final` is a coroutine in `final_suspend`. -/
inductive FramePc (Obj Act Ans Val : Type*)
  | ready (code : Routine Obj Act Ans Val)
  | awaiting (result : Option Val) (k : Val → Routine Obj Act Ans Val)
  | final

/-- `executor` and `callfunc` are the fields of `promise_type`; `callfunc` has captured the
coroutine that awaits this one, with the `_caller` of its Await. `number` counts the spawned
coroutines, of which this is the one that it works for. -/
structure Frame (Obj Act Ans Val : Type*) where
  pc : FramePc Obj Act Ans Val
  executor : Option Obj
  callfunc : Option (Addr × Obj)
  number : ℕ

/-- `running` is the coroutine that a thread has resumed. `faulted` is set when a coroutine is
resumed that is destroyed, that runs already or whose result is not set, when a result is written
to a coroutine that does not wait for it, and when a null `_caller` is taken. `spawned`, `events`
and `returned` record what the spawned coroutines are and do. -/
structure State (n : ℕ) (Tid Obj Task Act Ans Val : Type*) where
  base : Executor.State n Tid Obj (Job Task)
  frame : Addr → Option (Frame Obj Act Ans Val)
  running : Tid → Option Addr
  faulted : Bool
  spawned : List (Obj × Routine Obj Act Ans Val)
  events : List (ℕ × Routine.Event Obj Act Ans)
  returned : List (ℕ × Val)

def init (n : ℕ) : State n Tid Obj Task Act Ans Val where
  base := Executor.init n
  frame _ := none
  running _ := none
  faulted := false
  spawned := []
  events := []
  returned := []

inductive Label (Tid Obj Task Act Ans Val : Type*)
  | base (l : Executor.Label Tid Obj (Job Task))
  | spawn (t : Tid) (o : Obj) (a : Addr) (executor : Option Obj) (code : Routine Obj Act Ans Val)
  | act (t : Tid) (r : Ans)
  | always (t : Tid)
  | await (t : Tid) (a : Addr)
  | finalSuspend (t : Tid)
  | destroy (t : Tid)

namespace State

variable (s : State n Tid Obj Task Act Ans Val)

def setFrame (a : Addr) (f : Frame Obj Act Ans Val) : State n Tid Obj Task Act Ans Val :=
  { s with frame := Function.update s.frame a (some f) }

def fault : State n Tid Obj Task Act Ans Val := { s with faulted := true }

def current (t : Tid) : Option (Addr × Frame Obj Act Ans Val) :=
  (s.running t).bind fun h => (s.frame h).map fun f => (h, f)

variable [DecidableEq Tid]

def setRunning (t : Tid) (x : Option Addr) : State n Tid Obj Task Act Ans Val :=
  { s with running := Function.update s.running t x }

/-- `h.resume()`: a coroutine that has awaited another one takes the result from its Await. -/
def resume [Fintype Tid] (t : Tid) (h : Addr) : State n Tid Obj Task Act Ans Val :=
  if ∃ u, s.running u = some h then s.fault
  else
    match s.frame h with
    | none => s.fault
    | some f =>
      match f.pc with
      | .ready _ => s.setRunning t (some h)
      | .awaiting (some v) k => (s.setFrame h { f with pc := .ready (k v) }).setRunning t (some h)
      | .awaiting none _ | .final => s.fault

variable [DecidableEq Obj] [NeZero n]

def ofBase (l : Executor.Label Tid Obj (Job Task)) : Option (State n Tid Obj Task Act Ans Val) :=
  (Executor.step s.base l).map fun base => { s with base := base }

def post (t : Tid) (o : Obj) (h : Addr) : Option (State n Tid Obj Task Act Ans Val) :=
  s.ofBase (.mailbox o (.link t (.resume h)))

def spawn (t : Tid) (o : Obj) (a : Addr) (executor : Option Obj)
    (code : Routine Obj Act Ans Val) : Option (State n Tid Obj Task Act Ans Val) :=
  if s.frame a = none then
    let frame : Frame Obj Act Ans Val := ⟨.ready code, executor, none, s.spawned.length⟩
    { s.setFrame a frame with spawned := s.spawned ++ [(o, code)] }.post t o a
  else none

def always (t : Tid) (h : Addr) (f : Frame Obj Act Ans Val) (o : Obj)
    (next : Routine Obj Act Ans Val) : Option (State n Tid Obj Task Act Ans Val) :=
  ((s.setFrame h { f with pc := .ready next }).setRunning t none).post t o h

/-- `co_await` of a call: the callee is created at `a`, and the Await takes `Context::Executor()`
as its `_caller`. Without an `_executor` the callee is resumed at once. -/
def await (t : Tid) (h : Addr) (f : Frame Obj Act Ans Val) (a : Addr) (executor : Option Obj)
    (callee : Routine Obj Act Ans Val) (k : Val → Routine Obj Act Ans Val) :
    Option (State n Tid Obj Task Act Ans Val) :=
  match s.base.context.executor t with
  -- a null `_caller`
  | none => some s.fault
  | some caller =>
    let s := s.setFrame h { f with pc := .awaiting none k }
    let s := s.setFrame a ⟨.ready callee, executor, some (h, caller), f.number⟩
    match executor with
    | some o => (s.setRunning t none).post t o a
    | none => some (s.setRunning t (some a))

/-- `co_return` and the call of `_callfunc`, which sets the result of the caller and posts its
resumption. -/
def finalSuspend (t : Tid) (h : Addr) (f : Frame Obj Act Ans Val) (v : Val) :
    Option (State n Tid Obj Task Act Ans Val) :=
  let s := s.setFrame h { f with pc := .final }
  match f.callfunc with
  | none => some { s with returned := s.returned ++ [(f.number, v)] }
  | some (c, caller) =>
    match s.frame c with
    | none => some s.fault
    | some g =>
      match g.pc with
      | .awaiting none k => (s.setFrame c { g with pc := .awaiting (some v) k }).post t caller c
      | .awaiting (some _) _ | .ready _ | .final => some s.fault

def destroy (t : Tid) (h : Addr) : State n Tid Obj Task Act Ans Val :=
  { s.setRunning t none with frame := Function.update s.frame h none }

end State

variable [DecidableEq Tid] [Fintype Tid] [DecidableEq Obj] [NeZero n]

def ofBase (s : State n Tid Obj Task Act Ans Val) : Executor.Label Tid Obj (Job Task) →
    Option (State n Tid Obj Task Act Ans Val)
  -- resumptions are linked by the steps of the coroutines
  | .mailbox _ (.link _ (.resume _)) => none
  | .mailbox o (.taskReturns t) =>
    if s.running t = none then s.ofBase (.mailbox o (.taskReturns t)) else none
  | .mailbox o (.pop t) =>
    (s.ofBase (.mailbox o (.pop t))).map fun s' =>
      match taken (s.base.object o) (s'.base.object o) with
      | some (.resume h) => s'.resume t h
      | some (.other _) | none => s'
  | l => s.ofBase l

def step (s : State n Tid Obj Task Act Ans Val) : Label Tid Obj Task Act Ans Val →
    Option (State n Tid Obj Task Act Ans Val)
  | .base l => ofBase s l
  | .spawn t o a executor code => s.spawn t o a executor code
  | .act t r =>
    match s.current t with
    | some (h, f) =>
      match f.pc, s.base.context.executor t with
      | .ready (.act a k), some p =>
        if s.base.free t then
          some { s.setFrame h { f with pc := .ready (k r) } with
            events := s.events ++ [(f.number, ⟨p, a, r⟩)] }
        else none
      | _, _ => none
    | none => none
  | .always t =>
    match s.current t with
    | some (h, f) =>
      match f.pc with
      | .ready (.move o next) => s.always t h f o next
      | _ => none
    | none => none
  | .await t a =>
    match s.current t with
    | some (h, f) =>
      match f.pc with
      | .ready (.call executor callee k) =>
        if s.base.free t ∧ s.frame a = none then s.await t h f a executor callee k else none
      | _ => none
    | none => none
  | .finalSuspend t =>
    match s.current t with
    | some (h, f) =>
      match f.pc with
      | .ready (.ret v) => if s.base.free t then s.finalSuspend t h f v else none
      | _ => none
    | none => none
  | .destroy t =>
    match s.current t with
    | some (h, f) =>
      match f.pc with
      | .final => if s.base.free t then some (s.destroy t h) else none
      | _ => none
    | none => none

end Bugat.AwaitCall
