import Mathlib
import Bugat.Lib.Transition
import Bugat.Lib.MachineInt

/-!
# TaskSerializer: posting and running a mailbox of tasks

One `TaskSerializer` shared by the threads `Tid`. The atomic steps of `Post` and
of `Run` are separate labels, so that any two threads interleave between them:
the link of the node and the `_size` increment inside `_que.Push`, the increment
of `_taskCount`, the call of `OnPost`; the read of `_size`, each `Pop`, the end of
each task, the decrement of `_taskCount`, the call of `OnRun`. The queue is a
linearizable FIFO whose size counter is a separate word. `OnPost` and `OnRun` are
virtual; their effect on a `Context` is added by `SerializeObject`.
-/

namespace Bugat.TaskSerializer

open MachineInt (wrap32)

variable {Tid Task : Type*}

def taskSerializerError : ℤ := 2 ^ 60

/-- A queue node takes at least the 16 bytes of its link and its `AnyTask`, so a
64-bit address space holds no more nodes than this, the dummy node included. -/
def maxNodes : ℕ := 2 ^ 64 / 16

structure Posted (Tid Task : Type*) where
  thread : Tid
  number : ℕ
  task : Task
  deriving DecidableEq, Repr

inductive PostPc
  | idle
  | linked
  | sized
  | counted (taskCount : ℤ)
  deriving DecidableEq, Repr

/-- Where a thread stands in `Run`. `start` is `_taskCount` when `Run` was entered;
the other arguments are the local variables of the source. -/
inductive RunPc
  | idle
  | entered (start : ℤ)
  | loop (start size i executeCount : ℤ)
  | executing (start size i executeCount : ℤ)
  | finished (start size executeCount : ℤ)
  | counted (taskCount : ℤ)
  deriving DecidableEq, Repr

structure Thread where
  post : PostPc
  run : RunPc
  deriving DecidableEq, Repr

def Thread.mayPost : Thread → Bool
  | ⟨.idle, .idle⟩ => true
  | ⟨.idle, .executing _ _ _ _⟩ => true
  | _ => false

/-- `que`, `size` and `taskCount` are the members; `linked` and `executed` record
the order of all links and of all executions. -/
structure State (Tid Task : Type*) where
  que : List (Posted Tid Task)
  size : ℤ
  taskCount : ℤ
  thread : Tid → Thread
  linked : List (Posted Tid Task)
  executed : List (Posted Tid Task)

def init : State Tid Task := ⟨[], 0, 0, fun _ => ⟨.idle, .idle⟩, [], []⟩

inductive Label (Tid Task : Type*)
  | link (t : Tid) (task : Task)
  | addSize (t : Tid)
  | addTaskCount (t : Tid)
  | onPost (t : Tid)
  | enter (t : Tid)
  | getSize (t : Tid)
  | pop (t : Tid)
  | taskReturns (t : Tid)
  | taskThrows (t : Tid)
  | subTaskCount (t : Tid)
  | onRun (t : Tid)
  deriving DecidableEq, Repr

def Label.isThrow : Label Tid Task → Bool
  | .taskThrows _ => true
  | _ => false

variable [DecidableEq Tid]

namespace State

def setPost (s : State Tid Task) (t : Tid) (p : PostPc) : State Tid Task :=
  { s with thread := Function.update s.thread t { s.thread t with post := p } }

def setRun (s : State Tid Task) (t : Tid) (r : RunPc) : State Tid Task :=
  { s with thread := Function.update s.thread t { s.thread t with run := r } }

def postedBy (s : State Tid Task) (t : Tid) : ℕ := s.linked.countP fun x => x.thread = t

/-- `InternalPush` up to its successful compare-exchange of the last `_next`. -/
def link (s : State Tid Task) (t : Tid) (task : Task) : State Tid Task :=
  let node : Posted Tid Task := ⟨t, s.postedBy t, task⟩
  { s.setPost t .linked with que := s.que ++ [node], linked := s.linked ++ [node] }

def addSize (s : State Tid Task) (t : Tid) : State Tid Task :=
  { s.setPost t .sized with size := s.size + 1 }

def addTaskCount (s : State Tid Task) (t : Tid) : State Tid Task :=
  { s.setPost t (.counted (s.taskCount + 1)) with taskCount := s.taskCount + 1 }

def subTaskCount (s : State Tid Task) (t : Tid) (executeCount : ℤ) : State Tid Task :=
  { s.setRun t (.counted (s.taskCount - executeCount)) with
    taskCount := s.taskCount - executeCount }

def popTask (s : State Tid Task) (t : Tid) (x : Posted Tid Task) (rest : List (Posted Tid Task))
    (start size i executeCount : ℤ) : State Tid Task :=
  { s.setRun t (.executing start size i executeCount) with
    que := rest, size := s.size - 1, executed := s.executed ++ [x] }

/-- The test of the `for` loop and, when it holds, `_que.Pop(task)`. -/
def pop (s : State Tid Task) (t : Tid) (start size i executeCount : ℤ) : State Tid Task :=
  if i < size then
    match s.que with
    | x :: rest => s.popTask t x rest start size i executeCount
    | [] => s.setRun t (.finished start size executeCount)
  else s.setRun t (.finished start size executeCount)

end State

/-- One atomic step. The index of the `for` loop is an `int`: it wraps at 32 bits. -/
def step (s : State Tid Task) : Label Tid Task → Option (State Tid Task)
  | .link t task =>
    if (s.thread t).mayPost ∧ s.que.length + 2 ≤ maxNodes then some (s.link t task) else none
  | .addSize t =>
    match (s.thread t).post with
    | .linked => some (s.addSize t)
    | _ => none
  | .addTaskCount t =>
    match (s.thread t).post with
    | .sized => some (s.addTaskCount t)
    | _ => none
  | .onPost t =>
    match (s.thread t).post with
    | .counted _ => some (s.setPost t .idle)
    | _ => none
  | .enter t =>
    match s.thread t with
    | ⟨.idle, .idle⟩ => some (s.setRun t (.entered s.taskCount))
    | _ => none
  | .getSize t =>
    match (s.thread t).run with
    | .entered start => some (s.setRun t (.loop start s.size 0 0))
    | _ => none
  | .pop t =>
    match (s.thread t).run with
    | .loop start size i executeCount => some (s.pop t start size i executeCount)
    | _ => none
  | .taskReturns t =>
    match s.thread t with
    | ⟨.idle, .executing start size i executeCount⟩ =>
      some (s.setRun t (.loop start size (wrap32 (i + 1)) (executeCount + 1)))
    | _ => none
  | .taskThrows t =>
    -- the exception leaves `Run` before the `fetch_sub`
    match s.thread t with
    | ⟨.idle, .executing _ _ _ _⟩ => some (s.setRun t .idle)
    | _ => none
  | .subTaskCount t =>
    match (s.thread t).run with
    | .finished _ _ executeCount => some (s.subTaskCount t executeCount)
    | _ => none
  | .onRun t =>
    match (s.thread t).run with
    | .counted _ => some (s.setRun t .idle)
    | _ => none

variable {s s' : State Tid Task} {t : Tid} {task : Task}

theorem step_link : step s (.link t task) = some s' ↔
    ((s.thread t).mayPost ∧ s.que.length + 2 ≤ maxNodes) ∧ s.link t task = s' := by
  simp only [step]
  split <;> simp_all

theorem step_addSize : step s (.addSize t) = some s' ↔
    (s.thread t).post = .linked ∧ s.addSize t = s' := by
  simp only [step]
  split <;> simp_all

theorem step_addTaskCount : step s (.addTaskCount t) = some s' ↔
    (s.thread t).post = .sized ∧ s.addTaskCount t = s' := by
  simp only [step]
  split <;> simp_all

theorem step_onPost : step s (.onPost t) = some s' ↔
    (∃ c, (s.thread t).post = .counted c) ∧ s.setPost t .idle = s' := by
  simp only [step]
  split <;> simp_all

theorem step_enter : step s (.enter t) = some s' ↔
    s.thread t = ⟨.idle, .idle⟩ ∧ s.setRun t (.entered s.taskCount) = s' := by
  simp only [step]
  split <;> simp_all

theorem step_getSize : step s (.getSize t) = some s' ↔
    ∃ start, (s.thread t).run = .entered start ∧ s.setRun t (.loop start s.size 0 0) = s' := by
  simp only [step]
  split <;> simp_all

theorem step_pop : step s (.pop t) = some s' ↔
    ∃ start size i n, (s.thread t).run = .loop start size i n ∧ s.pop t start size i n = s' := by
  simp only [step]
  split
  · rename_i heq
    rw [heq]
    constructor
    · intro h
      exact ⟨_, _, _, _, rfl, Option.some.inj h⟩
    · rintro ⟨_, _, _, _, hrun, rfl⟩
      cases hrun
      rfl
  · rename_i hne
    constructor
    · intro h
      cases h
    · rintro ⟨_, _, _, _, hrun, -⟩
      exact absurd hrun (hne _ _ _ _)

theorem step_taskReturns : step s (.taskReturns t) = some s' ↔
    ∃ start size i n, s.thread t = ⟨.idle, .executing start size i n⟩ ∧
      s.setRun t (.loop start size (wrap32 (i + 1)) (n + 1)) = s' := by
  simp only [step]
  split
  · rename_i heq
    rw [heq]
    constructor
    · intro h
      exact ⟨_, _, _, _, rfl, Option.some.inj h⟩
    · rintro ⟨_, _, _, _, hrun, rfl⟩
      cases hrun
      rfl
  · rename_i hne
    constructor
    · intro h
      cases h
    · rintro ⟨_, _, _, _, hrun, -⟩
      exact absurd hrun (hne _ _ _ _)

theorem step_taskThrows : step s (.taskThrows t) = some s' ↔
    (∃ start size i n, s.thread t = ⟨.idle, .executing start size i n⟩) ∧
      s.setRun t .idle = s' := by
  simp only [step]
  split <;> simp_all

theorem step_subTaskCount : step s (.subTaskCount t) = some s' ↔
    ∃ start size n, (s.thread t).run = .finished start size n ∧ s.subTaskCount t n = s' := by
  simp only [step]
  split <;> simp_all

theorem step_onRun : step s (.onRun t) = some s' ↔
    (∃ c, (s.thread t).run = .counted c) ∧ s.setRun t .idle = s' := by
  simp only [step]
  split <;> simp_all

end Bugat.TaskSerializer
