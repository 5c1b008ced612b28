import Mathlib
import Bugat.Lib.Transition

/-!
# Context: workers that take turns on SerializerQueues

A `Context` has `n` global slots that point to SerializerQueues, a waiting queue of
further ones, and any number of workers inside `Run`, each with one in its hand. A
worker puts its own queue into a slot, appends the one it took out of the slot to
the waiting queue, takes the oldest one from there and drains it. `Post` reads a
slot and pushes through the pointer later. Each read or write of a shared word is
one step; the waiting queue is a linearizable FIFO. `new` may return any address at
which no SerializerQueue lives.
-/

namespace Bugat.Context

abbrev Addr := ℕ

variable {n : ℕ} {Tid Pid Obj : Type*}

/-- Where a worker stands in `Run`. `localQue` is the thread's `_localQue`, which the
slot still shares with the worker between the exchange and `_waitQue.Pop`. -/
inductive WorkerPc (n : ℕ) (Obj : Type*)
  | outside
  | top (localQue : Option Addr)
  | swapIndex (localQue : Option Addr)
  | load (localQue : Option Addr) (i : Fin n)
  | exchange (localQue : Option Addr) (i : Fin n) (expect : Option Addr)
  | push (localQue expect : Option Addr)
  | pop (localQue : Option Addr)
  | drain (localQue : Option Addr) (count : ℕ)
  | execute (localQue : Option Addr) (count : ℕ)
  | stopped (localQue : Option Addr)

inductive PostPc (n : ℕ) (Obj : Type*)
  | idle
  | load (i : Fin n) (obj : Option Obj)
  | push (que : Option Addr) (obj : Option Obj)

/-- `live` holds the addresses of the SerializerQueues that are constructed and not
deleted, `content` the `_que` at each address. -/
structure State (n : ℕ) (Tid Pid Obj : Type*) where
  globalQue : Fin n → Option Addr
  waitQue : List (Option Addr)
  swapCounter : ℕ
  globalCounter : ℕ
  executeTaskCounter : ℕ
  stop : Bool
  live : Finset Addr
  content : Addr → List (Option Obj)
  executor : Tid → Option Obj
  worker : Tid → WorkerPc n Obj
  poster : Pid → PostPc n Obj

def construct : State n Tid Pid Obj where
  globalQue _ := none
  waitQue := []
  swapCounter := 0
  globalCounter := 0
  executeTaskCounter := 0
  stop := false
  live := ∅
  content _ := []
  executor _ := none
  worker _ := .outside
  poster _ := .idle

inductive Label (Tid Pid Obj : Type*)
  | enter (t : Tid) (a : Addr)
  | testStop (t : Tid)
  | swapIndex (t : Tid)
  | load (t : Tid)
  | exchange (t : Tid)
  | push (t : Tid)
  | pop (t : Tid)
  | popObject (t : Tid)
  | objectRuns (t : Tid) (executed : ℕ)
  | objectThrows (t : Tid)
  | delete (t : Tid)
  | post (p : Pid) (obj : Option Obj)
  | postLoad (p : Pid)
  | postPush (p : Pid)
  | stop

namespace State

def newQue (s : State n Tid Pid Obj) (a : Addr) : State n Tid Pid Obj :=
  { s with live := insert a s.live, content := Function.update s.content a [] }

def freshAddr (s : State n Tid Pid Obj) : Addr := s.live.sup id + 1

theorem freshAddr_notMem (s : State n Tid Pid Obj) : s.freshAddr ∉ s.live := by
  intro hmem
  have hle : s.freshAddr ≤ s.live.sup id := Finset.le_sup (f := id) hmem
  exact Nat.not_succ_le_self _ hle

def setWorker [DecidableEq Tid] (s : State n Tid Pid Obj) (t : Tid) (pc : WorkerPc n Obj) :
    State n Tid Pid Obj :=
  { s with worker := Function.update s.worker t pc }

def setPoster [DecidableEq Pid] (s : State n Tid Pid Obj) (p : Pid) (pc : PostPc n Obj) :
    State n Tid Pid Obj :=
  { s with poster := Function.update s.poster p pc }

def initSlot (s : State n Tid Pid Obj) (i : Fin n) : State n Tid Pid Obj :=
  let a := s.freshAddr
  let s₁ := s.newQue a
  let s₂ := { s₁ with globalQue := Function.update s₁.globalQue i (some a) }
  let b := s₂.freshAddr
  let s₃ := s₂.newQue b
  { s₃ with waitQue := s₃.waitQue ++ [some b] }

end State

def initializeContext (n : ℕ) : State n Tid Pid Obj :=
  (List.finRange n).foldl State.initSlot construct

variable [DecidableEq Tid] [DecidableEq Pid] [NeZero n]

def slotIndex (counter : ℕ) : Fin n := Fin.ofNat n counter

namespace State

variable (s : State n Tid Pid Obj) (t : Tid)

def swapIndex (localQue : Option Addr) : State n Tid Pid Obj :=
  { s.setWorker t (.load localQue (slotIndex s.swapCounter)) with
    swapCounter := (s.swapCounter + 1) % 2 ^ 32 }

/-- `compare_exchange_strong(expect, _localQue)`: a failure reloads `expect`. -/
def exchange (localQue : Option Addr) (i : Fin n) (expect : Option Addr) : State n Tid Pid Obj :=
  if s.globalQue i = expect then
    { s.setWorker t (.push localQue expect) with
      globalQue := Function.update s.globalQue i localQue }
  else s.setWorker t (.exchange localQue i (s.globalQue i))

def push (localQue expect : Option Addr) : State n Tid Pid Obj :=
  { s.setWorker t (.pop localQue) with waitQue := s.waitQue ++ [expect] }

/-- `_waitQue.Pop(_localQue)`: a failure leaves `_localQue` and skips the drain. -/
def pop (localQue : Option Addr) : State n Tid Pid Obj :=
  match s.waitQue with
  | [] => s.setWorker t (.top localQue)
  | q :: rest => { s.setWorker t (.drain q 0) with waitQue := rest }

/-- `_que.Pop(currentExecutor)` and the test of the handle; the empty queue ends the drain. -/
def popObject (a : Addr) (count : ℕ) : State n Tid Pid Obj :=
  match s.content a with
  | [] =>
    { s.setWorker t (.top (some a)) with
      executor := Function.update s.executor t none
      executeTaskCounter := if count > 0 then s.executeTaskCounter + count
        else s.executeTaskCounter }
  | none :: rest =>
    { s with
      content := Function.update s.content a rest
      executor := Function.update s.executor t none }
  | some obj :: rest =>
    { s.setWorker t (.execute (some a) count) with
      content := Function.update s.content a rest
      executor := Function.update s.executor t (some obj) }

end State

def step (s : State n Tid Pid Obj) : Label Tid Pid Obj → Option (State n Tid Pid Obj)
  | .enter t a =>
    match s.worker t with
    | .outside => if a ∈ s.live then none else some ((s.newQue a).setWorker t (.top (some a)))
    | _ => none
  | .testStop t =>
    match s.worker t with
    | .top localQue =>
      if s.stop then some (s.setWorker t (.stopped localQue))
      else if localQue = none then some (s.setWorker t .outside)
      else some (s.setWorker t (.swapIndex localQue))
    | _ => none
  | .swapIndex t =>
    match s.worker t with
    | .swapIndex localQue => some (s.swapIndex t localQue)
    | _ => none
  | .load t =>
    match s.worker t with
    | .load localQue i => some (s.setWorker t (.exchange localQue i (s.globalQue i)))
    | _ => none
  | .exchange t =>
    match s.worker t with
    | .exchange localQue i expect => some (s.exchange t localQue i expect)
    | _ => none
  | .push t =>
    match s.worker t with
    | .push localQue expect => some (s.push t localQue expect)
    | _ => none
  | .pop t =>
    match s.worker t with
    | .pop localQue => some (s.pop t localQue)
    | _ => none
  | .popObject t =>
    -- draining a null pointer has no meaning and no step
    match s.worker t with
    | .drain (some a) count => some (s.popObject t a count)
    | _ => none
  | .objectRuns t executed =>
    match s.worker t with
    | .execute localQue count => some (s.setWorker t (.drain localQue (count + executed)))
    | _ => none
  | .objectThrows t =>
    -- caught in `Run`; `_executeTaskCounter` and the executor stay as they are
    match s.worker t with
    | .execute localQue _ => some (s.setWorker t (.top localQue))
    | _ => none
  | .delete t =>
    match s.worker t with
    | .stopped none => some (s.setWorker t .outside)
    | .stopped (some a) => some { s.setWorker t .outside with live := s.live.erase a }
    | _ => none
  | .post p obj =>
    match s.poster p with
    | .idle =>
      some { s.setPoster p (.load (slotIndex s.globalCounter) obj) with
        globalCounter := (s.globalCounter + 1) % 2 ^ 32 }
    | _ => none
  | .postLoad p =>
    match s.poster p with
    | .load i obj => some (s.setPoster p (.push (s.globalQue i) obj))
    | _ => none
  | .postPush p =>
    match s.poster p with
    | .push (some a) obj =>
      some { s.setPoster p .idle with
        content := Function.update s.content a (s.content a ++ [obj]) }
    | _ => none
  | .stop => some { s with stop := true }

end Bugat.Context
