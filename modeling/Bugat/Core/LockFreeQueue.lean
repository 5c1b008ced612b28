import Mathlib
import Bugat.Core.LockFreeMemory
import Bugat.Lib.Threads

/-!
# LockFreeQueue with any number of threads

Each load, store and compare-exchange of `Push`, `Pop` and the two functions of
`freelist_stack` is a step, and so are the construction and the destruction of a node.
The program counter of a thread holds the local variables that are live there. A value
enters the queue together with the ticket of the `Push` that brings it, so that equal
values of different calls can be told apart.
-/

namespace Bugat.LockFree.Queue

variable {α Tid : Type*}

/-- A pushed value. `after` is the number of `Push` calls that had returned when the one
with this ticket was made. -/
structure Item (α : Type*) where
  ticket : ℕ
  after : ℕ
  value : α
  deriving DecidableEq, Repr

/-- A tagged pointer in a local variable, with the number of times that the word it was
loaded from had been moved by then. The number is not part of the code. -/
structure Seen where
  word : TaggedPtr
  moves : ℕ
  deriving DecidableEq, Repr

structure Miss where
  since : ℕ
  emptyAt : ℕ
  deriving DecidableEq, Repr

/-- The memory and the history of the calls. `linked` and `popped` list the values in the
order in which their nodes enter and leave the chain, `called` and `pushed` the calls and
the returns of `Push`, `returned` the outputs of `Pop`. `tailMoves` and `topMoves` count the
exchanges that give `_tail` and `_top` a new tag, `clock` counts the steps. -/
structure Shared (α : Type*) where
  mem : Memory (Item α)
  tailMoves : ℕ
  topMoves : ℕ
  called : List (Item α)
  linked : List (Item α)
  pushed : List (Item α)
  popped : List (Option (Item α))
  returned : List (Option (Item α))
  misses : List Miss
  clock : ℕ
  emptyAt : ℕ

def Shared.init (a : Addr) : Shared α := ⟨Memory.construct a, 0, 0, [], [], [], [], [], [], 0, 0⟩

/-- What a thread does next. `Push` runs `freelist_stack::allocate` from `allocTop` to
`allocCas` and `InternalPush` from `loadTail`; `Pop` runs `freelist_stack::destruct` from
`destroy` on. `_head` and `_top` are exchanged by `popSwap`, `allocCas` and `freeCas`. -/
inductive Pc (α : Type*)
  | idle
  | allocTop (x : Item α)
  | allocNew (x : Item α)
  | allocNext (x : Item α) (top : Seen)
  | allocCas (x : Item α) (top : Seen) (next : Addr)
  | construct (x : Item α) (node : Addr)
  | loadTail (x : Item α) (node : Addr)
  | loadNext (x : Item α) (node : Addr) (tail : Seen)
  | checkTail (x : Item α) (node : Addr) (tail : Seen) (next : TaggedPtr)
  | link (x : Item α) (node : Addr) (tail : Seen)
  | help (x : Item α) (node : Addr) (tail : Seen) (next : TaggedPtr)
  | swing (x : Item α) (node : Addr) (tail : Seen)
  | addSize (x : Item α)
  | popTail (since : ℕ)
  | popHead (since : ℕ) (tail : Seen)
  | popNext (since : ℕ) (tail head : Seen)
  | popCheck (since : ℕ) (tail head : Seen) (next : TaggedPtr)
  | popHelp (since : ℕ) (tail : Seen) (next : TaggedPtr)
  | popValue (since : ℕ) (head : Seen) (next : TaggedPtr)
  | popSwap (since : ℕ) (head : Seen) (next : TaggedPtr) (value : Option (Item α))
  | subSize (value : Option (Item α)) (node : Addr)
  | destroy (value : Option (Item α)) (node : Addr)
  | freeTop (value : Option (Item α)) (node : Addr)
  | freeWrite (value : Option (Item α)) (node : Addr) (top : TaggedPtr)
  | freeCas (value : Option (Item α)) (node : Addr) (top : TaggedPtr)
  deriving DecidableEq

/-- `go` takes the next step, with a compare-exchange that fails spuriously when the flag
is set; `fresh a` is `Alloc::allocate` returning `a`. -/
inductive Action (α : Type*)
  | push (v : α)
  | pop
  | go (spurious : Bool)
  | fresh (a : Addr)

namespace Shared

variable (u : Shared α)

def call (v : α) : Item α := ⟨u.called.length, u.pushed.length, v⟩

def seeHead : Seen := ⟨u.mem.head, u.popped.length⟩
def seeTail : Seen := ⟨u.mem.tail, u.tailMoves⟩
def seeTop : Seen := ⟨u.mem.top, u.topMoves⟩

def allocWith (x : Item α) : Pc α :=
  if u.mem.top.ptr = 0 then .allocNew x else .allocNext x u.seeTop

def swingTail (tail : Seen) (ptr : Addr) (spurious : Bool) : Shared α :=
  if u.mem.tail = tail.word ∧ spurious = false then
    { u with mem := u.mem.moveTail ptr, tailMoves := u.tailMoves + 1 }
  else u

/-- The clock after a step, and the time at which the queue was last seen empty. -/
def tick : Shared α :=
  { u with
    clock := u.clock + 1
    emptyAt := if u.mem.content = [] then u.clock + 1 else u.emptyAt }

end Shared

def advancePush (u : Shared α) (spurious : Bool) : Pc α → Option (Shared α × Pc α)
  | .allocTop x => some (u, u.allocWith x)
  | .allocNext x top => some (u, .allocCas x top (u.mem.next top.word.ptr).ptr)
  | .allocCas x top next =>
    if u.mem.top = top.word ∧ spurious = false then
      some ({ u with mem := u.mem.takeTop next, topMoves := u.topMoves + 1 },
        .construct x top.word.ptr)
    else some (u, u.allocWith x)
  | .construct x node => some ({ u with mem := u.mem.constructNode node x }, .loadTail x node)
  | .loadTail x node => some (u, .loadNext x node u.seeTail)
  | .loadNext x node tail => some (u, .checkTail x node tail (u.mem.next tail.word.ptr))
  | .checkTail x node tail next =>
    some (u,
      if u.mem.tail = tail.word then
        if next = nullHandle then .link x node tail else .help x node tail next
      else .loadTail x node)
  | .link x node tail =>
    if u.mem.next tail.word.ptr = nullHandle ∧ spurious = false then
      some ({ u with
        mem := u.mem.setNext tail.word.ptr ⟨node, tail.word.tag⟩
        linked := u.linked ++ [x] }, .swing x node tail)
    else some (u, .loadTail x node)
  | .help x node tail next => some (u.swingTail tail next.ptr spurious, .loadTail x node)
  | .swing x node tail => some (u.swingTail tail node spurious, .addSize x)
  | .addSize x => some ({ u with mem := u.mem.addSize 1, pushed := u.pushed ++ [x] }, .idle)
  | _ => none

def advancePop (u : Shared α) (spurious : Bool) : Pc α → Option (Shared α × Pc α)
  | .popTail since => some (u, .popHead since u.seeTail)
  | .popHead since tail => some (u, .popNext since tail u.seeHead)
  | .popNext since tail head => some (u, .popCheck since tail head (u.mem.next head.word.ptr))
  | .popCheck since tail head next =>
    if u.mem.head = head.word then
      if head.word.ptr = tail.word.ptr then
        if next = nullHandle then
          some ({ u with misses := u.misses ++ [⟨since, u.emptyAt⟩] }, .idle)
        else some (u, .popHelp since tail next)
      else some (u, if next = nullHandle then .popTail since else .popValue since head next)
    else some (u, .popTail since)
  | .popHelp since tail next => some (u.swingTail tail next.ptr spurious, .popTail since)
  | .popValue since head next => some (u, .popSwap since head next (u.mem.value next.ptr))
  | .popSwap since head next value =>
    if u.mem.head = head.word ∧ spurious = false then
      some ({ u with mem := u.mem.moveHead next.ptr, popped := u.popped ++ [value] },
        .subSize value head.word.ptr)
    else some (u, .popTail since)
  | .subSize value node => some ({ u with mem := u.mem.addSize (-1) }, .destroy value node)
  | .destroy value node => some ({ u with mem := u.mem.setValue node none }, .freeTop value node)
  | .freeTop value node => some (u, .freeWrite value node u.mem.top)
  | .freeWrite value node top =>
    some ({ u with mem := u.mem.setNext node ⟨top.ptr, 0⟩ }, .freeCas value node top)
  | .freeCas value node top =>
    if u.mem.top = top ∧ spurious = false then
      some ({ u with mem := u.mem.giveTop node, returned := u.returned ++ [value] }, .idle)
    else some (u, .freeWrite value node u.mem.top)
  | _ => none

def advance (u : Shared α) : Pc α → Action α → Option (Shared α × Pc α)
  | .idle, .push v => some ({ u with called := u.called ++ [u.call v] }, .allocTop (u.call v))
  | .idle, .pop => some (u, .popTail u.clock)
  | .allocNew x, .fresh a =>
    if a = 0 ∨ a ∈ u.mem.allocated then none
    else some ({ u with mem := u.mem.allocate a }, .construct x a)
  | pc, .go spurious => (advancePush u spurious pc).orElse fun _ => advancePop u spurious pc
  | _, _ => none

def act (u : Shared α) (pc : Pc α) (a : Action α) : Option (Shared α × Pc α) :=
  (advance u pc a).map fun q => (q.1.tick, q.2)

abbrev State (α Tid : Type*) := Threads.System (Shared α) (Pc α) Tid

def init (a : Addr) : State α Tid := ⟨Shared.init a, fun _ => .idle⟩

abbrev step [DecidableEq Tid] : State α Tid → Tid × Action α → Option (State α Tid) :=
  Threads.step act

end Bugat.LockFree.Queue
