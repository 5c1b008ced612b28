import Mathlib
import Bugat.Core.LockFreeQueueSteps

/-!
# The free list by itself

`freelist_stack` with any number of threads that construct and destruct blocks. A step
is a load or an exchange of `_top`, or an access to the first word of a block, which is
the link of the free list while the block is on it and belongs to the owner otherwise.
A thread that has read `_top` may read the word of a block that another thread owns by
then; the tag is what makes its exchange fail.
-/

namespace Bugat.LockFree.FreeList

open LinkedChain (follow)
open Memory (start)
open Queue (Seen Within)

/-- `next` is the first word of each block, `allocated` lists what `Alloc::allocate` has
returned, and `moves` counts the exchanges that have taken a block from the list. -/
structure Shared where
  next : Addr → TaggedPtr
  top : TaggedPtr
  allocated : List Addr
  moves : ℕ

def Shared.init (next : Addr → TaggedPtr) : Shared := ⟨next, nullHandle, [], 0⟩

inductive Pc
  | idle
  | allocTop
  | allocNew
  | allocNext (top : Seen)
  | allocCas (top : Seen) (next : Addr)
  | freeTop (node : Addr)
  | freeWrite (node : Addr) (top : TaggedPtr)
  | freeCas (node : Addr) (top : TaggedPtr)
  deriving DecidableEq, Repr

structure Owner where
  pc : Pc
  owned : List Addr
  deriving DecidableEq, Repr

inductive Action
  | construct
  | destruct (node : Addr)
  | write (node : Addr) (word : TaggedPtr)
  | go (spurious : Bool)
  | fresh (a : Addr)

namespace Shared

variable (u : Shared)

def link (a : Addr) : Option Addr := start (u.next a)

def list : List Addr := follow u.link u.allocated.length (start u.top)

def setNext (a : Addr) (p : TaggedPtr) : Shared := { u with next := Function.update u.next a p }

def seeTop : Seen := ⟨u.top, u.moves⟩

def allocWith : Pc := if u.top.ptr = 0 then .allocNew else .allocNext u.seeTop

def takeTop (next : Addr) : Shared := { u with top := ⟨next, u.top.nextTag⟩, moves := u.moves + 1 }

def giveTop (node : Addr) : Shared := { u with top := ⟨node, u.top.tag⟩ }

def allocate (a : Addr) : Shared :=
  { u with next := Function.update u.next a nullHandle, allocated := a :: u.allocated }

end Shared

def advance (u : Shared) (o : Owner) (spurious : Bool) : Option (Shared × Owner) :=
  match o.pc with
  | .allocTop => some (u, { o with pc := u.allocWith })
  | .allocNext top => some (u, { o with pc := .allocCas top (u.next top.word.ptr).ptr })
  | .allocCas top next =>
    if u.top = top.word ∧ spurious = false then
      some (u.takeTop next, ⟨.idle, top.word.ptr :: o.owned⟩)
    else some (u, { o with pc := u.allocWith })
  | .freeTop node => some (u, { o with pc := .freeWrite node u.top })
  | .freeWrite node top => some (u.setNext node ⟨top.ptr, 0⟩, { o with pc := .freeCas node top })
  | .freeCas node top =>
    if u.top = top ∧ spurious = false then
      some (u.giveTop node, ⟨.idle, o.owned.erase node⟩)
    else some (u, { o with pc := .freeWrite node u.top })
  | _ => none

def act (u : Shared) (o : Owner) : Action → Option (Shared × Owner)
  | .construct => if o.pc = .idle then some (u, { o with pc := .allocTop }) else none
  | .destruct node =>
    if o.pc = .idle ∧ node ∈ o.owned then some (u, { o with pc := .freeTop node }) else none
  | .write node word =>
    if o.pc = .idle ∧ node ∈ o.owned then some (u.setNext node word, o) else none
  | .go spurious => advance u o spurious
  | .fresh a =>
    if o.pc = .allocNew ∧ a ≠ 0 ∧ a ∉ u.allocated then
      some (u.allocate a, ⟨.idle, a :: o.owned⟩)
    else none

abbrev State (Tid : Type*) := Threads.System Shared Owner Tid

def init {Tid : Type*} (next : Addr → TaggedPtr) : State Tid :=
  ⟨Shared.init next, fun _ => ⟨.idle, []⟩⟩

abbrev step {Tid : Type*} [DecidableEq Tid] : State Tid → Tid × Action → Option (State Tid) :=
  Threads.step act

/-- Fewer blocks were taken from the list than there are tags between the load of `_top` and
the exchange that follows it. -/
def InWindow (u : Shared) (o : Owner) : Action → Prop
  | .go _ =>
    match o.pc with
    | .allocCas top _ => Within u.moves top.moves
    | _ => True
  | _ => True

end Bugat.LockFree.FreeList
