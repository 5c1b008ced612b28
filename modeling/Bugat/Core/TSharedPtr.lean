import Mathlib
import Bugat.Lib.MachineInt
import Bugat.Lib.Threads

/-!
# TSharedPtr: handles that count the references to an object

Any number of threads operate on handles. Each `fetch_add` and `fetch_sub` of a
`_refCount` is one step together with the accesses to the thread's own handles around it.
A handle is a variable, sits in the deleter of a `std::shared_ptr`, or is a field of an
object, which ends with the object. The last `Reset` runs the deleter or `delete` before it
clears its own handle; the operations that are open in a thread form a stack, because the
destructor of an object destroys its fields and may use other handles.
-/

namespace Bugat.TSharedPtr

open MachineInt (wrap32 int32Max)

variable {Hdl Obj Tid : Type*}

inductive Status
  | unborn
  | alive
  | dropped
  | freed
  deriving DecidableEq, Repr

/-- `home` is the object that a handle is a field of, `copies` the number of copies of the
`std::shared_ptr` whose deleter holds it. `deleted` lists the runs of `delete` and of the
deleters, the latter marked `true`. `counted` is the object whose `_refCount` includes the
handle; it is not part of the code. -/
structure Shared (Hdl Obj : Type*) where
  live : Finset Hdl
  home : Hdl → Option Obj
  ptr : Hdl → Option Obj
  copies : Hdl → ℕ
  refCount : Obj → ℤ
  deleter : Obj → Bool
  status : Obj → Status
  deleted : List (Obj × Bool)
  counted : Hdl → Option Obj

def Shared.init : Shared Hdl Obj :=
  ⟨∅, fun _ => none, fun _ => none, fun _ => 0, fun _ => 0, fun _ => false, fun _ => .unborn, [],
    fun _ => none⟩

inductive After (Hdl : Type*)
  | done
  | acquire (src : Hdl)
  | share (src : Hdl)
  | steal (src : Hdl)
  | kill
  deriving DecidableEq, Repr

/-- An open operation. `reset` is in front of the `fetch_sub` of `Reset`, `clear` in front of
its `_ptr = nullptr`, `finish` behind it. `drop` is in front of the deleter or `delete`,
`body` in the destructor of the object, `fields` behind it. -/
inductive Frame (Hdl Obj : Type*)
  | reset (h : Hdl) (after : After Hdl)
  | clear (h : Hdl) (after : After Hdl)
  | finish (h : Hdl) (after : After Hdl)
  | drop (o : Obj)
  | body (o : Obj)
  | fields (o : Obj)
  deriving DecidableEq, Repr

abbrev Stack (Hdl Obj : Type*) := List (Frame Hdl Obj)

inductive Op (Hdl Obj : Type*)
  | create (h : Hdl) (home : Option Obj) (o : Obj) (deleter : Bool)
  | null (h : Hdl) (home : Option Obj)
  | fromRaw (h : Hdl) (home : Option Obj) (holder : Hdl)
  | copy (h : Hdl) (home : Option Obj) (other : Hdl)
  | convert (h : Hdl) (home : Option Obj) (other : Hdl)
  | move (h : Hdl) (home : Option Obj) (other : Hdl)
  | destroy (h : Hdl)
  | reset (h : Hdl)
  | assignNull (h : Hdl)
  | copyAssign (h other : Hdl)
  | moveAssign (h other : Hdl)
  | convertAssign (h other : Hdl)
  | toSharedPtr (closure h : Hdl)
  | sharedCopy (closure : Hdl)
  | sharedDrop (closure : Hdl)
  deriving DecidableEq, Repr

inductive Action (Hdl Obj : Type*)
  | call (op : Op Hdl Obj)
  | go
  | field (h : Hdl)
  deriving DecidableEq, Repr

def After.uses : After Hdl → List Hdl
  | .acquire src | .share src | .steal src => [src]
  | .done | .kill => []

def After.kills (h : Hdl) : After Hdl → Option Hdl
  | .kill => some h
  | .done | .acquire _ | .share _ | .steal _ => none

def After.adds : After Hdl → Option Hdl
  | .acquire src | .share src => some src
  | .done | .steal _ | .kill => none

def Frame.held : Frame Hdl Obj → List Hdl
  | .reset h _ | .clear h _ | .finish h _ => [h]
  | .drop _ | .body _ | .fields _ => []

def Frame.sources : Frame Hdl Obj → List Hdl
  | .reset _ after | .clear _ after | .finish _ after => after.uses
  | .drop _ | .body _ | .fields _ => []

def Frame.uses (f : Frame Hdl Obj) : List Hdl := f.held ++ f.sources

def Frame.kills : Frame Hdl Obj → Option Hdl
  | .reset h after | .clear h after | .finish h after => after.kills h
  | .drop _ | .body _ | .fields _ => none

def Frame.adds : Frame Hdl Obj → Option Hdl
  | .finish _ after => after.adds
  | _ => none

def Frame.objs : Frame Hdl Obj → List Obj
  | .drop o | .body o | .fields o => [o]
  | _ => []

def Op.uses : Op Hdl Obj → List Hdl
  | .create _ _ _ _ | .null _ _ | .sharedCopy _ => []
  | .fromRaw _ _ holder => [holder]
  | .copy _ _ other | .convert _ _ other | .move _ _ other => [other]
  | .destroy h | .reset h | .assignNull h => [h]
  | .copyAssign h other | .moveAssign h other | .convertAssign h other => [h, other]
  | .toSharedPtr _ h => [h]
  | .sharedDrop closure => [closure]

def Op.kills : Op Hdl Obj → Option Hdl
  | .destroy h | .sharedDrop h => some h
  | _ => none

def Action.uses : Action Hdl Obj → List Hdl
  | .call op => op.uses
  | .go => []
  | .field h => [h]

def Action.kills : Action Hdl Obj → Option Hdl
  | .call op => op.kills
  | .go => none
  | .field h => some h

def uses (st : Stack Hdl Obj) : List Hdl := st.flatMap Frame.uses

def objs (st : Stack Hdl Obj) : List Obj := st.flatMap Frame.objs

/-- A thread may call an operation when none is open, and from the body of a destructor. -/
def mayCall : Stack Hdl Obj → Bool
  | [] => true
  | .body _ :: _ => true
  | _ => false

variable [DecidableEq Hdl] [DecidableEq Obj]

namespace Shared

variable (u : Shared Hdl Obj)

def Usable (h : Hdl) : Prop := h ∈ u.live ∧ u.copies h = 0

instance (h : Hdl) : Decidable (u.Usable h) := inferInstanceAs (Decidable (_ ∧ _))

def Constructible (h : Hdl) (home : Option Obj) : Prop :=
  h ∉ u.live ∧ ∀ o ∈ home, u.status o = .alive

instance (h : Hdl) (home : Option Obj) : Decidable (u.Constructible h home) :=
  inferInstanceAs (Decidable (_ ∧ _))

def begin (h : Hdl) (home : Option Obj) : Shared Hdl Obj :=
  { u with
    live := insert h u.live
    home := Function.update u.home h home
    ptr := Function.update u.ptr h none
    copies := Function.update u.copies h 0
    counted := Function.update u.counted h none }

def addRefCount (h : Hdl) (o : Obj) : Shared Hdl Obj :=
  { u with
    refCount := Function.update u.refCount o (wrap32 (u.refCount o + 1))
    counted := Function.update u.counted h (some o) }

def subRefCount (h : Hdl) (o : Obj) : Shared Hdl Obj :=
  { u with
    refCount := Function.update u.refCount o (wrap32 (u.refCount o - 1))
    counted := Function.update u.counted h none }

def setPtr (h : Hdl) (p : Option Obj) : Shared Hdl Obj :=
  { u with ptr := Function.update u.ptr h p }

def create (h : Hdl) (home : Option Obj) (o : Obj) (deleter : Bool) : Shared Hdl Obj :=
  let u₁ : Shared Hdl Obj :=
    { u.begin h home with
      refCount := Function.update u.refCount o 0
      status := Function.update u.status o .alive
      deleter := Function.update u.deleter o deleter }
  (u₁.setPtr h (some o)).addRefCount h o

def acquire (h other : Hdl) : Shared Hdl Obj :=
  match u.ptr other with
  | none => u.setPtr h none
  | some o => (u.setPtr h (some o)).addRefCount h o

def steal (h other : Hdl) : Shared Hdl Obj :=
  { u with
    ptr := Function.update (Function.update u.ptr h (u.ptr other)) other none
    counted := Function.update (Function.update u.counted h (u.counted other)) other none }

def setCopies (closure : Hdl) (n : ℕ) : Shared Hdl Obj :=
  { u with copies := Function.update u.copies closure n }

def kill (h : Hdl) : Shared Hdl Obj := { u with live := u.live.erase h }

def drop (o : Obj) : Shared Hdl Obj :=
  { u with
    status := Function.update u.status o .dropped
    deleted := u.deleted ++ [(o, u.deleter o)] }

def free (o : Obj) : Shared Hdl Obj :=
  { u with status := Function.update u.status o .freed }

def finish (h : Hdl) : After Hdl → Shared Hdl Obj
  | .done => u
  | .acquire src => u.acquire h src
  | .share src => (u.acquire h src).setCopies h 1
  | .steal src => u.steal h src
  | .kill => u.kill h

end Shared

def resetStep (u : Shared Hdl Obj) (h : Hdl) (after : After Hdl) (rest : Stack Hdl Obj) :
    Shared Hdl Obj × Stack Hdl Obj :=
  match u.ptr h with
  | none => (u, .finish h after :: rest)
  | some o =>
    (u.subRefCount h o,
      if u.refCount o = 1 then .drop o :: .clear h after :: rest else .clear h after :: rest)

def go (u : Shared Hdl Obj) : Stack Hdl Obj → Option (Shared Hdl Obj × Stack Hdl Obj)
  | [] => none
  | .reset h after :: rest => some (resetStep u h after rest)
  | .clear h after :: rest => some (u.setPtr h none, .finish h after :: rest)
  | .finish h after :: rest => some (u.finish h after, rest)
  | .drop o :: rest => some (u.drop o, .body o :: rest)
  | .body o :: rest => some (u, .fields o :: rest)
  | .fields o :: rest => if ∀ h ∈ u.live, u.home h ≠ some o then some (u.free o, rest) else none

def construct (u : Shared Hdl Obj) (st : Stack Hdl Obj) (h : Hdl) (home : Option Obj)
    (after : After Hdl) : Option (Shared Hdl Obj × Stack Hdl Obj) :=
  if u.Constructible h home then some (u.begin h home, .finish h after :: st) else none

def call (u : Shared Hdl Obj) (st : Stack Hdl Obj) :
    Op Hdl Obj → Option (Shared Hdl Obj × Stack Hdl Obj)
  | .create h home o deleter =>
    if u.Constructible h home ∧ u.status o = .unborn then some (u.create h home o deleter, st)
    else none
  | .null h home => if u.Constructible h home then some (u.begin h home, st) else none
  | .fromRaw h home holder => construct u st h home (.acquire holder)
  | .copy h home other => construct u st h home (.acquire other)
  | .convert h home other => construct u st h home (.acquire other)
  | .move h home other => construct u st h home (.steal other)
  | .destroy h => some (u, .reset h .kill :: st)
  | .reset h => some (u, .reset h .done :: st)
  | .assignNull h => some (u, .reset h .done :: st)
  | .copyAssign h other =>
    some (u, if h = other then st
      else if u.ptr h ≠ u.ptr other then .reset h (.acquire other) :: st else st)
  | .moveAssign h other => some (u, if h = other then st else .reset h (.steal other) :: st)
  | .convertAssign h other =>
    some (u, if u.ptr h ≠ u.ptr other then .reset h (.acquire other) :: st else st)
  | .toSharedPtr closure h =>
    if u.ptr h = none then some (u, st) else construct u st closure none (.share h)
  | .sharedCopy closure =>
    if 0 < u.copies closure then some (u.setCopies closure (u.copies closure + 1), st) else none
  | .sharedDrop closure =>
    -- the last copy calls the deleter, `sptr.Reset()`, and destroys it
    match u.copies closure with
    | 0 => none
    | 1 => some (u.setCopies closure 0, .reset closure .kill :: st)
    | n + 2 => some (u.setCopies closure (n + 1), st)

def Op.usable (u : Shared Hdl Obj) : Op Hdl Obj → Prop
  | .sharedCopy closure | .sharedDrop closure => closure ∈ u.live
  | op => ∀ h ∈ op.uses, u.Usable h

instance (u : Shared Hdl Obj) (op : Op Hdl Obj) : Decidable (op.usable u) := by
  unfold Op.usable
  split <;> infer_instance

def act (u : Shared Hdl Obj) (st : Stack Hdl Obj) :
    Action Hdl Obj → Option (Shared Hdl Obj × Stack Hdl Obj)
  | .call op => if mayCall st ∧ op.usable u then call u st op else none
  | .go => go u st
  | .field h =>
    match st with
    | .fields o :: _ =>
      if h ∈ u.live ∧ u.home h = some o then some (u, .reset h .kill :: st) else none
    | _ => none

/-- The next step of the thread does not add to a count of `INT_MAX`. -/
def NoOverflow (u : Shared Hdl Obj) (st : Stack Hdl Obj) : Prop :=
  ∀ f ∈ st.head?, ∀ src ∈ f.adds, ∀ o ∈ u.ptr src, u.refCount o < int32Max

instance (u : Shared Hdl Obj) (st : Stack Hdl Obj) : Decidable (NoOverflow u st) :=
  inferInstanceAs (Decidable (∀ _, _))

abbrev State (Hdl Obj Tid : Type*) := Threads.System (Shared Hdl Obj) (Stack Hdl Obj) Tid

def init : State Hdl Obj Tid := ⟨Shared.init, fun _ => []⟩

variable [Fintype Tid] [DecidableEq Tid]

def OwnHandles (s : State Hdl Obj Tid) (t : Tid) (a : Action Hdl Obj) : Prop :=
  ∀ v, v ≠ t → ∀ h ∈ a.uses, h ∉ uses (s.thread v)

instance (s : State Hdl Obj Tid) (t : Tid) (a : Action Hdl Obj) : Decidable (OwnHandles s t a) :=
  inferInstanceAs (Decidable (∀ _, _))

def step (s : State Hdl Obj Tid) (l : Tid × Action Hdl Obj) : Option (State Hdl Obj Tid) :=
  if OwnHandles s l.1 l.2 then Threads.step act s l else none

end Bugat.TSharedPtr
