import Mathlib
import Bugat.Lib.MachineInt
import Bugat.Lib.Transition

/-!
# TSharedPtr: the address that a deleter receives

A pointer to an object is an address of one of its base subobjects, and a conversion between
pointer types moves it by an offset. The handle that releases an object hands its own pointer
to the deleter as a `void*`, and the deleter casts it back to the type it was registered for.
Here each operation is one step; what several threads do to the count is another module's.
-/

namespace Bugat.TSharedPtrDeleter

open MachineInt (wrap32 int32Max)

/-- The classes of a program, with the offset of each base subobject in a derived object. A
base that two paths lead to is not ambiguous. -/
structure Layout (C : Type*) where
  isBaseOf : C → C → Bool
  offset : C → C → ℤ
  refCountable : C
  refl : ∀ D, isBaseOf D D = true
  trans : ∀ B D K, isBaseOf B D = true → isBaseOf D K = true → isBaseOf B K = true
  offset_self : ∀ D, offset D D = 0
  offset_trans : ∀ B D K, isBaseOf B D = true → isBaseOf D K = true →
    offset K B = offset K D + offset D B

variable {Hdl C : Type*}

structure Handle (C : Type*) where
  ty : C
  ptr : Option ℤ
  deriving DecidableEq, Repr

structure Deleter (C : Type*) where
  ty : C
  number : ℕ
  deriving DecidableEq, Repr

structure Cell (C : Type*) where
  complete : C
  addr : ℤ
  refCount : ℤ
  deleter : Option (Deleter C)
  deriving DecidableEq, Repr

/-- `cells` holds the `RefCountable` of each object at its address until the object is released,
`registered` the address that each deleter was registered with, `calls` the calls of deleters
with the addresses they received. -/
structure Heap (Hdl C : Type*) where
  live : Finset Hdl
  handle : Hdl → Handle C
  cells : ℤ → Option (Cell C)
  registered : List ℤ
  calls : List (ℕ × ℤ)

inductive Op (Hdl C : Type*)
  | create (h : Hdl) (complete T : C) (addr : ℤ) (deleter : Bool)
  | null (h : Hdl) (T : C)
  | copy (h other : Hdl)
  | move (h other : Hdl)
  | convert (h : Hdl) (T : C) (other : Hdl)
  | staticPointerCast (h : Hdl) (T : C) (other : Hdl)
  | destroy (h : Hdl)
  | assignNull (h : Hdl)
  | copyAssign (h other : Hdl)
  | moveAssign (h other : Hdl)
  | convertAssign (h other : Hdl)
  deriving DecidableEq, Repr

namespace Layout

variable (L : Layout C)

def upcast (D B : C) (p : Option ℤ) : Option ℤ := p.map (· + L.offset D B)

/-- `static_cast<T*>` of a pointer to `S`, one of the two being a base of the other. -/
def staticCast (S T : C) (p : Option ℤ) : Option ℤ :=
  if L.isBaseOf T S then L.upcast S T p else p.map (· - L.offset T S)

def refPtr (H : Handle C) : Option ℤ := L.upcast H.ty L.refCountable H.ptr

end Layout

section Operations

variable [DecidableEq Hdl] (L : Layout C)

def Heap.init : Heap Hdl C := ⟨∅, fun _ => ⟨L.refCountable, none⟩, fun _ => none, [], []⟩

namespace Heap

variable (s : Heap Hdl C)

def declare (h : Hdl) (T : C) : Heap Hdl C :=
  { s with
    live := insert h s.live
    handle := Function.update s.handle h ⟨T, none⟩ }

def setPtr (h : Hdl) (p : Option ℤ) : Heap Hdl C :=
  { s with handle := Function.update s.handle h { s.handle h with ptr := p } }

def setCell (r : ℤ) (c : Option (Cell C)) : Heap Hdl C :=
  { s with cells := Function.update s.cells r c }

def addRef (h : Hdl) : Option (Heap Hdl C) :=
  match L.refPtr (s.handle h) with
  | none => some s
  | some r => (s.cells r).map fun c =>
    s.setCell r (some { c with refCount := wrap32 (c.refCount + 1) })

def acquire (h : Hdl) (p : Option ℤ) : Option (Heap Hdl C) := (s.setPtr h p).addRef L h

/-- The call of the deleter of an object, or its `delete`, with the pointer of a handle. -/
def dispose (c : Cell C) (p : ℤ) : Heap Hdl C :=
  match c.deleter with
  | some d => { s with calls := s.calls ++ [(d.number, p)] }
  | none => s

def reset (h : Hdl) : Option (Heap Hdl C) :=
  match (s.handle h).ptr with
  | none => some s
  | some p =>
    let r := p + L.offset (s.handle h).ty L.refCountable
    (s.cells r).map fun c =>
      if c.refCount = 1 then ((s.dispose c p).setCell r none).setPtr h none
      else (s.setCell r (some { c with refCount := wrap32 (c.refCount - 1) })).setPtr h none

def create (h : Hdl) (complete T : C) (addr : ℤ) (deleter : Bool) : Heap Hdl C :=
  let p := addr + L.offset complete T
  let c : Cell C := ⟨complete, addr, 1, if deleter then some ⟨T, s.registered.length⟩ else none⟩
  let s := ((s.declare h T).setPtr h (some p)).setCell (p + L.offset T L.refCountable) (some c)
  if deleter then { s with registered := s.registered ++ [p] } else s

def transfer (h other : Hdl) : Heap Hdl C :=
  (s.setPtr h (s.handle other).ptr).setPtr other none

end Heap

/-- The rules of the language: which handles exist, which conversions there are, and that a
`static_cast` to a derived class is made on an object of this class. -/
def Legal (s : Heap Hdl C) : Op Hdl C → Prop
  | .create h complete T addr _ =>
    h ∉ s.live ∧ L.isBaseOf T complete = true ∧ L.isBaseOf L.refCountable T = true ∧
      (s.cells (addr + L.offset complete L.refCountable)).isNone = true
  | .null h T => h ∉ s.live ∧ L.isBaseOf L.refCountable T = true
  | .copy h other | .move h other => h ∉ s.live ∧ other ∈ s.live
  | .convert h T other => h ∉ s.live ∧ other ∈ s.live ∧
      L.isBaseOf T (s.handle other).ty = true ∧ L.isBaseOf L.refCountable T = true
  | .staticPointerCast h T other => h ∉ s.live ∧ other ∈ s.live ∧
      L.isBaseOf L.refCountable T = true ∧
      (L.isBaseOf T (s.handle other).ty = true ∨ L.isBaseOf (s.handle other).ty T = true ∧
        ∀ r ∈ L.refPtr (s.handle other), ∀ c ∈ s.cells r, L.isBaseOf T c.complete = true)
  | .destroy h | .assignNull h => h ∈ s.live
  | .copyAssign h other | .moveAssign h other =>
    h ∈ s.live ∧ other ∈ s.live ∧ (s.handle h).ty = (s.handle other).ty
  | .convertAssign h other => h ∈ s.live ∧ other ∈ s.live ∧
      L.isBaseOf (s.handle h).ty (s.handle other).ty = true

def Op.resets (s : Heap Hdl C) : Op Hdl C → Option Hdl
  | .destroy h | .assignNull h => some h
  | .copyAssign h other =>
    if h = other ∨ (s.handle h).ptr = (s.handle other).ptr then none else some h
  | .moveAssign h other => if h = other then none else some h
  | .convertAssign h other =>
    if (s.handle h).ptr = L.upcast (s.handle other).ty (s.handle h).ty (s.handle other).ptr then
      none
    else some h
  | _ => none

def Op.counts (s : Heap Hdl C) : Op Hdl C → Option Hdl
  | .copy _ other | .convert _ _ other | .staticPointerCast _ _ other => some other
  | .copyAssign h other => (Op.resets L s (.copyAssign h other)).map fun _ => other
  | .convertAssign h other => (Op.resets L s (.convertAssign h other)).map fun _ => other
  | _ => none

variable [DecidableEq C]

instance (s : Heap Hdl C) : (op : Op Hdl C) → Decidable (Legal L s op)
  | .create _ _ _ _ _ => inferInstanceAs (Decidable (_ ∧ _ ∧ _ ∧ _))
  | .null _ _ => inferInstanceAs (Decidable (_ ∧ _))
  | .copy _ _ | .move _ _ => inferInstanceAs (Decidable (_ ∧ _))
  | .convert _ _ _ => inferInstanceAs (Decidable (_ ∧ _ ∧ _ ∧ _))
  | .staticPointerCast _ _ _ => inferInstanceAs (Decidable (_ ∧ _ ∧ _ ∧ (_ ∨ _ ∧ _)))
  | .destroy _ | .assignNull _ => inferInstanceAs (Decidable (_ ∈ _))
  | .copyAssign _ _ | .moveAssign _ _ | .convertAssign _ _ =>
    inferInstanceAs (Decidable (_ ∧ _ ∧ _))

/-- An operation. A use of a `RefCountable` that is not there has no step. -/
def step (s : Heap Hdl C) (op : Op Hdl C) : Option (Heap Hdl C) :=
  if Legal L s op then
    match op with
    | .create h complete T addr deleter => some (s.create L h complete T addr deleter)
    | .null h T => some (s.declare h T)
    | .copy h other =>
      (s.declare h (s.handle other).ty).acquire L h (s.handle other).ptr
    | .move h other => some ((s.declare h (s.handle other).ty).transfer h other)
    | .convert h T other =>
      (s.declare h T).acquire L h (L.upcast (s.handle other).ty T (s.handle other).ptr)
    | .staticPointerCast h T other =>
      (s.declare h T).acquire L h (L.staticCast (s.handle other).ty T (s.handle other).ptr)
    | .destroy h => (s.reset L h).map fun s => { s with live := s.live.erase h }
    | .assignNull h => s.reset L h
    | .copyAssign h other =>
      match Op.resets L s (.copyAssign h other) with
      | none => some s
      | some _ => (s.reset L h).bind fun s => s.acquire L h (s.handle other).ptr
    | .moveAssign h other =>
      match Op.resets L s (.moveAssign h other) with
      | none => some s
      | some _ => (s.reset L h).map fun s => s.transfer h other
    | .convertAssign h other =>
      match Op.resets L s (.convertAssign h other) with
      | none => some s
      | some _ => (s.reset L h).bind fun s =>
        s.acquire L h (L.upcast (s.handle other).ty (s.handle h).ty (s.handle other).ptr)
  else none

def NoOverflow (s : Heap Hdl C) (op : Op Hdl C) : Prop :=
  ∀ h ∈ op.counts L s, ∀ r ∈ L.refPtr (s.handle h), ∀ c ∈ s.cells r, c.refCount < int32Max

instance (s : Heap Hdl C) (op : Op Hdl C) : Decidable (NoOverflow L s op) :=
  inferInstanceAs (Decidable (∀ h ∈ op.counts L s, ∀ r ∈ L.refPtr (s.handle h),
    ∀ c ∈ s.cells r, c.refCount < int32Max))

/-- If the `Reset` of a handle releases an object with a deleter, the static type of the handle and
the type that the deleter was registered for lie at one address in the object. -/
def AtRegistered (s : Heap Hdl C) (h : Hdl) : Prop :=
  ∀ r ∈ L.refPtr (s.handle h), ∀ c ∈ s.cells r, c.refCount = 1 →
    ∀ d ∈ c.deleter, L.offset c.complete (s.handle h).ty = L.offset c.complete d.ty

def ReleasesAtRegistered (s : Heap Hdl C) (op : Op Hdl C) : Prop :=
  ∀ h ∈ op.resets L s, AtRegistered L s h

instance (s : Heap Hdl C) (op : Op Hdl C) : Decidable (ReleasesAtRegistered L s op) :=
  inferInstanceAs (Decidable (∀ h ∈ op.resets L s, ∀ r ∈ L.refPtr (s.handle h),
    ∀ c ∈ s.cells r, c.refCount = 1 → ∀ d ∈ c.deleter,
      L.offset c.complete (s.handle h).ty = L.offset c.complete d.ty))

end Operations

def Heap.Held (s : Heap Hdl C) (n : ℕ) : Prop :=
  ∃ r c, s.cells r = some c ∧ ∃ d, c.deleter = some d ∧ d.number = n

def Heap.callsOf (s : Heap Hdl C) (n : ℕ) : List (ℕ × ℤ) := s.calls.filter fun x => x.1 = n

/-- Each deleter has been called once, with the address it was registered with, if its object is
released, and not at all if it is not. -/
structure Exact (s : Heap Hdl C) : Prop where
  held : ∀ n, s.Held n → s.callsOf n = []
  released : ∀ n a, s.registered[n]? = some a → ¬ s.Held n → s.callsOf n = [(n, a)]

end Bugat.TSharedPtrDeleter
