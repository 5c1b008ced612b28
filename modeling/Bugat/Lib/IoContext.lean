import Mathlib

/-!
# An io_context

The operations that are outstanding and the flag that the context sets when it runs out of
work. An operation is work from its start to the end of its handler. A call of `run_one` finds
the flag set, or finds no work and sets it, or takes an operation and runs its handler; with
work but no completed operation it waits, which is no step. `restart`, the only call that clears
the flag, is not one of the operations here.
-/

namespace IoContext

variable {Op : Type*}

structure Context (Op : Type*) where
  pending : List Op
  handlers : ℕ
  stopped : Bool
  deriving DecidableEq, Repr

def Context.init : Context Op := ⟨[], 0, false⟩

namespace Context

variable (c : Context Op)

def Idle : Prop := c.pending = [] ∧ c.handlers = 0

instance [DecidableEq Op] : Decidable c.Idle := inferInstanceAs (Decidable (_ ∧ _))

def start (op : Op) : Context Op := { c with pending := c.pending ++ [op] }

def runNone [DecidableEq Op] : Option (Context Op) :=
  if c.stopped then some c else if c.Idle then some { c with stopped := true } else none

def serve [DecidableEq Op] (op : Op) : Option (Context Op) :=
  if c.stopped = false ∧ op ∈ c.pending then
    some { c with pending := c.pending.erase op, handlers := c.handlers + 1 }
  else none

def finish : Context Op := { c with handlers := c.handlers - 1 }

variable {c : Context Op} {c' : Context Op} {op : Op} [DecidableEq Op]

theorem serve_of_stopped (h : c.stopped = true) : c.serve op = none := by
  rw [serve, if_neg]
  intro hand
  rw [h] at hand
  cases hand.1

theorem serve_isSome (h : c.stopped = false) (hop : op ∈ c.pending) : (c.serve op).isSome := by
  rw [serve, if_pos ⟨h, hop⟩]
  rfl

theorem runNone_cases (h : c.runNone = some c') :
    c.stopped = true ∧ c' = c ∨ c.Idle ∧ c' = { c with stopped := true } := by
  rw [runNone] at h
  split at h
  · exact .inl ⟨‹_›, (Option.some.inj h).symm⟩
  · split at h
    · exact .inr ⟨‹_›, (Option.some.inj h).symm⟩
    · cases h

theorem serve_eq (h : c.serve op = some c') : c.stopped = false ∧ op ∈ c.pending ∧
    c' = { c with pending := c.pending.erase op, handlers := c.handlers + 1 } := by
  rw [serve] at h
  split at h
  · rename_i hok
    exact ⟨hok.1, hok.2, (Option.some.inj h).symm⟩
  · cases h

end Context

end IoContext
