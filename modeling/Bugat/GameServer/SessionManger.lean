import Mathlib
import Bugat.Lib.MachineInt
import Bugat.Base.ObjectManagerHistory

/-!
# The managers of the game server

Players and sessions are known by 64-bit counts, and their agent is the remainder of the count.
-/

namespace Bugat

open MachineInt (int32Max wrap32 wrap32_of_mem)
open AtomicObject (Linearizable)
open ObjectManager (Call Hash InRange Label Objects State applyCall exec_linearizable init step)
open Transition (exec)

structure PlayerId where
  pid : UInt64
  deriving DecidableEq, Repr

structure ObjectId where
  timestamp : UInt64
  count : UInt64
  deriving DecidableEq, Repr

namespace PlayerId

def lt (a b : PlayerId) : Bool := a.pid < b.pid

theorem eq_of_not_lt {a b : PlayerId} (hab : ¬ a.lt b) (hba : ¬ b.lt a) : a = b := by
  simp only [lt, decide_eq_true_eq, UInt64.not_lt] at hab hba
  have hpid := UInt64.le_antisymm hba hab
  cases a
  cases b
  exact congrArg PlayerId.mk hpid

end PlayerId

namespace ObjectId

def lt (a b : ObjectId) : Bool :=
  if a.timestamp ≠ b.timestamp then a.timestamp < b.timestamp else a.count < b.count

theorem eq_of_not_lt {a b : ObjectId} (hab : ¬ a.lt b) (hba : ¬ b.lt a) : a = b := by
  by_cases htime : a.timestamp = b.timestamp
  · simp only [lt, htime, ne_eq, not_true_eq_false, if_false, decide_eq_true_eq,
      UInt64.not_lt] at hab hba
    have hcount := UInt64.le_antisymm hba hab
    cases a
    cases b
    exact congrArg₂ ObjectId.mk htime hcount
  · simp only [lt, htime, Ne.symm htime, ne_eq, not_false_eq_true, if_true, decide_eq_true_eq,
      UInt64.not_lt] at hab hba
    exact absurd (UInt64.le_antisymm hba hab) htime

end ObjectId

/-- `count % size` as an `int`. The size is converted to `uint64_t` for it. -/
def remainder (count : UInt64) (size : ℤ) : ℤ := wrap32 (count.toNat % (size % 2 ^ 64))

def PlayerIdHash (key : PlayerId) (size : ℤ) : ℤ := remainder key.pid size

def GameSessionIDHash (key : ObjectId) (size : ℤ) : ℤ := remainder key.count size

theorem remainder_mem (count : UInt64) {size : ℤ} (hpos : 0 < size) (hint : size ≤ int32Max) :
    0 ≤ remainder count size ∧ remainder count size < size := by
  have hsize : size % 2 ^ 64 = size := by
    apply Int.emod_eq_of_lt hpos.le
    rw [int32Max] at hint
    omega
  have hlow := Int.emod_nonneg count.toNat hpos.ne'
  have hhigh := Int.emod_lt_of_pos count.toNat hpos
  have hwrap : remainder count size = count.toNat % size := by
    rw [remainder, hsize]
    exact wrap32_of_mem (by omega) (hhigh.le.trans hint)
  rw [hwrap]
  exact ⟨hlow, hhigh⟩

def SessionManager.hash : Hash ObjectId 2000 where
  hash := GameSessionIDHash
  inRange key := remainder_mem key.count (by decide) (by decide)

namespace ObjectManager

/-- The histories of an ObjectManager are those of one map, whatever the hash that gives the
agents, and the hashes of the two managers give indices for every key. -/
theorem one_map {Key Obj Tid : Type*} [DecidableEq Key] [DecidableEq Tid] [Fintype Tid]
    {AgentCount : ℕ} (h : Hash Key AgentCount) (ls : List (Label Key Obj Tid))
    (s : State Key Obj Tid AgentCount) (hrun : exec (step h) init ls = some s) :
    Linearizable applyCall (∅ : Objects Key Obj) s.history ∧
      ∀ size : ℤ, 0 < size → size ≤ int32Max →
        InRange PlayerIdHash size ∧ InRange GameSessionIDHash size := by
  refine ⟨exec_linearizable hrun, ?_⟩
  intro size hpos hint
  exact ⟨fun key => remainder_mem key.pid hpos hint, fun key => remainder_mem key.count hpos hint⟩

def sameKey : List (Label ObjectId ℕ Bool) :=
  [.call true (.add ⟨7, 1⟩ (some 5)), .call false (.add ⟨7, 1⟩ (some 6)), .lock true, .lock false,
    .search true, .access true, .unlock true (some false), .lock false, .search false, .ret true,
    .access false, .call true (.find ⟨7, 1⟩), .lock true, .unlock false none, .ret false,
    .lock true, .search true, .access true, .unlock true none, .ret true]

theorem sameKey_one_map : ∃ s : State ObjectId ℕ Bool 2000,
    exec (step SessionManager.hash) init sameKey = some s ∧
      Linearizable applyCall (∅ : Objects ObjectId ℕ) s.history ∧
      s.history =
        [.call (true, 0) (.add ⟨7, 1⟩ (some 5)), .call (false, 0) (.add ⟨7, 1⟩ (some 6)),
          .ret (true, 0) (.add true), .call (true, 1) (.find ⟨7, 1⟩), .ret (false, 0) (.add false),
          .ret (true, 1) (.find (some 5))] := by
  have h : (exec (step SessionManager.hash) init sameKey).map State.history = some
      [.call (true, 0) (.add ⟨7, 1⟩ (some 5)), .call (false, 0) (.add ⟨7, 1⟩ (some 6)),
        .ret (true, 0) (.add true), .call (true, 1) (.find ⟨7, 1⟩), .ret (false, 0) (.add false),
        .ret (true, 1) (.find (some 5))] := by
    decide +kernel
  obtain ⟨s, hrun, hs⟩ := Option.map_eq_some_iff.mp h
  exact ⟨s, hrun, (one_map SessionManager.hash sameKey s hrun).1, hs⟩

end ObjectManager

end Bugat
