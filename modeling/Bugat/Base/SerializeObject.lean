import Mathlib
import Bugat.Core.TaskSerializerOrder

/-!
# SerializeObject: scheduling a mailbox on a Context

`OnPost` and `OnRun` decide from the exact value of `_taskCount` whether the
object is handed to `Context::Post`. An entry of the object in some
`SerializerQueue` lets one worker pop it and call `Run`. The number of such
entries, of the calls already decided and of the workers between the pop and the
`fetch_sub` is the number of outstanding tokens.
-/

open scoped BigOperators

namespace Bugat.SerializeObject

open TaskSerializer (PostPc RunPc Thread Label taskSerializerError maxNodes Counts Balanced
  counts_step balanced_step)

variable {Tid Task : Type*}

structure State (Tid Task : Type*) where
  serializer : TaskSerializer.State Tid Task
  scheduled : ℕ

def init : State Tid Task := ⟨TaskSerializer.init, 0⟩

def onPost (remainCount : ℤ) : Bool :=
  if remainCount = taskSerializerError then false else remainCount = 1

def onRun (remainCount : ℤ) : Bool :=
  if remainCount = taskSerializerError then false else 0 < remainCount

/-- The entries after a step: `OnPost` and `OnRun` may add one, and a worker takes
one out when it enters `Run`. -/
def schedule (s : State Tid Task) : Label Tid Task → Option ℕ
  | .onPost t =>
    match (s.serializer.thread t).post with
    | .counted c => some (if onPost c then s.scheduled + 1 else s.scheduled)
    | _ => none
  | .enter _ => if 0 < s.scheduled then some (s.scheduled - 1) else none
  | .onRun t =>
    match (s.serializer.thread t).run with
    | .counted c => some (if onRun c then s.scheduled + 1 else s.scheduled)
    | _ => none
  | _ => some s.scheduled

variable [DecidableEq Tid]

def step (s : State Tid Task) (l : Label Tid Task) : Option (State Tid Task) :=
  match TaskSerializer.step s.serializer l, schedule s l with
  | some serializer, some scheduled => some ⟨serializer, scheduled⟩
  | _, _ => none

theorem step_eq_some {s s' : State Tid Task} {l : Label Tid Task} : step s l = some s' ↔
    TaskSerializer.step s.serializer l = some s'.serializer ∧
      schedule s l = some s'.scheduled := by
  simp only [step]
  constructor
  · intro h
    split at h
    · rename_i h₁ h₂
      cases h
      exact ⟨h₁, h₂⟩
    · cases h
  · rintro ⟨h₁, h₂⟩
    rw [h₁, h₂]

def tokensOf (th : Thread) : ℕ :=
  (match th.post with
    | .counted c => if onPost c then 1 else 0
    | _ => 0) +
  (match th.run with
    | .idle => 0
    | .counted c => if onRun c then 1 else 0
    | _ => 1)

theorem tokensOf_pos {th : Thread} (h : th.inRun) : 0 < tokensOf th := by
  unfold Thread.inRun at h
  unfold tokensOf
  split at h <;> simp_all

theorem pending_of_tokensOf {th : Thread} (h : tokensOf th = 0) : th.pending = 0 := by
  unfold tokensOf at h
  unfold Thread.pending
  split <;> simp_all

variable [Fintype Tid]

def tokens (s : State Tid Task) : ℕ := s.scheduled + ∑ t, tokensOf (s.serializer.thread t)

theorem tokens_setPost (s : TaskSerializer.State Tid Task) (t : Tid) (p : PostPc) :
    ∑ u, tokensOf ((s.setPost t p).thread u) + tokensOf (s.thread t) =
      ∑ u, tokensOf (s.thread u) + tokensOf ⟨p, (s.thread t).run⟩ :=
  Counting.sum_update s.thread t { s.thread t with post := p } tokensOf

theorem tokens_setRun (s : TaskSerializer.State Tid Task) (t : Tid) (r : RunPc) :
    ∑ u, tokensOf ((s.setRun t r).thread u) + tokensOf (s.thread t) =
      ∑ u, tokensOf (s.thread u) + tokensOf ⟨(s.thread t).post, r⟩ :=
  Counting.sum_update s.thread t { s.thread t with run := r } tokensOf

end Bugat.SerializeObject
