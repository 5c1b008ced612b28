import Mathlib
import Bugat.Lib.Threads
import Bugat.Lib.Transition

/-!
# Counter: a count for each interval

`Counter::Update` may run in several threads at once. The thread whose exchange of
`_lastUpdateMs` succeeds closes the window: it has the total from its own `fetch_add`, and later
clears `_curCount` by a plain store. The counts are 64-bit integers, whose sums wrap. The count
for the interval is computed in floating point, here by the parameter `scale`.
-/

namespace Bugat

open Threads (System step_eq_some)
open Transition (exec Along Throughout throughout_iff_along_of_iff)

abbrev Count := BitVec 64

/-- The atomics of a Counter. The clock is never behind `nowMs`; `values` lists what has been
added, and `totals` the totals of the closed windows. -/
structure Counter where
  curCount : Count
  preCount : Count
  lastUpdateMs : ℤ
  nowMs : ℤ
  values : List Count
  totals : List Count

namespace Counter

inductive Pc
  | idle
  | added (pre value : Count)
  | loaded (pre value : Count) (lastUpdateMs : ℤ)
  | expired (pre value : Count) (lastUpdateMs curMs : ℤ)
  | closing (pre value : Count) (term : ℤ)
  | cleared (pre value : Count) (term : ℤ)
  deriving DecidableEq

inductive Label
  | update (value : Count)
  | now (curMs : ℤ)
  | next

def fetchAdd (s : Counter) (value : Count) : Counter :=
  { s with curCount := s.curCount + value, values := s.values ++ [value] }

/-- `_curCount.store(0)`, which ends the window with the total that the closer has. -/
def clear (s : Counter) (pre value : Count) : Counter :=
  { s with curCount := 0, totals := s.totals ++ [pre + value] }

variable {ι : Type*} [DecidableEq ι] (milliseconds : ℤ) (scale : Count → ℤ → ℤ → Count)

def act (s : Counter) : Pc → Label → Option (Counter × Pc)
  | .idle, .update value => some (s.fetchAdd value, .added s.curCount value)
  | .added pre value, .next => some (s, .loaded pre value s.lastUpdateMs)
  | .loaded pre value lastUpdateMs, .now curMs =>
    if s.nowMs ≤ curMs then
      let s := { s with nowMs := curMs }
      if curMs - lastUpdateMs > milliseconds then
        some (s, .expired pre value lastUpdateMs curMs)
      else some (s, .idle)
    else none
  | .expired pre value lastUpdateMs curMs, .next =>
    if s.lastUpdateMs = lastUpdateMs then
      some ({ s with lastUpdateMs := curMs }, .closing pre value (curMs - lastUpdateMs))
    else some (s, .idle)
  | .closing pre value term, .next => some (s.clear pre value, .cleared pre value term)
  | .cleared pre value term, .next =>
    some ({ s with preCount := scale (pre + value) term milliseconds }, .idle)
  | _, _ => none

def step : System Counter Pc ι → ι × Label → Option (System Counter Pc ι) :=
  Threads.step (act milliseconds scale)

def init (startMs : ℤ) : System Counter Pc ι := ⟨⟨0, 0, startMs, startMs, [], []⟩, fun _ => .idle⟩

def Balanced (s : Counter) : Prop := s.totals.sum + s.curCount = s.values.sum

/-- Every value is accounted in one interval when no `Update` is in flight. -/
def Accounted (s : System Counter Pc ι) : Prop :=
  (∀ t, s.thread t = .idle) → s.shared.Balanced

/-- The store of 0 finds the total of the thread that closes the window. -/
def ClearsOwnTotal (s : Counter) : Pc → Label → Prop
  | .closing pre value _, .next => s.curCount = pre + value
  | _, _ => True

variable {milliseconds scale} {s s' : Counter} {pc pc' : Pc} {a : Label} {pre value : Count}

theorem fetchAdd_balanced (value : Count) : (s.fetchAdd value).Balanced ↔ s.Balanced := by
  simp only [Balanced, fetchAdd, List.sum_append, List.sum_singleton]
  rw [← add_assoc, add_left_inj]

theorem clear_balanced (h : s.Balanced) :
    (s.clear pre value).Balanced ↔ s.curCount = pre + value := by
  simp only [Balanced, clear, List.sum_append, List.sum_singleton, add_zero] at h ⊢
  rw [← h, add_right_inj]
  exact eq_comm

/-- Of all steps only the store of 0 can lose a value. -/
theorem act_balanced (h : s.Balanced) (hact : act milliseconds scale s pc a = some (s', pc')) :
    s'.Balanced ↔ s.ClearsOwnTotal pc a := by
  cases pc <;> cases a <;> simp only [act, reduceCtorEq, Option.some.injEq, Prod.mk.injEq] at hact
  case idle.update value =>
    obtain ⟨rfl, -⟩ := hact
    exact iff_of_true ((fetchAdd_balanced value).mpr h) trivial
  case added.next =>
    obtain ⟨rfl, -⟩ := hact
    exact iff_of_true h trivial
  case loaded.now =>
    split_ifs at hact <;> cases hact <;> exact iff_of_true h trivial
  case expired.next =>
    split_ifs at hact <;> cases hact <;> exact iff_of_true h trivial
  case closing.next pre value term =>
    obtain ⟨rfl, -⟩ := hact
    exact clear_balanced h
  case cleared.next =>
    obtain ⟨rfl, -⟩ := hact
    exact iff_of_true h trivial

variable {startMs : ℤ} {ls : List (ι × Label)}

/-- In every state of a run the values are accounted, also while threads are updating, just
when each store of 0 finds the total of its own thread. -/
theorem balanced_iff : Throughout (fun s => s.shared.Balanced) (step milliseconds scale)
      (init (ι := ι) startMs) ls ↔
    Along (fun s l => s.shared.ClearsOwnTotal (s.thread l.1) l.2) (step milliseconds scale)
      (init startMs) ls := by
  have hinit : (init (ι := ι) startMs).shared.Balanced := rfl
  refine throughout_iff_along_of_iff (fun s l t hs hstep => ?_) hinit
  obtain ⟨u, pc, hact, rfl⟩ := step_eq_some.mp hstep
  exact act_balanced hs hact

theorem accounted_of_clears_own_total
    (h : Along (fun s l => s.shared.ClearsOwnTotal (s.thread l.1) l.2) (step milliseconds scale)
      (init (ι := ι) startMs) ls) :
    Throughout Accounted (step milliseconds scale) (init (ι := ι) startMs) ls :=
  (balanced_iff.mpr h).mono fun _ hbalanced _ => hbalanced

def closeThenAdd : List (Bool × Label) :=
  [(true, .update 5), (true, .next), (true, .now 2000), (true, .next), (true, .next), (true, .next),
    (false, .update 7), (false, .next), (false, .now 2000)]

theorem closeThenAdd_accounted :
    Throughout Accounted (step 1000 fun total _ _ => total) (init 0) closeThenAdd :=
  accounted_of_clears_own_total ⟨trivial, trivial, trivial, trivial, rfl, trivial, trivial,
    trivial, trivial, trivial⟩

/-- The other thread adds 7 between the exchange of the closer and its store of 0. -/
def addWhileClosing : List (Bool × Label) :=
  [(true, .update 5), (true, .next), (true, .now 2000), (true, .next), (false, .update 7),
    (true, .next), (true, .next), (false, .next), (false, .now 2000)]

theorem addWhileClosing_loses :
    ∃ s, exec (step 1000 fun total _ _ => total) (init 0) addWhileClosing = some s ∧
      s.shared.values = [5, 7] ∧ s.shared.totals = [5] ∧ s.shared.curCount = 0 ∧
      ¬ Accounted s := by
  refine ⟨_, rfl, rfl, rfl, rfl, fun h => ?_⟩
  have hbalanced := h (by decide)
  exact absurd hbalanced (by unfold Balanced; decide)

end Counter

end Bugat
