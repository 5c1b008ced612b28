import Mathlib
import Bugat.Lib.Counting
import Bugat.Lib.Transition

/-!
# AnyTask: who owns a TaskModel

An `AnyTask` holds a pointer to a `TaskModel` and deletes it in its destructor. Copies and moves
both take the pointer away from their source, an assignment overwrites the pointer of its target,
and the default constructor leaves `_task` as the memory is. A program is any sequence of these
operations on AnyTask objects at any places in memory, and of the steps in which a
`LockFreeQueue<AnyTask>` copies and destroys the values of its nodes. What is in the memory of an
object after its destructor is still there when the next object is constructed in its place.
-/

open scoped BigOperators

namespace Bugat.AnyTask

open Transition (exec Along Throughout throughout_iff_along_of_iff along_cons
  exec_cons_eq_some exec_append_eq_some)

abbrev TaskConcept := ℕ

/-- The field `_task`. It is `unset` from the default constructor on until it is assigned, and
so is a copy of such a field. -/
structure Field where
  task : TaskConcept
  unset : Bool
  deriving DecidableEq, Repr

def null : Field := ⟨0, false⟩

variable {Loc : Type*} [DecidableEq Loc]

/-- `field` is the memory, `alive` says where an AnyTask is. `que` has the places of the values
in the nodes of the queue, the dummy first. `models` and `deleted` list the pointers from `new`
and those given to `delete`, `strayRuns` the pointers that `Run` has followed to no TaskModel. -/
structure State (Loc : Type*) where
  field : Loc → Field
  alive : Finset Loc
  que : List Loc
  models : List TaskConcept
  deleted : List TaskConcept
  strayRuns : List TaskConcept

def init (memory : Loc → TaskConcept) (dummy : Loc) : State Loc where
  field x := if x = dummy then ⟨0, true⟩ else ⟨memory x, true⟩
  alive := {dummy}
  que := [dummy]
  models := []
  deleted := []
  strayRuns := []

inductive Label (Loc : Type*)
  | default (x : Loc)
  | fromCallable (x : Loc) (p : TaskConcept)
  | construct (x other : Loc)
  | assign (x other : Loc)
  | run (x : Loc)
  | destroy (x : Loc)
  /-- Something else is stored where no AnyTask is. -/
  | scribble (x : Loc) (p : TaskConcept)
  /-- `new(ptr) Node(std::move(value), nullHandle)`, and the node joins the queue. -/
  | push (node value : Loc)
  /-- `T value = popNode->_value`. -/
  | copyFirst (value : Loc)
  /-- `_pool.destruct(head.get_ptr())`. -/
  | popHead

namespace State

def put (s : State Loc) (x : Loc) (f : Field) : State Loc :=
  { s with field := Function.update s.field x f }

def place (s : State Loc) (x : Loc) (f : Field) : State Loc :=
  { s.put x f with alive := insert x s.alive }

def Allocated (s : State Loc) (p : TaskConcept) : Prop := s.deleted.count p < s.models.count p

instance (s : State Loc) (p : TaskConcept) : Decidable (s.Allocated p) :=
  inferInstanceAs (Decidable (_ < _))

def fromCallable (s : State Loc) (x : Loc) (p : TaskConcept) : State Loc :=
  { s.place x ⟨p, false⟩ with models := s.models ++ [p] }

/-- The constructors from an lvalue and from an rvalue have the same body. -/
def construct (s : State Loc) (x other : Loc) : State Loc :=
  (s.place x (s.field other)).put other null

def assign (s : State Loc) (x other : Loc) : State Loc :=
  (s.put x (s.field other)).put other null

def destroy (s : State Loc) (x : Loc) : State Loc :=
  { s with
    alive := s.alive.erase x
    deleted := if (s.field x).task = 0 then s.deleted else s.deleted ++ [(s.field x).task] }

def run (s : State Loc) (x : Loc) : State Loc :=
  if (s.field x).task = 0 ∨ s.Allocated (s.field x).task then s
  else { s with strayRuns := s.strayRuns ++ [(s.field x).task] }

end State

/-- Constructors run where no AnyTask is, and the other operations where one is; `new` returns
memory that is not in use. -/
def step (s : State Loc) : Label Loc → Option (State Loc)
  | .default x => if x ∉ s.alive then some (s.place x ⟨(s.field x).task, true⟩) else none
  | .fromCallable x p =>
    if x ∉ s.alive ∧ p ≠ 0 ∧ ¬ s.Allocated p then some (s.fromCallable x p) else none
  | .construct x other =>
    if x ∉ s.alive ∧ other ∈ s.alive then some (s.construct x other) else none
  | .assign x other => if x ∈ s.alive ∧ other ∈ s.alive then some (s.assign x other) else none
  | .run x => if x ∈ s.alive then some (s.run x) else none
  | .destroy x => if x ∈ s.alive then some (s.destroy x) else none
  | .scribble x p => if x ∉ s.alive then some (s.put x ⟨p, true⟩) else none
  | .push node value =>
    if node ∉ s.alive ∧ value ∈ s.alive then
      some { s.construct node value with que := s.que ++ [node] }
    else none
  | .copyFirst value =>
    match s.que with
    | _ :: first :: _ =>
      if value ∉ s.alive ∧ first ∈ s.alive then some (s.construct value first) else none
    | _ => none
  | .popHead =>
    match s.que with
    | dummy :: first :: rest =>
      if dummy ∈ s.alive then some { s.destroy dummy with que := first :: rest } else none
    | _ => none

def Field.owns (f : Field) (p : TaskConcept) : ℕ := if f = ⟨p, false⟩ then 1 else 0

def owners (s : State Loc) (p : TaskConcept) : ℕ := ∑ x ∈ s.alive, (s.field x).owns p

/-- Each TaskModel is deleted once, when it has lost its owner, nothing else is deleted, and
`Run` runs TaskModels only. -/
structure Owned (s : State Loc) : Prop where
  balance : ∀ p ≠ 0, s.models.count p = s.deleted.count p + owners s p
  runs : s.strayRuns = []

def Destructible (s : State Loc) (x : Loc) : Prop :=
  (s.field x).unset = true → (s.field x).task = 0

/-- The target of an assignment owns no TaskModel, an unset field is null when its object is
destroyed, and a field is null or points to a TaskModel when it is run. -/
def Fit (s : State Loc) : Label Loc → Prop
  | .assign x _ => (s.field x).unset = true ∨ (s.field x).task = 0
  | .run x => (s.field x).task = 0 ∨ s.Allocated (s.field x).task
  | .destroy x => Destructible s x
  | .popHead => ∀ dummy ∈ s.que.head?, Destructible s dummy
  | _ => True

instance (s : State Loc) (x : Loc) : Decidable (Destructible s x) :=
  inferInstanceAs (Decidable (_ → _))

instance (s : State Loc) : (l : Label Loc) → Decidable (Fit s l)
  | .assign _ _ | .run _ => inferInstanceAs (Decidable (_ ∨ _))
  | .destroy _ => inferInstanceAs (Decidable (Destructible _ _))
  | .popHead => inferInstanceAs (Decidable (∀ _ ∈ s.que.head?, _))
  | .default _ | .fromCallable _ _ | .construct _ _ | .scribble _ _ | .push _ _
  | .copyFirst _ => isTrue trivial

namespace Field

theorem owns_unset (q p : TaskConcept) : Field.owns ⟨q, true⟩ p = 0 := by
  simp [owns]

theorem owns_set (q p : TaskConcept) : Field.owns ⟨q, false⟩ p = if q = p then 1 else 0 := by
  simp [owns]

theorem owns_null {p : TaskConcept} (hp : p ≠ 0) : null.owns p = 0 := by
  simp [owns, null, Ne.symm hp]

end Field

variable {s s' : State Loc} {l : Label Loc} {x other : Loc} {f : Field} {p : TaskConcept}

theorem owners_put (hx : x ∈ s.alive) (f : Field) (p : TaskConcept) :
    owners (s.put x f) p + (s.field x).owns p = owners s p + f.owns p :=
  Counting.sum_update_mem hx s.field f fun f => f.owns p

theorem owners_put_of_not_mem (hx : x ∉ s.alive) (f : Field) (p : TaskConcept) :
    owners (s.put x f) p = owners s p := by
  refine Finset.sum_congr rfl fun y hy => ?_
  have hne : y ≠ x := ne_of_mem_of_not_mem hy hx
  simp [State.put, hne]

theorem owners_place (hx : x ∉ s.alive) (f : Field) (p : TaskConcept) :
    owners (s.place x f) p = f.owns p + owners s p := by
  have hrest := owners_put_of_not_mem hx f p
  rw [owners] at hrest
  rw [owners, State.place, Finset.sum_insert hx]
  simp only [State.put, Function.update_self] at hrest ⊢
  rw [hrest]

theorem owners_erase (hx : x ∈ s.alive) (p : TaskConcept) :
    (s.field x).owns p + owners (s.destroy x) p = owners s p :=
  Finset.add_sum_erase s.alive (fun y => (s.field y).owns p) hx

theorem owners_construct (hx : x ∉ s.alive) (hother : other ∈ s.alive) (hp : p ≠ 0) :
    owners (s.construct x other) p = owners s p := by
  have hne : other ≠ x := ne_of_mem_of_not_mem hother hx
  have hmem : other ∈ (s.place x (s.field other)).alive := Finset.mem_insert_of_mem hother
  have hfield : (s.place x (s.field other)).field other = s.field other := by
    simp [State.place, State.put, hne]
  have hput := owners_put hmem null p
  rw [hfield, Field.owns_null hp, owners_place hx, add_comm] at hput
  exact Nat.add_left_cancel hput

theorem owners_assign (hx : x ∈ s.alive) (hother : other ∈ s.alive) (hp : p ≠ 0) :
    owners (s.assign x other) p + (s.field x).owns p = owners s p := by
  have hfield : (s.put x (s.field other)).field other = s.field other := by
    by_cases heq : other = x
    · subst heq
      simp [State.put]
    · simp [State.put, heq]
  have hmem : other ∈ (s.put x (s.field other)).alive := hother
  have hput := owners_put hmem null p
  have hfirst := owners_put hx (s.field other) p
  rw [hfield, Field.owns_null hp] at hput
  rw [State.assign]
  omega

omit [DecidableEq Loc] in
theorem Owned.congr (h : Owned s) (hmodels : s'.models = s.models)
    (hdeleted : s'.deleted = s.deleted) (hruns : s'.strayRuns = s.strayRuns)
    (howners : ∀ p ≠ 0, owners s' p = owners s p) : Owned s' where
  balance p hp := by rw [hmodels, hdeleted, howners p hp, h.balance p hp]
  runs := hruns.trans h.runs

theorem init_owned (memory : Loc → TaskConcept) (dummy : Loc) : Owned (init memory dummy) where
  balance p hp := by
    have howners : owners (init memory dummy) p = 0 := by
      rw [owners, init, Finset.sum_singleton]
      simp [Field.owns]
    rw [howners]
    rfl
  runs := rfl

theorem Owned.fromCallable (h : Owned s) (hx : x ∉ s.alive) (p : TaskConcept) :
    Owned (s.fromCallable x p) where
  balance q hq := by
    have howners : owners (s.fromCallable x p) q = _ := owners_place hx ⟨p, false⟩ q
    have hbalance := h.balance q hq
    rw [howners, Field.owns_set]
    simp only [State.fromCallable, State.place, State.put, List.count_append]
    rw [hbalance, List.count_singleton]
    simp only [beq_iff_eq]
    omega
  runs := h.runs

theorem Owned.assign_iff (h : Owned s) (hx : x ∈ s.alive) (hother : other ∈ s.alive) :
    Owned (s.assign x other) ↔ (s.field x).unset = true ∨ (s.field x).task = 0 := by
  have howners := fun p hp => owners_assign (s := s) (p := p) hx hother hp
  generalize s.field x = f at *
  obtain ⟨q, unset⟩ := f
  cases unset with
  | true =>
    refine iff_of_true (h.congr rfl rfl rfl fun p hp => ?_) (.inl rfl)
    have hp := howners p hp
    rwa [Field.owns_unset] at hp
  | false =>
    simp only [Field.owns_set, Bool.false_eq_true, false_or] at howners ⊢
    constructor
    · intro hassign
      by_contra hq
      have hafter : s.models.count q = s.deleted.count q + owners (s.assign x other) q :=
        hassign.balance q hq
      have hbefore := h.balance q hq
      have hmoved := howners q hq
      rw [if_pos rfl] at hmoved
      omega
    · rintro rfl
      refine h.congr rfl rfl rfl fun p hp => ?_
      have hmoved := howners p hp
      rwa [if_neg (Ne.symm hp)] at hmoved

theorem Owned.destroy_iff (h : Owned s) (hx : x ∈ s.alive) :
    Owned (s.destroy x) ↔ Destructible s x := by
  have howners := fun p => owners_erase hx p
  have hdeleted : (s.destroy x).deleted = if (s.field x).task = 0 then s.deleted
    else s.deleted ++ [(s.field x).task] := rfl
  rw [Destructible]
  generalize s.field x = f at *
  obtain ⟨q, unset⟩ := f
  dsimp only at hdeleted ⊢
  by_cases hq : q = 0
  · subst hq
    rw [if_pos rfl] at hdeleted
    refine iff_of_true (h.congr rfl hdeleted rfl fun p hp => ?_) fun _ => rfl
    have hp' := howners p
    have hzero : Field.owns ⟨0, unset⟩ p = 0 := by simp [Field.owns, Ne.symm hp]
    rwa [hzero, Nat.zero_add] at hp'
  · rw [if_neg hq] at hdeleted
    have hcount : ∀ p, (s.destroy x).deleted.count p =
        s.deleted.count p + if q = p then 1 else 0 := by
      intro p
      rw [hdeleted, List.count_append, List.count_singleton]
      simp only [beq_iff_eq]
    cases unset with
    | true =>
      refine iff_of_false (fun hdestroy => ?_) fun hnull => hq (hnull rfl)
      have hafter : s.models.count q = _ := hdestroy.balance q hq
      have hbefore := h.balance q hq
      have hleft := howners q
      rw [hcount q, if_pos rfl] at hafter
      rw [Field.owns_unset] at hleft
      omega
    | false =>
      refine iff_of_true ⟨fun p hp => ?_, h.runs⟩ fun hunset => absurd hunset Bool.false_ne_true
      have hbefore := h.balance p hp
      have hleft := howners p
      rw [Field.owns_set] at hleft
      change s.models.count p = _
      rw [hcount p]
      omega

omit [DecidableEq Loc] in
theorem Owned.run_iff (h : Owned s) :
    Owned (s.run x) ↔ (s.field x).task = 0 ∨ s.Allocated (s.field x).task := by
  rw [State.run]
  split
  · rename_i hfit
    exact iff_of_true h hfit
  · rename_i hfit
    refine iff_of_false (fun hrun => ?_) hfit
    simpa using hrun.runs

theorem Owned.step_iff (h : Owned s) (hs : step s l = some s') : Owned s' ↔ Fit s l := by
  cases l with
  | default x =>
    simp only [step] at hs
    split_ifs at hs with hx
    obtain rfl := Option.some.inj hs
    refine iff_of_true (h.congr rfl rfl rfl fun p _ => ?_) trivial
    rw [owners_place hx, Field.owns_unset, Nat.zero_add]
  | fromCallable x p =>
    simp only [step] at hs
    split_ifs at hs with hnew
    obtain rfl := Option.some.inj hs
    exact iff_of_true (h.fromCallable hnew.1 p) trivial
  | construct x other =>
    simp only [step] at hs
    split_ifs at hs with hx
    obtain rfl := Option.some.inj hs
    exact iff_of_true (h.congr rfl rfl rfl fun p hp => owners_construct hx.1 hx.2 hp) trivial
  | assign x other =>
    simp only [step] at hs
    split_ifs at hs with hx
    obtain rfl := Option.some.inj hs
    exact h.assign_iff hx.1 hx.2
  | run x =>
    simp only [step] at hs
    split_ifs at hs
    obtain rfl := Option.some.inj hs
    exact h.run_iff
  | destroy x =>
    simp only [step] at hs
    split_ifs at hs with hx
    obtain rfl := Option.some.inj hs
    exact h.destroy_iff hx
  | scribble x p =>
    simp only [step] at hs
    split_ifs at hs with hx
    obtain rfl := Option.some.inj hs
    exact iff_of_true (h.congr rfl rfl rfl fun p _ => owners_put_of_not_mem hx _ p) trivial
  | push node value =>
    simp only [step] at hs
    split_ifs at hs with hx
    obtain rfl := Option.some.inj hs
    exact iff_of_true (h.congr rfl rfl rfl fun p hp => owners_construct hx.1 hx.2 hp) trivial
  | copyFirst value =>
    simp only [step] at hs
    split at hs
    · split_ifs at hs with hx
      obtain rfl := Option.some.inj hs
      exact iff_of_true (h.congr rfl rfl rfl fun p hp => owners_construct hx.1 hx.2 hp) trivial
    · cases hs
  | popHead =>
    simp only [step] at hs
    split at hs
    · rename_i dummy first rest hque
      split_ifs at hs with hdummy
      obtain rfl := Option.some.inj hs
      have hiff := h.destroy_iff hdummy
      rw [Fit, hque, List.head?_cons]
      simp only [Option.mem_def, Option.some.injEq, forall_eq']
      exact ⟨fun howned => hiff.mp ⟨howned.balance, howned.runs⟩,
        fun hnull => ⟨(hiff.mpr hnull).balance, (hiff.mpr hnull).runs⟩⟩
    · cases hs

/-- A program keeps every TaskModel with one owner, and deletes and runs nothing else, just when
each of its steps is fit. -/
theorem owned_iff_fit (memory : Loc → TaskConcept) (dummy : Loc) (ls : List (Label Loc)) :
    Throughout Owned step (init memory dummy) ls ↔ Along Fit step (init memory dummy) ls := by
  exact throughout_iff_along_of_iff (fun s l t h hs => h.step_iff hs) (init_owned memory dummy)

/-! ## The programs of the queue and of TaskSerializer -/

/-- `Pop(output)` on a queue that has an element, with the local `value` of the loop. An exchange
of `_head` that fails has a `.copyFirst value` and a `.destroy value` before these. -/
def pop (value output : Loc) : List (Label Loc) :=
  [.copyFirst value, .assign output value, .popHead, .destroy value]

def consume (value output : Loc) : List (Label Loc) :=
  .default output :: (pop value output ++ [.destroy output])

def runOne (value task : Loc) : List (Label Loc) :=
  .default task :: (pop value task ++ [.run task, .destroy task])

/-- `Clear` on a queue with so many elements; its last `Pop` returns `false`. -/
def clear (value output : Loc) : ℕ → List (Label Loc)
  | 0 => [.default output, .destroy output]
  | n + 1 => consume value output ++ clear value output n

def post (task node : Loc) (p : TaskConcept) : List (Label Loc) :=
  [.fromCallable task p, .push node task, .destroy task]

structure Queued (s : State Loc) (dummy : Loc) (nodes : List Loc) : Prop where
  que : s.que = dummy :: nodes
  nodup : (dummy :: nodes).Nodup
  alive : ∀ x ∈ dummy :: nodes, x ∈ s.alive
  dummy_null : (s.field dummy).task = 0

variable {dummy first value output : Loc} {rest nodes : List Loc}

theorem construct_field (s : State Loc) (x other y : Loc) : (s.construct x other).field y =
    if y = other then null else if y = x then s.field other else s.field y := by
  simp [State.construct, State.place, State.put, Function.update_apply]

theorem assign_field (s : State Loc) (x other y : Loc) : (s.assign x other).field y =
    if y = other then null else if y = x then s.field other else s.field y := by
  simp [State.assign, State.put, Function.update_apply]

theorem Queued.pop (h : Queued s dummy (first :: rest)) (hvalue : value ∉ s.alive)
    (houtput : output ∈ s.alive) (hapart : output ∉ dummy :: first :: rest) :
    ∃ s', exec step s (pop value output) = some s' ∧ Queued s' first rest ∧
      s'.alive = s.alive.erase dummy ∧ s'.field output = s.field first ∧
      ∀ x ∈ rest, s'.field x = s.field x := by
  have hfirst : first ∈ s.alive := h.alive first (by simp)
  have hdummy : dummy ∈ s.alive := h.alive dummy (by simp)
  have hvq : ∀ x ∈ dummy :: first :: rest, x ≠ value := fun x hx =>
    ne_of_mem_of_not_mem (h.alive x hx) hvalue
  have hoq : ∀ x ∈ dummy :: first :: rest, x ≠ output := fun x hx => ne_of_mem_of_not_mem hx hapart
  have hov : output ≠ value := ne_of_mem_of_not_mem houtput hvalue
  obtain ⟨hfrest, hrest⟩ := List.nodup_cons.mp (List.nodup_cons.mp h.nodup).2
  obtain ⟨s₂, hs₂⟩ : ∃ s₂, s₂ = (s.construct value first).assign output value := ⟨_, rfl⟩
  have halive : s₂.alive = insert value s.alive := by rw [hs₂]; rfl
  have hque : s₂.que = dummy :: first :: rest := by rw [hs₂]; exact h.que
  have hfield : ∀ x, s₂.field x = if x = value then null else if x = output then s.field first
      else if x = first then null else s.field x := by
    intro x
    rw [hs₂, assign_field, construct_field, construct_field, if_neg (hvq first (by simp)).symm,
      if_pos rfl]
    by_cases hx : x = value
    · simp [hx]
    · simp [hx]
  refine ⟨({ s₂.destroy dummy with que := first :: rest } : State Loc).destroy value, ?_, ?_, ?_,
    ?_, fun x hx => ?_⟩
  · have hcopy : step s (.copyFirst value) = some (s.construct value first) := by
      simp [step, h.que, hvalue, hfirst]
    have hassign : step (s.construct value first) (.assign output value) = some s₂ := by
      simp [step, hs₂, State.construct, State.place, State.put, houtput]
    have hpop : step s₂ .popHead = some { s₂.destroy dummy with que := first :: rest } := by
      simp [step, hque, halive, hdummy]
    have hdestroy : step { s₂.destroy dummy with que := first :: rest } (.destroy value) =
        some (({ s₂.destroy dummy with que := first :: rest } : State Loc).destroy value) := by
      simp [step, State.destroy, halive, (hvq dummy (by simp)).symm]
    exact exec_cons_eq_some.mpr ⟨_, hcopy, exec_cons_eq_some.mpr ⟨_, hassign,
      exec_cons_eq_some.mpr ⟨_, hpop, exec_cons_eq_some.mpr ⟨_, hdestroy, rfl⟩⟩⟩⟩
  · refine ⟨rfl, ?_, fun x hx => ?_, ?_⟩
    · simp [hfrest, hrest]
    · have hmem := h.alive x (List.mem_cons_of_mem _ hx)
      have hd : x ≠ dummy := by
        rintro rfl
        exact (List.nodup_cons.mp h.nodup).1 hx
      simp [State.destroy, halive, hvq x (List.mem_cons_of_mem _ hx), hd, hmem]
    · have hnull : s₂.field first = null := by
        rw [hfield, if_neg (hvq first (by simp)), if_neg (hoq first (by simp)), if_pos rfl]
      simp [State.destroy, hnull, null]
  · ext x
    simp only [State.destroy, halive, Finset.mem_erase, Finset.mem_insert]
    constructor
    · rintro ⟨hxv, hxd, hx⟩
      exact ⟨hxd, hx.resolve_left hxv⟩
    · rintro ⟨hxd, hx⟩
      exact ⟨ne_of_mem_of_not_mem hx hvalue, hxd, .inr hx⟩
  · change s₂.field output = s.field first
    rw [hfield, if_neg hov, if_pos rfl]
  · change s₂.field x = s.field x
    have hmem : x ∈ dummy :: first :: rest := by simp [hx]
    rw [hfield, if_neg (hvq x hmem), if_neg (hoq x hmem),
      if_neg (ne_of_mem_of_not_mem hx hfrest)]

theorem Queued.consume (h : Queued s dummy (first :: rest)) (hvalue : value ∉ s.alive)
    (houtput : output ∉ s.alive) (hne : value ≠ output) :
    ∃ s', exec step s (consume value output) = some s' ∧ Queued s' first rest ∧
      value ∉ s'.alive ∧ output ∉ s'.alive ∧ s'.field output = s.field first ∧
      ∀ x ∈ rest, s'.field x = s.field x := by
  have hkeep : ∀ x ∈ dummy :: first :: rest, x ≠ output := fun x hx =>
    ne_of_mem_of_not_mem (h.alive x hx) houtput
  have hfield : ∀ x ∈ dummy :: first :: rest,
      (s.place output ⟨(s.field output).task, true⟩).field x = s.field x := fun x hx => by
    simp [State.place, State.put, hkeep x hx]
  have hqueued : Queued (s.place output ⟨(s.field output).task, true⟩) dummy (first :: rest) := by
    refine ⟨h.que, h.nodup, fun x hx => Finset.mem_insert_of_mem (h.alive x hx), ?_⟩
    rw [hfield dummy (by simp)]
    exact h.dummy_null
  have hvalue' : value ∉ (s.place output ⟨(s.field output).task, true⟩).alive := by
    simp [State.place, hne, hvalue]
  obtain ⟨s', hpop, hqueued', halive, hout, hrest⟩ := hqueued.pop hvalue'
    (Finset.mem_insert_self _ _) fun hmem => houtput (h.alive output hmem)
  have hdefault : step s (.default output) =
      some (s.place output ⟨(s.field output).task, true⟩) := by simp [step, houtput]
  have hodummy : output ≠ dummy := (hkeep dummy (by simp)).symm
  have hdestroy : step s' (.destroy output) = some (s'.destroy output) := by
    simp [step, halive, State.place, hodummy]
  refine ⟨s'.destroy output, ?_, ⟨hqueued'.que, hqueued'.nodup, fun x hx => ?_,
    hqueued'.dummy_null⟩, ?_, Finset.notMem_erase _ _, ?_, fun x hx => ?_⟩
  · exact exec_cons_eq_some.mpr ⟨_, hdefault, exec_append_eq_some.mpr ⟨s', hpop,
      exec_cons_eq_some.mpr ⟨_, hdestroy, rfl⟩⟩⟩
  · exact Finset.mem_erase.mpr ⟨hkeep x (List.mem_cons_of_mem _ hx), hqueued'.alive x hx⟩
  · simp [State.destroy, halive, State.place, hne, hvalue]
  · exact hout.trans (hfield first (by simp))
  · exact (hrest x hx).trans (hfield x (by simp [hx]))

/-- The destructor of a TaskSerializer whose last task was not run: the `Pop` that fails leaves
the pointer of that task in the place of `ConsumeOne`'s value, and it is deleted again. -/
theorem clear_not_fit (h : Queued s dummy nodes) (hvalue : value ∉ s.alive)
    (houtput : output ∉ s.alive) (hne : value ≠ output)
    (hlast : (s.field (nodes.getLast?.getD output)).task ≠ 0) :
    ¬ Along Fit step s (clear value output nodes.length) := by
  induction nodes generalizing s dummy with
  | nil =>
    intro hfit
    have hdefault : step s (.default output) =
        some (s.place output ⟨(s.field output).task, true⟩) := by simp [step, houtput]
    have hdestroy := (along_cons.mp hfit _ hdefault).2
    have hstep : step (s.place output ⟨(s.field output).task, true⟩) (.destroy output) =
        some ((s.place output ⟨(s.field output).task, true⟩).destroy output) := by
      simp [step, State.place]
    have hnull := (along_cons.mp hdestroy _ hstep).1
    exact hlast (by simpa [Fit, Destructible, State.place, State.put] using hnull)
  | cons first rest ih =>
    intro hfit
    obtain ⟨s', hrun, hqueued, hvalue', houtput', hout, hrest⟩ := h.consume hvalue houtput hne
    refine ih hqueued hvalue' houtput' ?_ (hfit.of_append hrun)
    cases hcase : rest.getLast? with
    | none =>
      obtain rfl := List.getLast?_eq_none_iff.mp hcase
      simpa [hout] using hlast
    | some x =>
      rw [Option.getD_some, hrest x (List.mem_of_getLast? hcase)]
      rw [List.getLast?_cons, hcase] at hlast
      simpa using hlast

example : Along Fit step (init (fun _ => 7) 0) (post 1 2 100 ++ runOne 3 4) := by decide

/-- A task is posted, and the TaskSerializer is destroyed. -/
def postClear : List (Label ℕ) := post 1 2 100 ++ clear 3 4 1

theorem postClear_deletes_twice : ∃ s, exec step (init (fun _ => 0) 0) postClear = some s ∧
    s.models = [100] ∧ s.deleted = [100, 100] ∧ ¬ Owned s := by
  refine ⟨_, rfl, rfl, rfl, fun h => ?_⟩
  have hbalance := h.balance 100 (by decide)
  revert hbalance
  decide

end Bugat.AnyTask
