import Mathlib
import Bugat.Core.MemoryPool

/-!
# ObjectPool: the lives of the pooled objects

`Get` takes a block from the pool, constructs an object in it by placement new and returns a
`shared_ptr` whose deleter is `Release`. Copies of the pointer are made and dropped anywhere.
Objects are numbered in the order of their construction, and the log lists what happens to
them. The destructor of an object is an event of its own: `Release` only gives the block back.
-/

namespace Bugat

open Transition (exec Along Throughout throughout_iff_along_of_step)

namespace ObjectPool

inductive Event
  | construct (n : ℕ)
  | destroy (n : ℕ)
  | release (n : ℕ)
  deriving DecidableEq, Repr

end ObjectPool

structure ObjectPool (Ty : Type*) where
  pool : MemoryPool.State Ty
  objects : List ℕ
  useCount : ℕ → ℕ
  log : List ObjectPool.Event

namespace ObjectPool

open MemoryPool (Legal poolIndex)

variable {Ty : Type*} (sizeof : Ty → ℕ) (T : Ty) (count : ℕ)

inductive Label
  | get (c : ℕ)
  | write (n offset value : ℕ)
  | copy (n : ℕ)
  | drop (n : ℕ)

def init (word : ℕ → ℕ) : ObjectPool Ty := ⟨MemoryPool.init word, [], fun _ => 0, []⟩

section Step

variable [DecidableEq Ty]

def get (s : ObjectPool Ty) (c : ℕ) : Option (ObjectPool Ty) :=
  (s.pool.get sizeof T count c).map fun (pool, ptr) =>
    { pool := pool
      objects := s.objects ++ [ptr]
      useCount := Function.update s.useCount s.objects.length 1
      log := s.log ++ [.construct s.objects.length] }

def release (s : ObjectPool Ty) (n : ℕ) : Option (ObjectPool Ty) :=
  (s.pool.release sizeof T (s.objects.getD n 0)).map fun pool =>
    { s with pool := pool, log := s.log ++ [.release n] }

def setCount (s : ObjectPool Ty) (n k : ℕ) : ObjectPool Ty :=
  { s with useCount := Function.update s.useCount n k }

def drop (s : ObjectPool Ty) (n : ℕ) : Option (ObjectPool Ty) :=
  match s.useCount n with
  | 0 => none
  | 1 => (s.setCount n 0).release sizeof T n
  | k + 2 => some (s.setCount n (k + 1))

def step (s : ObjectPool Ty) : Label → Option (ObjectPool Ty)
  | .get c => if Legal sizeof s.pool (.get T count c) then s.get sizeof T count c else none
  | .write n offset value =>
    if 0 < s.useCount n then
      (MemoryPool.step sizeof s.pool (.write T (s.objects.getD n 0) offset value)).map
        fun pool => { s with pool := pool }
    else none
  | .copy n => if 0 < s.useCount n then some (s.setCount n (s.useCount n + 1)) else none
  | .drop n => s.drop sizeof T n

end Step

/-- The destructor runs once, after the last drop and before the block goes back. -/
def PairedAt (s : ObjectPool Ty) (n : ℕ) : Prop :=
  if 0 < s.useCount n then .destroy n ∉ s.log
  else s.log.count (.destroy n) = 1 ∧
    ∃ before after, s.log = before ++ .release n :: after ∧ .destroy n ∈ before

def Paired (s : ObjectPool Ty) : Prop := ∀ n < s.objects.length, s.PairedAt n

/-- Each drop leaves another pointer to the object. -/
def KeepsPointer (s : ObjectPool Ty) : Label → Prop
  | .drop n => 2 ≤ s.useCount n
  | _ => True

instance (s : ObjectPool Ty) : (l : Label) → Decidable (s.KeepsPointer l)
  | .get _ | .write _ _ _ | .copy _ => isTrue trivial
  | .drop _ => inferInstanceAs (Decidable (2 ≤ _))

structure Inv (s : ObjectPool Ty) : Prop where
  undestroyed : ∀ n, .destroy n ∉ s.log
  numbered : ∀ n, 0 < s.useCount n → n < s.objects.length
  pool : s.objects ≠ [] → s.pool.pools (poolIndex (sizeof T)) ≠ none

variable {sizeof T count} {s s' : ObjectPool Ty} {l : Label}

/-- No step runs a destructor, so what is still referenced is all that is right. -/
theorem Inv.paired_iff (h : Inv sizeof T s) :
    s.Paired ↔ ∀ n < s.objects.length, 0 < s.useCount n := by
  refine forall₂_congr fun n _ => ?_
  rw [PairedAt]
  split
  · rename_i hpos
    exact iff_of_true (h.undestroyed n) hpos
  · rename_i hzero
    refine iff_of_false (fun hpaired => ?_) hzero
    have hmem : Event.destroy n ∈ s.log := List.count_pos_iff.mp (by omega)
    exact h.undestroyed n hmem

theorem inv_init (word : ℕ → ℕ) : Inv sizeof T (init word) where
  undestroyed _ := List.not_mem_nil
  numbered _ hn := absurd hn (lt_irrefl 0)
  pool hne := absurd rfl hne

theorem undestroyed_append (h : ∀ n, Event.destroy n ∉ s.log) {e : Event}
    (he : ∀ n, e ≠ .destroy n) (n : ℕ) : .destroy n ∉ s.log ++ [e] := by
  rw [List.mem_append, List.mem_singleton, not_or]
  exact ⟨h n, fun heq => he n heq.symm⟩

@[simp] theorem setCount_self (s : ObjectPool Ty) (n k : ℕ) : (s.setCount n k).useCount n = k := by
  simp [setCount]

theorem setCount_of_ne {n i : ℕ} (h : i ≠ n) (k : ℕ) :
    (s.setCount n k).useCount i = s.useCount i := by
  simp [setCount, h]

theorem Inv.setCount (h : Inv sizeof T s) {n : ℕ} (hpos : 0 < s.useCount n) (k : ℕ) :
    Inv sizeof T (s.setCount n k) where
  undestroyed := h.undestroyed
  numbered i hi := by
    by_cases heq : i = n
    · subst heq
      exact h.numbered i hpos
    · rw [setCount_of_ne heq] at hi
      exact h.numbered i hi
  pool := h.pool

theorem get_pool {pool pool' : MemoryPool.State Ty} {c ptr : ℕ}
    (h : pool.get sizeof T count c = some (pool', ptr)) :
    pool'.pools (poolIndex (sizeof T)) ≠ none := by
  obtain ⟨⟨p, m, b⟩, -, heq⟩ := Option.map_eq_some_iff.mp h
  obtain ⟨rfl, -⟩ := Prod.mk.inj heq
  simp

def Referenced (s : ObjectPool Ty) : Prop := ∀ n < s.objects.length, 0 < s.useCount n

theorem referenced_setCount (href : s.Referenced) {n k : ℕ} (hn : n < s.objects.length) :
    (s.setCount n k).Referenced ↔ 0 < k := by
  refine ⟨fun h => ?_, fun hk i hi => ?_⟩
  · have hcount := h n hn
    rwa [setCount_self] at hcount
  · by_cases heq : i = n
    · subst heq
      rwa [setCount_self]
    · rw [setCount_of_ne heq]
      exact href i hi

theorem Inv.get (h : Inv sizeof T s) {c : ℕ} (hs : s.get sizeof T count c = some s') :
    Inv sizeof T s' := by
  obtain ⟨⟨pool, ptr⟩, hpool, rfl⟩ := Option.map_eq_some_iff.mp hs
  refine ⟨undestroyed_append h.undestroyed (by simp), fun n hn => ?_, fun _ => get_pool hpool⟩
  rw [List.length_append, List.length_singleton]
  by_cases heq : n = s.objects.length
  · omega
  · dsimp only at hn
    rw [Function.update_of_ne heq] at hn
    exact (h.numbered n hn).trans (Nat.lt_succ_self _)

section Runs

variable [DecidableEq Ty]

theorem release_pool {pool pool' : MemoryPool.State Ty} {ptr : ℕ}
    (h : pool.release sizeof T ptr = some pool') :
    pool'.pools (poolIndex (sizeof T)) ≠ none := by
  obtain ⟨p, -, rfl⟩ := Option.map_eq_some_iff.mp h
  simp

theorem write_pool {pool pool' : MemoryPool.State Ty} {ptr offset value : ℕ}
    (h : MemoryPool.step sizeof pool (.write T ptr offset value) = some pool') :
    pool'.pools = pool.pools := by
  simp only [MemoryPool.step] at h
  split_ifs at h
  obtain rfl := Option.some.inj h
  rfl

theorem Inv.release (h : Inv sizeof T s) {n : ℕ} (hs : s.release sizeof T n = some s') :
    Inv sizeof T s' := by
  obtain ⟨pool, hpool, rfl⟩ := Option.map_eq_some_iff.mp hs
  exact ⟨undestroyed_append h.undestroyed (by simp), h.numbered, fun _ => release_pool hpool⟩

theorem Inv.step (h : Inv sizeof T s) (hs : step sizeof T count s l = some s') :
    Inv sizeof T s' := by
  cases l with
  | get c =>
    simp only [ObjectPool.step] at hs
    split_ifs at hs
    exact h.get hs
  | write n offset value =>
    simp only [ObjectPool.step] at hs
    split_ifs at hs
    obtain ⟨pool, hpool, rfl⟩ := Option.map_eq_some_iff.mp hs
    exact ⟨h.undestroyed, h.numbered, fun hne => (write_pool hpool).symm ▸ h.pool hne⟩
  | copy n =>
    simp only [ObjectPool.step] at hs
    split_ifs at hs with hpos
    obtain rfl := Option.some.inj hs
    exact h.setCount hpos _
  | drop n =>
    simp only [ObjectPool.step, ObjectPool.drop] at hs
    split at hs
    · cases hs
    · rename_i hone
      exact (h.setCount (by omega) 0).release hs
    · rename_i k htwo
      obtain rfl := Option.some.inj hs
      exact h.setCount (by omega) _

theorem Inv.drop_enabled (h : Inv sizeof T s) {n : ℕ} (hpos : 0 < s.useCount n) :
    ∃ s', ObjectPool.step sizeof T count s (.drop n) = some s' := by
  have hne : s.objects ≠ [] := List.ne_nil_of_length_pos (by have := h.numbered n hpos; omega)
  obtain ⟨p, hp⟩ := Option.ne_none_iff_exists'.mp (h.pool hne)
  simp only [ObjectPool.step, ObjectPool.drop]
  split
  · omega
  · simp [ObjectPool.release, ObjectPool.setCount, MemoryPool.State.release, hp]
  · exact ⟨_, rfl⟩

theorem referenced_iff (h : Inv sizeof T s) (href : s.Referenced)
    (hs : step sizeof T count s l = some s') : s'.Referenced ↔ s.KeepsPointer l := by
  cases l with
  | get c =>
    simp only [ObjectPool.step] at hs
    split_ifs at hs
    obtain ⟨⟨pool, ptr⟩, -, rfl⟩ := Option.map_eq_some_iff.mp hs
    refine iff_of_true (fun n hn => ?_) trivial
    rw [List.length_append, List.length_singleton] at hn
    dsimp only
    by_cases heq : n = s.objects.length
    · rw [heq, Function.update_self]
      exact Nat.one_pos
    · rw [Function.update_of_ne heq]
      exact href n (by omega)
  | write n offset value =>
    simp only [ObjectPool.step] at hs
    split_ifs at hs
    obtain ⟨pool, -, rfl⟩ := Option.map_eq_some_iff.mp hs
    exact iff_of_true href trivial
  | copy n =>
    simp only [ObjectPool.step] at hs
    split_ifs at hs with hpos
    obtain rfl := Option.some.inj hs
    exact iff_of_true ((referenced_setCount href (h.numbered n hpos)).mpr (Nat.succ_pos _)) trivial
  | drop n =>
    simp only [ObjectPool.step, ObjectPool.drop] at hs
    simp only [KeepsPointer]
    split at hs
    · cases hs
    · rename_i hone
      obtain ⟨pool, -, rfl⟩ := Option.map_eq_some_iff.mp hs
      have hn := h.numbered n (by omega)
      refine iff_of_false (fun hall => ?_) (by omega)
      exact lt_irrefl 0 ((referenced_setCount href hn).mp hall)
    · rename_i k htwo
      obtain rfl := Option.some.inj hs
      have hn := h.numbered n (by omega)
      exact iff_of_true ((referenced_setCount href hn).mpr (Nat.succ_pos k)) (by omega)

/-- Every object of a run is destroyed as it should be just when none loses its last pointer. -/
theorem paired_iff_keeps_pointer (sizeof : Ty → ℕ) (T : Ty) (count : ℕ) (word : ℕ → ℕ)
    (ls : List Label) : Throughout Paired (step sizeof T count) (init word) ls ↔
      Along KeepsPointer (step sizeof T count) (init word) ls := by
  have hinit : (init word : ObjectPool Ty).Paired := fun n hn => absurd hn (Nat.not_lt_zero n)
  have hiff : ∀ s l t, Inv sizeof T s ∧ s.Paired → step sizeof T count s l = some t →
      (t.Paired ↔ s.KeepsPointer l) := by
    intro s l t hI hs
    rw [(hI.1.step hs).paired_iff]
    exact referenced_iff hI.1 (hI.1.paired_iff.mp hI.2) hs
  exact throughout_iff_along_of_step (I := fun s => Inv sizeof T s ∧ s.Paired) (fun s hI => hI.2)
    (fun s l t hI hok hs => ⟨hI.1.step hs, (hiff s l t hI hs).mpr hok⟩) hiff
    ⟨inv_init word, hinit⟩

end Runs

def getDropGet : List Label := [.get 4096, .drop 0, .get 8192]

theorem getDropGet_undestroyed :
    ((exec (step (fun _ => 16) () 4) (init fun _ => 0) getDropGet).map
      fun s => (s.objects, s.log, s.useCount 0)) =
        some ([4160, 4160], [.construct 0, .release 0, .construct 1], 0) ∧
    ¬ Throughout Paired (step (fun _ => 16) () 4) (init fun _ => 0) getDropGet := by
  have hrun : ((exec (step (fun _ => 16) () 4) (init fun _ => 0) getDropGet).map
      fun s => (s.objects, s.log, s.useCount 0)) =
        some ([4160, 4160], [.construct 0, .release 0, .construct 1], 0) := by decide +kernel
  refine ⟨hrun, fun h => ?_⟩
  obtain ⟨s, hs, hdata⟩ := Option.map_eq_some_iff.mp hrun
  simp only [Prod.mk.injEq] at hdata
  obtain ⟨hobjects, hlog, hcount⟩ := hdata
  have hpaired := h.last hs 0 (by simp [hobjects])
  rw [PairedAt, if_neg (by omega), hlog] at hpaired
  exact absurd hpaired.1 (by decide)

end ObjectPool

end Bugat
