import Mathlib
import Bugat.Core.RWLockObject

/-!
# RWLockObject: exclusion and wake-ups

The three variables of the lock count the objects that are alive and the writers inside
`LockWrite`. A writer that is blocked while the lock is free has a woken writer beside it, and
a reader is blocked only while there is a writer.
-/

namespace Bugat.RWLockObject

open MachineInt (int32Max)
open Monitor (Phase Blocked Woken waiting notifyOne notifyAll)
open Transition (exec exec_invariant)

variable {Tid : Type*} [DecidableEq Tid] [Fintype Tid] {s s' : State Tid} {t : Tid} {n : ℤ}

structure Inv (s : State Tid) : Prop where
  readerCount : s.readerCount = s.readObjects
  writerCount : s.writerCount = waiting s.phase .writer + s.writeObjects
  active : s.writeObjects = s.writerActive.toNat
  apart : 0 < s.writeObjects → s.readObjects = 0
  readers : Blocked s.phase .reader → 0 < s.writerCount
  witness : Blocked s.phase .writer → s.readObjects = 0 → s.writeObjects = 0 →
    Woken s.phase .writer

inductive Section (s : State Tid) (s' : State Tid) : Prop
  | read (t : Tid) (ht : s.phase t = .running ∨ s.phase t = .woken .reader)
    (hs : s.waitRead t = some s')
  | write (t : Tid) (n : ℤ) (hn : n + (s.phase t).waitsAt .writer = s.writerCount + 1)
    (hs : s' = { s with writerCount := n }.waitWrite t)
  | wakeUp (t : Tid) (c : ConditionVariable) (ht : s.phase t = .blocked c)
    (hs : s' = { s with phase := Function.update s.phase t (.woken c) })
  | unLockRead (wake : Option Tid) (hpos : 0 < s.readObjects) (hs : s.unLockRead wake = some s')
  | unLockWrite (wake : Option Tid) (hpos : 0 < s.writeObjects)
    (hs : s.unLockWrite wake = some s')

theorem increment_eq {m : ℤ} (h : increment n = some m) : m = n + 1 := by
  rw [increment] at h
  split at h
  · exact (Option.some.inj h).symm
  · cases h

theorem step_section {l : Label Tid} (hs : step s l = some s') : Section s s' := by
  cases l with
  | lockRead t =>
    rw [step] at hs
    split at hs
    · exact .read t (.inl ‹_›) hs
    · cases hs
  | lockWrite t =>
    rw [step] at hs
    split at hs
    · rename_i ht
      obtain ⟨n, hn, rfl⟩ := Option.map_eq_some_iff.mp hs
      refine .write t n ?_ rfl
      rw [ht, increment_eq hn]
      exact add_zero _
    · cases hs
  | wakeUp t =>
    rw [step] at hs
    split at hs
    · rename_i c ht
      exact .wakeUp t c ht (Option.some.inj hs).symm
    · cases hs
  | recheck t =>
    rw [step, State.recheck] at hs
    split at hs
    · exact .read t (.inr ‹_›) hs
    · rename_i ht
      refine .write t s.writerCount ?_ (Option.some.inj hs).symm
      rw [ht]
      rfl
    · cases hs
  | unLockRead t wake =>
    rw [step] at hs
    split at hs
    · rename_i ht
      exact .unLockRead wake ht.2 hs
    · cases hs
  | unLockWrite t wake =>
    rw [step] at hs
    split at hs
    · rename_i ht
      exact .unLockWrite wake ht.2 hs
    · cases hs

omit [DecidableEq Tid] in
theorem init_inv : Inv (init : State Tid) where
  readerCount := rfl
  writerCount := by simp [init, waiting, Phase.waitsAt]
  active := rfl
  apart h := absurd h (lt_irrefl 0)
  readers h := by
    obtain ⟨t, ht⟩ := h
    cases ht
  witness h := by
    obtain ⟨t, ht⟩ := h
    cases ht

namespace Inv

omit [DecidableEq Tid] in
theorem inactive (h : Inv s) (hactive : s.writerActive = false) : s.writeObjects = 0 := by
  have hcount := h.active
  rwa [hactive] at hcount

theorem waitRead (h : Inv s) (ht : s.phase t = .running ∨ s.phase t = .woken .reader)
    (hs : s.waitRead t = some s') : Inv s' := by
  have hat : (s.phase t).waitsAt .writer = 0 := by
    rcases ht with ht | ht
    · rw [ht]
      rfl
    · rw [ht]
      rfl
  have hne : s.phase t ≠ .woken .writer := by
    rcases ht with ht | ht
    · rw [ht]
      decide
    · rw [ht]
      decide
  have hwait : ∀ p : Phase ConditionVariable, p.waitsAt .writer = 0 →
      waiting (Function.update s.phase t p) .writer = waiting s.phase .writer := by
    intro p hp
    have hupdate := Monitor.waiting_update s.phase t p .writer
    rwa [hat, hp] at hupdate
  rw [State.waitRead] at hs
  split at hs
  · rename_i hzero
    obtain ⟨n, hn, rfl⟩ := Option.map_eq_some_iff.mp hs
    have hcount := h.writerCount
    refine ⟨?_, ?_, h.active, fun hpos => ?_, fun hb => ?_, fun _ hfree => ?_⟩
    · rw [increment_eq hn, h.readerCount]
      exact (Nat.cast_succ _).symm
    · dsimp only
      rw [hwait _ rfl]
      exact hcount
    · change 0 < s.writeObjects at hpos
      omega
    · obtain ⟨u, hu⟩ := hb
      exact h.readers ⟨u, Monitor.of_update hu (by decide)⟩
    · exact absurd hfree (Nat.succ_ne_zero _)
  · rename_i hne0
    obtain rfl := Option.some.inj hs
    have hcount := h.writerCount
    refine ⟨h.readerCount, ?_, h.active, h.apart, fun _ => ?_, fun hb hreads hwrites => ?_⟩
    · dsimp only
      rw [hwait _ rfl]
      exact hcount
    · change 0 < s.writerCount
      omega
    · obtain ⟨u, hu⟩ := hb
      exact (h.witness ⟨u, Monitor.of_update hu (by decide)⟩ hreads hwrites).update hne

/-- A writer that finds the lock taken blocks, so a free lock has no new writer at it. -/
theorem waitWrite (h : Inv s) (hn : n + (s.phase t).waitsAt .writer = s.writerCount + 1) :
    Inv ({ s with writerCount := n }.waitWrite t) := by
  have hcount := h.writerCount
  have hupdate := fun p => Monitor.waiting_update s.phase t p .writer
  have hle := Monitor.waitsAt_le s.phase t .writer
  have hpos : 0 < n := by omega
  rw [State.waitWrite]
  split
  · rename_i hfree
    have hwrites := h.inactive hfree.2
    have hreads : s.readObjects = 0 := by
      have hreader := h.readerCount
      rw [hfree.1] at hreader
      exact_mod_cast hreader.symm
    have hwait := hupdate .running
    rw [Phase.waitsAt] at hwait
    refine ⟨h.readerCount, ?_, ?_, fun _ => hreads, fun _ => hpos, fun _ _ hzero => ?_⟩
    · dsimp only
      omega
    · dsimp only
      rw [hwrites]
      rfl
    · exact absurd hzero (Nat.succ_ne_zero _)
  · rename_i htaken
    have hwait := hupdate (.blocked .writer)
    rw [Phase.waitsAt, if_pos rfl] at hwait
    refine ⟨h.readerCount, ?_, h.active, h.apart, fun _ => hpos, fun _ hreads hwrites => ?_⟩
    · dsimp only
      omega
    · refine absurd ⟨?_, ?_⟩ htaken
      · rw [h.readerCount]
        exact_mod_cast hreads
      · have hactive := h.active
        rw [hwrites] at hactive
        exact Bool.toNat_eq_zero.mp hactive.symm

theorem wakeUp {c : ConditionVariable} (h : Inv s) (ht : s.phase t = .blocked c) :
    Inv { s with phase := Function.update s.phase t (.woken c) } := by
  have hback : ∀ d, Blocked (Function.update s.phase t (.woken c)) d → Blocked s.phase d := by
    rintro d ⟨u, hu⟩
    exact ⟨u, Monitor.of_update hu (by simp)⟩
  refine ⟨h.readerCount, ?_, h.active, h.apart, fun hb => h.readers (hback _ hb),
    fun hb hreads hwrites => ?_⟩
  · dsimp only
    rw [Monitor.waiting_wake ht]
    exact h.writerCount
  · refine (h.witness (hback _ hb) hreads hwrites).update ?_
    rw [ht]
    simp

theorem unLockRead {wake : Option Tid} (h : Inv s) (hpos : 0 < s.readObjects)
    (hs : s.unLockRead wake = some s') : Inv s' := by
  have hwrites : s.writeObjects = 0 := by
    have hapart := h.apart
    omega
  have hreader : s.readerCount - 1 = ((s.readObjects - 1 : ℕ) : ℤ) := by
    rw [h.readerCount]
    omega
  rw [State.unLockRead] at hs
  dsimp only at hs
  split at hs
  · obtain ⟨phase, hnotify, rfl⟩ := Option.map_eq_some_iff.mp hs
    refine ⟨hreader, ?_, h.active, fun hlive => ?_,
      fun hb => h.readers (Monitor.notifyOne_blocked hnotify hb), fun hb _ _ => ?_⟩
    · dsimp only
      rw [Monitor.notifyOne_waiting hnotify]
      exact h.writerCount
    · change 0 < s.writeObjects at hlive
      omega
    · exact Monitor.notifyOne_woken hnotify hb
  · rename_i hne
    obtain rfl := Option.some.inj hs
    refine ⟨hreader, h.writerCount, h.active, fun hlive => ?_, h.readers, fun _ hzero => ?_⟩
    · change 0 < s.writeObjects at hlive
      omega
    · rw [hreader] at hne
      exact absurd (congrArg Nat.cast hzero) hne

theorem unLockWrite {wake : Option Tid} (h : Inv s) (hpos : 0 < s.writeObjects)
    (hs : s.unLockWrite wake = some s') : Inv s' := by
  have hone : s.writeObjects ≤ 1 := h.active ▸ Bool.toNat_le s.writerActive
  have hcount := h.writerCount
  rw [State.unLockWrite] at hs
  dsimp only at hs
  split at hs
  · rename_i hmore
    obtain ⟨phase, hnotify, rfl⟩ := Option.map_eq_some_iff.mp hs
    refine ⟨h.readerCount, ?_, ?_, fun hlive => ?_, fun _ => hmore, fun hb _ _ => ?_⟩
    · dsimp only
      rw [Monitor.notifyOne_waiting hnotify]
      omega
    · change s.writeObjects - 1 = 0
      omega
    · change 0 < s.writeObjects - 1 at hlive
      omega
    · exact Monitor.notifyOne_woken hnotify hb
  · rename_i hlast
    obtain rfl := Option.some.inj hs
    refine ⟨h.readerCount, ?_, ?_, fun hlive => ?_, fun hb => ?_, fun hb _ _ => ?_⟩
    · dsimp only
      rw [Monitor.waiting_notifyAll]
      omega
    · change s.writeObjects - 1 = 0
      omega
    · change 0 < s.writeObjects - 1 at hlive
      omega
    · exact absurd hb Monitor.not_blocked_notifyAll
    · have hwait := Monitor.waiting_pos_of_blocked (Monitor.blocked_notifyAll hb)
      omega

theorem step {l : Label Tid} (h : Inv s) (hs : step s l = some s') : Inv s' := by
  cases step_section hs with
  | read t ht hs => exact h.waitRead ht hs
  | write t n hn hs =>
    subst hs
    exact h.waitWrite hn
  | wakeUp t c ht hs =>
    subst hs
    exact h.wakeUp ht
  | unLockRead wake hpos hs => exact h.unLockRead hpos hs
  | unLockWrite wake hpos hs => exact h.unLockWrite hpos hs

end Inv

theorem exec_inv {ls : List (Label Tid)} (hrun : exec step init ls = some s) : Inv s :=
  exec_invariant (fun _ _ _ h hs => h.step hs) init_inv hrun

theorem step_admits {l : Label Tid} (hs : step s l = some s')
    (hmore : s.readObjects < s'.readObjects) : s.writerCount = 0 := by
  cases step_section hs with
  | read t ht hs =>
    rw [State.waitRead] at hs
    split at hs
    · assumption
    · obtain rfl := Option.some.inj hs
      exact absurd hmore (lt_irrefl _)
  | write t n hn hs =>
    subst hs
    rw [State.waitWrite] at hmore
    split at hmore
    · exact absurd hmore (lt_irrefl _)
    · exact absurd hmore (lt_irrefl _)
  | wakeUp t c ht hs =>
    subst hs
    exact absurd hmore (lt_irrefl _)
  | unLockRead wake hpos hs =>
    rw [State.unLockRead] at hs
    dsimp only at hs
    split at hs
    · obtain ⟨phase, -, rfl⟩ := Option.map_eq_some_iff.mp hs
      exact absurd hmore (Nat.not_lt.mpr (Nat.sub_le _ _))
    · obtain rfl := Option.some.inj hs
      exact absurd hmore (Nat.not_lt.mpr (Nat.sub_le _ _))
  | unLockWrite wake hpos hs =>
    rw [State.unLockWrite] at hs
    dsimp only at hs
    split at hs
    · obtain ⟨phase, -, rfl⟩ := Option.map_eq_some_iff.mp hs
      exact absurd hmore (lt_irrefl _)
    · obtain rfl := Option.some.inj hs
      exact absurd hmore (lt_irrefl _)

/-- A thread that is blocked while the lock is free is not alone: some thread is woken. -/
def NoLostWakeup (s : State Tid) : Prop :=
  s.readObjects = 0 → s.writeObjects = 0 → (∀ t c, s.phase t ≠ .woken c) →
    ∀ t c, s.phase t ≠ .blocked c

omit [DecidableEq Tid] in
theorem Inv.noLostWakeup (h : Inv s) : NoLostWakeup s := by
  intro hreads hwrites hwoken t c ht
  have hwriter : ¬ Blocked s.phase .writer := by
    intro hb
    obtain ⟨u, hu⟩ := h.witness hb hreads hwrites
    exact hwoken u .writer hu
  cases c with
  | writer => exact hwriter ⟨t, ht⟩
  | reader =>
    have hpos := h.readers ⟨t, ht⟩
    have hcount := h.writerCount
    have hzero : waiting s.phase .writer = 0 := by
      apply Finset.sum_eq_zero
      intro u _
      cases hu : s.phase u with
      | running => rfl
      | blocked d =>
        cases d with
        | reader => rfl
        | writer => exact absurd ⟨u, hu⟩ hwriter
      | woken d => exact absurd hu (hwoken u d)
    omega

structure Exclusive (s : State Tid) : Prop where
  one_writer : s.writeObjects ≤ 1
  apart : 0 < s.writeObjects → s.readObjects = 0
  readerCount : s.readerCount = s.readObjects
  writerCount : s.writerCount = waiting s.phase .writer + s.writeObjects
  gate : ∀ l s', step s l = some s' → s.readObjects < s'.readObjects →
    waiting s.phase .writer = 0 ∧ s.writeObjects = 0

theorem Inv.exclusive (h : Inv s) : Exclusive s := by
  refine ⟨h.active ▸ Bool.toNat_le s.writerActive, h.apart, h.readerCount, h.writerCount, ?_⟩
  intro l s' hs hmore
  have hzero := step_admits hs hmore
  have hcount := h.writerCount
  omega

theorem no_lost_wakeup (ls : List (Label Tid)) (s : State Tid)
    (hrun : exec step init ls = some s) : NoLostWakeup s :=
  (exec_inv hrun).noLostWakeup

theorem readers_and_writers_exclude (ls : List (Label Tid)) (s : State Tid)
    (hrun : exec step init ls = some s) : Exclusive s :=
  (exec_inv hrun).exclusive

/-- A writer is woken and overtaken by another one; both leave, and a reader that has waited for
them gets the lock. -/
def overtaken : List (Label (Fin 4)) :=
  [.lockRead 0, .lockWrite 1, .lockRead 3, .unLockRead 0 (some 1), .lockWrite 2, .recheck 1,
    .wakeUp 3, .recheck 3, .unLockWrite 2 (some 1), .recheck 1, .unLockWrite 1 none, .recheck 3]

theorem overtaken_wakes : ∃ s : State (Fin 4), exec step init overtaken = some s ∧
    NoLostWakeup s ∧ s.readObjects = 1 := by
  have h : (exec step (init : State (Fin 4)) overtaken).map State.readObjects = some 1 := by
    decide
  obtain ⟨s, hrun, hs⟩ := Option.map_eq_some_iff.mp h
  exact ⟨s, hrun, no_lost_wakeup overtaken s hrun, hs⟩

theorem overtaken_excludes : ∃ s : State (Fin 4),
    exec step init (overtaken.take 9) = some s ∧ Exclusive s ∧ s.writerCount = 1 := by
  have h : (exec step (init : State (Fin 4)) (overtaken.take 9)).map State.writerCount =
      some 1 := by
    decide
  obtain ⟨s, hrun, hs⟩ := Option.map_eq_some_iff.mp h
  exact ⟨s, hrun, readers_and_writers_exclude _ s hrun, hs⟩

end Bugat.RWLockObject
