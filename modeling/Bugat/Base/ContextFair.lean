import Mathlib
import Bugat.Lib.Fairness
import Bugat.Base.ContextEntries

/-!
# Every posted object is run

A Context that is never stopped runs for ever. As long as every worker inside `Run` gets its
turn and no compare-exchange loop fails for ever, each queue comes round: its slot is swapped,
the worker that swapped it out puts it into the waiting queue, and the worker that takes it from
there drains it.
-/

open scoped BigOperators

namespace Bugat.Context

open Fairness (Run Enabled eventually_of_rank)
open WorkerPc (hand Holds Drains)

variable {n : ℕ} {Tid Pid Obj : Type*}

def Label.actor : Label Tid Pid Obj → Option Tid
  | .enter t _ | .testStop t | .swapIndex t | .load t | .exchange t | .push t | .pop t
  | .popObject t | .objectRuns t _ | .objectThrows t | .delete t => some t
  | .post _ _ | .postLoad _ | .postPush _ | .stop => none

variable [DecidableEq Tid] [DecidableEq Pid] [NeZero n] {s s' : State n Tid Pid Obj}
  {l : Label Tid Pid Obj} {t : Tid}

inductive OwnStep (s : State n Tid Pid Obj) (l : Label Tid Pid Obj) (t : Tid)
    (s' : State n Tid Pid Obj) : WorkerPc n Obj → WorkerPc n Obj → Prop
  | testStop (localQue : Option Addr) : OwnStep s l t s' (.top localQue) (.swapIndex localQue)
  | swapIndex (localQue : Option Addr) (hl : l = .swapIndex t)
      (hcounter : s'.swapCounter = (s.swapCounter + 1) % 2 ^ 32) :
      OwnStep s l t s' (.swapIndex localQue) (.load localQue (slotIndex s.swapCounter))
  | load (localQue : Option Addr) (i : Fin n) :
      OwnStep s l t s' (.load localQue i) (.exchange localQue i (s.globalQue i))
  | exchangeFails (localQue expect : Option Addr) (i : Fin n) :
      OwnStep s l t s' (.exchange localQue i expect) (.exchange localQue i (s.globalQue i))
  | exchange (localQue : Option Addr) (i : Fin n)
      (hque : s'.globalQue = Function.update s.globalQue i localQue) :
      OwnStep s l t s' (.exchange localQue i (s.globalQue i)) (.push localQue (s.globalQue i))
  | push (localQue expect : Option Addr) (hwait : s'.waitQue = s.waitQue ++ [expect]) :
      OwnStep s l t s' (.push localQue expect) (.pop localQue)
  | pop (localQue q : Option Addr) (hl : l = .pop t) (hwait : s.waitQue = q :: s'.waitQue) :
      OwnStep s l t s' (.pop localQue) (.drain q 0)
  | drained (a : Addr) (count : ℕ) (ha : s.content a = []) :
      OwnStep s l t s' (.drain (some a) count) (.top (some a))
  | skips (a : Addr) (count : ℕ) (rest : List (Option Obj)) (hl : l = .popObject t)
      (ha : s.content a = none :: rest)
      (hcontent : s'.content = Function.update s.content a rest) :
      OwnStep s l t s' (.drain (some a) count) (.drain (some a) count)
  | takes (a : Addr) (count : ℕ) (obj : Obj) (rest : List (Option Obj)) (hl : l = .popObject t)
      (ha : s.content a = some obj :: rest)
      (hcontent : s'.content = Function.update s.content a rest) :
      OwnStep s l t s' (.drain (some a) count) (.execute (some a) count)
  | runs (q : Option Addr) (count executed : ℕ) (hcontent : s'.content = s.content) :
      OwnStep s l t s' (.execute q count) (.drain q (count + executed))
  | throws (q : Option Addr) (count : ℕ) : OwnStep s l t s' (.execute q count) (.top q)

theorem worker_of_other (hs : step s l = some s') (ht : l.actor ≠ some t) :
    s'.worker t = s.worker t := by
  have hother : ∀ u (pc : WorkerPc n Obj), some u ≠ some t →
      Function.update s.worker u pc t = s.worker t := by
    intro u pc hut
    exact Function.update_of_ne (fun h => hut (congrArg some h.symm)) ..
  cases l with
  | enter u a =>
    simp only [step] at hs
    split at hs
    · split at hs
      · cases hs
      · obtain rfl := Option.some.inj hs
        exact hother u _ ht
    · cases hs
  | testStop u =>
    simp only [step] at hs
    split at hs
    · split at hs
      · obtain rfl := Option.some.inj hs
        exact hother u _ ht
      split at hs <;> obtain rfl := Option.some.inj hs <;> exact hother u _ ht
    · cases hs
  | swapIndex u | load u | push u | objectRuns u k | objectThrows u =>
    simp only [step] at hs
    split at hs
    · obtain rfl := Option.some.inj hs
      exact hother u _ ht
    · cases hs
  | exchange u =>
    simp only [step] at hs
    split at hs
    · obtain rfl := Option.some.inj hs
      rw [State.exchange]
      split <;> exact hother u _ ht
    · cases hs
  | pop u =>
    simp only [step] at hs
    split at hs
    · obtain rfl := Option.some.inj hs
      rw [State.pop]
      split <;> exact hother u _ ht
    · cases hs
  | popObject u =>
    simp only [step] at hs
    split at hs
    · obtain rfl := Option.some.inj hs
      rw [State.popObject]
      split
      · exact hother u _ ht
      · rfl
      · exact hother u _ ht
    · cases hs
  | delete u =>
    simp only [step] at hs
    split at hs
    · obtain rfl := Option.some.inj hs
      exact hother u _ ht
    · obtain rfl := Option.some.inj hs
      exact hother u _ ht
    · cases hs
  | post p obj | postLoad p | postPush p =>
    simp only [step] at hs
    split at hs
    · obtain rfl := Option.some.inj hs
      rfl
    · cases hs
  | stop =>
    obtain rfl := Option.some.inj hs
    rfl

omit [DecidableEq Pid] [NeZero n] in
theorem setWorker_self (pc : WorkerPc n Obj) : (s.setWorker t pc).worker t = pc :=
  Function.update_self ..

omit [DecidableEq Pid] in
theorem exchange_own {localQue expect : Option Addr} {i : Fin n} :
    OwnStep s (.exchange t) t (s.exchange t localQue i expect) (.exchange localQue i expect)
      ((s.exchange t localQue i expect).worker t) := by
  rw [State.exchange]
  split
  · rename_i heq
    subst heq
    simp only [State.setWorker, Function.update_self]
    exact .exchange localQue i rfl
  · simp only [State.setWorker, Function.update_self]
    exact .exchangeFails localQue expect i

omit [DecidableEq Pid] in
theorem popObject_own {a : Addr} {count : ℕ} (hworker : s.worker t = .drain (some a) count) :
    OwnStep s (.popObject t) t (s.popObject t a count) (.drain (some a) count)
      ((s.popObject t a count).worker t) := by
  rw [State.popObject]
  split
  · rename_i ha
    simp only [State.setWorker, Function.update_self]
    exact .drained a count ha
  · rename_i rest ha
    simp only [hworker]
    exact .skips a count rest rfl ha rfl
  · rename_i obj rest ha
    simp only [State.setWorker, Function.update_self]
    exact .takes a count obj rest rfl ha rfl

variable [Fintype Tid]

theorem step_own (hown : Owned s) (hrunning : s.stop = false) (hin : s.worker t ≠ .outside)
    (hdoomed : (s.worker t).doomed = none) (hs : step s l = some s') (hl : l.actor = some t) :
    OwnStep s l t s' (s.worker t) (s'.worker t) := by
  cases l with
  | enter u a =>
    cases hl
    simp only [step] at hs
    cases hs
  | testStop u =>
    cases hl
    simp only [step] at hs
    split at hs
    · rename_i localQue hworker
      rw [hrunning] at hs
      simp only [Bool.false_eq_true, if_false] at hs
      split at hs
      · rename_i hnone
        have hholds := hown.hands t
        rw [hworker, hnone] at hholds
        exact absurd rfl hholds
      · obtain rfl := Option.some.inj hs
        rw [hworker, setWorker_self]
        exact .testStop localQue
    · cases hs
  | swapIndex u =>
    cases hl
    simp only [step] at hs
    split at hs
    · rename_i localQue hworker
      obtain rfl := Option.some.inj hs
      rw [hworker]
      simp only [State.swapIndex, State.setWorker, Function.update_self]
      exact .swapIndex localQue rfl rfl
    · cases hs
  | load u =>
    cases hl
    simp only [step] at hs
    split at hs
    · rename_i localQue i hworker
      obtain rfl := Option.some.inj hs
      rw [hworker, setWorker_self]
      exact .load localQue i
    · cases hs
  | exchange u =>
    cases hl
    simp only [step] at hs
    split at hs
    · rename_i hworker
      obtain rfl := Option.some.inj hs
      rw [hworker]
      exact exchange_own
    · cases hs
  | push u =>
    cases hl
    simp only [step] at hs
    split at hs
    · rename_i localQue expect hworker
      obtain rfl := Option.some.inj hs
      rw [hworker]
      simp only [State.push, State.setWorker, Function.update_self]
      exact .push localQue expect rfl
    · cases hs
  | pop u =>
    cases hl
    simp only [step] at hs
    split at hs
    · rename_i localQue hworker
      obtain rfl := Option.some.inj hs
      rw [hworker, State.pop]
      split
      · rename_i hempty
        exact absurd hempty (hown.wait_ne_nil hworker)
      · rename_i q rest hwait
        simp only [State.setWorker, Function.update_self]
        exact .pop localQue q rfl hwait
    · cases hs
  | popObject u =>
    cases hl
    simp only [step] at hs
    split at hs
    · rename_i a count hworker
      obtain rfl := Option.some.inj hs
      rw [hworker]
      exact popObject_own hworker
    · cases hs
  | objectRuns u executed =>
    cases hl
    simp only [step] at hs
    split at hs
    · rename_i q count hworker
      obtain rfl := Option.some.inj hs
      rw [hworker, setWorker_self]
      exact .runs q count executed rfl
    · cases hs
  | objectThrows u =>
    cases hl
    simp only [step] at hs
    split at hs
    · rename_i q count hworker
      obtain rfl := Option.some.inj hs
      rw [hworker, setWorker_self]
      exact .throws q count
    · cases hs
  | delete u =>
    cases hl
    simp only [step] at hs
    split at hs
    · rename_i hworker
      have hholds := hown.hands t
      rw [hworker] at hholds
      exact absurd rfl hholds
    · rename_i hworker
      rw [hworker] at hdoomed
      cases hdoomed
    · cases hs
  | _ => cases hl

/-- An endless run of a Context that is not stopped, in which every worker inside `Run` gets its
turn and every loop around a compare-exchange ends. -/
structure FairRun (r : Run (@step n Tid Pid Obj _ _ _)) : Prop where
  start : r.state 0 = initializeContext n
  running : ∀ m, (r.state m).stop = false
  fair : ∀ t, r.WeaklyFair Label.actor t
  ends : ∀ t m, ∃ k ≥ m, ∀ localQue i expect,
    (r.state k).worker t ≠ .exchange localQue i expect

variable {r : Run (@step n Tid Pid Obj _ _ _)} {m : ℕ}

structure Active (s : State n Tid Pid Obj) : Prop where
  kept : Kept s
  undoomed : ∀ t, (s.worker t).doomed = none

theorem Active.of_step (h : Active s) (hrunning : s.stop = false) (hs : step s l = some s') :
    Active s' := by
  have hquiet : StopsQuietly s l := by
    cases l with
    | testStop t =>
      rw [StopsQuietly]
      split
      · intro hstop
        rw [hrunning] at hstop
        cases hstop
      · trivial
    | _ => trivial
  refine ⟨h.kept.step hquiet hs, fun t => Option.eq_none_iff_forall_ne_some.mpr fun a ha => ?_⟩
  have hbefore : (s.worker t).doomed = some a := by
    cases step_touch hs with
    | frame _ _ _ hdoomed | enter _ _ _ _ hdoomed | delete _ _ _ _ _ _ hdoomed =>
      exact hdoomed t a ha
    | stop u localQue hl hu hstop hs =>
      rw [hrunning] at hstop
      cases hstop
    | load p i obj hs => rwa [hs] at ha
    | push p b obj hp hs => rwa [hs] at ha
  rw [h.undoomed t] at hbefore
  cases hbefore

omit [DecidableEq Tid] [DecidableEq Pid] [NeZero n] in
theorem initializeContext_active : Active (initializeContext n : State n Tid Pid Obj) where
  kept := initializeContext_kept
  undoomed t := by
    rw [initializeContext_vacant.2.2 t]
    rfl

theorem FairRun.active (h : FairRun r) (m : ℕ) : Active (r.state m) := by
  induction m with
  | zero => 
    rw [h.start]
    exact initializeContext_active
  | succ m ih => exact ih.of_step (h.running m) (r.next m)

theorem Active.enabled (h : Active s) (hrunning : s.stop = false) (hin : s.worker t ≠ .outside) :
    Enabled step Label.actor t s := by
  have hholds := h.kept.owned.hands t
  cases hpc : s.worker t with
  | outside => exact absurd hpc hin
  | top localQue =>
    refine ⟨.testStop t, rfl, ?_⟩
    simp only [Context.step, hpc, hrunning, Bool.false_eq_true, if_false]
    split <;> rfl
  | swapIndex localQue => exact ⟨.swapIndex t, rfl, by simp only [Context.step, hpc]; rfl⟩
  | load localQue i => exact ⟨.load t, rfl, by simp only [Context.step, hpc]; rfl⟩
  | exchange localQue i expect => exact ⟨.exchange t, rfl, by simp only [Context.step, hpc]; rfl⟩
  | push localQue expect => exact ⟨.push t, rfl, by simp only [Context.step, hpc]; rfl⟩
  | pop localQue => exact ⟨.pop t, rfl, by simp only [Context.step, hpc]; rfl⟩
  | drain localQue count =>
    cases localQue with
    | none =>
      rw [hpc] at hholds
      exact absurd rfl hholds
    | some a => exact ⟨.popObject t, rfl, by simp only [Context.step, hpc]; rfl⟩
  | execute localQue count =>
    exact ⟨.objectRuns t 0, rfl, by simp only [Context.step, hpc]; rfl⟩
  | stopped localQue =>
    refine ⟨.delete t, rfl, ?_⟩
    cases localQue <;> simp only [Context.step, hpc] <;> rfl

namespace FairRun

theorem next_turn (h : FairRun r) {pc : WorkerPc n Obj} (hpc : (r.state m).worker t = pc)
    (hin : pc ≠ .outside) : ∃ k ≥ m, (r.label k).actor = some t ∧ (r.state k).worker t = pc := by
  refine (h.fair t).next_step (P := fun s => s.worker t = pc) (fun j _ hj => ?_)
    (fun j _ hj hact => ?_) hpc
  · exact (h.active j).enabled (h.running j) (by rw [hj]; exact hin)
  · rw [worker_of_other (r.next j) hact]
    exact hj

theorem own_step (h : FairRun r) {pc : WorkerPc n Obj} (hpc : (r.state m).worker t = pc)
    (hin : pc ≠ .outside) : ∃ k ≥ m, ∃ pc', (r.state k).worker t = pc ∧
      (r.state (k + 1)).worker t = pc' ∧
      OwnStep (r.state k) (r.label k) t (r.state (k + 1)) pc pc' := by
  obtain ⟨k, hk, hact, hstay⟩ := h.next_turn hpc hin
  have hown := step_own (h.active k).kept.owned (h.running k) (by rw [hstay]; exact hin)
    ((h.active k).undoomed t) (r.next k) hact
  rw [hstay] at hown
  exact ⟨k, hk, _, hstay, rfl, hown⟩

end FairRun

section Drain

variable [Fintype Pid]

def PostPc.aims (a : Addr) (pc : PostPc n Obj) : ℕ := if pc.target = some a then 1 else 0

def WorkerPc.executing : WorkerPc n Obj → ℕ
  | .execute _ _ => 1
  | _ => 0

/-- What is still to come out of a queue that a worker drains: no further Post can read it. -/
def State.remaining (s : State n Tid Pid Obj) (a : Addr) (t : Tid) : ℕ :=
  2 * ((s.content a).length + ∑ p, (s.poster p).aims a) + (s.worker t).executing

omit [DecidableEq Tid] [NeZero n] [Fintype Tid] in
theorem sum_aims_update (p : Pid) (pc : PostPc n Obj) (a : Addr) :
    ∑ q, (Function.update s.poster p pc q).aims a + (s.poster p).aims a =
      ∑ q, (s.poster q).aims a + pc.aims a :=
  Counting.sum_update s.poster p pc (PostPc.aims a)

theorem remaining_of_other (hown : Owned s) {a : Addr} (ht : (s.worker t).Drains a)
    (hs : step s l = some s') (hact : l.actor ≠ some t) :
    s'.remaining a t = s.remaining a t := by
  have hworker := worker_of_other hs hact
  have hslot : ∀ i, s.globalQue i ≠ some a := fun i => hown.slot_ne_hand i ht.hand
  suffices hrest : (s'.content a).length + ∑ p, (s'.poster p).aims a =
      (s.content a).length + ∑ p, (s.poster p).aims a by
    rw [State.remaining, State.remaining, hrest, hworker]
  cases step_flow hs with
  | quiet hlive hcontent hposter hcalls htarget hposts hexecutes =>
    simp only [hcontent, PostPc.aims, htarget a hslot]
  | enter b hb hlive hcontent hposter hposts hexecutes =>
    have hab : a ≠ b := ne_of_mem_of_not_mem (hown.hand_live ht.hand) hb
    rw [hcontent, hposter, Function.update_of_ne hab]
  | popObject u b count x rest hl hu hb hlive hcontent hposter hrun =>
    have hut : u ≠ t := fun h => hact (by rw [hl, ← h]; rfl)
    have hab : a ≠ b := by
      rintro rfl
      exact hut (hown.exclusive.drains_alone u t a ⟨count, .inl hu⟩ ht)
    rw [hcontent, hposter, Function.update_of_ne hab]
  | delete u b hu hlive hcontent hposter hposts hexecutes => rw [hcontent, hposter]
  | post p i obj hl hidle hlive hcontent hposter =>
    have hsum := sum_aims_update (s := s) p (.load i obj) a
    have hbefore : (s.poster p).aims a = 0 := by
      rw [hidle]
      rfl
    have hafter : PostPc.aims (n := n) a (.load i obj) = 0 := rfl
    rw [hcontent, hposter]
    omega
  | push p b obj hl hpush hlive hcontent hposter =>
    have hsum := sum_aims_update (s := s) p .idle a
    have hafter : (PostPc.idle : PostPc n Obj).aims a = 0 := rfl
    rw [hcontent, hposter]
    by_cases hba : b = a
    · subst hba
      have hbefore : (s.poster p).aims b = 1 := by
        rw [hpush]
        exact if_pos rfl
      rw [Function.update_self, List.length_append, List.length_singleton]
      omega
    · have hbefore : (s.poster p).aims a = 0 := by
        rw [hpush]
        exact if_neg fun h => hba (Option.some.inj h)
      rw [Function.update_of_ne (Ne.symm hba)]
      omega

theorem aims_of_own (hown : Owned s) {a : Addr} (ht : (s.worker t).Drains a)
    (hs : step s l = some s') (hact : l.actor = some t) :
    ∑ p, (s'.poster p).aims a = ∑ p, (s.poster p).aims a := by
  have hslot : ∀ i, s.globalQue i ≠ some a := fun i => hown.slot_ne_hand i ht.hand
  cases step_flow hs with
  | quiet hlive hcontent hposter hcalls htarget hposts hexecutes =>
    simp only [PostPc.aims, htarget a hslot]
  | enter _ _ _ _ hposter | popObject _ _ _ _ _ _ _ _ _ _ hposter | delete _ _ _ _ _ hposter =>
    rw [hposter]
  | post p i obj hl | push p b obj hl =>
    rw [hl] at hact
    cases hact

theorem remaining_of_own (hown : Owned s) {a : Addr} (ht : (s.worker t).Drains a)
    (hs : step s l = some s') (hact : l.actor = some t)
    (hstep : OwnStep s l t s' (s.worker t) (s'.worker t)) :
    s'.worker t = .top (some a) ∨
      (s'.worker t).Drains a ∧ s'.remaining a t < s.remaining a t := by
  have haims := aims_of_own hown ht hs hact
  rw [State.remaining, State.remaining, haims]
  obtain ⟨count, hdrain | hexecute⟩ := ht
  · rw [hdrain] at hstep ⊢
    generalize hpc' : s'.worker t = pc' at hstep
    cases hstep with
    | drained _ _ ha => exact .inl rfl
    | skips _ _ rest hl ha hcontent =>
      refine .inr ⟨⟨count, .inl rfl⟩, ?_⟩
      rw [hcontent, Function.update_self, ha, List.length_cons]
      simp only [WorkerPc.executing]
      omega
    | takes _ _ obj rest hl ha hcontent =>
      refine .inr ⟨⟨count, .inr rfl⟩, ?_⟩
      rw [hcontent, Function.update_self, ha, List.length_cons]
      simp only [WorkerPc.executing]
      omega
  · rw [hexecute] at hstep ⊢
    generalize hpc' : s'.worker t = pc' at hstep
    cases hstep with
    | runs _ _ executed hcontent =>
      refine .inr ⟨⟨count + executed, .inl rfl⟩, ?_⟩
      rw [hcontent]
      exact Nat.lt_succ_self _
    | throws => exact .inl rfl

theorem FairRun.drain_ends (h : FairRun r) {a : Addr}
    (ht : ((r.state m).worker t).Drains a) : ∃ k ≥ m, (r.state k).worker t = .top (some a) := by
  refine eventually_of_rank (P := fun j => ((r.state j).worker t).Drains a)
    (E := fun j => (r.label j).actor = some t) (fun j => (r.state j).remaining a t) ht
    (fun hstays k hk => ?_) (fun j hj hdrains => ?_)
  · have hin : (r.state k).worker t ≠ .outside := by
      obtain ⟨count, hpc | hpc⟩ := hstays k hk <;> rw [hpc] <;> simp
    obtain ⟨j, hj, hact, -⟩ := h.next_turn rfl hin
    exact ⟨j, hj, hact⟩
  · have hown := (h.active j).kept.owned
    by_cases hact : (r.label j).actor = some t
    · have hin : (r.state j).worker t ≠ .outside := by
        obtain ⟨count, hpc | hpc⟩ := hdrains <;> rw [hpc] <;> simp
      have hstep := step_own hown (h.running j) hin ((h.active j).undoomed t) (r.next j) hact
      obtain htop | ⟨hdrains, hless⟩ := remaining_of_own hown hdrains (r.next j) hact hstep
      · exact .inl htop
      · exact .inr ⟨hdrains, hless.le, fun _ => hless⟩
    · have hsame := remaining_of_other hown hdrains (r.next j) hact
      refine .inr ⟨?_, hsame.le, fun hact' => absurd hact' hact⟩
      rw [worker_of_other (r.next j) hact]
      exact hdrains

namespace FairRun

variable {localQue expect : Option Addr} {i : Fin n}

omit [Fintype Pid] in
theorem from_top (h : FairRun r) (ht : (r.state m).worker t = .top localQue) :
    ∃ k ≥ m, (r.state k).worker t = .swapIndex localQue := by
  obtain ⟨k, hk, pc', -, hpc', hstep⟩ := h.own_step ht (by simp)
  cases hstep with
  | testStop => exact ⟨k + 1, Nat.le_succ_of_le hk, hpc'⟩

omit [Fintype Pid] in
theorem from_swapIndex (h : FairRun r) (ht : (r.state m).worker t = .swapIndex localQue) :
    ∃ k ≥ m, r.label k = .swapIndex t ∧
      (r.state (k + 1)).worker t = .load localQue (slotIndex (r.state k).swapCounter) := by
  obtain ⟨k, hk, pc', -, hpc', hstep⟩ := h.own_step ht (by simp)
  cases hstep with
  | swapIndex _ hl hcounter => exact ⟨k, hk, hl, hpc'⟩

omit [Fintype Pid] in
theorem from_load (h : FairRun r) (ht : (r.state m).worker t = .load localQue i) :
    ∃ k ≥ m, ∃ expect, (r.state k).worker t = .exchange localQue i expect := by
  obtain ⟨k, hk, pc', -, hpc', hstep⟩ := h.own_step ht (by simp)
  cases hstep with
  | load => exact ⟨k + 1, Nat.le_succ_of_le hk, _, hpc'⟩

omit [Fintype Pid] in
theorem from_exchange (h : FairRun r) (ht : (r.state m).worker t = .exchange localQue i expect) :
    ∃ k ≥ m, ((r.state k).worker t).hand = localQue ∧
      (r.state (k + 1)).globalQue = Function.update (r.state k).globalQue i localQue ∧
      (r.state (k + 1)).worker t = .push localQue ((r.state k).globalQue i) := by
  obtain ⟨k, hk, hends⟩ := h.ends t m
  obtain ⟨j, hj, -, ⟨e, he⟩, hlost⟩ := r.first_loss
    (P := fun s => ∃ expect, s.worker t = .exchange localQue i expect) ⟨expect, ht⟩ hk
    fun ⟨e, he⟩ => hends _ _ _ he
  have hact : (r.label j).actor = some t := by
    by_contra hother
    exact hlost ⟨e, by rw [worker_of_other (r.next j) hother, he]⟩
  have hstep := step_own (h.active j).kept.owned (h.running j) (by rw [he]; simp)
    ((h.active j).undoomed t) (r.next j) hact
  rw [he] at hstep
  generalize hpc' : (r.state (j + 1)).worker t = pc' at hstep
  cases hstep with
  | exchangeFails => exact absurd ⟨_, hpc'⟩ hlost
  | exchange _ _ hque => exact ⟨j, hj, by rw [he]; rfl, hque, hpc'⟩

omit [Fintype Pid] in
theorem from_push (h : FairRun r) (ht : (r.state m).worker t = .push localQue expect) :
    ∃ k ≥ m, (r.state (k + 1)).waitQue = (r.state k).waitQue ++ [expect] ∧
      (r.state (k + 1)).worker t = .pop localQue := by
  obtain ⟨k, hk, pc', -, hpc', hstep⟩ := h.own_step ht (by simp)
  cases hstep with
  | push _ _ hwait => exact ⟨k, hk, hwait, hpc'⟩

omit [Fintype Pid] in
theorem from_pop (h : FairRun r) (ht : (r.state m).worker t = .pop localQue) :
    ∃ k ≥ m, ∃ q, r.label k = .pop t ∧ (r.state k).waitQue = q :: (r.state (k + 1)).waitQue ∧
      (r.state (k + 1)).worker t = .drain q 0 := by
  obtain ⟨k, hk, pc', -, hpc', hstep⟩ := h.own_step ht (by simp)
  cases hstep with
  | pop _ q hl hwait => exact ⟨k, hk, q, hl, hwait, hpc'⟩

theorem from_drain (h : FairRun r) {q : Option Addr} {count : ℕ}
    (ht : (r.state m).worker t = .drain q count ∨ (r.state m).worker t = .execute q count) :
    ∃ k ≥ m, (r.state k).worker t = .top q := by
  have hholds := (h.active m).kept.owned.hands t
  cases q with
  | none =>
    obtain ht | ht := ht <;> rw [ht] at hholds <;> exact absurd rfl hholds
  | some a => exact h.drain_ends ⟨count, ht⟩

theorem reaches_top (h : FairRun r) (hin : (r.state m).worker t ≠ .outside) :
    ∃ k ≥ m, ∃ localQue, (r.state k).worker t = .top localQue := by
  have hpop : ∀ m localQue, (r.state m).worker t = .pop localQue →
      ∃ k ≥ m, ∃ localQue, (r.state k).worker t = .top localQue := by
    intro m localQue ht
    obtain ⟨k, hk, q, -, -, hdrain⟩ := h.from_pop ht
    obtain ⟨j, hj, htop⟩ := h.from_drain (.inl hdrain)
    exact ⟨j, by omega, q, htop⟩
  have hpush : ∀ m localQue expect, (r.state m).worker t = .push localQue expect →
      ∃ k ≥ m, ∃ localQue, (r.state k).worker t = .top localQue := by
    intro m localQue expect ht
    obtain ⟨k, hk, -, hnext⟩ := h.from_push ht
    obtain ⟨j, hj, htop⟩ := hpop _ _ hnext
    exact ⟨j, by omega, htop⟩
  have hexchange : ∀ m localQue i expect, (r.state m).worker t = .exchange localQue i expect →
      ∃ k ≥ m, ∃ localQue, (r.state k).worker t = .top localQue := by
    intro m localQue i expect ht
    obtain ⟨k, hk, -, -, hnext⟩ := h.from_exchange ht
    obtain ⟨j, hj, htop⟩ := hpush _ _ _ hnext
    exact ⟨j, by omega, htop⟩
  have hload : ∀ m localQue i, (r.state m).worker t = .load localQue i →
      ∃ k ≥ m, ∃ localQue, (r.state k).worker t = .top localQue := by
    intro m localQue i ht
    obtain ⟨k, hk, expect, hnext⟩ := h.from_load ht
    obtain ⟨j, hj, htop⟩ := hexchange _ _ _ _ hnext
    exact ⟨j, by omega, htop⟩
  cases hpc : (r.state m).worker t with
  | outside => exact absurd hpc hin
  | top localQue => exact ⟨m, le_rfl, localQue, hpc⟩
  | swapIndex localQue =>
    obtain ⟨k, hk, -, hnext⟩ := h.from_swapIndex hpc
    obtain ⟨j, hj, htop⟩ := hload _ _ _ hnext
    exact ⟨j, by omega, htop⟩
  | load localQue i => exact hload _ _ _ hpc
  | exchange localQue i expect => exact hexchange _ _ _ _ hpc
  | push localQue expect => exact hpush _ _ _ hpc
  | pop localQue => exact hpop _ _ hpc
  | drain localQue count =>
    obtain ⟨k, hk, htop⟩ := h.from_drain (.inl hpc)
    exact ⟨k, hk, localQue, htop⟩
  | execute localQue count =>
    obtain ⟨k, hk, htop⟩ := h.from_drain (.inr hpc)
    exact ⟨k, hk, localQue, htop⟩
  | stopped localQue =>
    have hholds := (h.active m).kept.owned.hands t
    have hdoomed := (h.active m).undoomed t
    rw [hpc] at hholds hdoomed
    exact absurd hdoomed hholds

theorem swaps_again (h : FairRun r) (hin : (r.state m).worker t ≠ .outside) :
    ∃ k ≥ m, r.label k = .swapIndex t ∧ (r.state (k + 1)).worker t ≠ .outside := by
  obtain ⟨k, hk, localQue, htop⟩ := h.reaches_top hin
  obtain ⟨j, hj, hswap⟩ := h.from_top htop
  obtain ⟨i, hi, hlabel, hload⟩ := h.from_swapIndex hswap
  exact ⟨i, by omega, hlabel, by rw [hload]; simp⟩

theorem pops_again (h : FairRun r) (hin : (r.state m).worker t ≠ .outside) :
    ∃ k ≥ m, r.label k = .pop t := by
  obtain ⟨k₁, hk₁, localQue, htop⟩ := h.reaches_top hin
  obtain ⟨k₂, hk₂, hswap⟩ := h.from_top htop
  obtain ⟨k₃, hk₃, -, hload⟩ := h.from_swapIndex hswap
  obtain ⟨k₄, hk₄, expect, hexchange⟩ := h.from_load hload
  obtain ⟨k₅, hk₅, -, -, hpush⟩ := h.from_exchange hexchange
  obtain ⟨k₆, hk₆, -, hpop⟩ := h.from_push hpush
  obtain ⟨k₇, hk₇, q, hlabel, -, -⟩ := h.from_pop hpop
  exact ⟨k₇, by omega, hlabel⟩

omit [Fintype Pid] in
theorem inside (h : FairRun r) (hin : (r.state m).worker t ≠ .outside) {k : ℕ} (hk : m ≤ k) :
    (r.state k).worker t ≠ .outside := by
  induction k, hk using Nat.le_induction with
  | base => exact hin
  | succ k _ ih =>
    by_cases hact : (r.label k).actor = some t
    · have hstep := step_own (h.active k).kept.owned (h.running k) ih ((h.active k).undoomed t)
        (r.next k) hact
      generalize (r.state k).worker t = pc at hstep
      generalize (r.state (k + 1)).worker t = pc' at hstep ⊢
      cases hstep <;> simp
    · rw [worker_of_other (r.next k) hact]
      exact ih

end FairRun

end Drain

end Bugat.Context
