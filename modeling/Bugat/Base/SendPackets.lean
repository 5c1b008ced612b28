import Mathlib
import Bugat.Base.SendLoop

/-!
# What becomes of the packets of a connection

`Connection::Send(T&&)` allocates a packet and pushes the pointer. The coroutine deletes a
packet after its last byte. It leaves its loop when a write fails, or when the test at the head
of the loop finds the connection disconnected, which may be in the middle of a packet. The
destructor of `_sendQue` pops the pointers that are left and does nothing with them.
-/

namespace Bugat

open Transition (exec Along exec_invariant last_iff_along)

inductive SendStage
  | unspawned
  | test
  | inLoop
  | ended
  | destroyed
  deriving DecidableEq, Repr

structure SendRun where
  loop : SendLoop
  stage : SendStage
  disconnected : Bool
  dropped : List AnySendPacket

namespace SendRun

def init : SendRun := ⟨SendLoop.init, .unspawned, false, []⟩

inductive Label
  | send (packet : SendPacket)
  | start
  | close
  | test
  | pop
  | write (transfer : ℕ)
  | writeError
  | update
  | finish
  | destroy

def test (s : SendRun) : SendRun :=
  if s.disconnected then { s with stage := .ended } else { s with stage := .inLoop }

def onLoop (s : SendRun) (l : SendLoop.Label) (stage : SendStage) : Option SendRun :=
  (s.loop.step l).map fun loop => { s with loop := loop, stage := stage }

def clear (s : SendRun) : SendRun :=
  { s with
    loop := { s.loop with sendQue := [] }
    dropped := s.dropped ++ s.loop.sendQue }

def step (s : SendRun) : Label → Option SendRun
  | .send packet => if s.stage = .destroyed then none else s.onLoop (.push packet) s.stage
  | .start =>
    if s.stage = .unspawned ∧ s.disconnected = false then some { s with stage := .test } else none
  | .close => if s.stage = .destroyed then none else some { s with disconnected := true }
  | .test => if s.stage = .test then some s.test else none
  | .pop =>
    if s.stage = .inLoop then
      s.onLoop .pop (if s.loop.sendQue.isEmpty then .test else .inLoop)
    else none
  | .write transfer => if s.stage = .inLoop then s.onLoop (.write transfer) .inLoop else none
  | .writeError =>
    match s.stage, s.loop.pc, s.loop.sendingPacket with
    | .inLoop, .top, some _ => some { s with stage := .ended, disconnected := true }
    | _, _, _ => none
  | .update => if s.stage = .inLoop then s.onLoop .update .inLoop else none
  | .finish => if s.stage = .inLoop then s.onLoop .finish .test else none
  | .destroy =>
    if s.stage = .unspawned ∨ s.stage = .ended then some { s.clear with stage := .destroyed }
    else none

def DeletedOnce (s : SendRun) : Prop :=
  ∀ n < s.loop.pushed.length, (s.loop.deleted.map AnySendPacket.number).count n = 1

/-- No write fails, the loop is not left in the middle of a packet, and the queue is empty when
the connection is destroyed. -/
def Drained (s : SendRun) : Label → Prop
  | .test => s.disconnected = true → s.loop.sendingPacket = none
  | .writeError => False
  | .destroy => s.loop.sendQue = []
  | _ => True

def undropped (s : SendRun) : SendLoop := { s.loop with sendQue := s.dropped ++ s.loop.sendQue }

structure Inv (s : SendRun) : Prop where
  loop : s.undropped.Inv
  unspawned : s.stage = .unspawned → s.loop.sendingPacket = none
  dropped : s.stage ≠ .destroyed → s.dropped = []
  destroyed : s.stage = .destroyed → s.loop.sendQue = []

def Lossless (s : SendRun) : Prop :=
  (s.stage = .ended ∨ s.stage = .destroyed → s.loop.sendingPacket = none) ∧ s.dropped = []

variable {s s' : SendRun} {l : Label}

theorem undropped_inv (h : s.dropped = []) : s.undropped.Inv ↔ s.loop.Inv := by
  rw [undropped, h, List.nil_append]

inductive Moves (s : SendRun) (l : Label) : SendRun → Prop
  | push (packet : SendPacket) : s.stage ≠ .destroyed → Drained s l →
      Moves s l { s with loop := s.loop.push packet }
  | loop {ll : SendLoop.Label} {loop : SendLoop} {stage : SendStage} : s.stage = .inLoop →
      stage = .test ∨ stage = .inLoop → s.loop.step ll = some loop → Drained s l →
      Moves s l { s with loop := loop, stage := stage }
  | close : s.stage ≠ .destroyed → Drained s l → Moves s l { s with disconnected := true }
  | enter {stage : SendStage} : s.stage = .unspawned ∨ s.stage = .test →
      stage = .test ∨ stage = .inLoop → Drained s l → Moves s l { s with stage := stage }
  | leave : s.stage = .test → (Drained s l ↔ s.loop.sendingPacket = none) →
      Moves s l { s with stage := .ended }
  | fail {p : AnySendPacket} : s.stage = .inLoop → s.loop.sendingPacket = some p →
      ¬ Drained s l → Moves s l { s with stage := .ended, disconnected := true }
  | destroy : s.stage = .unspawned ∨ s.stage = .ended → (Drained s l ↔ s.loop.sendQue = []) →
      Moves s l { s.clear with stage := .destroyed }

theorem Moves.of_onLoop {ll : SendLoop.Label} {stage : SendStage} (hstage : s.stage = .inLoop)
    (hnext : stage = .test ∨ stage = .inLoop) (hdrained : Drained s l)
    (hs : s.onLoop ll stage = some s') : Moves s l s' := by
  obtain ⟨loop, hloop, rfl⟩ := Option.map_eq_some_iff.mp hs
  exact .loop hstage hnext hloop hdrained

theorem moves_of_step (hs : step s l = some s') : Moves s l s' := by
  cases l with
  | send packet =>
    simp only [step] at hs
    split_ifs at hs with hstage
    obtain rfl := Option.some.inj hs
    exact .push packet hstage trivial
  | start =>
    simp only [step] at hs
    split_ifs at hs with h
    obtain rfl := Option.some.inj hs
    exact .enter (.inl h.1) (.inl rfl) trivial
  | close =>
    simp only [step] at hs
    split_ifs at hs with hstage
    obtain rfl := Option.some.inj hs
    exact .close hstage trivial
  | test =>
    simp only [step, test] at hs
    split_ifs at hs with hstage hdisconnected
    · obtain rfl := Option.some.inj hs
      exact .leave hstage ⟨fun h => h hdisconnected, fun h _ => h⟩
    · obtain rfl := Option.some.inj hs
      exact .enter (.inr hstage) (.inr rfl) fun h => absurd h hdisconnected
  | pop =>
    simp only [step] at hs
    split_ifs at hs with hstage hempty
    · exact .of_onLoop hstage (.inl rfl) trivial hs
    · exact .of_onLoop hstage (.inr rfl) trivial hs
  | write transfer | update =>
    simp only [step] at hs
    split_ifs at hs with hstage
    exact .of_onLoop hstage (.inr rfl) trivial hs
  | finish =>
    simp only [step] at hs
    split_ifs at hs with hstage
    exact .of_onLoop hstage (.inl rfl) trivial hs
  | writeError =>
    simp only [step] at hs
    split at hs
    · rename_i p hstage htop hsome
      obtain rfl := Option.some.inj hs
      exact .fail hstage hsome id
    · cases hs
  | destroy =>
    simp only [step] at hs
    split_ifs at hs with hstage
    obtain rfl := Option.some.inj hs
    exact .destroy hstage Iff.rfl

theorem init_inv : Inv init where
  loop := SendLoop.init_inv
  unspawned _ := rfl
  dropped _ := rfl
  destroyed h := by cases h

theorem Inv.step (h : Inv s) (hs : step s l = some s') : Inv s' := by
  have hloop : s.stage ≠ .destroyed → s.loop.Inv := fun hstage =>
    (undropped_inv (h.dropped hstage)).mp h.loop
  cases moves_of_step hs with
  | push packet hstage _ =>
    refine ⟨(undropped_inv ?_).mpr ((hloop hstage).push packet), h.unspawned, h.dropped,
      fun heq => absurd heq hstage⟩
    exact h.dropped hstage
  | loop hstage hnext hstep _ =>
    have hne : s.stage ≠ .destroyed := by simp [hstage]
    have hnil := h.dropped hne
    refine ⟨(undropped_inv ?_).mpr ((hloop hne).step hstep), ?_, fun _ => hnil, ?_⟩
    · exact hnil
    all_goals rcases hnext with rfl | rfl <;> intro heq <;> cases heq
  | close hstage _ => exact ⟨h.loop, h.unspawned, h.dropped, h.destroyed⟩
  | enter hstage hnext _ =>
    refine ⟨h.loop, ?_, fun _ => h.dropped ?_, ?_⟩
    · rcases hnext with rfl | rfl <;> intro heq <;> cases heq
    · rcases hstage with hstage | hstage <;> simp [hstage]
    · rcases hnext with rfl | rfl <;> intro heq <;> cases heq
  | leave hstage _ =>
    refine ⟨h.loop, ?_, fun _ => h.dropped (by simp [hstage]), ?_⟩ <;> intro heq <;> cases heq
  | fail hstage _ _ =>
    refine ⟨h.loop, ?_, fun _ => h.dropped (by simp [hstage]), ?_⟩ <;> intro heq <;> cases heq
  | destroy hstage _ =>
    refine ⟨?_, ?_, fun hne => absurd rfl hne, fun _ => rfl⟩
    · have hloop := h.loop
      simpa [undropped, clear] using hloop
    · intro heq
      cases heq

/-- Whether a step loses a packet is decided before it. -/
theorem Lossless.step_iff (hlossless : Lossless s) (h : Inv s) (hs : step s l = some s') :
    Lossless s' ↔ Drained s l := by
  obtain ⟨hsending, hdropped⟩ := hlossless
  cases moves_of_step hs with
  | push packet _ hdrained => exact iff_of_true ⟨hsending, hdropped⟩ hdrained
  | loop hstage hnext _ hdrained =>
    refine iff_of_true ⟨?_, hdropped⟩ hdrained
    rcases hnext with rfl | rfl <;> rintro (heq | heq) <;> cases heq
  | close _ hdrained => exact iff_of_true ⟨hsending, hdropped⟩ hdrained
  | enter _ hnext hdrained =>
    refine iff_of_true ⟨?_, hdropped⟩ hdrained
    rcases hnext with rfl | rfl <;> rintro (heq | heq) <;> cases heq
  | leave _ hiff =>
    rw [hiff]
    exact ⟨fun hl => hl.1 (.inl rfl), fun hnone => ⟨fun _ => hnone, hdropped⟩⟩
  | fail _ hsome hdrained =>
    refine iff_of_false (fun hl => ?_) hdrained
    exact absurd (hsome.symm.trans (hl.1 (.inl rfl))) (Option.some_ne_none _)
  | destroy hstage hiff =>
    rw [hiff]
    have hnone : s.loop.sendingPacket = none := by
      rcases hstage with hunspawned | hended
      · exact h.unspawned hunspawned
      · exact hsending (.inl hended)
    refine ⟨fun hl => ?_, fun hempty => ⟨fun _ => hnone, ?_⟩⟩
    · simpa [clear, hdropped] using hl.2
    · simp [clear, hdropped, hempty]

theorem Lossless.of_step (hlossless : Lossless s') (hs : step s l = some s') : Lossless s := by
  obtain ⟨hsending, hdropped⟩ := hlossless
  cases moves_of_step hs with
  | push packet _ _ => exact ⟨hsending, hdropped⟩
  | close _ _ => exact ⟨hsending, hdropped⟩
  | loop hstage _ _ _ => exact ⟨by simp [hstage], hdropped⟩
  | enter hstage _ _ =>
    refine ⟨?_, hdropped⟩
    rcases hstage with hstage | hstage <;> simp [hstage]
  | leave hstage _ => exact ⟨by simp [hstage], hdropped⟩
  | fail hstage _ _ => exact ⟨by simp [hstage], hdropped⟩
  | destroy _ _ =>
    exact ⟨fun _ => hsending (.inr rfl), (List.append_eq_nil_iff.mp hdropped).1⟩

theorem Inv.numbers (h : Inv s) : (s.loop.deleted.map AnySendPacket.number) ++
    (s.loop.sendingPacket.toList ++ (s.dropped ++ s.loop.sendQue)).map AnySendPacket.number =
      List.range s.loop.pushed.length := by
  have horder := h.loop.order
  have htaken := h.loop.taken
  have hnumbered := h.loop.numbered
  simp only [undropped] at horder htaken hnumbered
  rw [← hnumbered, ← horder, htaken, List.append_assoc, ← List.map_append]

theorem Inv.deletedOnce_iff (h : Inv s) (hstage : s.stage = .destroyed) :
    DeletedOnce s ↔ Lossless s := by
  have hnumbers := h.numbers
  rw [h.destroyed hstage, List.append_nil] at hnumbers
  constructor
  · intro hdeleted
    have hrest : s.loop.sendingPacket.toList ++ s.dropped = [] := by
      refine List.eq_nil_iff_forall_not_mem.mpr fun p hp => ?_
      have hmem := List.mem_map_of_mem (f := AnySendPacket.number) hp
      have hlt : p.number < s.loop.pushed.length := by
        rw [← List.mem_range, ← hnumbers]
        exact List.mem_append_right _ hmem
      have hcount : List.count p.number (List.range s.loop.pushed.length) ≤ 1 :=
        List.nodup_iff_count_le_one.mp List.nodup_range _
      rw [← hnumbers, List.count_append, hdeleted _ hlt] at hcount
      have hpos := List.count_pos_iff.mpr hmem
      omega
    obtain ⟨hsending, hdropped⟩ := List.append_eq_nil_iff.mp hrest
    exact ⟨fun _ => Option.toList_eq_nil_iff.mp hsending, hdropped⟩
  · intro hlossless n hn
    rw [hlossless.1 (.inr hstage), hlossless.2] at hnumbers
    simp only [Option.toList_none, List.append_nil, List.map_nil] at hnumbers
    rw [hnumbers]
    exact List.count_eq_one_of_mem List.nodup_range (List.mem_range.mpr hn)

/-- When the connection has been destroyed, each packet has been deleted once if and only if
none of the three ways out of the loop and of the queue has met one. -/
theorem deletedOnce_iff_drained (ls : List Label) (s : SendRun)
    (hrun : exec step init ls = some s) (hstage : s.stage = .destroyed) :
    DeletedOnce s ↔ Along Drained step init ls := by
  have hinv : Inv s := exec_invariant (fun _ _ _ h ht => h.step ht) init_inv hrun
  have hinit : Lossless init := ⟨fun _ => rfl, rfl⟩
  rw [hinv.deletedOnce_iff hstage]
  exact last_iff_along (fun _ _ _ h hs => h.step hs) (fun _ _ _ _ hs h => h.of_step hs)
    (fun _ _ _ hI h hs => h.step_iff hI hs) init_inv hinit hrun

def packet : SendPacket := ⟨SendLoop.header, List.cons_ne_nil _ _, []⟩

def sentWhole : List Label :=
  [.send packet, .start, .test, .pop, .write 8, .update, .finish, .close, .test, .destroy]

theorem sentWhole_deletedOnce : ∃ s, exec step init sentWhole = some s ∧
    s.loop.pushed.length = 1 ∧ DeletedOnce s := by
  refine ⟨_, rfl, rfl, ?_⟩
  rw [deletedOnce_iff_drained sentWhole _ rfl rfl]
  exact ⟨trivial, trivial, fun _ => rfl, trivial, trivial, trivial, trivial, trivial, fun _ => rfl,
    rfl, trivial⟩

def failedWrite : List Label :=
  [.send packet, .send packet, .start, .test, .pop, .writeError, .destroy]

theorem failedWrite_leaks : ∃ s, exec step init failedWrite = some s ∧ s.stage = .destroyed ∧
    s.loop.pushed.length = 2 ∧ s.loop.deleted = [] ∧ ¬ DeletedOnce s := by
  refine ⟨_, rfl, rfl, rfl, rfl, fun h => ?_⟩
  have hcount := h 0 (by decide)
  exact absurd hcount (by decide)

end SendRun

end Bugat
