import Mathlib
import Bugat.Base.NetworkMessageSafety
import Bugat.Core.TaskSerializerOrder
import Bugat.GameServer.GameSession

/-!
# Message order of a connection

The packets whose tasks were ever linked to the session, with the one that `Recv` is about to
post, are those that were yielded. What the session has executed is a prefix of what was
linked, whichever threads ran the two mailboxes.
-/

namespace Bugat.GameSession

open TaskSerializer (Counts counts_step inRun_of_step linked_of_step taken)
open Transition (exec Along)

variable {Tid Task : Type*}

def Recv.inHand : Recv Tid → List RecvPacket
  | .running _ (.onRead packet) => [packet]
  | _ => []

theorem Recv.inHand_nil {recv : Recv Tid} (h : ∀ t packet, recv ≠ .running t (.onRead packet)) :
    recv.inHand = [] := by
  cases recv with
  | running t pc =>
    cases pc with
    | onRead packet => exact absurd rfl (h t packet)
    | test | decode | handed | close => rfl
  | notStarted | spawned | reading | completed result | finished => rfl

theorem packets_append (xs ys : List (TaskSerializer.Posted Tid (SessionTask Task))) :
    packets (xs ++ ys) = packets xs ++ packets ys :=
  List.filterMap_append

theorem inRun_of_executing {s : State Tid Task} {t : Tid} (h : executing s t = true) :
    (s.session.thread t).inRun = true := by
  rw [executing] at h
  cases hrun : (s.session.thread t).run with
  | executing start size i n => simp [TaskSerializer.Thread.inRun, hrun]
  | idle | entered start | loop start size i n | finished start size n | counted c =>
    rw [hrun] at h
    cases h

inductive Moves [DecidableEq Tid] (s s' : State Tid Task) : Label Tid Task → Prop
  | quiet (l : Label Tid Task) (hl : ∀ l', l ≠ .session l') (hsession : s'.session = s.session)
    (hhand : s'.recv.inHand = s.recv.inHand) (hyielded : s'.yielded = s.yielded) : Moves s s' l
  | yield (disconnected : Bool) (hsession : s'.session = s.session) (hhand : s.recv.inHand = [])
    (hyielded : s'.yielded = s.yielded ++ s'.recv.inHand) : Moves s s' (.recv disconnected)
  | post (disconnected : Bool) (t : Tid) (packet : RecvPacket)
    (hs : TaskSerializer.step s.session (.link t (.handleMsg packet)) = some s'.session)
    (hhand : s.recv.inHand = [packet]) (hhand' : s'.recv.inHand = [])
    (hyielded : s'.yielded = s.yielded) : Moves s s' (.recv disconnected)
  | session (l : TaskSerializer.Label Tid (SessionTask Task))
    (hl : ∀ t packet, l ≠ .link t (.handleMsg packet))
    (hs : TaskSerializer.step s.session l = some s'.session)
    (hconnection : s'.connection = s.connection) (hrecv : s'.recv = s.recv)
    (hyielded : s'.yielded = s.yielded) : Moves s s' (.session l)

variable [DecidableEq Tid] {s s' : State Tid Task} {packetSize : ℤ}

omit [DecidableEq Tid] in
theorem resumeRecv_spec (s : State Tid Task) (t : Tid) :
    (resumeRecv packetSize s t).session = s.session ∧
      (resumeRecv packetSize s t).recv.inHand = s.recv.inHand ∧
      (resumeRecv packetSize s t).yielded = s.yielded := by
  rw [resumeRecv.eq_def]
  split
  case h_1 hrecv | h_2 hrecv | h_3 bytes hrecv => exact ⟨rfl, by rw [hrecv]; rfl, rfl⟩
  all_goals exact ⟨rfl, rfl, rfl⟩

theorem resumption_spec {u : State Tid Task} {l : TaskSerializer.Label Tid (ConnectionTask Task)}
    (hs : resumption packetSize s u l = some s') (hu : u.recv = s.recv) :
    s'.session = u.session ∧ s'.recv.inHand = s.recv.inHand ∧ s'.yielded = u.yielded := by
  have hsame : s' = u → s'.session = u.session ∧ s'.recv.inHand = s.recv.inHand ∧
      s'.yielded = u.yielded := by
    rintro rfl
    exact ⟨rfl, by rw [hu], rfl⟩
  rw [resumption.eq_def] at hs
  split at hs
  · split at hs
    · obtain rfl := Option.some.inj hs
      rename_i t _ _
      rw [← hu]
      exact resumeRecv_spec u t
    · exact hsame (Option.some.inj hs).symm
    · exact hsame (Option.some.inj hs).symm
  · split at hs
    · split at hs
      · cases hs
      · exact hsame (Option.some.inj hs).symm
    · exact hsame (Option.some.inj hs).symm
  · split at hs
    · split at hs
      · rename_i hrecv _
        obtain rfl := Option.some.inj hs
        exact ⟨rfl, by rw [hrecv]; rfl, rfl⟩
      · exact hsame (Option.some.inj hs).symm
    · split at hs
      · cases hs
      · exact hsame (Option.some.inj hs).symm
    · exact hsame (Option.some.inj hs).symm
  · cases hs
  · exact hsame (Option.some.inj hs).symm

theorem postRecv_spec {t : Tid} {recv : Recv Tid} (hs : postRecv s t recv = some s') :
    s'.session = s.session ∧ s'.recv = recv ∧ s'.yielded = s.yielded := by
  rw [postRecv] at hs
  split at hs
  · obtain ⟨connection, -, rfl⟩ := Option.map_eq_some_iff.mp hs
    exact ⟨rfl, rfl, rfl⟩
  · cases hs

theorem recvStep_moves {disconnected : Bool} (hs : recvStep packetSize s disconnected = some s') :
    Moves s s' (.recv disconnected) := by
  have hl : ∀ l' : TaskSerializer.Label Tid (SessionTask Task),
      Label.recv disconnected ≠ .session l' := fun l' h => by cases h
  rw [recvStep.eq_def] at hs
  split at hs
  · rename_i t hrecv
    split at hs
    all_goals obtain rfl := Option.some.inj hs
    all_goals exact .quiet _ hl rfl (by rw [hrecv]; rfl) rfl
  · rename_i t hrecv
    split at hs
    · obtain rfl := Option.some.inj hs
      exact .quiet _ hl rfl (by rw [hrecv]; rfl) rfl
    · obtain rfl := Option.some.inj hs
      exact .yield disconnected rfl (by rw [hrecv]; rfl) rfl
  · rename_i t packet hrecv
    obtain ⟨session, hlink, rfl⟩ := Option.map_eq_some_iff.mp hs
    exact .post disconnected t packet hlink (by rw [hrecv]; rfl) rfl rfl
  · rename_i t hrecv
    split at hs
    · obtain rfl := Option.some.inj hs
      exact .quiet _ hl rfl (by rw [hrecv]; rfl) rfl
    · cases hs
  · rename_i t hrecv
    obtain rfl := Option.some.inj hs
    exact .quiet _ hl rfl (by rw [hrecv]; rfl) rfl
  all_goals cases hs

theorem step_moves {l : Label Tid Task} (hs : step packetSize s l = some s') : Moves s s' l := by
  cases l with
  | connection l =>
    rw [step] at hs
    split at hs
    · obtain ⟨connection, -, hs⟩ := Option.bind_eq_some_iff.mp hs
      obtain ⟨hsession, hhand, hyielded⟩ := resumption_spec hs rfl
      exact .quiet _ (fun l' h => by cases h) hsession hhand hyielded
    · cases hs
  | session l =>
    rw [step.eq_def] at hs
    dsimp only at hs
    split at hs
    · split at hs
      · cases hs
      · rename_i hne
        obtain ⟨session, hstep, rfl⟩ := Option.map_eq_some_iff.mp hs
        exact .session l hne hstep rfl rfl rfl
    · cases hs
  | spawnRecv t =>
    rw [step] at hs
    split at hs
    · rename_i hrecv
      obtain ⟨hsession, hrecv', hyielded⟩ := postRecv_spec hs
      exact .quiet _ (fun l' h => by cases h) hsession (by rw [hrecv, hrecv']; rfl) hyielded
    · cases hs
  | readCompletes t result =>
    rw [step] at hs
    split at hs
    · rename_i hrecv
      split at hs
      · obtain ⟨hsession, hrecv', hyielded⟩ := postRecv_spec hs
        exact .quiet _ (fun l' h => by cases h) hsession (by rw [hrecv, hrecv']; rfl) hyielded
      · cases hs
    · cases hs
  | recv disconnected => exact recvStep_moves hs

section Resumptions

def ConnectionTask.isRecv : ConnectionTask Task → Bool
  | .recv => true
  | .other _ => false

def Recv.awaited : Recv Tid → ℕ
  | .spawned | .completed _ => 1
  | .notStarted | .reading | .running _ _ | .finished => 0

def resumptions (s : State Tid Task) : ℕ := s.connection.que.countP fun x => x.task.isRecv

theorem popped_isRecv {c c' : TaskSerializer.State Tid (ConnectionTask Task)} {t : Tid}
    (hs : TaskSerializer.step c (.pop t) = some c') :
    c.que.countP (fun x => x.task.isRecv) = c'.que.countP (fun x => x.task.isRecv) +
      (match taken c c' with | some .recv => 1 | _ => 0) := by
  obtain ⟨start, size, i, n, -, rfl⟩ := TaskSerializer.step_pop.mp hs
  obtain ⟨-, he⟩ | ⟨-, -, he⟩ | ⟨-, x, rest, hque, he⟩ :=
    TaskSerializer.pop_cases c t start size i n
  · rw [he]
    simp [taken, TaskSerializer.State.setRun]
  · rw [he]
    simp [taken, TaskSerializer.State.setRun]
  · rw [he, hque]
    have htaken : taken c (c.popTask t x rest start size i n) = some x.task := by
      simp [taken, TaskSerializer.State.popTask]
    rw [htaken, List.countP_cons]
    cases htask : x.task <;> rfl

omit [DecidableEq Tid] in
theorem Recv.awaited_le (recv : Recv Tid) : recv.awaited ≤ 1 := by
  cases recv with
  | spawned | completed result => exact le_rfl
  | notStarted | reading | running t pc | finished => exact Nat.zero_le _

omit [DecidableEq Tid] in
theorem resumeRecv_awaited (packetSize : ℤ) (s : State Tid Task) (t : Tid) :
    (resumeRecv packetSize s t).connection = s.connection ∧
      (resumeRecv packetSize s t).recv.awaited = 0 := by
  rw [resumeRecv.eq_def]
  split
  case h_1 | h_2 | h_3 => exact ⟨rfl, rfl⟩
  all_goals rename_i hrecv
  all_goals exact ⟨rfl, by rw [hrecv]; rfl⟩

theorem resumption_awaited {c : TaskSerializer.State Tid (ConnectionTask Task)}
    {l : TaskSerializer.Label Tid (ConnectionTask Task)} (h : resumptions s = s.recv.awaited)
    (hc : TaskSerializer.step s.connection l = some c)
    (hs : resumption packetSize s { s with connection := c } l = some s') :
    resumptions s' = s'.recv.awaited := by
  have hsame : resumptions { s with connection := c } = resumptions s →
      s' = { s with connection := c } → resumptions s' = s'.recv.awaited := by
    rintro he rfl
    exact he.trans h
  have hframe : (∀ t task, l ≠ .link t task) → (∀ t, l ≠ .pop t) →
      resumptions { s with connection := c } = resumptions s := fun hlink hpop => by
    obtain ⟨hque, -⟩ := TaskSerializer.step_frame hlink hpop hc
    simp only [resumptions, hque]
  cases l with
  | pop t =>
    have hcount := popped_isRecv hc
    change resumptions s = resumptions { s with connection := c } + _ at hcount
    rw [resumption] at hs
    split at hs
    · rename_i htaken
      change taken s.connection c = some .recv at htaken
      obtain rfl := Option.some.inj hs
      obtain ⟨hconnection, hawaited⟩ := resumeRecv_awaited packetSize
        { s with connection := c } t
      have hle := s.recv.awaited_le
      rw [htaken] at hcount
      change _ = _ + 1 at hcount
      rw [hawaited, resumptions, hconnection]
      change resumptions { s with connection := c } = 0
      omega
    · rename_i task htaken
      change taken s.connection c = some (.other task) at htaken
      rw [htaken] at hcount
      exact hsame hcount.symm (Option.some.inj hs).symm
    · rename_i htaken
      change taken s.connection c = none at htaken
      rw [htaken] at hcount
      exact hsame hcount.symm (Option.some.inj hs).symm
  | link t task =>
    cases task with
    | recv => cases hs
    | other task =>
      obtain ⟨-, rfl⟩ := TaskSerializer.step_link.mp hc
      refine hsame ?_ (Option.some.inj hs).symm
      exact (List.countP_append ..).trans (Nat.add_zero _)
  | taskReturns t =>
    rw [resumption] at hs
    split at hs
    · split at hs
      · cases hs
      · exact hsame (hframe (by simp) (by simp)) (Option.some.inj hs).symm
    · exact hsame (hframe (by simp) (by simp)) (Option.some.inj hs).symm
  | taskThrows t =>
    have hkept := hframe (by simp) (by simp)
    rw [resumption] at hs
    split at hs
    · split at hs
      · rename_i hrecv _
        obtain rfl := Option.some.inj hs
        rw [hrecv] at h
        exact hkept.trans h
      · exact hsame hkept (Option.some.inj hs).symm
    · split at hs
      · cases hs
      · exact hsame hkept (Option.some.inj hs).symm
    · exact hsame hkept (Option.some.inj hs).symm
  | addSize t | addTaskCount t | onPost t | enter t | getSize t | subTaskCount t | onRun t =>
    exact hsame (hframe (by simp) (by simp)) (Option.some.inj hs).symm

theorem postRecv_awaited {t : Tid} {recv : Recv Tid} (h : resumptions s = 0)
    (hrecv : recv.awaited = 1) (hs : postRecv s t recv = some s') :
    resumptions s' = s'.recv.awaited := by
  rw [postRecv] at hs
  split at hs
  · obtain ⟨connection, hlink, rfl⟩ := Option.map_eq_some_iff.mp hs
    obtain ⟨-, rfl⟩ := TaskSerializer.step_link.mp hlink
    rw [hrecv]
    refine (List.countP_append ..).trans ?_
    change resumptions s + 1 = 1
    rw [h]
  · cases hs

theorem recvStep_awaited {disconnected : Bool}
    (hs : recvStep packetSize s disconnected = some s') :
    s'.connection = s.connection ∧ s.recv.awaited = 0 ∧ s'.recv.awaited = 0 := by
  rw [recvStep.eq_def] at hs
  split at hs
  · rename_i t hrecv
    split at hs
    all_goals obtain rfl := Option.some.inj hs
    all_goals exact ⟨rfl, by rw [hrecv]; rfl, rfl⟩
  · rename_i t hrecv
    split at hs
    all_goals obtain rfl := Option.some.inj hs
    all_goals exact ⟨rfl, by rw [hrecv]; rfl, rfl⟩
  · rename_i t packet hrecv
    obtain ⟨session, -, rfl⟩ := Option.map_eq_some_iff.mp hs
    exact ⟨rfl, by rw [hrecv]; rfl, rfl⟩
  · rename_i t hrecv
    split at hs
    · obtain rfl := Option.some.inj hs
      exact ⟨rfl, by rw [hrecv]; rfl, rfl⟩
    · cases hs
  · rename_i t hrecv
    obtain rfl := Option.some.inj hs
    exact ⟨rfl, by rw [hrecv]; rfl, rfl⟩
  all_goals cases hs

/-- A task resumes `Recv` only where it waits for one, and for one task at a time. -/
theorem resumptions_step {l : Label Tid Task} (h : resumptions s = s.recv.awaited)
    (hs : step packetSize s l = some s') : resumptions s' = s'.recv.awaited := by
  cases l with
  | connection l =>
    rw [step] at hs
    split at hs
    · obtain ⟨connection, hstep, hs⟩ := Option.bind_eq_some_iff.mp hs
      exact resumption_awaited h hstep hs
    · cases hs
  | session l =>
    cases step_moves hs with
    | quiet l hl => exact absurd rfl (hl l)
    | session l hl hstep hconnection hrecv hyielded =>
      rw [resumptions, hconnection, hrecv]
      exact h
  | spawnRecv t =>
    rw [step] at hs
    split at hs
    · rename_i hrecv
      rw [hrecv] at h
      exact postRecv_awaited h rfl hs
    · cases hs
  | readCompletes t result =>
    rw [step] at hs
    split at hs
    · rename_i hrecv
      rw [hrecv] at h
      split at hs
      · exact postRecv_awaited h rfl hs
      · cases hs
    · cases hs
  | recv disconnected =>
    obtain ⟨hconnection, hbefore, hafter⟩ := recvStep_awaited hs
    rw [hafter, resumptions, hconnection]
    exact h.trans hbefore

end Resumptions

section Runs

variable [Fintype Tid]

structure Flow (s : State Tid Task) : Prop where
  counts : Counts s.session
  linked : packets s.session.linked ++ s.recv.inHand = s.yielded
  single : ∀ t u, (s.session.thread t).inRun = true → (s.session.thread u).inRun = true → t = u
  resumed : resumptions s = s.recv.awaited

omit [DecidableEq Tid] in
theorem flow_init (memory : ℕ → DataBlock) : Flow (init memory : State Tid Task) where
  counts := TaskSerializer.counts_init
  linked := rfl
  single t u ht := by cases ht
  resumed := rfl

theorem Flow.single_step (h : Flow s) {l : TaskSerializer.Label Tid (SessionTask Task)}
    (hone : ∀ t, l = .enter t → ∀ u, (s.session.thread u).inRun = false)
    (hs : TaskSerializer.step s.session l = some s'.session) (t u : Tid)
    (ht : (s'.session.thread t).inRun = true) (hu : (s'.session.thread u).inRun = true) :
    t = u := by
  rcases inRun_of_step hs ht with ht' | rfl
  · rcases inRun_of_step hs hu with hu' | rfl
    · exact h.single t u ht' hu'
    · exact absurd ((hone u rfl t).symm.trans ht') Bool.false_ne_true
  · rcases inRun_of_step hs hu with hu' | he
    · exact absurd ((hone t rfl u).symm.trans hu') Bool.false_ne_true
    · exact TaskSerializer.Label.enter.inj he

theorem Flow.next {l : Label Tid Task} (h : Flow s) (hone : OneWorker s l)
    (hs : step packetSize s l = some s') : Flow s' := by
  have hresumed := resumptions_step h.resumed hs
  cases step_moves hs with
  | quiet l hl hsession hhand hyielded =>
    refine ⟨hsession ▸ h.counts, ?_, hsession ▸ h.single, hresumed⟩
    rw [hsession, hhand, hyielded]
    exact h.linked
  | yield disconnected hsession hhand hyielded =>
    have hlinked := h.linked
    rw [hhand, List.append_nil] at hlinked
    refine ⟨hsession ▸ h.counts, ?_, hsession ▸ h.single, hresumed⟩
    rw [hsession, hyielded, hlinked]
  | post disconnected t packet hlink hhand hhand' hyielded =>
    have hlinked := h.linked
    refine ⟨counts_step h.counts hlink, ?_, h.single_step (fun u he => by cases he) hlink,
      hresumed⟩
    obtain ⟨-, he⟩ := TaskSerializer.step_link.mp hlink
    rw [hhand', hyielded, ← hlinked, hhand, List.append_nil, ← he]
    exact packets_append _ _
  | session l hl hstep hconnection hrecv hyielded =>
    refine ⟨counts_step h.counts hstep, ?_, h.single_step (fun t he => hone t (he ▸ rfl)) hstep,
      hresumed⟩
    have hlinked : packets s'.session.linked = packets s.session.linked := by
      by_cases hlink : ∃ t task, l = .link t task
      · obtain ⟨t, task, rfl⟩ := hlink
        cases task with
        | handleMsg packet => exact absurd rfl (hl t packet)
        | other task =>
          obtain ⟨-, he⟩ := TaskSerializer.step_link.mp hstep
          rw [← he]
          exact (packets_append _ _).trans (List.append_nil _)
      · rw [linked_of_step (fun t task he => hlink ⟨t, task, he⟩) hstep]
    rw [hlinked, hrecv, hyielded]
    exact h.linked

structure InOrder (s : State Tid Task) : Prop where
  handled_yielded : handled s <+: s.yielded
  all_handled : s.session.que = [] → ¬ PostInFlight s → handled s = s.yielded
  one_at_a_time : ∀ t u, executing s t = true → executing s u = true → t = u
  resumed_waiting : resumptions s = s.recv.awaited

omit [DecidableEq Tid] in
theorem Flow.inOrder (h : Flow s) : InOrder s where
  handled_yielded := by
    refine ⟨packets s.session.que ++ s.recv.inHand, ?_⟩
    rw [← h.linked, ← h.counts.order, packets_append, List.append_assoc]
    rfl
  all_handled hque hflight := by
    have horder := h.counts.order
    rw [hque, List.append_nil] at horder
    have hhand : s.recv.inHand = [] :=
      Recv.inHand_nil fun t packet he => hflight (.inr ⟨t, packet, he⟩)
    rw [← h.linked, hhand, List.append_nil, ← horder]
    rfl
  one_at_a_time t u ht hu := h.single t u (inRun_of_executing ht) (inRun_of_executing hu)
  resumed_waiting := h.resumed

/-- In every run in which one worker at a time runs the session, the handled packets are a
prefix of the yielded ones. -/
theorem messages_in_order (packetSize : ℤ) (memory : ℕ → DataBlock) (ls : List (Label Tid Task))
    (s : State Tid Task) (hone : Along OneWorker (step packetSize) (init memory) ls)
    (hrun : exec (step packetSize) (init memory) ls = some s) : InOrder s :=
  (Transition.exec_invariant_along (fun _ _ _ h hok hs => h.next hok hs) (flow_init memory) hone
    hrun).inOrder

instance [DecidableEq Task] (s : State Tid Task) (l : Label Tid Task) : Decidable (OneWorker s l) :=
  inferInstanceAs (Decidable (∀ _, _))

def twoPackets : List (Label TaskSerializer.Caller Unit) :=
  [.spawnRecv .poster, .connection (.addSize .poster), .connection (.addTaskCount .poster),
    .connection (.onPost .poster), .connection (.enter .rival), .connection (.getSize .rival),
    .connection (.pop .rival), .recv false, .connection (.taskReturns .rival),
    .connection (.pop .rival), .connection (.subTaskCount .rival), .connection (.onRun .rival),
    .readCompletes .poster (some [0, 0, 0, 0, 1, 0, 0, 0, 0, 0, 0, 0, 2, 0, 0, 0]),
    .connection (.addSize .poster), .connection (.addTaskCount .poster),
    .connection (.onPost .poster), .connection (.enter .runner), .connection (.getSize .runner),
    .connection (.pop .runner), .recv false, .recv false, .session (.addSize .runner),
    .session (.addTaskCount .runner), .session (.onPost .runner), .recv false,
    .session (.enter .rival), .recv false, .session (.getSize .rival), .session (.pop .rival)]

theorem twoPackets_in_order : ∃ s : State TaskSerializer.Caller Unit,
    exec (step maxTcpPacketSize) (init RecvLoop.blankMemory) twoPackets = some s ∧
      handled s = [⟨0, 0⟩] ∧ s.yielded = [⟨0, 0⟩, ⟨0, 8⟩] ∧ InOrder s := by
  have h : ((exec (step maxTcpPacketSize) (init RecvLoop.blankMemory :
      State TaskSerializer.Caller Unit) twoPackets).map fun s =>
        decide (handled s = [⟨0, 0⟩] ∧ s.yielded = [⟨0, 0⟩, ⟨0, 8⟩])) = some true := by
    decide
  obtain ⟨s, hrun, hs⟩ := Option.map_eq_some_iff.mp h
  obtain ⟨hhandled, hyielded⟩ := of_decide_eq_true hs
  exact ⟨s, hrun, hhandled, hyielded, messages_in_order maxTcpPacketSize RecvLoop.blankMemory
    twoPackets s (by decide) hrun⟩

end Runs

end Bugat.GameSession
