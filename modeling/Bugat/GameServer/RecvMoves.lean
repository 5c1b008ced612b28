import Mathlib
import Bugat.GameServer.MessageOrder

/-!
# What the steps of a session do to Recv

The mailboxes of the connection and of the session start, resume and end the coroutine, and it
moves on between its suspensions. Every step is one of eleven moves of it.
-/

namespace Bugat.GameSession

open TaskSerializer (taken)

variable {Tid Task : Type*}

inductive RecvMoves [DecidableEq Tid] (P : ℤ) (s s' : State Tid Task) : Label Tid Task → Prop
  | stays {l : Label Tid Task} (hrecv : s'.recv = s.recv) (hmsg : s'.msg = s.msg)
    (hyielded : s'.yielded = s.yielded) : RecvMoves P s s' l
  | spawn {l : Label Tid Task} (hold : s.recv = .notStarted) (hrecv : s'.recv = .spawned)
    (hmsg : s'.msg = s.msg) (hyielded : s'.yielded = s.yielded) : RecvMoves P s s' l
  | complete (t : Tid) (result : Option (List UInt8)) (hold : s.recv = .reading)
    (hrecv : s'.recv = .completed result)
    (hlength : ∀ bytes ∈ result, 1 ≤ bytes.length ∧ (bytes.length : ℤ) ≤ P)
    (hmsg : s'.msg = s.msg) (hyielded : s'.yielded = s.yielded) :
    RecvMoves P s s' (.readCompletes t result)
  | start {l : Label Tid Task} (t : Tid) (hold : s.recv = .spawned)
    (hrecv : s'.recv = .running t .test) (hmsg : s'.msg = s.msg)
    (hyielded : s'.yielded = s.yielded) : RecvMoves P s s' l
  | fill {l : Label Tid Task} (t : Tid) (bytes : List UInt8)
    (hold : s.recv = .completed (some bytes)) (hrecv : s'.recv = .running t .decode)
    (hmsg : s'.msg = ((RecvLoop.fill s.msg bytes).update P bytes.length).2)
    (hyielded : s'.yielded = s.yielded) : RecvMoves P s s' l
  | request (t : Tid) (hold : s.recv = .running t .test) (hrecv : s'.recv = .reading)
    (hmsg : s'.msg = (s.msg.getBufInfo P).1) (hyielded : s'.yielded = s.yielded) :
    RecvMoves P s s' (.recv false)
  | exhausted {l : Label Tid Task} (t : Tid) (hold : s.recv = .running t .decode)
    (hnone : s.msg.getNetMessage = none) (hrecv : s'.recv = .running t .test)
    (hmsg : s'.msg = s.msg) (hyielded : s'.yielded = s.yielded) : RecvMoves P s s' l
  | cut {l : Label Tid Task} (t : Tid) (packet : RecvPacket)
    (hold : s.recv = .running t .decode) (hcut : s.msg.getNetMessage = some (packet, s'.msg))
    (hrecv : s'.recv = .running t (.onRead packet))
    (hyielded : s'.yielded = s.yielded ++ [packet]) : RecvMoves P s s' l
  | posted {l : Label Tid Task} (t : Tid) (packet : RecvPacket)
    (hold : s.recv = .running t (.onRead packet)) (hrecv : s'.recv = .running t .handed)
    (hmsg : s'.msg = s.msg) (hyielded : s'.yielded = s.yielded) : RecvMoves P s s' l
  | again {l : Label Tid Task} (t : Tid) (hold : s.recv = .running t .handed)
    (hrecv : s'.recv = .running t .decode) (hmsg : s'.msg = s.msg)
    (hyielded : s'.yielded = s.yielded) : RecvMoves P s s' l
  | ends {l : Label Tid Task} (t : Tid)
    (hold : s.recv = .completed none ∨ s.recv = .running t .test ∨ s.recv = .running t .close)
    (hrecv : s'.recv = .running t .close ∨ s'.recv = .finished) (hmsg : s'.msg = s.msg)
    (hyielded : s'.yielded = s.yielded) : RecvMoves P s s' l

variable [DecidableEq Tid] {P : ℤ} {s s' u : State Tid Task} {l : Label Tid Task}

theorem resumeRecv_moves (t : Tid) (hrecv : u.recv = s.recv) (hmsg : u.msg = s.msg)
    (hyielded : u.yielded = s.yielded) : RecvMoves P s (resumeRecv P u t) l := by
  cases hold : s.recv with
  | spawned =>
    have he : resumeRecv P u t = { u with recv := .running t .test } := by
      rw [resumeRecv, hrecv, hold]
    rw [he]
    exact .start t hold rfl hmsg hyielded
  | completed result =>
    cases result with
    | none =>
      have he : resumeRecv P u t = { u with recv := .running t .close } := by
        rw [resumeRecv, hrecv, hold]
      rw [he]
      exact .ends t (.inl hold) (.inl rfl) hmsg hyielded
    | some bytes =>
      have he : resumeRecv P u t = { u with
          recv := .running t .decode
          msg := ((RecvLoop.fill u.msg bytes).update P bytes.length).2 } := by
        rw [resumeRecv, hrecv, hold]
      rw [he]
      exact .fill t bytes hold rfl (by rw [hmsg]) hyielded
  | notStarted | reading | running _ _ | finished =>
    have he : resumeRecv P u t = u := by
      rw [resumeRecv, hrecv, hold]
    rw [he]
    exact .stays hrecv hmsg hyielded

theorem resumption_moves {c : TaskSerializer.State Tid (ConnectionTask Task)}
    {lc : TaskSerializer.Label Tid (ConnectionTask Task)}
    (hs : resumption P s { s with connection := c } lc = some s') : RecvMoves P s s' l := by
  have hsame : some { s with connection := c } = some s' → RecvMoves P s s' l := by
    intro h
    obtain rfl := Option.some.inj h
    exact .stays rfl rfl rfl
  rw [resumption.eq_def] at hs
  split at hs
  · rename_i t
    split at hs
    · obtain rfl := Option.some.inj hs
      exact resumeRecv_moves t rfl rfl rfl
    · exact hsame hs
    · exact hsame hs
  · split at hs
    · split at hs
      · cases hs
      · exact hsame hs
    · exact hsame hs
  · split at hs
    · rename_i t v hold
      split at hs
      · obtain rfl := Option.some.inj hs
        exact .ends v (.inr (.inr hold)) (.inr rfl) rfl rfl
      · exact hsame hs
    · split at hs
      · cases hs
      · exact hsame hs
    · exact hsame hs
  · cases hs
  · exact hsame hs

theorem recvStep_recvMoves {disconnected : Bool}
    (hs : recvStep P s disconnected = some s') : RecvMoves P s s' (.recv disconnected) := by
  rw [recvStep.eq_def] at hs
  split at hs
  · rename_i t hold
    cases disconnected with
    | true =>
      obtain rfl := Option.some.inj hs
      exact .ends t (.inr (.inl hold)) (.inl rfl) rfl rfl
    | false =>
      obtain rfl := Option.some.inj hs
      exact .request t hold rfl rfl rfl
  · rename_i t hold
    split at hs
    · rename_i hnone
      obtain rfl := Option.some.inj hs
      exact .exhausted t hold hnone rfl rfl rfl
    · rename_i packet msg hcut
      obtain rfl := Option.some.inj hs
      exact .cut t packet hold hcut rfl rfl
  · rename_i t packet hold
    obtain ⟨session, -, rfl⟩ := Option.map_eq_some_iff.mp hs
    exact .posted t packet hold rfl rfl rfl
  · rename_i t hold
    split at hs
    · obtain rfl := Option.some.inj hs
      exact .again t hold rfl rfl rfl
    · cases hs
  · rename_i t hold
    obtain rfl := Option.some.inj hs
    exact .ends t (.inr (.inr hold)) (.inr rfl) rfl rfl
  all_goals cases hs

theorem postRecv_eq_some {t : Tid} {recv : Recv Tid} (hs : postRecv s t recv = some s') :
    s'.recv = recv ∧ s'.msg = s.msg ∧ s'.yielded = s.yielded := by
  rw [postRecv] at hs
  split at hs
  · obtain ⟨connection, -, rfl⟩ := Option.map_eq_some_iff.mp hs
    exact ⟨rfl, rfl, rfl⟩
  · cases hs

theorem readCompletes_eq_some {t : Tid} {result : Option (List UInt8)}
    (hs : step P s (.readCompletes t result) = some s') : s.recv = .reading ∧
      s'.recv = .completed result ∧
      (∀ bytes ∈ result, 1 ≤ bytes.length ∧ (bytes.length : ℤ) ≤ P) ∧
      s'.msg = s.msg ∧ s'.yielded = s.yielded := by
  rw [step] at hs
  split at hs
  · rename_i hold
    split at hs
    · rename_i hlength
      obtain ⟨hrecv, hmsg, hyielded⟩ := postRecv_eq_some hs
      exact ⟨hold, hrecv, hlength, hmsg, hyielded⟩
    · cases hs
  · cases hs

theorem recvMoves_of_step (hs : step P s l = some s') : RecvMoves P s s' l := by
  cases l with
  | connection lc =>
    rw [step] at hs
    split at hs
    · obtain ⟨c, -, hs⟩ := Option.bind_eq_some_iff.mp hs
      exact resumption_moves hs
    · cases hs
  | session ls =>
    rw [step.eq_def] at hs
    dsimp only at hs
    split at hs
    · split at hs
      · cases hs
      · obtain ⟨c, -, rfl⟩ := Option.map_eq_some_iff.mp hs
        exact .stays rfl rfl rfl
    · cases hs
  | spawnRecv t =>
    rw [step] at hs
    split at hs
    · rename_i hold
      obtain ⟨hrecv, hmsg, hyielded⟩ := postRecv_eq_some hs
      exact .spawn hold hrecv hmsg hyielded
    · cases hs
  | readCompletes t result =>
    obtain ⟨hold, hrecv, hlength, hmsg, hyielded⟩ := readCompletes_eq_some hs
    exact .complete t result hold hrecv hlength hmsg hyielded
  | recv disconnected => exact recvStep_recvMoves hs

end Bugat.GameSession
