import Mathlib
import Bugat.Base.NetworkMessage
import Bugat.Base.SendLoop
import Bugat.Lib.Threads

/-!
# Connection: opening, closing and the events of one connection

Any number of threads call `Start` and `Close` of one connection and `Close` of the session
that `WorldServer::OnAccept` has wired to it. The coroutines `Send` and `Recv` run on the
executor of the connection, one at a time, the tasks of the session on its own executor.
Each access to `_state`, to `_socket`, to a queue, and each firing of an event together with
its handler is one step. A read or a write completes at any time after it was started.
-/

namespace Bugat.Connection

inductive ConnectionState
  | disconnected
  | connecting
  | connected
  deriving DecidableEq, Repr

inductive Event
  | onConnect
  | onRead (packet : RecvPacket)
  | onClose
  deriving DecidableEq, Repr

inductive Resumption
  | send
  | recv
  deriving DecidableEq, Repr

inductive SessionTask
  | close
  | handleMsg (packet : RecvPacket)
  deriving DecidableEq, Repr

/-- `running` says that a worker is inside a task of the connection, `connection` that the
session holds it, `registered` that the SessionManager holds the session. `events` are the
events that the connection has fired, `sessionOnClose` counts those of the session.
`starts` and `wins` count the exchanges of `Start` and `Close` that succeeded, `resets` the
resets of the socket, `returned` the calls of `Close` that have returned, `sessionCloses`
the calls of `Session::Close` by game code. `uses` has an entry for each dereference of
`_socket`: whether it was non-null. -/
structure Shared where
  state : ConnectionState
  socket : Bool
  sendQue : List AnySendPacket
  tasks : List Resumption
  running : Bool
  events : List Event
  sessionTasks : List SessionTask
  connection : Bool
  registered : Bool
  sessionOnClose : ℕ
  starts : ℕ
  wins : ℕ
  resets : ℕ
  returned : ℕ
  sessionCloses : ℕ
  uses : List Bool

/-- Where a call of `Connection::Close` stands; `attempts` counts its failed exchanges. -/
inductive ClosePc
  | exchange (expect : ConnectionState) (attempts : ℕ)
  | testSocket
  | closeSocket
  | resetSocket
  | onClose
  deriving DecidableEq, Repr

inductive AfterClose
  | caller
  | coroutine
  | session
  deriving DecidableEq, Repr

inductive StartPc
  | exchange
  | spawnSend
  | spawnRecv
  | onConnect
  deriving DecidableEq, Repr

inductive RecvPc
  | initial
  | test
  | use
  | reading
  | completed (result : Option (List UInt8))
  | decode
  | onRead (packet : RecvPacket)
  deriving DecidableEq, Repr

inductive SendPc
  | suspended
  | test
  | pop
  | use
  | writing
  | completed (result : Option ℕ)
  deriving DecidableEq, Repr

inductive SessionPc
  | idle
  | handle (packet : RecvPacket)
  | test
  | release
  | onClose
  deriving DecidableEq, Repr

/-- `recv` and `send` come with the local variables of the coroutines. `thrown` has left
`Close` by an exception or at a null socket, `crashed` is a coroutine at a null socket. -/
inductive Pc
  | idle
  | start (pc : StartPc)
  | close (pc : ClosePc) (after : AfterClose)
  | thrown (after : AfterClose)
  | recv (pc : RecvPc) (msg : NetworkMessage)
  | send (pc : SendPc) (sendingPacket : Option AnySendPacket) (helper : PacketHelper)
  | crashed
  | finished
  | session (pc : SessionPc)

/-- The calls that a thread makes, the resumption of a coroutine, the completion of a read or
a write, and the next step of what is open; `closeFails` is the one of `Close` in which the
socket reports an error. -/
inductive Action
  | callStart
  | callClose
  | callSessionClose
  | push (packet : AnySendPacket)
  | resume
  | readCompletes (result : Option (List UInt8))
  | writeCompletes (result : Option ℕ)
  | go
  | closeFails

namespace Shared

def init : Shared where
  state := .connecting
  socket := true
  sendQue := []
  tasks := []
  running := false
  events := []
  sessionTasks := []
  connection := true
  registered := false
  sessionOnClose := 0
  starts := 0
  wins := 0
  resets := 0
  returned := 0
  sessionCloses := 0
  uses := []

def post (u : Shared) (r : Resumption) : Shared := { u with tasks := u.tasks ++ [r] }

/-- `Session::Close`. -/
def postClose (u : Shared) : Shared := { u with sessionTasks := u.sessionTasks ++ [.close] }

def leave (u : Shared) : Shared := { u with running := false }

def useSocket (u : Shared) : Shared := { u with uses := u.uses ++ [u.socket] }

def fireOnConnect (u : Shared) : Shared :=
  { u with events := u.events ++ [.onConnect], registered := true }

def fireOnRead (u : Shared) (packet : RecvPacket) : Shared :=
  { u with
    events := u.events ++ [.onRead packet]
    sessionTasks := u.sessionTasks ++ [.handleMsg packet] }

def fireOnClose (u : Shared) : Shared := { u.postClose with events := u.events ++ [.onClose] }

/-- `OnClose` of the session, whose handler removes it from the SessionManager. -/
def fireSessionOnClose (u : Shared) : Shared :=
  { u with sessionOnClose := u.sessionOnClose + 1, registered := false }

def returnClose (u : Shared) (after : AfterClose) : Shared × Pc :=
  let u' := { u with returned := u.returned + 1 }
  match after with
  | .caller => (u', .idle)
  | .coroutine => (u'.leave, .finished)
  | .session => (u', .session .release)

end Shared

def start (u : Shared) : StartPc → Shared × Pc
  | .exchange =>
    if u.state = .connecting then
      ({ u with state := .connected, starts := u.starts + 1 }, .start .spawnSend)
    else (u, .idle)
  | .spawnSend => (u.post .send, .start .spawnRecv)
  | .spawnRecv => (u.post .recv, .start .onConnect)
  | .onConnect => (u.fireOnConnect, .idle)

def close (u : Shared) (after : AfterClose) : ClosePc → Shared × Pc
  | .exchange expect attempts =>
    if u.state = expect then
      ({ u with state := .disconnected, wins := u.wins + 1 }, .close .testSocket after)
    else if u.state = .disconnected then u.returnClose after
    else (u, .close (.exchange u.state (attempts + 1)) after)
  | .testSocket => (u, .close (if u.socket then .closeSocket else .onClose) after)
  | .closeSocket => (u.useSocket, if u.socket then .close .resetSocket after else .thrown after)
  | .resetSocket => ({ u with socket := false, resets := u.resets + 1 }, .close .onClose after)
  | .onClose => u.fireOnClose.returnClose after

def beginClose (after : AfterClose) : Pc := .close (.exchange .connected 0) after

variable (packetSize : ℤ)

def whileOpen (u : Shared) (pc : Pc) : Pc :=
  if u.state = .disconnected then beginClose .coroutine else pc

def await (u : Shared) (pc : Pc) : Shared × Pc :=
  if u.socket then (u.useSocket.leave, pc) else (u.useSocket, .crashed)

def recv (u : Shared) (msg : NetworkMessage) : RecvPc → Option (Shared × Pc)
  | .test => some (u, whileOpen u (.recv .use (msg.getBufInfo packetSize).1))
  | .use => some (await u (.recv .reading msg))
  | .decode =>
    match msg.getNetMessage with
    | none => some (u, .recv .test msg)
    | some (packet, msg) => some (u, .recv (.onRead packet) msg)
  | .onRead packet => some (u.fireOnRead packet, .recv .decode msg)
  | .initial | .reading | .completed _ => none

def send (u : Shared) (sendingPacket : Option AnySendPacket) (helper : PacketHelper) :
    SendPc → Option (Shared × Pc)
  | .test =>
    some (u, whileOpen u (.send (if sendingPacket.isNone then .pop else .use) sendingPacket helper))
  | .pop =>
    match u.sendQue with
    -- `co_await AwaitAlways(this)`
    | [] => some ((u.post .send).leave, .send .suspended none helper)
    | packet :: sendQue =>
      some ({ u with sendQue := sendQue }, .send .use (some packet) (helper.init packet))
  | .use => some (await u (.send .writing sendingPacket helper))
  | .suspended | .writing | .completed _ => none

def resumed : Pc → Option (Resumption × Pc)
  | .recv .initial msg => some (.recv, .recv .test msg)
  | .recv (.completed none) _ => some (.recv, beginClose .coroutine)
  | .recv (.completed (some bytes)) msg =>
    some (.recv, .recv .decode ((RecvLoop.fill msg bytes).update packetSize bytes.length).2)
  | .send .suspended sendingPacket helper => some (.send, .send .test sendingPacket helper)
  | .send (.completed none) _ _ => some (.send, beginClose .coroutine)
  | .send (.completed (some transfer)) sendingPacket helper =>
    let helper := helper.update transfer
    some (.send, if helper.isEmpty then .send .test none helper.clear
      else .send .test sendingPacket helper)
  | _ => none

def resume (u : Shared) (pc : Pc) : Option (Shared × Pc) :=
  match resumed packetSize pc, u.tasks with
  | some (r, pc'), r' :: tasks =>
    if r = r' ∧ u.running = false then some ({ u with tasks := tasks, running := true }, pc')
    else none
  | _, _ => none

def session (u : Shared) : SessionPc → Option (Shared × Pc)
  | .idle =>
    match u.sessionTasks with
    | [] => none
    | .close :: tasks => some ({ u with sessionTasks := tasks }, .session .test)
    | .handleMsg packet :: tasks =>
      some ({ u with sessionTasks := tasks }, .session (.handle packet))
  | .handle _ => some (u, .session .idle)
  | .test => some (u, if u.connection then beginClose .session else .session .onClose)
  | .release => some ({ u with connection := false }, .session .onClose)
  | .onClose => some (u.fireSessionOnClose, .session .idle)

def go (u : Shared) : Pc → Option (Shared × Pc)
  | .start pc => some (start u pc)
  | .close pc after => some (close u after pc)
  | .recv pc msg => recv packetSize u msg pc
  | .send pc sendingPacket helper => send u sendingPacket helper pc
  | .session pc => session u pc
  | .idle | .thrown _ | .crashed | .finished => none

/-- The completion of an operation on the socket: at least one byte within the window, or an
error. -/
def complete (u : Shared) (pc : Pc) : Action → Option (Shared × Pc)
  | .readCompletes result =>
    match pc with
    | .recv .reading msg =>
      if ∀ bytes ∈ result, 1 ≤ bytes.length ∧ (bytes.length : ℤ) ≤ packetSize then
        some (u.post .recv, .recv (.completed result) msg)
      else none
    | _ => none
  | .writeCompletes result =>
    match pc with
    | .send .writing sendingPacket helper =>
      if ∀ transfer ∈ result, 1 ≤ transfer ∧ transfer ≤ helper.rest.length then
        some (u.post .send, .send (.completed result) sendingPacket helper)
      else none
    | _ => none
  | .closeFails =>
    match pc with
    | .close .closeSocket after =>
      if u.socket then some (u.useSocket, .thrown after) else none
    | _ => none
  | _ => none

def call (u : Shared) : Action → Option (Shared × Pc)
  | .callStart => some (u, .start .exchange)
  | .callClose => some (u, beginClose .caller)
  | .callSessionClose => some ({ u.postClose with sessionCloses := u.sessionCloses + 1 }, .idle)
  | .push packet => some ({ u with sendQue := u.sendQue ++ [packet] }, .idle)
  | _ => none

def act (u : Shared) (pc : Pc) : Action → Option (Shared × Pc)
  | .go => go packetSize u pc
  | .resume => resume packetSize u pc
  | .readCompletes result => complete packetSize u pc (.readCompletes result)
  | .writeCompletes result => complete packetSize u pc (.writeCompletes result)
  | .closeFails => complete packetSize u pc .closeFails
  | action => if pc matches .idle then call u action else none

inductive Moves (u : Shared) : Pc → Action → Shared → Pc → Prop
  | call {a : Action} {u' : Shared} {pc' : Pc} (h : Connection.call u a = some (u', pc')) :
    Moves u .idle a u' pc'
  | start (pc : StartPc) :
    Moves u (.start pc) .go (Connection.start u pc).1 (Connection.start u pc).2
  | close (pc : ClosePc) (after : AfterClose) :
    Moves u (.close pc after) .go (Connection.close u after pc).1 (Connection.close u after pc).2
  | recv {pc : RecvPc} {msg : NetworkMessage} {u' : Shared} {pc' : Pc}
    (h : Connection.recv packetSize u msg pc = some (u', pc')) : Moves u (.recv pc msg) .go u' pc'
  | send {pc : SendPc} {sendingPacket : Option AnySendPacket} {helper : PacketHelper} {u' : Shared}
    {pc' : Pc} (h : Connection.send u sendingPacket helper pc = some (u', pc')) :
    Moves u (.send pc sendingPacket helper) .go u' pc'
  | session {pc : SessionPc} {u' : Shared} {pc' : Pc}
    (h : Connection.session u pc = some (u', pc')) : Moves u (.session pc) .go u' pc'
  | resume {pc : Pc} {u' : Shared} {pc' : Pc}
    (h : Connection.resume packetSize u pc = some (u', pc')) : Moves u pc .resume u' pc'
  | complete {a : Action} {pc : Pc} {u' : Shared} {pc' : Pc}
    (h : Connection.complete packetSize u pc a = some (u', pc')) : Moves u pc a u' pc'

theorem act_cases {packetSize : ℤ} {u u' : Shared} {pc pc' : Pc} {a : Action}
    (hs : act packetSize u pc a = some (u', pc')) : Moves packetSize u pc a u' pc' := by
  cases a with
  | go =>
    cases pc with
    | start pc =>
      obtain ⟨rfl, rfl⟩ := Prod.mk.inj (Option.some.inj hs)
      exact .start pc
    | close pc after =>
      obtain ⟨rfl, rfl⟩ := Prod.mk.inj (Option.some.inj hs)
      exact .close pc after
    | recv pc msg => exact .recv hs
    | send pc sendingPacket helper => exact .send hs
    | session pc => exact .session hs
    | idle | thrown after | crashed | finished => cases hs
  | resume => exact .resume hs
  | readCompletes result => exact .complete hs
  | writeCompletes result => exact .complete hs
  | closeFails => exact .complete hs
  | callStart | callClose | callSessionClose | push packet =>
    cases pc with
    | idle => exact .call (by simpa [act] using hs)
    | start pc | close pc after | thrown after | recv pc msg | send pc sendingPacket helper |
      crashed | finished | session pc => cases hs

theorem resume_cases {packetSize : ℤ} {u u' : Shared} {pc pc' : Pc}
    (hs : resume packetSize u pc = some (u', pc')) : ∃ r tasks,
      resumed packetSize pc = some (r, pc') ∧ u.tasks = r :: tasks ∧ u.running = false ∧
        u' = { u with tasks := tasks, running := true } := by
  rw [resume] at hs
  split at hs
  · rename_i r next r' tasks hresumed htasks
    split at hs
    · rename_i hok
      obtain ⟨rfl, rfl⟩ := Prod.mk.inj (Option.some.inj hs)
      exact ⟨r, tasks, hresumed, hok.1 ▸ htasks, hok.2, rfl⟩
    · cases hs
  · cases hs

inductive Completes (u : Shared) : Pc → Shared → Pc → Prop
  | read (result : Option (List UInt8)) (msg : NetworkMessage) :
    Completes u (.recv .reading msg) (u.post .recv) (.recv (.completed result) msg)
  | write (result : Option ℕ) (sendingPacket : Option AnySendPacket) (helper : PacketHelper) :
    Completes u (.send .writing sendingPacket helper) (u.post .send)
      (.send (.completed result) sendingPacket helper)
  | closeFails (after : AfterClose) :
    Completes u (.close .closeSocket after) u.useSocket (.thrown after)

theorem complete_cases {packetSize : ℤ} {u u' : Shared} {pc pc' : Pc} {a : Action}
    (hs : complete packetSize u pc a = some (u', pc')) : Completes u pc u' pc' := by
  rw [complete.eq_def] at hs
  split at hs
  case h_1 result =>
    split at hs
    · split at hs
      · obtain ⟨rfl, rfl⟩ := Prod.mk.inj (Option.some.inj hs)
        exact .read result _
      · cases hs
    · cases hs
  case h_2 result =>
    split at hs
    · split at hs
      · obtain ⟨rfl, rfl⟩ := Prod.mk.inj (Option.some.inj hs)
        exact .write result _ _
      · cases hs
    · cases hs
  case h_3 =>
    split at hs
    · split at hs
      · obtain ⟨rfl, rfl⟩ := Prod.mk.inj (Option.some.inj hs)
        exact .closeFails _
      · cases hs
    · cases hs
  case h_4 => cases hs

inductive Role
  | recv
  | send
  | session
  deriving DecidableEq, Repr

instance : Fintype Role := ⟨{.recv, .send, .session}, fun r => by cases r <;> decide⟩

abbrev State (Tid : Type*) := Threads.System Shared Pc (Tid ⊕ Role)

variable {Tid : Type*}

def init (memory : ℕ → DataBlock) : State Tid where
  shared := .init
  thread
    | .inl _ => .idle
    | .inr .recv => .recv .initial (.init memory)
    | .inr .send => .send .suspended none ⟨[]⟩
    | .inr .session => .session .idle

def step [DecidableEq Tid] (s : State Tid) (l : (Tid ⊕ Role) × Action) : Option (State Tid) :=
  Threads.step (act packetSize) s l

end Bugat.Connection
