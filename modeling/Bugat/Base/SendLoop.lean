import Mathlib
import Bugat.Lib.Transition

/-!
# The Send coroutine: packets written in parts

`PacketHelper` keeps the buffers of one packet that the socket has not accepted yet, and
`Update` cuts off what a partial write has taken. `Connection::Send` takes packets from
`_sendQue` one after the other and writes each until its helper is empty. The socket
accepts a prefix of what it is offered, at least one byte.
-/

namespace Bugat

structure SendPacket where
  header : List UInt8
  header_ne_nil : header ≠ []
  bufs : List (List UInt8)

def SendPacket.data (p : SendPacket) : List (List UInt8) := p.header :: p.bufs

structure AnySendPacket where
  number : ℕ
  packet : SendPacket

namespace AnySendPacket

def getBufs (p : AnySendPacket) : List (List UInt8) := p.packet.data

def bytes (p : AnySendPacket) : List UInt8 := p.getBufs.flatten

theorem bytes_ne_nil (p : AnySendPacket) : p.bytes ≠ [] := by
  rw [bytes, getBufs, SendPacket.data, List.flatten_cons]
  exact List.append_ne_nil_of_left_ne_nil p.packet.header_ne_nil _

end AnySendPacket

structure PacketHelper where
  bufs : List (List UInt8)

namespace PacketHelper

def init (h : PacketHelper) (packet : AnySendPacket) : PacketHelper :=
  ⟨h.bufs ++ packet.getBufs⟩

/-- The loop of `Update`: whole buffers are erased, the first other one is cut. -/
def updateBufs : ℕ → List (List UInt8) → List (List UInt8)
  | _, [] => []
  | size, buf :: bufs =>
    if buf.length ≤ size then updateBufs (size - buf.length) bufs else buf.drop size :: bufs

def update (h : PacketHelper) (size : ℕ) : PacketHelper := ⟨updateBufs size h.bufs⟩

def isEmpty (h : PacketHelper) : Bool := h.bufs.isEmpty

def clear (_ : PacketHelper) : PacketHelper := ⟨[]⟩

def rest (h : PacketHelper) : List UInt8 := h.bufs.flatten

theorem updateBufs_flatten (size : ℕ) (bufs : List (List UInt8)) :
    (updateBufs size bufs).flatten = bufs.flatten.drop size := by
  induction bufs generalizing size with
  | nil => simp [updateBufs]
  | cons buf bufs ih =>
    rw [updateBufs, List.flatten_cons]
    split
    · rename_i hle
      rw [ih, List.drop_append, List.drop_of_length_le hle, List.nil_append]
    · rename_i hlt
      rw [List.flatten_cons, List.drop_append_of_le_length (by omega)]

theorem updateBufs_eq_nil {size : ℕ} {bufs : List (List UInt8)}
    (h : (updateBufs size bufs).flatten = []) : updateBufs size bufs = [] := by
  induction bufs generalizing size with
  | nil => rfl
  | cons buf bufs ih =>
    rw [updateBufs] at h ⊢
    split
    · rename_i hle
      rw [if_pos hle] at h
      exact ih h
    · rename_i hlt
      rw [if_neg hlt, List.flatten_cons, List.append_eq_nil_iff] at h
      have hlen := List.drop_eq_nil_iff.mp h.1
      exact absurd hlen hlt

theorem rest_update (h : PacketHelper) (size : ℕ) :
    (h.update size).rest = h.rest.drop size := updateBufs_flatten size h.bufs

end PacketHelper

inductive SendPc
  | top
  | written (transfer : ℕ)
  | updated
  deriving DecidableEq, Repr

/-- `pushed` lists the packets in the order in which `_sendQue` got them, `taken` and
`deleted` those that `Send` has taken out and deleted, `accepted` the bytes that the socket
has accepted. -/
structure SendLoop where
  sendQue : List AnySendPacket
  sendingPacket : Option AnySendPacket
  helper : PacketHelper
  pc : SendPc
  pushed : List AnySendPacket
  taken : List AnySendPacket
  deleted : List AnySendPacket
  accepted : List UInt8

namespace SendLoop

open Transition (exec exec_invariant)

def init : SendLoop := ⟨[], none, ⟨[]⟩, .top, [], [], [], []⟩

inductive Label
  | push (packet : SendPacket)
  | pop
  | write (transfer : ℕ)
  | update
  | finish

def push (s : SendLoop) (packet : SendPacket) : SendLoop :=
  let p : AnySendPacket := ⟨s.pushed.length, packet⟩
  { s with sendQue := s.sendQue ++ [p], pushed := s.pushed ++ [p] }

def pop (s : SendLoop) : SendLoop :=
  match s.sendQue with
  | [] => s
  | p :: rest =>
    { s with
      sendQue := rest
      sendingPacket := some p
      helper := s.helper.init p
      taken := s.taken ++ [p] }

/-- `AsyncWriteSome` accepts the first bytes of what it is offered. -/
def write (s : SendLoop) (transfer : ℕ) : SendLoop :=
  { s with accepted := s.accepted ++ s.helper.rest.take transfer, pc := .written transfer }

def update (s : SendLoop) (transfer : ℕ) : SendLoop :=
  { s with helper := s.helper.update transfer, pc := .updated }

def finish (s : SendLoop) : SendLoop :=
  if s.helper.isEmpty then
    { s with
      helper := s.helper.clear
      deleted := s.deleted ++ s.sendingPacket.toList
      sendingPacket := none
      pc := .top }
  else { s with pc := .top }

def step (s : SendLoop) : Label → Option SendLoop
  | .push packet => some (s.push packet)
  | .pop =>
    match s.pc, s.sendingPacket with
    | .top, none => some s.pop
    | _, _ => none
  | .write transfer =>
    match s.pc, s.sendingPacket with
    | .top, some _ =>
      if 0 < transfer ∧ transfer ≤ s.helper.rest.length then some (s.write transfer) else none
    | _, _ => none
  | .update =>
    match s.pc with
    | .written transfer => some (s.update transfer)
    | _ => none
  | .finish =>
    match s.pc with
    | .updated => some s.finish
    | _ => none

def unsent (s : SendLoop) : List UInt8 :=
  match s.pc with
  | .written transfer => s.helper.rest.drop transfer
  | _ => s.helper.rest

def current (s : SendLoop) : List UInt8 := s.sendingPacket.toList.flatMap AnySendPacket.bytes

structure Sent (s : SendLoop) (sent : List UInt8) : Prop where
  accepted : s.accepted = s.deleted.flatMap AnySendPacket.bytes ++ sent
  unsent : sent ++ s.unsent = s.current

structure Inv (s : SendLoop) : Prop where
  order : s.taken ++ s.sendQue = s.pushed
  taken : s.taken = s.deleted ++ s.sendingPacket.toList
  sent : ∃ sent, Sent s sent
  numbered : s.pushed.map AnySendPacket.number = List.range s.pushed.length
  idle : s.sendingPacket = none → s.helper.bufs = [] ∧ s.pc = .top
  started : s.helper.rest = [] → s.helper.bufs = []

variable {s s' : SendLoop} {l : Label} {transfer : ℕ}

theorem init_inv : Inv init where
  order := rfl
  taken := rfl
  sent := ⟨[], rfl, rfl⟩
  numbered := rfl
  idle _ := ⟨rfl, rfl⟩
  started _ := rfl

theorem Inv.push (h : Inv s) (packet : SendPacket) : Inv (s.push packet) where
  order := by
    change s.taken ++ (s.sendQue ++ _) = s.pushed ++ _
    rw [← List.append_assoc, h.order]
  taken := h.taken
  sent := by
    obtain ⟨sent, haccepted, hunsent⟩ := h.sent
    exact ⟨sent, haccepted, hunsent⟩
  numbered := by
    change (s.pushed ++ [_]).map AnySendPacket.number = List.range (s.pushed ++ [_]).length
    rw [List.map_append, h.numbered, List.length_append, List.length_singleton,
      List.range_succ]
    rfl
  idle := h.idle
  started := h.started

theorem Inv.pop (h : Inv s) (hnone : s.sendingPacket = none) : Inv s.pop := by
  obtain ⟨hbufs, htop⟩ := h.idle hnone
  rw [SendLoop.pop]
  cases hque : s.sendQue with
  | nil => exact h
  | cons p rest =>
    have hrest : (s.helper.init p).rest = p.bytes := by
      rw [PacketHelper.rest, PacketHelper.init, hbufs]
      rfl
    have htaken : s.taken = s.deleted := by
      have htaken := h.taken
      rwa [hnone, Option.toList_none, List.append_nil] at htaken
    obtain ⟨sent, haccepted, hunsent⟩ := h.sent
    rw [current, hnone, Option.toList_none, List.flatMap_nil, List.append_eq_nil_iff] at hunsent
    refine ⟨?_, ?_, ⟨[], ?_, ?_⟩, h.numbered, fun heq => ?_, fun hnil => ?_⟩
    · change (s.taken ++ [p]) ++ rest = s.pushed
      rw [← h.order, hque, List.append_assoc, List.singleton_append]
    · change s.taken ++ [p] = s.deleted ++ [p]
      rw [htaken]
    · rw [haccepted, hunsent.1]
    · simp only [SendLoop.unsent, htop]
      rw [hrest, List.nil_append, current, Option.toList_some, List.flatMap_singleton]
    · cases heq
    · exact absurd (hrest.symm.trans hnil) p.bytes_ne_nil

theorem Inv.write (h : Inv s) (htop : s.pc = .top) {p : AnySendPacket}
    (hsome : s.sendingPacket = some p) : Inv (s.write transfer) where
  order := h.order
  taken := h.taken
  sent := by
    obtain ⟨sent, haccepted, hunsent⟩ := h.sent
    simp only [SendLoop.unsent, htop] at hunsent
    refine ⟨sent ++ s.helper.rest.take transfer, ?_, ?_⟩
    · rw [SendLoop.write, haccepted, List.append_assoc]
    · change sent ++ s.helper.rest.take transfer ++ s.helper.rest.drop transfer = s.current
      rw [List.append_assoc, List.take_append_drop, hunsent]
  numbered := h.numbered
  idle heq := absurd (hsome.symm.trans heq) (Option.some_ne_none p)
  started := h.started

theorem Inv.update (h : Inv s) (hpc : s.pc = .written transfer) : Inv (s.update transfer) where
  order := h.order
  taken := h.taken
  sent := by
    obtain ⟨sent, haccepted, hunsent⟩ := h.sent
    simp only [SendLoop.unsent, hpc] at hunsent
    refine ⟨sent, haccepted, ?_⟩
    change sent ++ (s.helper.update transfer).rest = s.current
    rw [PacketHelper.rest_update, hunsent]
  numbered := h.numbered
  idle heq := by
    have htop := (h.idle heq).2
    rw [hpc] at htop
    cases htop
  started := PacketHelper.updateBufs_eq_nil

theorem Inv.finish (h : Inv s) (hpc : s.pc = .updated) : Inv s.finish := by
  obtain ⟨sent, haccepted, hunsent⟩ := h.sent
  simp only [SendLoop.unsent, hpc] at hunsent
  rw [SendLoop.finish]
  split
  · rename_i hempty
    have hbufs : s.helper.bufs = [] := List.isEmpty_iff.mp hempty
    rw [PacketHelper.rest, hbufs, List.flatten_nil, List.append_nil] at hunsent
    refine ⟨h.order, ?_, ⟨[], ?_, rfl⟩, h.numbered, fun _ => ⟨rfl, rfl⟩, fun _ => rfl⟩
    · change s.taken = (s.deleted ++ s.sendingPacket.toList) ++ []
      rw [List.append_nil, h.taken]
    · change s.accepted = (s.deleted ++ s.sendingPacket.toList).flatMap AnySendPacket.bytes ++ []
      rw [List.append_nil, List.flatMap_append, haccepted, hunsent]
      rfl
  · refine ⟨h.order, h.taken, ⟨sent, haccepted, hunsent⟩, h.numbered, fun heq => ?_, h.started⟩
    have htop := (h.idle heq).2
    rw [hpc] at htop
    cases htop

theorem Inv.step (h : Inv s) (hs : step s l = some s') : Inv s' := by
  cases l with
  | push packet =>
    obtain rfl := Option.some.inj hs
    exact h.push packet
  | pop =>
    simp only [SendLoop.step] at hs
    split at hs
    · rename_i hnone
      obtain rfl := Option.some.inj hs
      exact h.pop hnone
    · cases hs
  | write transfer =>
    simp only [SendLoop.step] at hs
    split at hs
    · rename_i htop hsome
      split at hs
      · obtain rfl := Option.some.inj hs
        exact h.write htop hsome
      · cases hs
    · cases hs
  | update =>
    simp only [SendLoop.step] at hs
    split at hs
    · rename_i hpc
      obtain rfl := Option.some.inj hs
      exact h.update hpc
    · cases hs
  | finish =>
    simp only [SendLoop.step] at hs
    split at hs
    · rename_i hpc
      obtain rfl := Option.some.inj hs
      exact h.finish hpc
    · cases hs

/-- `_sendQue` is emptied in order, the socket sees the bytes of the packets in that order,
and a packet is deleted after its last byte and never again. -/
structure StreamOk (s : SendLoop) : Prop where
  in_order : s.taken ++ s.sendQue = s.pushed
  stream : s.accepted <+: s.taken.flatMap AnySendPacket.bytes
  empty_iff : ∀ p, s.sendingPacket = some p → (∀ n, s.pc ≠ .written n) →
    (s.helper.isEmpty ↔ s.accepted = s.taken.flatMap AnySendPacket.bytes)
  deleted : s.taken = s.deleted ++ s.sendingPacket.toList
  deleted_once : s.taken.Nodup
  deleted_sent : s.deleted.flatMap AnySendPacket.bytes <+: s.accepted

theorem Inv.accepted_append (h : Inv s) :
    s.accepted ++ s.unsent = s.taken.flatMap AnySendPacket.bytes := by
  obtain ⟨sent, haccepted, hunsent⟩ := h.sent
  rw [haccepted, List.append_assoc, hunsent, h.taken, List.flatMap_append, current]

theorem Inv.isEmpty_iff (h : Inv s) (hpc : ∀ n, s.pc ≠ .written n) :
    s.helper.isEmpty ↔ s.accepted = s.taken.flatMap AnySendPacket.bytes := by
  have hunsent : s.unsent = s.helper.rest := by
    rw [SendLoop.unsent]
    split
    · rename_i n hn
      exact absurd hn (hpc n)
    · rfl
  have happend := h.accepted_append
  rw [hunsent] at happend
  rw [PacketHelper.isEmpty, List.isEmpty_iff]
  constructor
  · intro hbufs
    rw [← happend, PacketHelper.rest, hbufs, List.flatten_nil, List.append_nil]
  · intro heq
    refine h.started ?_
    rw [heq] at happend
    exact List.self_eq_append_right.mp happend.symm

theorem Inv.taken_nodup (h : Inv s) : s.taken.Nodup := by
  have hpushed : s.pushed.Nodup := List.Nodup.of_map _ (h.numbered ▸ List.nodup_range)
  rw [← h.order] at hpushed
  exact hpushed.of_append_left

theorem Inv.streamOk (h : Inv s) : StreamOk s where
  in_order := h.order
  stream := ⟨s.unsent, h.accepted_append⟩
  empty_iff _ _ := h.isEmpty_iff
  deleted := h.taken
  deleted_once := h.taken_nodup
  deleted_sent := by
    obtain ⟨sent, haccepted, -⟩ := h.sent
    exact ⟨sent, haccepted.symm⟩

theorem stream_ok (ls : List Label) (s : SendLoop) (h : exec step init ls = some s) :
    StreamOk s :=
  (exec_invariant (fun _ _ _ hs ht => hs.step ht) init_inv h).streamOk

def header : List UInt8 := [2, 0, 0, 0, 7, 0, 0, 0]

def partialWrites : List Label :=
  [.push ⟨header, by decide, [[], [5, 6]]⟩, .pop, .write 3, .update, .push ⟨header, by decide, []⟩,
    .finish, .write 7, .update, .finish, .pop]

theorem partialWrites_ok : ∃ s, exec step init partialWrites = some s ∧ StreamOk s ∧
    s.accepted = header ++ [5, 6] ∧ s.deleted.length = 1 ∧ s.helper.rest = header := by
  have hrun : ∃ s, exec step init partialWrites = some s := ⟨_, rfl⟩
  obtain ⟨s, hs⟩ := hrun
  have hdata : (exec step init partialWrites).map
      (fun s => (s.accepted, s.deleted.length, s.helper.rest)) =
        some (header ++ [5, 6], 1, header) := by decide
  rw [hs] at hdata
  obtain ⟨haccepted, hdeleted, hrest⟩ := by simpa using hdata
  exact ⟨s, hs, stream_ok partialWrites s hs, haccepted, hdeleted, hrest⟩

end SendLoop

end Bugat
