import Mathlib
import Bugat.Base.NetworkMessageSafety

/-!
# The inner decode loop

`Connection::Recv` calls `GetNetMessage` until it returns `false`. On a valid block
whose first header is in range one call is `cut` on the buffered bytes. The loop
ends, each call consuming at least a header, exactly when the buffered bytes are
well framed: an announced size of `-8` for instance consumes nothing and repeats
forever.
-/

namespace Bugat

open MachineInt (wrap32 wrap32_of_mem int32Max)
open DataBlock (Valid maxSize)
open Framing (cut cut_eq_some eight_le_of_cut sizeField packetLength packetLength_cast
  HeaderInRange WellFramed)

namespace DataBlock

variable {size : ℤ} {b : DataBlock}

theorem Valid.data_length (h : Valid size b) : (b.data.length : ℤ) = b.tail - b.head := by
  have := h.head_le_tail
  simp only [data, length_slice]
  omega

theorem sizeField_data (hfull : headerSize ≤ b.tail - b.head) :
    sizeField b.data = b.sizeAt b.head := by
  simp only [headerSize] at hfull
  have hget : ∀ k : ℕ, k < 4 → b.data.getD k 0 = b.buf (b.head + k) := fun k hk =>
    b.slice_getD (by omega)
  simp only [sizeField, sizeAt, hget 0 (by decide), hget 1 (by decide), hget 2 (by decide),
    hget 3 (by decide)]
  simp

theorem data_take_drop (b : DataBlock) {k : ℕ} (hk : b.head + k ≤ b.tail) :
    b.data.take k = b.slice b.head (b.head + k) ∧
      b.data.drop k = b.slice (b.head + k) b.tail := by
  have happ := b.slice_append (by omega : b.head ≤ b.head + k) hk
  have hlen : (b.slice b.head (b.head + k)).length = k := by
    rw [length_slice]
    omega
  rw [data, ← happ]
  exact ⟨List.take_left' hlen, List.drop_left' hlen⟩

end DataBlock

namespace NetworkMessage

variable {P : ℤ} {m m' : NetworkMessage} {id : ℕ} {p : RecvPacket}

theorem buffered_of_curBlock (hcur : m.curBlock = some id) :
    m.buffered = (m.blocks id).data := by
  simp [buffered, cur, hcur]

theorem getNetMessage_cut (hmax : maxSize P ≤ int32Max) (hcur : m.curBlock = some id)
    (hv : Valid P (m.blocks id))
    (hok : HeaderInRange m.buffered) :
    (cut m.buffered = none ∧ m.getNetMessage = none) ∨
      ∃ p m', m.getNetMessage = some (p, m') ∧ m'.curBlock = some id ∧ Valid P (m'.blocks id) ∧
        cut m.buffered = some (m'.packetBytes p, m'.buffered) := by
  rw [buffered_of_curBlock hcur] at hok ⊢
  generalize hb : m.blocks id = b at *
  have hlen := hv.data_length
  have hds := hv.getDataSize hmax
  by_cases hfull : b.data.length < 8
  · refine .inl ⟨Framing.cut_of_short hfull, getNetMessage_of_short hcur ?_⟩
    rw [hb, hds, headerSize]
    omega
  have hz := hok (not_lt.mp hfull)
  have hfull' : headerSize ≤ b.tail - b.head := by
    rw [headerSize]
    omega
  have hsize := DataBlock.sizeField_data hfull'
  have hcast := packetLength_cast hz
  rw [hsize] at hcast hz
  have hcall := getNetMessage_of_sizeOk hmax hcur (by rwa [hb]) (by rwa [hb, hds])
    (by rwa [hb])
  simp only [hb] at hcall
  by_cases hend : b.data.length < packetLength b.data
  · refine .inl ⟨by rw [cut, if_neg hfull, if_pos hend], ?_⟩
    rw [hcall, if_pos (by omega)]
  have htotal : b.head + (packetLength b.data : ℤ) ≤ b.tail := by omega
  rw [if_neg (by omega), ← hcast] at hcall
  obtain ⟨htake, hdrop⟩ := b.data_take_drop htotal
  refine .inr ⟨_, _, hcall, hcur, ?_, ?_⟩
  · have hpos := hv.head_nonneg
    rw [setBlock_self]
    exact ⟨by dsimp only; omega, htotal, hv.tail_le⟩
  · have hbody : b.head + headerSize + b.sizeAt b.head =
        b.head + (packetLength b.data : ℤ) := by omega
    rw [cut, if_neg hfull, if_neg hend, htake, hdrop]
    rw [buffered_of_curBlock (m := m.setBlock id _) hcur, packetBytes]
    have hsizeAt : ∀ h t, DataBlock.sizeAt ⟨b.buf, h, t⟩ b.head = b.sizeAt b.head :=
      fun _ _ => rfl
    have hslice : ∀ h t, DataBlock.slice ⟨b.buf, h, t⟩ = b.slice := fun _ _ => rfl
    have hdata : ∀ h t, DataBlock.data ⟨b.buf, h, t⟩ = b.slice h t := fun _ _ => rfl
    simp only [setBlock_self, hsizeAt, hslice, hdata, hbody]

def bufferedSize (m : NetworkMessage) : ℤ :=
  match m.cur with
  | none => 0
  | some b => b.tail - b.head

theorem bufferedSize_of_curBlock (hcur : m.curBlock = some id) :
    m.bufferedSize = (m.blocks id).tail - (m.blocks id).head := by
  simp [bufferedSize, cur, hcur]

def decodeCalls : ℕ → NetworkMessage → Option NetworkMessage
  | 0, m => some m
  | n + 1, m => m.getNetMessage.bind fun r => decodeCalls n r.2

structure LoopEnds (m : NetworkMessage) : Prop where
  ends : ∃ n m', decodeCalls n m = some m' ∧ m'.getNetMessage = none
  consumes : ∀ n m₁ p m₂, decodeCalls n m = some m₁ → m₁.getNetMessage = some (p, m₂) →
    m₂.bufferedSize + headerSize ≤ m₁.bufferedSize

theorem loopEnds_of_none (h : m.getNetMessage = none) : LoopEnds m := by
  refine ⟨⟨0, m, rfl, h⟩, fun n m₁ p m₂ hn hg => ?_⟩
  cases n with
  | zero =>
    obtain rfl := Option.some.inj hn
    rw [h] at hg
    cases hg
  | succ n =>
    rw [decodeCalls, h] at hn
    cases hn

theorem loopEnds_of_some (h : m.getNetMessage = some (p, m')) : LoopEnds m ↔
    m'.bufferedSize + headerSize ≤ m.bufferedSize ∧ LoopEnds m' := by
  have hsucc : ∀ n, decodeCalls (n + 1) m = decodeCalls n m' := fun n => by
    rw [decodeCalls, h]
    rfl
  constructor
  · intro hm
    refine ⟨hm.consumes 0 m p m' rfl h, ?_, fun n m₁ q m₂ hn =>
      hm.consumes (n + 1) m₁ q m₂ ((hsucc n).trans hn)⟩
    obtain ⟨n, u, hn, hu⟩ := hm.ends
    cases n with
    | zero =>
      obtain rfl := Option.some.inj hn
      rw [h] at hu
      cases hu
    | succ n => exact ⟨n, u, (hsucc n).symm.trans hn, hu⟩
  · rintro ⟨hdec, hm'⟩
    obtain ⟨n, u, hn, hu⟩ := hm'.ends
    refine ⟨⟨n + 1, u, (hsucc n).trans hn, hu⟩, fun n m₁ q m₂ hn hg => ?_⟩
    cases n with
    | zero =>
      obtain rfl := Option.some.inj hn
      obtain ⟨rfl, rfl⟩ := Prod.mk.inj (Option.some.inj (h.symm.trans hg))
      exact hdec
    | succ n => exact hm'.consumes n m₁ q m₂ ((hsucc n).symm.trans hn) hg

theorem headerInRange_of_consumes (hmax : maxSize P ≤ int32Max) (hcur : m.curBlock = some id)
    (hv : Valid P (m.blocks id))
    (hdec : ∀ p m', m.getNetMessage = some (p, m') →
      m'.bufferedSize + headerSize ≤ m.bufferedSize) : HeaderInRange m.buffered := by
  intro hfull
  rw [buffered_of_curBlock hcur] at hfull ⊢
  have hlen := hv.data_length
  have hfull' : headerSize ≤ (m.blocks id).tail - (m.blocks id).head := by
    rw [headerSize]
    omega
  rw [DataBlock.sizeField_data hfull']
  by_contra hz
  have hlt := wrap_of_not_sizeOk (MachineInt.int32LE_lower _ _ _ _)
    (MachineInt.int32LE_upper _ _ _ _) hz
  have hlow := MachineInt.wrap32_lower
    ((m.blocks id).sizeAt (m.blocks id).head + headerSize)
  have hcall := getNetMessage_of_not_sizeOk hcur
    (hfull'.trans_eq (hv.getDataSize hmax).symm) hz
  have hshrink := hdec _ _ hcall
  rw [bufferedSize_of_curBlock hcur, bufferedSize_of_curBlock (m := m.setBlock id _) hcur]
    at hshrink
  simp only [setBlock_self] at hshrink
  have hpos := hv.head_nonneg
  have hle := hv.head_le_tail
  have htail := hv.tail_le
  simp only [DataBlock.sizeAt, headerSize] at *
  rw [wrap32_of_mem (by omega) (by omega)] at hshrink
  omega

theorem bufferedSize_eq_length (hcur : m.curBlock = some id) (hv : Valid P (m.blocks id)) :
    m.bufferedSize = m.buffered.length := by
  rw [bufferedSize_of_curBlock hcur, buffered_of_curBlock hcur, hv.data_length]

/-- The inner loop ends, consuming at least a header in each iteration, exactly when the
buffered bytes are well framed. -/
theorem decode_ends_iff (hcur : m.curBlock = some id)
    (hv : Valid maxTcpPacketSize (m.blocks id)) : LoopEnds m ↔ WellFramed m.buffered := by
  have hmax := tcp_packetSizeOk.2
  constructor
  · intro hm
    obtain ⟨n, u, hn, hu⟩ := hm.ends
    induction n generalizing m with
    | zero =>
      obtain rfl := Option.some.inj hn
      have hok := headerInRange_of_consumes hmax hcur hv fun p m' hg => by simp [hu] at hg
      obtain ⟨hcut, -⟩ | ⟨p, m', hg, -⟩ := getNetMessage_cut hmax hcur hv hok
      · exact .last hok hcut
      · simp [hu] at hg
    | succ n ih =>
      have hok := headerInRange_of_consumes hmax hcur hv fun p m' hg => hm.consumes 0 m p m' rfl hg
      obtain ⟨⟨p, m₁⟩, hg, hn⟩ := Option.bind_eq_some_iff.mp hn
      obtain ⟨-, hm₁⟩ := (loopEnds_of_some hg).mp hm
      obtain ⟨-, hnone⟩ | ⟨p', m', hg', hcur', hv', hcut⟩ := getNetMessage_cut hmax hcur hv hok
      · simp [hg] at hnone
      · obtain ⟨rfl, rfl⟩ := Prod.mk.inj (Option.some.inj (hg.symm.trans hg'))
        exact .packet hok hcut (ih hcur' hv' hm₁ hn)
  · intro hw
    generalize hd : m.buffered = bytes at hw
    induction hw generalizing m with
    | last hok h =>
      subst hd
      obtain ⟨-, hnone⟩ | ⟨p, m', -, -, -, hcut⟩ := getNetMessage_cut hmax hcur hv hok
      · exact loopEnds_of_none hnone
      · simp [h] at hcut
    | packet hok h hrest ih =>
      subst hd
      obtain ⟨hcut, -⟩ | ⟨p, m', hg, hcur', hv', hcut⟩ := getNetMessage_cut hmax hcur hv hok
      · simp [h] at hcut
      · obtain ⟨rfl, rfl⟩ := Prod.mk.inj (Option.some.inj (h.symm.trans hcut))
        refine (loopEnds_of_some hg).mpr ⟨?_, ih hcur' hv' rfl⟩
        have hlong := eight_le_of_cut hok h
        obtain ⟨-, happ, -⟩ := cut_eq_some h
        rw [bufferedSize_eq_length hcur hv, bufferedSize_eq_length hcur' hv', headerSize, happ,
          List.length_append]
        omega

theorem setBlock_eq_self {b : DataBlock} (h : m.blocks id = b) : m.setBlock id b = m := by
  rw [setBlock, ← h, Function.update_eq_self]

def holding (bytes : List UInt8) : NetworkMessage where
  blocks _ := ⟨fun p => bytes.getD p.toNat 0, 0, bytes.length⟩
  allocated := 1
  curBlock := some 0

theorem holding_valid (bytes : List UInt8) (h : (bytes.length : ℤ) ≤ maxSize P) :
    Valid P ((holding bytes).blocks 0) :=
  ⟨le_rfl, Int.natCast_nonneg _, h⟩

def twoPackets : List UInt8 := [1, 0, 0, 0, 7, 0, 0, 0, 42, 0, 0, 0, 0, 8, 0, 0, 0, 5]

theorem twoPackets_ends : LoopEnds (holding twoPackets) ↔
    WellFramed (holding twoPackets).buffered :=
  decode_ends_iff rfl (holding_valid twoPackets (by decide))

def minusEight : List UInt8 := [0xF8, 0xFF, 0xFF, 0xFF, 0, 0, 0, 0]

theorem minusEight_loops : Valid maxTcpPacketSize ((holding minusEight).blocks 0) ∧
    (∀ n, ∃ m, decodeCalls n (holding minusEight) = some m ∧ m.getNetMessage.isSome) ∧
    ¬ LoopEnds (holding minusEight) := by
  have hcall : (holding minusEight).getNetMessage = some (⟨0, 0⟩, holding minusEight) := by
    have hz : ((holding minusEight).blocks 0).sizeAt 0 = -8 := by decide +kernel
    have hback : wrap32 (0 + wrap32 (-8 + headerSize)) = 0 := by decide
    have hg := getNetMessage_of_not_sizeOk (m := holding minusEight) rfl
      (by decide +kernel) (by decide +kernel)
    have hhead : ((holding minusEight).blocks 0).head = 0 := rfl
    simp only [hhead, hz, hback] at hg
    rw [hg]
    exact congrArg (fun m => some (_, m)) (setBlock_eq_self rfl)
  have hloop : ∀ n, decodeCalls n (holding minusEight) = some (holding minusEight) := by
    intro n
    induction n with
    | zero => rfl
    | succ n ih => rw [decodeCalls, hcall, Option.bind_some, ih]
  refine ⟨holding_valid _ (by decide), fun n => ⟨_, hloop n, by rw [hcall]; rfl⟩, fun hends => ?_⟩
  obtain ⟨n, m', hn, hnone⟩ := hends.ends
  obtain rfl := Option.some.inj ((hloop n).symm.trans hn)
  rw [hcall] at hnone
  cases hnone

end NetworkMessage

end Bugat
