import Mc1322x.Lib.Checked
import Mc1322x.Radio.Futures

/-!
# Frame buffers (`mc1322x-radio/src/layout.rs`)

A frame buffer has its PHR in front, the length of its PSDU and of the FCS that the MACA adds. Three
functions write it (`set_frame_length`, `TxToken::consume`, `receive`), and the futures that transmit
and five others read it.

* `region_cons`: what the readers find in a buffer with a valid PHR.
* `psdu_round_trip`: a PSDU that is put into a buffer is queued, and one that is received is read.
-/

namespace Mc1322x.Radio

open Checked

/-- Minimum valid PHR value (`MIN_PHR`). -/
def minPhr : Nat := 2

/-- `[u8; 128]`. -/
abbrev Frame := Vector UInt8 128

/-- `set_frame_length`. -/
def setFrameLength (buffer : List UInt8) (psduLen : Nat) : Except Panic (List UInt8) :=
  Checked.set buffer 0 (.ofNat (psduLen + 2))

/-- `frame_length`. -/
def frameLength (buffer : List UInt8) : Except Panic Nat := do
  let phr ← index buffer 0
  .ok (phr.toNat - 2)

/-- The PSDU by the PHR, at most the rest of the buffer. -/
def region (b : List UInt8) : Except Panic (List UInt8) := do
  let len ← frameLength b
  slice b 1 (1 + min len (b.length - 1))

/-- `psdu_region`. -/
def psduRegion (buffer : Frame) : Except Panic (List UInt8) := region buffer.toList

/-- `psdu_view`. -/
def psduView (buffer : Frame) : Except Panic (List UInt8) := region buffer.toList

/-- `Mc1322xFrame`. -/
structure Mc1322xFrame where
  buffer : List UInt8

namespace Mc1322xFrame

/-- `new_checked`; `none` is `Err(())`. -/
def newChecked (buffer : List UInt8) : Except Panic (Option Mc1322xFrame) := do
  let phr ← index buffer 0
  if (minPhr ≤ phr.toNat ∧ phr.toNat ≤ maxPhr) ∧ 1 + (phr.toNat - 2) ≤ buffer.length then
    .ok (some ⟨buffer⟩)
  else .ok none

/-- `data`: the PSDU, without the length and the checksum. -/
def data (frame : Mc1322xFrame) : Except Panic (List UInt8) := region frame.buffer

/-- `data_mut`. -/
def dataMut (frame : Mc1322xFrame) : Except Panic (List UInt8) := region frame.buffer

end Mc1322xFrame

/-- `Mc1322xRxToken`. -/
structure Mc1322xRxToken where
  buffer : List UInt8

/-- `RxToken::consume`: the result of `f`, and the buffer after it. -/
def Mc1322xRxToken.consume {R : Type} (token : Mc1322xRxToken) (f : List UInt8 → R × List UInt8) :
    Except Panic (R × List UInt8) := do
  let len ← frameLength token.buffer
  onSlice token.buffer 1 (1 + min len (token.buffer.length - 1)) f

/-- `Mc1322xTxToken`. -/
structure Mc1322xTxToken where
  buffer : List UInt8

/-- `TxToken::consume`. -/
def Mc1322xTxToken.consume {R : Type} (token : Mc1322xTxToken) (len : Nat)
    (f : List UInt8 → R × List UInt8) : Except Panic (R × List UInt8) := do
  let len := min len (maxPhr - 2)
  let buffer ← Checked.set token.buffer 0 (.ofNat (len + 2))
  onSlice buffer 1 (1 + len) f

/-! ## Readers and writers -/

section

variable {phr : UInt8} {rest psdu : List UInt8} {n : Nat}

theorem toNat_phr (h : n ≤ 125) : (UInt8.ofNat (n + 2)).toNat = n + 2 := by
  rw [UInt8.toNat_ofNat', Nat.mod_eq_of_lt (by omega)]

theorem frameLength_cons (hp : phr.toNat = n + 2) : frameLength (phr :: rest) = .ok n := by
  unfold frameLength
  rw [index_eq (Nat.succ_pos _)]
  exact congrArg Except.ok (by rw [List.getElem_cons_zero, hp, Nat.add_sub_cancel])

/-- A reader finds the bytes that the PHR counts. -/
theorem region_cons (hp : phr.toNat = n + 2) (hn : n ≤ rest.length) :
    region (phr :: rest) = .ok (rest.take n) := by
  have hlen : min n ((phr :: rest).length - 1) = n := Nat.min_eq_left hn
  unfold region
  rw [frameLength_cons hp]
  dsimp only [bind, Except.bind]
  rw [hlen, slice_cons hn]

theorem rxConsume_cons {R : Type} (f : List UInt8 → R × List UInt8) (hp : phr.toNat = n + 2)
    (hn : n ≤ rest.length) : Mc1322xRxToken.consume ⟨phr :: rest⟩ f =
      .ok ((f (rest.take n)).1, phr :: ((f (rest.take n)).2 ++ rest.drop n)) := by
  have hlen : min n ((phr :: rest).length - 1) = n := Nat.min_eq_left hn
  unfold Mc1322xRxToken.consume
  dsimp only
  rw [frameLength_cons hp]
  dsimp only [bind, Except.bind]
  rw [hlen, onSlice_cons hn]

theorem txPsdu_cons (hp : phr.toNat = n + 2) (h : n ≤ 125) (hn : n ≤ rest.length) :
    txPsdu (phr :: rest) = some (rest.take n) := by
  have hlen : min (min (n + 2 - 2) (maxPhr - 2)) ((phr :: rest).length - 1) = n := by
    rw [Nat.add_sub_cancel, Nat.min_eq_left (show n ≤ maxPhr - 2 from h),
      Nat.min_eq_left (show n ≤ (phr :: rest).length - 1 from hn)]
  unfold txPsdu
  dsimp only [List.head?_cons, Option.getD_some]
  rw [hp, hlen, if_pos (by rw [List.length_cons]; omega)]
  rfl

theorem setFrameLength_cons (n : Nat) :
    setFrameLength (phr :: rest) n = .ok (.ofNat (n + 2) :: rest) :=
  set_eq (Nat.succ_pos _)

theorem consume_cons {R : Type} {f : List UInt8 → R × List UInt8} (phr : UInt8) (h : psdu.length ≤ 125)
    (hn : psdu.length ≤ rest.length) (hf : ∀ s, s.length = psdu.length → (f s).2 = psdu) :
    ∃ r, Mc1322xTxToken.consume ⟨phr :: rest⟩ psdu.length f =
      .ok (r, .ofNat (psdu.length + 2) :: (psdu ++ rest.drop psdu.length)) := by
  have hlen : min psdu.length (maxPhr - 2) = psdu.length := Nat.min_eq_left h
  have hf := hf (rest.take psdu.length) (List.length_take_of_le hn)
  refine ⟨(f (rest.take psdu.length)).1, ?_⟩
  unfold Mc1322xTxToken.consume
  dsimp only
  rw [hlen, set_eq (Nat.succ_pos _)]
  dsimp only [bind, Except.bind]
  rw [List.set_cons_zero, onSlice_cons hn, hf]

end

/-! ## Transmission -/

variable {Waker : Type}

/-- A packet has been claimed and queued, which carries these bytes. -/
def Carries (m m' : Maca) (psdu : List UInt8) : Prop :=
  ∃ p, m.free = p :: m'.free ∧ m'.txQueue = m.txQueue ++ [⟨m.frames, p⟩] ∧
    (m'.packets p).offset = 0 ∧ (m'.packets p).length.toNat = psdu.length ∧
    (m'.packets p).data.take psdu.length = psdu ∧ ∀ q ≠ p, m'.packets q = m.packets q

/-- The futures that transmit a buffer queue these bytes, once, when there is a free packet. -/
def Sends (Waker : Type) (bytes psdu : List UInt8) : Prop :=
  ∀ (r : Driver Waker) (w : Waker) (index : UInt8),
    (∃ r' f', (Fut.prepareTransmit index bytes).poll r w = some (r', f', none) ∧
      (r.maca.free = [] ∧ r'.maca = r.maca ∧ f' = some (.prepareTransmit index bytes) ∨
        Carries r.maca r'.maca psdu ∧ f' = none)) ∧
    (∃ r' f', (Fut.prepareAndTransmit index bytes false).poll r w = some (r', f', none) ∧
      (r.maca.free = [] ∧ r'.maca = r.maca ∧ f' = some (.prepareAndTransmit index bytes false) ∨
        Carries r.maca r'.maca psdu ∧
          (f' = none ∨ f' = some (.prepareAndTransmit index bytes true)))) ∧
    ∃ r' f', (Fut.prepareAndTransmit index bytes true).poll r w = some (r', f', none) ∧
      r'.maca = r.maca ∧ (f' = none ∨ f' = some (.prepareAndTransmit index bytes true))

theorem setChannelIndex_maca (r : Driver Waker) (index : UInt8) :
    ∃ channel, (setChannelIndex r index).maca = { r.maca with channel := channel } := by
  unfold setChannelIndex
  split
  · exact ⟨some index, rfl⟩
  · exact ⟨r.maca.channel, rfl⟩

/-- A packet that is claimed and queued carries these bytes. -/
theorem queueTransmit_carries {m : Maca} {p : Ptr} {free : List Ptr} {psdu : List UInt8}
    (hf : m.free = p :: free) (h : psdu.length ≤ 125) (channel : Option UInt8) :
    Carries m (queueTransmit { m with free := free, channel := channel } p psdu) psdu := by
  have hlen : min psdu.length (maxPhr - 2) = psdu.length := Nat.min_eq_left h
  refine ⟨p, ?_⟩
  simp only [queueTransmit, txPacket, Maca.setPacket, hlen, if_true]
  refine ⟨hf, trivial, trivial, ?_, ?_, fun q hq => if_neg hq⟩
  · rw [UInt8.toNat_ofNat', Nat.mod_eq_of_lt (by omega)]
  · rw [List.take_length, List.take_left]

theorem queueFrame_carries {r : Driver Waker} {p : Ptr} {free : List Ptr} (index : UInt8)
    {bytes psdu : List UInt8} (hf : r.maca.free = p :: free) (hp : txPsdu bytes = some psdu)
    (h : psdu.length ≤ 125) (state : State Waker) :
    ∃ r', queueFrame { state := state, maca := { r.maca with free := free } } p index bytes =
      some r' ∧ Carries r.maca r'.maca psdu := by
  obtain ⟨channel, hm⟩ := setChannelIndex_maca
    { state := state, maca := { r.maca with free := free } } index
  refine ⟨_, by rw [queueFrame, hp]; rfl, ?_⟩
  dsimp only
  rw [hm]
  exact queueTransmit_carries hf h channel

/-- A buffer of which the transmit futures take these bytes. -/
theorem sends_of_txPsdu {bytes psdu : List UInt8} (hp : txPsdu bytes = some psdu)
    (h : psdu.length ≤ 125) : Sends Waker bytes psdu := by
  intro r w index
  refine ⟨?_, ?_, ?_⟩
  · simp only [Fut.poll, pollPrepareTransmit, claimFreePacket]
    cases hf : r.maca.free with
    | nil => exact ⟨_, _, rfl, .inl ⟨rfl, rfl, rfl⟩⟩
    | cons p free =>
      obtain ⟨r', hq, hc⟩ := queueFrame_carries index hf hp h
        { r.state with cancelled := false }
      dsimp only
      rw [hq]
      exact ⟨_, _, rfl, .inr ⟨hc, rfl⟩⟩
  · simp only [Fut.poll, pollPrepareAndTransmit, claimFreePacket]
    cases hf : r.maca.free with
    | nil => exact ⟨_, _, rfl, .inl ⟨rfl, rfl, rfl⟩⟩
    | cons p free =>
      obtain ⟨r', hq, hc⟩ := queueFrame_carries index hf hp h
        { r.state with cancelled := false }
      dsimp only
      -- The poll goes on to `transmit`, which leaves the packets.
      rw [if_neg (by decide), hq]
      refine ⟨_, _, rfl, .inr ⟨?_, ?_⟩⟩
      · dsimp only
        rw [pollTransmit_maca]
        exact hc
      · dsimp only
        split
        · exact .inr rfl
        · exact .inl rfl
  · refine ⟨_, _, rfl, pollTransmit_maca r w, ?_⟩
    split
    · exact .inr rfl
    · exact .inl rfl

/-! ## Reception -/

/-- Every reader finds these bytes, behind a valid PHR. -/
structure Reads (buffer : Frame) (psdu : List UInt8) : Prop where
  phr : minPhr ≤ buffer[0].toNat ∧ buffer[0].toNat ≤ maxPhr
  psduRegion : psduRegion buffer = .ok psdu
  psduView : psduView buffer = .ok psdu
  frame : ∃ frame, Mc1322xFrame.newChecked buffer.toList = .ok (some frame) ∧
    frame.data = .ok psdu ∧ frame.dataMut = .ok psdu
  rxToken : ∀ (R : Type) (f : List UInt8 → R × List UInt8),
    ∃ after, Mc1322xRxToken.consume ⟨buffer.toList⟩ f = .ok ((f psdu).1, after)

/-- A `receive` that finds this packet resolves with `true`, and leaves these bytes in the buffer,
whatever it held before. -/
def Receives (Waker : Type) (k : Packet) (psdu : List UInt8) : Prop :=
  ∀ (r : Driver Waker) (w : Waker) (p buffer : Ptr) (rest : List Ptr), r.state.cancelled = false →
    r.state.rxBuffer = some buffer → r.state.rxPending ≠ 0 → r.maca.rxQueue = p :: rest →
    r.maca.packets p = k →
    (pollReceive r w).1 = some true ∧
    ∃ r' frame, Fut.receive.poll r w = some (r', some .receiveResolved, some (buffer, frame)) ∧
      ∀ old : Frame, ∃ new : Frame, new.toList = overwrite old.toList frame ∧ Reads new psdu

theorem reads_of_toList {buffer : Frame} {psdu rest : List UInt8} (h : psdu.length ≤ 125)
    (hb : buffer.toList = .ofNat (psdu.length + 2) :: (psdu ++ rest)) : Reads buffer psdu := by
  have hphr := toNat_phr h
  have hvalid : minPhr ≤ psdu.length + 2 ∧ psdu.length + 2 ≤ maxPhr := by
    simp only [minPhr, maxPhr]
    omega
  have hregion : region buffer.toList = .ok psdu := by
    rw [hb, region_cons hphr (by rw [List.length_append]; omega), List.take_left]
  have h0 : buffer[0] = .ofNat (psdu.length + 2) := by
    rw [← Vector.getElem_toList (by rw [hb]; exact Nat.succ_pos _)]
    simp only [hb, List.getElem_cons_zero]
  refine ⟨?_, hregion, hregion, ⟨⟨buffer.toList⟩, ?_, hregion, hregion⟩, fun R f => ?_⟩
  · rw [h0, hphr]
    exact hvalid
  · unfold Mc1322xFrame.newChecked
    rw [hb, index_eq (Nat.succ_pos _)]
    dsimp only [bind, Except.bind]
    rw [List.getElem_cons_zero, hphr, if_pos]
    refine ⟨hvalid, ?_⟩
    simp only [List.length_cons, List.length_append]
    omega
  · have hn : psdu.length ≤ (psdu ++ rest).length := by
      rw [List.length_append]
      omega
    have hc := rxConsume_cons f hphr hn
    rw [List.take_left, ← hb] at hc
    exact ⟨_, hc⟩

/-- A write of a frame into a buffer. -/
theorem reads_overwrite {psdu : List UInt8} (h : psdu.length ≤ 125) (old : Frame) :
    ∃ new : Frame, new.toList = overwrite old.toList (.ofNat (psdu.length + 2) :: psdu) ∧
      Reads new psdu := by
  have hlen : (overwrite old.toList (.ofNat (psdu.length + 2) :: psdu)).length = 128 := by
    rw [overwrite, List.length_append, List.length_drop, List.length_cons, Vector.length_toList]
    omega
  refine ⟨⟨(overwrite old.toList (.ofNat (psdu.length + 2) :: psdu)).toArray, hlen⟩, rfl, ?_⟩
  exact reads_of_toList h rfl

/-- A received packet: at most 125 of its bytes, behind their PHR. -/
theorem receives (k : Packet) :
    Receives Waker k ((k.data.drop 1).take (min k.length.toNat 125)) := by
  intro r w p buffer rest hc hb hp hq hk
  have hlen : min (min k.length.toNat (maxPhr - 2)) 127 = min k.length.toNat 125 := by
    simp only [maxPhr]
    omega
  have hpoll : ∃ r', pollReceive r w = (some true,
      some (buffer, .ofNat (((k.data.drop 1).take (min k.length.toNat 125)).length + 2) ::
        (k.data.drop 1).take (min k.length.toNat 125)), r') := by
    unfold pollReceive popReceivePacket
    rw [if_neg (by rw [hc]; decide), if_neg hp, hq]
    dsimp only
    rw [hb]
    dsimp only [copyReceivedPsdu]
    rw [hk, hlen]
    exact ⟨_, rfl⟩
  obtain ⟨r', hpoll⟩ := hpoll
  refine ⟨by rw [hpoll], r', _, by rw [Fut.poll, hpoll]; rfl, fun old => reads_overwrite ?_ old⟩
  rw [List.length_take]
  omega

/-! ## Round trip -/

/-- **Round trip.** A PSDU of at most 125 bytes that is put into a buffer, through the token or with
its length, is queued by the futures that transmit the buffer; and a received packet that carries it
is read from any buffer. Of a longer packet, the first 125 bytes are. -/
theorem psdu_round_trip :
    (∀ psdu : List UInt8, psdu.length ≤ 125 →
      (∀ buffer : List UInt8, psdu.length + 1 ≤ buffer.length →
        (∀ (R : Type) (f : List UInt8 → R × List UInt8),
          (∀ s, s.length = psdu.length → (f s).2 = psdu) →
          ∃ r bytes, Mc1322xTxToken.consume ⟨buffer⟩ psdu.length f = .ok (r, bytes) ∧
            Sends Waker bytes psdu) ∧
        ((buffer.drop 1).take psdu.length = psdu →
          ∃ bytes, setFrameLength buffer psdu.length = .ok bytes ∧ Sends Waker bytes psdu)) ∧
      ∀ k : Packet, k.length.toNat = psdu.length → (k.data.drop 1).take psdu.length = psdu →
        Receives Waker k psdu) ∧
    ∀ k : Packet, 125 < k.length.toNat → Receives Waker k ((k.data.drop 1).take 125) := by
  refine ⟨fun psdu h => ⟨fun buffer hb => ?_, fun k hk hd => ?_⟩, fun k hk => ?_⟩
  · have hphr := toNat_phr h
    cases buffer with
    | nil => simp at hb
    | cons b rest =>
      have hn : psdu.length ≤ rest.length := Nat.le_of_succ_le_succ hb
      constructor
      · intro R f hf
        obtain ⟨r, hr⟩ := consume_cons b h hn hf
        refine ⟨r, _, hr, sends_of_txPsdu ?_ h⟩
        rw [txPsdu_cons hphr h (by rw [List.length_append]; omega), List.take_left]
      · intro hpsdu
        refine ⟨_, setFrameLength_cons _, sends_of_txPsdu ?_ h⟩
        rw [txPsdu_cons hphr h hn]
        exact congrArg some hpsdu
  · have hr : Receives Waker k _ := receives k
    rwa [hk, Nat.min_eq_left h, hd] at hr
  · have hr : Receives Waker k _ := receives k
    rwa [Nat.min_eq_right (Nat.le_of_lt hk)] at hr

/-- Three bytes in a buffer of five, whose packet the MACA then receives. -/
theorem psdu_round_trip_three :
    (∃ bytes, setFrameLength [9, 1, 2, 3, 7] 3 = .ok bytes ∧ Sends Nat bytes [1, 2, 3]) ∧
      Receives Nat ⟨3, 0, 0, 0, [5, 1, 2, 3, 7]⟩ [1, 2, 3] := by
  have hlen : [1, 2, 3].length ≤ 125 := by decide
  exact ⟨((psdu_round_trip.1 [1, 2, 3] hlen).1 [9, 1, 2, 3, 7] (by decide)).2 rfl,
    (psdu_round_trip.1 [1, 2, 3] hlen).2 _ rfl rfl⟩

end Mc1322x.Radio
