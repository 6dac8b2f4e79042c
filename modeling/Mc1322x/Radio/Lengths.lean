import Mc1322x.Radio.Layout
import Mc1322x.Radio.RadioHal

/-!
# Lengths that don't fit (`mc1322x-radio/src/radio.rs`, `mc1322x-radio/src/layout.rs`)

What becomes of slices and packets of every length, the empty ones included.

* `prepare_total_iff`: the futures that transmit a slice queue what its PHR counts; the empty slice
  panics, with the packet already claimed.
* `newChecked_iff`: `new_checked` accepts the frames whose PHR counts no more than they hold; the
  empty buffer panics.
* `hal_lossless_iff`: `start_transmit` and `get_received` cut what is too long, and return `Ok`.
-/

namespace Mc1322x.Radio

open Checked

variable {Waker : Type}

/-! ## Slices to transmit -/

/-- The bytes after the PHR, as many as it counts: at most 125, and at most the rest of the slice.
An empty slice is an empty frame. -/
def frameBytes : List UInt8 → List UInt8
  | [] => []
  | phr :: rest => rest.take (min (min (phr.toNat - 2) (maxPhr - 2)) rest.length)

theorem length_frameBytes (bytes : List UInt8) : (frameBytes bytes).length ≤ 125 := by
  cases bytes with
  | nil => exact Nat.zero_le 125
  | cons phr rest =>
    rw [frameBytes, List.length_take]
    simp only [maxPhr]
    omega

/-- A slice that is not empty holds what the three clamps leave. -/
theorem txPsdu_frameBytes {bytes : List UInt8} (h : bytes ≠ []) :
    txPsdu bytes = some (frameBytes bytes) := by
  cases bytes with
  | nil => exact absurd rfl h
  | cons phr rest =>
    unfold txPsdu
    dsimp only [List.head?_cons, Option.getD_some, List.length_cons, Nat.add_sub_cancel]
    rw [if_pos (by omega)]
    rfl

/-- The slice `&bytes[1..1]` of an empty slice. -/
theorem txPsdu_nil : txPsdu [] = none := rfl

/-- The futures that transmit the slice claim the free packet and queue it with these bytes; a later
poll queues nothing. -/
structure QueuesFrame (r : Driver Waker) (w : Waker) (channel : UInt8) (bytes : List UInt8) :
    Prop where
  index : (channelIndex channel).toNat + 11 = channel.toNat
  prepareTransmit : ∃ r', pollPrepareTransmit r w (channelIndex channel) bytes = some (true, r') ∧
    Carries r.maca r'.maca (frameBytes bytes)
  prepareAndTransmit : ∃ found r',
    pollPrepareAndTransmit r w (channelIndex channel) bytes false = some (found, true, r') ∧
      Carries r.maca r'.maca (frameBytes bytes)
  queuedOnce : ∀ s : Driver Waker, ∃ found s',
    pollPrepareAndTransmit s w (channelIndex channel) bytes true = some (found, true, s') ∧
      s'.maca = s.maca

theorem channelIndex_toNat {channel : UInt8} (h : 11 ≤ channel) :
    (channelIndex channel).toNat + 11 = channel.toNat := by
  have h' : 11 ≤ channel.toNat := UInt8.le_iff_toNat_le.mp h
  have hsub : (channelIndex channel).toNat = channel.toNat - 11 := UInt8.toNat_sub_of_le _ _ h
  omega

/-- **Transmit preparation.** With a free packet, both futures queue one packet with what the PHR
counts, for every slice but the empty one: there they panic, after they have claimed the packet. -/
theorem prepare_total_iff (r : Driver Waker) (w : Waker) (channel : UInt8) (bytes : List UInt8)
    (hc : 11 ≤ channel ∧ channel ≤ 26) (hf : r.maca.free ≠ []) :
    QueuesFrame r w channel bytes ↔ bytes ≠ [] := by
  obtain ⟨p, free, hp⟩ := List.exists_cons_of_ne_nil hf
  constructor
  · rintro ⟨-, ⟨r', h, -⟩, -, -⟩ rfl
    simp only [pollPrepareTransmit, claimFreePacket, hp, queueFrame, txPsdu_nil] at h
    cases h
  · intro hb
    obtain ⟨r₁, hq, hcarries⟩ := queueFrame_carries (channelIndex channel) hp
      (txPsdu_frameBytes hb) (length_frameBytes bytes) { r.state with cancelled := false }
    refine ⟨channelIndex_toNat hc.1, ⟨r₁, ?_, hcarries⟩,
      ⟨(pollTransmit r₁ w).1, (pollTransmit r₁ w).2, ?_, ?_⟩, fun s => ⟨_, _, rfl, ?_⟩⟩
    · simp only [pollPrepareTransmit, claimFreePacket, hp, hq, Option.map_some]
    · simp only [pollPrepareAndTransmit, claimFreePacket, hp, hq, Option.map_some,
        Bool.false_eq_true, if_false]
    · rw [pollTransmit_maca]
      exact hcarries
    · exact pollTransmit_maca s w

/-- The radio with one free packet. -/
def oneFree : Driver Nat where
  state := .new
  maca := {
    packets := fun _ => ⟨0, 0, 0, 0, []⟩, free := [0], txQueue := [], rxQueue := []
    receiving := none, channel := none, frames := 0, sent := [] }

theorem prepare_total_iff_four : QueuesFrame oneFree 7 26 [6, 1, 2, 3] :=
  (prepare_total_iff oneFree 7 26 [6, 1, 2, 3] (by decide) (by decide)).mpr (by decide)

/-- The empty slice, on the first channel. -/
theorem prepare_total_empty : ¬ ∀ (r : Driver Nat) (w : Nat) (channel : UInt8) (bytes : List UInt8),
    11 ≤ channel ∧ channel ≤ 26 → r.maca.free ≠ [] → QueuesFrame r w channel bytes := by
  intro h
  obtain ⟨r', hpoll, -⟩ := (h oneFree 7 11 [] (by decide) (by decide)).prepareTransmit
  cases hpoll

/-! ## Frames of a buffer -/

/-- A buffer with a valid PHR that counts no more than the buffer holds. -/
def WellFormed (buffer : List UInt8) : Prop :=
  ∃ phr rest, buffer = phr :: rest ∧ (minPhr ≤ phr.toNat ∧ phr.toNat ≤ maxPhr) ∧
    phr.toNat - 1 ≤ buffer.length

/-- The bytes that the PHR counts, without the FCS. -/
def psduOf : List UInt8 → List UInt8
  | [] => []
  | phr :: rest => rest.take (phr.toNat - 2)

/-- The frame after a write through `data_mut`. -/
def Mc1322xFrame.onDataMut (frame : Mc1322xFrame) (f : List UInt8 → List UInt8) :
    Except Panic Mc1322xFrame := do
  let len ← frameLength frame.buffer
  let r ← onSlice frame.buffer 1 (1 + min len (frame.buffer.length - 1)) fun s => ((), f s)
  .ok ⟨r.2⟩

/-- What an accepted buffer gives: its PSDU, also to write; after a write of it the buffer is
accepted again, with a PSDU of the same length. -/
structure Accepted (frame : Mc1322xFrame) : Prop where
  length : (psduOf frame.buffer).length = (frame.buffer.headD 0).toNat - 2
  data : frame.data = .ok (psduOf frame.buffer)
  dataMut : frame.dataMut = .ok (psduOf frame.buffer)
  rewrite : ∀ f : List UInt8 → List UInt8, (∀ s, (f s).length = s.length) →
    ∃ after, frame.onDataMut f = .ok after ∧
      Mc1322xFrame.newChecked after.buffer = .ok (some after) ∧
      psduOf after.buffer = f (psduOf frame.buffer) ∧ after.buffer.length = frame.buffer.length ∧
      after.buffer.headD 0 = frame.buffer.headD 0

/-- `new_checked` returns, with a frame if and only if the buffer is well formed. -/
structure Checks (buffer : List UInt8) : Prop where
  returns : ∃ result, Mc1322xFrame.newChecked buffer = .ok result
  accepts : (∃ frame, Mc1322xFrame.newChecked buffer = .ok (some frame)) ↔ WellFormed buffer
  accepted : ∀ frame, Mc1322xFrame.newChecked buffer = .ok (some frame) →
    frame.buffer = buffer ∧ Accepted frame

section

variable {phr : UInt8} {rest : List UInt8}

theorem newChecked_cons : Mc1322xFrame.newChecked (phr :: rest) =
    if (minPhr ≤ phr.toNat ∧ phr.toNat ≤ maxPhr) ∧ 1 + (phr.toNat - 2) ≤ rest.length + 1 then
      .ok (some ⟨phr :: rest⟩)
    else .ok none := by
  unfold Mc1322xFrame.newChecked
  rw [index_eq (Nat.succ_pos _)]
  rfl

/-- The acceptance test, whose subtraction does not saturate behind the first check. -/
theorem wellFormed_cons : WellFormed (phr :: rest) ↔
    (minPhr ≤ phr.toNat ∧ phr.toNat ≤ maxPhr) ∧ 1 + (phr.toNat - 2) ≤ rest.length + 1 := by
  simp only [WellFormed, List.cons.injEq, minPhr]
  constructor
  · rintro ⟨_, _, ⟨rfl, rfl⟩, hp, hl⟩
    rw [List.length_cons] at hl
    exact ⟨hp, by omega⟩
  · rintro ⟨hp, hl⟩
    refine ⟨phr, rest, ⟨rfl, rfl⟩, hp, ?_⟩
    rw [List.length_cons]
    omega

theorem newChecked_of_wellFormed (h : WellFormed (phr :: rest)) :
    Mc1322xFrame.newChecked (phr :: rest) = .ok (some ⟨phr :: rest⟩) := by
  rw [newChecked_cons, if_pos (wellFormed_cons.mp h)]

theorem accepted_of_wellFormed (h : WellFormed (phr :: rest)) : Accepted ⟨phr :: rest⟩ := by
  obtain ⟨hp, hl⟩ := wellFormed_cons.mp h
  have hn : phr.toNat - 2 ≤ rest.length := by omega
  have hphr : phr.toNat = phr.toNat - 2 + 2 := by
    simp only [minPhr] at hp
    omega
  have hregion : region (phr :: rest) = .ok (rest.take (phr.toNat - 2)) := region_cons hphr hn
  have hlen : (rest.take (phr.toNat - 2)).length = phr.toNat - 2 := List.length_take_of_le hn
  refine ⟨hlen, hregion, hregion, fun f hf => ?_⟩
  have hfl : (f (rest.take (phr.toNat - 2))).length = phr.toNat - 2 := (hf _).trans hlen
  have hal : (f (rest.take (phr.toNat - 2)) ++ rest.drop (phr.toNat - 2)).length = rest.length := by
    rw [List.length_append, List.length_drop, hfl]
    omega
  refine ⟨⟨phr :: (f (rest.take (phr.toNat - 2)) ++ rest.drop (phr.toNat - 2))⟩, ?_, ?_, ?_,
    congrArg (· + 1) hal, rfl⟩
  · have hmin : min (phr.toNat - 2) ((phr :: rest).length - 1) = phr.toNat - 2 := Nat.min_eq_left hn
    unfold Mc1322xFrame.onDataMut
    dsimp only
    rw [frameLength_cons hphr]
    dsimp only [bind, Except.bind]
    rw [hmin, onSlice_cons hn]
  · apply newChecked_of_wellFormed
    rw [wellFormed_cons, hal]
    exact ⟨hp, hl⟩
  · show (f (rest.take (phr.toNat - 2)) ++ rest.drop (phr.toNat - 2)).take (phr.toNat - 2) = _
    rw [List.take_left' hfl]
    rfl

end

/-- **Frame buffers.** `new_checked` accepts the well-formed buffers, and their PSDU can be read and
written, for every buffer but the empty one: there it panics. -/
theorem newChecked_iff (buffer : List UInt8) : Checks buffer ↔ buffer ≠ [] := by
  constructor
  · rintro ⟨⟨result, h⟩, -, -⟩ rfl
    cases h
  · intro hb
    obtain ⟨phr, rest, rfl⟩ := List.exists_cons_of_ne_nil hb
    by_cases hw : WellFormed (phr :: rest)
    · have hc := newChecked_of_wellFormed hw
      refine ⟨⟨_, hc⟩, ⟨fun _ => hw, fun _ => ⟨_, hc⟩⟩, fun frame h => ?_⟩
      rw [hc] at h
      cases h
      exact ⟨rfl, accepted_of_wellFormed hw⟩
    · have hc : Mc1322xFrame.newChecked (phr :: rest) = .ok none := by
        rw [newChecked_cons, if_neg fun h => hw (wellFormed_cons.mpr h)]
      refine ⟨⟨_, hc⟩, ⟨fun ⟨frame, h⟩ => ?_, fun h => absurd h hw⟩, fun frame h => ?_⟩
      · rw [hc] at h
        cases h
      · rw [hc] at h
        cases h

/-- The empty buffer. -/
theorem newChecked_empty : ¬ ∀ buffer, Checks buffer := by
  intro h
  obtain ⟨result, hr⟩ := (h []).returns
  cases hr

/-! ## The calls of `radio-hal` -/

/-- `start_transmit` queues a packet with these bytes, or fails and takes no packet. -/
structure TransmitLossless (r : Driver Waker) (txInFlight : Bool) (data : List UInt8) : Prop where
  ok : (startTransmit r txInFlight data).1 = .ok () →
    Carries r.maca (startTransmit r txInFlight data).2.2.maca data
  error : ∀ e, (startTransmit r txInFlight data).1 = .error e →
    (startTransmit r txInFlight data).2.2.maca = r.maca

/-- The PSDU of a received packet, behind the length that the MACA puts in front. -/
def Packet.wholePsdu (k : Packet) : List UInt8 := (k.data.drop 1).take k.length.toNat

/-- The bytes of a received packet hold as many as its length says. -/
def Packet.Holds (k : Packet) : Prop := k.wholePsdu.length = k.length.toNat

/-- Where `get_received` returns `Ok`, the whole PSDU of the packet is in the buffer. -/
def ReceiveLossless (r : Driver Waker) (buff : List UInt8) : Prop :=
  ∀ bytes lqi, (getReceived r buff.length).1 = .ok (bytes, lqi) →
    ∃ p, r.maca.rxQueue.head? = some p ∧ bytes.length = (r.maca.packets p).length.toNat ∧
      (overwrite buff bytes).take bytes.length = (r.maca.packets p).wholePsdu

theorem startTransmit_free {r : Driver Waker} {p : Ptr} {free : List Ptr}
    (hf : r.maca.free = p :: free) (txInFlight : Bool) (data : List UInt8) :
    startTransmit r txInFlight data = (.ok (), true,
      { state := { r.state with cancelled := false }
        maca := queueTransmit { r.maca with free := free } p data }) := by
  simp only [startTransmit, claimFreePacket, hf]

/-- The length of a queued packet is that of the bytes, up to the clamp. -/
theorem queueTransmit_length {m : Maca} {p : Ptr} {data psdu : List UInt8} {m₀ : Maca}
    (hc : Carries m₀ (queueTransmit m p data) psdu) (hq : m.txQueue = m₀.txQueue) :
    psdu.length ≤ 125 := by
  obtain ⟨q, -, htx, -, hlen, -⟩ := hc
  simp only [queueTransmit, txPacket, Maca.setPacket] at htx hlen
  rw [hq] at htx
  have hqp : p = q := by
    have h := List.append_cancel_left htx
    simp only [List.cons.injEq, Queued.mk.injEq] at h
    exact h.1.2
  subst hqp
  rw [if_pos rfl] at hlen
  simp only [UInt8.toNat_ofNat', maxPhr] at hlen
  omega

theorem transmitLossless_iff (r : Driver Waker) (txInFlight : Bool) (data : List UInt8) :
    TransmitLossless r txInFlight data ↔ data.length ≤ 125 ∨ r.maca.free = [] := by
  cases hf : r.maca.free with
  | nil =>
    have hbusy : startTransmit r txInFlight data = (.error .busy, txInFlight,
        { state := { r.state with cancelled := false }, maca := r.maca }) := by
      simp only [startTransmit, claimFreePacket, hf]
    refine iff_of_true ⟨fun h => ?_, fun e _ => ?_⟩ (.inr rfl)
    · rw [hbusy] at h
      cases h
    · rw [hbusy]
  | cons p free =>
    have hok := startTransmit_free hf txInFlight data
    constructor
    · intro h
      have hc := h.ok (by rw [hok])
      rw [hok] at hc
      exact .inl (queueTransmit_length hc rfl)
    · intro h
      have hlen : data.length ≤ 125 := h.resolve_right (List.cons_ne_nil p free)
      refine ⟨fun _ => ?_, fun e he => ?_⟩
      · rw [hok]
        exact queueTransmit_carries hf hlen r.maca.channel
      · rw [hok] at he
        cases he

/-- The packets that `get_received` takes are the received ones. -/
theorem getReceived_cons {r : Driver Waker} {p : Ptr} {rest : List Ptr} (room : Nat)
    (hp : r.state.rxPending ≠ 0) (hq : r.maca.rxQueue = p :: rest) :
    (getReceived r room).1 = .ok
      (((r.maca.packets p).data.drop 1).take
        (min (min (r.maca.packets p).length.toNat (maxPhr - 2)) room),
        (r.maca.packets p).lqi) := by
  simp only [getReceived, popReceivePacket, hp, hq, if_false, copyReceivedPsdu]

/-- What the two clamps leave of a packet. -/
theorem receiveLossless_packet {r : Driver Waker} {p : Ptr} {rest : List Ptr} {buff : List UInt8}
    (hp : r.state.rxPending ≠ 0) (hq : r.maca.rxQueue = p :: rest)
    (hk : (r.maca.packets p).Holds) :
    ReceiveLossless r buff ↔ (r.maca.packets p).length.toNat ≤ min 125 buff.length := by
  have hget := getReceived_cons buff.length hp hq
  -- The packet holds all its bytes, so a clamp is what cuts them.
  have hdata : (r.maca.packets p).length.toNat ≤ ((r.maca.packets p).data.drop 1).length := by
    rw [Packet.Holds, Packet.wholePsdu, List.length_take] at hk
    omega
  constructor
  · intro h
    obtain ⟨q, hq', hlen, -⟩ := h _ _ hget
    rw [hq] at hq'
    cases hq'
    rw [List.length_take] at hlen
    simp only [maxPhr] at hlen
    omega
  · intro h bytes lqi hr
    rw [hget, Except.ok.injEq, Prod.mk.injEq] at hr
    have hmin : min (min (r.maca.packets p).length.toNat (maxPhr - 2)) buff.length =
        (r.maca.packets p).length.toNat := by
      simp only [maxPhr]
      omega
    rw [hmin] at hr
    refine ⟨p, by rw [hq]; rfl, ?_, ?_⟩
    · rw [← hr.1]
      exact hk
    · rw [overwrite, List.take_left]
      exact hr.1.symm

theorem receiveLossless_iff (r : Driver Waker) (buff : List UInt8)
    (hk : ∀ p ∈ r.maca.rxQueue, (r.maca.packets p).Holds) :
    ReceiveLossless r buff ↔ r.state.rxPending = 0 ∨
      ∀ p, r.maca.rxQueue.head? = some p →
        (r.maca.packets p).length.toNat ≤ min 125 buff.length := by
  by_cases hp : r.state.rxPending = 0
  · refine iff_of_true (fun bytes lqi h => ?_) (.inl hp)
    simp only [getReceived, popReceivePacket, hp, if_true] at h
    cases h
  · cases hq : r.maca.rxQueue with
    | nil =>
      refine iff_of_true (fun bytes lqi h => ?_) (.inr fun p h => ?_)
      · simp only [getReceived, popReceivePacket, hp, hq, if_false] at h
        cases h
      · cases h
    | cons p rest =>
      rw [receiveLossless_packet hp hq (hk p (by rw [hq]; exact List.mem_cons_self))]
      simp only [hp, false_or, List.head?_cons, Option.some.injEq, forall_eq']

/-- **The data path of `radio-hal`.** `start_transmit` keeps all of `data` exactly when it has at
most 125 bytes (or finds no free packet), and `get_received` all of the packet exactly when it fits
into the buffer and into 125 bytes. What does not fit is cut, and the result is `Ok`. -/
theorem hal_lossless_iff :
    (∀ (r : Driver Waker) (txInFlight : Bool) (data : List UInt8),
      TransmitLossless r txInFlight data ↔ data.length ≤ 125 ∨ r.maca.free = []) ∧
    ∀ (r : Driver Waker) (buff : List UInt8),
      (∀ p ∈ r.maca.rxQueue, (r.maca.packets p).Holds) →
      (ReceiveLossless r buff ↔ r.state.rxPending = 0 ∨
        ∀ p, r.maca.rxQueue.head? = some p →
          (r.maca.packets p).length.toNat ≤ min 125 buff.length) :=
  ⟨transmitLossless_iff, receiveLossless_iff⟩

/-- The radio with a received packet of three bytes. -/
def oneReceived : Driver Nat where
  state := { State.new with rxPending := 1 }
  maca := {
    packets := fun _ => ⟨3, 1, 0, 0, [5, 1, 2, 3, 7]⟩, free := [], txQueue := [], rxQueue := [0]
    receiving := none, channel := none, frames := 0, sent := [] }

theorem hal_lossless_iff_three :
    TransmitLossless oneFree false [1, 2, 3] ∧ ReceiveLossless oneReceived [0, 0, 0, 0] :=
  ⟨(hal_lossless_iff.1 oneFree false [1, 2, 3]).mpr (by decide),
    (hal_lossless_iff.2 oneReceived [0, 0, 0, 0]
      (fun p hp => by cases List.mem_singleton.mp hp; rfl)).mpr
      (.inr fun p hp => by cases hp; decide)⟩

/-- A slice of 126 bytes, and the packet of three bytes with a buffer of two. -/
theorem hal_lossy :
    (¬ ∀ (r : Driver Nat) (txInFlight : Bool) (data : List UInt8),
      TransmitLossless r txInFlight data) ∧
    ¬ ∀ (r : Driver Nat) (buff : List UInt8), (∀ p ∈ r.maca.rxQueue, (r.maca.packets p).Holds) →
      ReceiveLossless r buff := by
  constructor
  · intro h
    have hlen := (transmitLossless_iff oneFree false (List.replicate 126 0)).mp (h _ _ _)
    rw [List.length_replicate] at hlen
    exact absurd hlen (by decide)
  · intro h
    have hholds : ∀ p ∈ oneReceived.maca.rxQueue, (oneReceived.maca.packets p).Holds := by
      intro p hp
      cases List.mem_singleton.mp hp
      rfl
    obtain ⟨p, hp, hlen, -⟩ := h oneReceived [0, 0] hholds [1, 2] 0 rfl
    cases hp
    exact absurd hlen (by decide)

end Mc1322x.Radio
