/-!
# The radio driver (`mc1322x-radio/src/radio.rs`)

`State` is the driver's static, `Maca` the packets of `libmc1322x` and the MACA's channel. Every
poll, every other call and every callback is one critical section, a function of the two.

* Packets are pointers into the pool. The library is the part that the driver relies on: a free
  packet is claimed from the pool, queued packets are sent first in first out, received packets are
  collected first in first out.
* `none` is a panic: the slice of the frame out of its bounds.
* `Maca.frames` numbers the packets that were queued for transmission; `Maca.sent` lists the
  completion status of each one sent. No code reads either.
-/

namespace Mc1322x.Radio

/-- Maximum valid PHR value (`MAX_PHR`). -/
def maxPhr : Nat := 127

/-- MACA status code of a successful transmission (`SUCCESS`). -/
def success : UInt32 := 0

/-- A pointer to a packet of the MACA, or to a buffer. -/
abbrev Ptr := Nat

/-- `packet_t`, without its links. -/
structure Packet where
  length : UInt8
  offset : UInt8
  lqi : UInt8
  status : UInt8
  data : List UInt8

/-- A packet in the transmit queue, with the number of its frame. -/
structure Queued where
  frame : Nat
  packet : Ptr

/-- The packet pool of `libmc1322x`, its queues, and the MACA. -/
structure Maca where
  packets : Ptr → Packet
  free : List Ptr
  /-- Oldest first. -/
  txQueue : List Queued
  /-- Oldest first. -/
  rxQueue : List Ptr
  /-- The packet that the MACA receives into. -/
  receiving : Option Ptr
  /-- The programmed channel index; `none` after a reset. -/
  channel : Option UInt8
  /-- Frames queued so far. -/
  frames : Nat
  /-- The status of each frame sent so far, oldest first. -/
  sent : List (Nat × UInt8)

/-- `State` of the driver, which its mutex protects. -/
structure State (Waker : Type) where
  /-- Buffer handed over by `prepare_receive`. -/
  rxBuffer : Option Ptr
  /-- Number of received frames waiting in the packet queue. -/
  rxPending : UInt32
  /-- Status code of the last completed transmission. -/
  txStatus : Option UInt32
  /-- Cached channel index. -/
  txChannel : Option UInt8
  /-- An operation was cancelled. -/
  cancelled : Bool
  /-- Waker of whichever future is pending. -/
  waker : Option Waker

/-- `State::new`. -/
def State.new {Waker : Type} : State Waker where
  rxBuffer := none
  rxPending := 0
  txStatus := none
  txChannel := none
  cancelled := false
  waker := none

/-- The driver with the library. -/
structure Driver (Waker : Type) where
  state : State Waker
  maca : Maca

variable {Waker : Type}

/-! ## Packets -/

/-- `claim_free_packet`. -/
def claimFreePacket (m : Maca) : Option (Ptr × Maca) :=
  match m.free with
  | [] => none
  | p :: free => some (p, { m with free := free })

/-- `free_packet`. -/
def freePacket (m : Maca) (p : Ptr) : Maca := { m with free := p :: m.free }

/-- `tx_packet`. -/
def txPacket (m : Maca) (p : Ptr) : Maca :=
  { m with txQueue := m.txQueue ++ [⟨m.frames, p⟩], frames := m.frames + 1 }

/-- The packet at `p` becomes `k`. -/
def Maca.setPacket (m : Maca) (p : Ptr) (k : Packet) : Maca :=
  { m with packets := fun q => if q = p then k else m.packets q }

/-- `set_channel_index`. -/
def setChannelIndex (r : Driver Waker) (index : UInt8) : Driver Waker :=
  if r.state.txChannel ≠ some index then
    { state := { r.state with txChannel := some index }
      maca := { r.maca with channel := some index } }
  else r

/-- `queue_transmit`. -/
def queueTransmit (m : Maca) (p : Ptr) (psdu : List UInt8) : Maca :=
  let len := min psdu.length (maxPhr - 2)
  let k := m.packets p
  txPacket (m.setPacket p { k with
    data := psdu.take len ++ k.data.drop len
    length := .ofNat len
    offset := 0 }) p

/-- `pop_receive_packet`. -/
def popReceivePacket (r : Driver Waker) : Option (Ptr × Driver Waker) :=
  if r.state.rxPending = 0 then none
  else match r.maca.rxQueue with
    | [] => none
    | p :: rest => some (p, {
        state := { r.state with rxPending := r.state.rxPending - 1 }
        maca := { r.maca with rxQueue := rest } })

/-- `copy_received_psdu`: the bytes copied into the first part of a buffer of `room` bytes, the LQI,
and the packet freed. -/
def copyReceivedPsdu (m : Maca) (p : Ptr) (room : Nat) : List UInt8 × UInt8 × Maca :=
  let k := m.packets p
  let len := min (min k.length.toNat (maxPhr - 2)) room
  ((k.data.drop 1).take len, k.lqi, freePacket m p)

/-! ## Transmission -/

/-- The PSDU of a frame buffer, as `&bytes[1..1 + len]`: `none` where the slice is out of bounds. -/
def txPsdu (bytes : List UInt8) : Option (List UInt8) :=
  let phr := (bytes.head?.getD 0).toNat
  let len := min (min (phr - 2) (maxPhr - 2)) (bytes.length - 1)
  if 1 + len ≤ bytes.length then some ((bytes.drop 1).take len) else none

/-- The index that the futures capture: `channel - 11`. -/
def channelIndex (channel : UInt8) : UInt8 := channel - 11

/-- The part of a poll that programs the channel and queues the claimed packet `p`. -/
def queueFrame (r : Driver Waker) (p : Ptr) (index : UInt8) (bytes : List UInt8) :
    Option (Driver Waker) :=
  let r := setChannelIndex r index
  (txPsdu bytes).map fun psdu => { r with maca := queueTransmit r.maca p psdu }

/-- A poll of the future of `prepare_transmit`: whether it is ready. -/
def pollPrepareTransmit (r : Driver Waker) (w : Waker) (index : UInt8) (bytes : List UInt8) :
    Option (Bool × Driver Waker) :=
  let state := { r.state with cancelled := false }
  match claimFreePacket r.maca with
  | none => some (false, { state := { state with waker := some w }, maca := r.maca })
  | some (p, m) => (queueFrame { state := state, maca := m } p index bytes).map fun r => (true, r)

/-- What a poll that waits for a transmission finds. -/
inductive TxPoll where
  | pending
  /-- Ready with the MACA's status. -/
  | sent (status : UInt32)
  /-- Ready because of a cancellation. -/
  | cancelled
  deriving DecidableEq

/-- The result of the future. -/
def TxPoll.result : TxPoll → Option Bool
  | .pending => none
  | .sent status => some (status = success)
  | .cancelled => some false

/-- A poll of the future of `transmit`. -/
def pollTransmit (r : Driver Waker) (w : Waker) : TxPoll × Driver Waker :=
  match r.state.txStatus with
  | some status =>
    (.sent status, { r with state := { r.state with txStatus := none, waker := none } })
  | none =>
    if r.state.cancelled then (.cancelled, { r with state := { r.state with cancelled := false } })
    else (.pending, { r with state := { r.state with waker := some w } })

/-- A poll of the future of `prepare_and_transmit`: its result, and its `queued` after it. -/
def pollPrepareAndTransmit (r : Driver Waker) (w : Waker) (index : UInt8) (bytes : List UInt8)
    (queued : Bool) : Option (TxPoll × Bool × Driver Waker) :=
  if queued then some ((pollTransmit r w).1, true, (pollTransmit r w).2)
  else
    let state := { r.state with cancelled := false }
    match claimFreePacket r.maca with
    | none => some (.pending, false, { state := { state with waker := some w }, maca := r.maca })
    | some (p, m) =>
      (queueFrame { state := state, maca := m } p index bytes).map fun r =>
        ((pollTransmit r w).1, true, (pollTransmit r w).2)

/-- `cancel_current_operation`: the waker woken, and the driver after it. -/
def cancelCurrentOperation (r : Driver Waker) : Option Waker × Driver Waker :=
  (r.state.waker,
    { r with state := { r.state with cancelled := true, txStatus := none, waker := none } })

/-! ## Reception, and turning the radio on and off -/

/-- `disable`. -/
def disable (r : Driver Waker) : Driver Waker :=
  { r with state := { r.state with txChannel := none, cancelled := false, rxBuffer := none } }

/-- `enable`: `maca_on` drops the programmed channel. -/
def enable (r : Driver Waker) : Driver Waker :=
  { state := { r.state with txChannel := none, cancelled := false, rxBuffer := none }
    maca := { r.maca with channel := none } }

/-- `prepare_receive`. -/
def prepareReceive (r : Driver Waker) (buffer : Ptr) : Driver Waker :=
  { r with state := { r.state with rxBuffer := some buffer, cancelled := false } }

/-- A poll of `receive_inner`: its result, and the frame written into a buffer. -/
def pollReceive (r : Driver Waker) (w : Waker) :
    Option Bool × Option (Ptr × List UInt8) × Driver Waker :=
  if r.state.cancelled then
    (some false, none,
      { r with state := { r.state with cancelled := false, waker := none, rxBuffer := none } })
  else match popReceivePacket r with
    | none => (none, none, { r with state := { r.state with waker := some w } })
    | some (p, r) =>
      let state := { r.state with waker := none }
      match state.rxBuffer with
      | none => (some false, none, { state := state, maca := freePacket r.maca p })
      | some buffer =>
        let c := copyReceivedPsdu r.maca p 127
        (some true, some (buffer, .ofNat (c.1.length + 2) :: c.1),
          { state := { state with rxBuffer := none }, maca := c.2.2 })

/-- A buffer after a write to its first part. -/
def overwrite (old frame : List UInt8) : List UInt8 := frame ++ old.drop frame.length

/-- The `Drop` of `ReceiveFuture`. -/
def dropReceive (r : Driver Waker) : Driver Waker :=
  { r with state := { r.state with rxBuffer := none, waker := none, cancelled := false } }

/-! ## Callbacks -/

/-- `maca_rx_callback`: the waker woken, and the driver after it. -/
def macaRxCallback (r : Driver Waker) : Option Waker × Driver Waker :=
  (r.state.waker,
    { r with state := { r.state with rxPending := r.state.rxPending + 1, waker := none } })

/-- `maca_tx_callback`. -/
def macaTxCallback (r : Driver Waker) (p : Ptr) : Option Waker × Driver Waker :=
  (r.state.waker,
    { r with state := { r.state with
        txStatus := some (r.maca.packets p).status.toUInt32
        waker := none } })

end Mc1322x.Radio
