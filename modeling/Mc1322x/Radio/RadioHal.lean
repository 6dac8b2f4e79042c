import Mc1322x.Radio.Futures

/-!
# The radio with all its calls (`mod radio_hal` of `mc1322x-radio/src/radio.rs`)

The `radio-hal` calls don't block: each of them is one critical section, a function of the driver.
`Full` is the radio's system with these calls (`FullAct`) beside the futures.

* `set_channel` checks its argument in both APIs, so a `Full` takes no raw channel index.
* `send_frame` awaits `prepare_transmit` and then `transmit`, `receive_frame` awaits
  `prepare_receive` and then `receive`: they are the polls of these futures, in this order.
-/

namespace Mc1322x.Radio

/-- `radio_hal::Error`. -/
inductive Error where
  /-- No free packet, or no received packet. -/
  | busy
  /-- Transmission completed with this MACA status. -/
  | transmit (status : UInt32)
  | invalidChannel
  deriving DecidableEq

variable {Waker : Type}

/-! ## The calls -/

/-- `set_channel`: `none` where its assertion fails. -/
def setChannel (r : Driver Waker) (channel : UInt8) : Option (Driver Waker) :=
  if 11 ≤ channel ∧ channel ≤ 26 then some (setChannelIndex r (channel - 11)) else none

/-- `Channel::set_channel`. -/
def halSetChannel (r : Driver Waker) (channel : UInt8) : Except Error Unit × Driver Waker :=
  if ¬ (11 ≤ channel ∧ channel ≤ 26) then (.error .invalidChannel, r)
  else (.ok (), setChannelIndex r (channel - 11))

/-- `start_transmit`: its result, `tx_in_flight` and the driver after it. -/
def startTransmit (r : Driver Waker) (txInFlight : Bool) (data : List UInt8) :
    Except Error Unit × Bool × Driver Waker :=
  let state := { r.state with cancelled := false }
  match claimFreePacket r.maca with
  | none => (.error .busy, txInFlight, { state := state, maca := r.maca })
  | some (p, m) => (.ok (), true, { state := state, maca := queueTransmit m p data })

/-- `check_transmit`: its result, `tx_in_flight` and the driver after it. -/
def checkTransmit (r : Driver Waker) (txInFlight : Bool) :
    Except Error Bool × Bool × Driver Waker :=
  match r.state.txStatus with
  | some status =>
    (if status = success then .ok true else .error (.transmit status), false,
      { r with state := { r.state with txStatus := none } })
  | none => (.ok false, txInFlight, r)

/-- `start_receive`. -/
def startReceive (r : Driver Waker) : Driver Waker :=
  { r with state := { r.state with cancelled := false } }

/-- `check_receive`. -/
def checkReceive (r : Driver Waker) : Bool := 0 < r.state.rxPending

/-- `get_received` with a buffer of `room` bytes: the bytes copied and the LQI, and the driver after
it. -/
def getReceived (r : Driver Waker) (room : Nat) :
    Except Error (List UInt8 × UInt8) × Driver Waker :=
  match popReceivePacket r with
  | none => (.error .busy, r)
  | some (p, r) =>
    let c := copyReceivedPsdu r.maca p room
    (.ok (c.1, c.2.1), { r with maca := c.2.2 })

/-! ## The system -/

/-- The driver with its futures, and the flag of the `RadioHal` interface. -/
structure Full (Waker : Type) where
  sys : Sys Waker
  /-- A `start_transmit` is in flight. -/
  txInFlight : Bool

/-- An action on the futures, or a call of one of the driver's other methods. -/
inductive FullAct (Waker : Type) where
  | base (a : Act Waker)
  | setChannel (channel : UInt8)
  | halSetChannel (channel : UInt8)
  /-- `set_state`, to `Idle` or to `Sleep`. -/
  | setState (idle : Bool)
  | startTransmit (data : List UInt8)
  | checkTransmit
  | isBusy
  | startReceive
  | checkReceive
  | getReceived (room : Nat)

/-- The driver becomes `r`. -/
def Full.withRadio (s : Full Waker) (r : Driver Waker) : Full Waker := { s with sys.radio := r }

/-- One step; `none`: the step is not possible, or it panics. -/
def Full.step (s : Full Waker) : FullAct Waker → Option (Full Waker)
  | .base (.setChannel _) => none
  | .base a => (s.sys.step a).map fun sys => { s with sys := sys }
  | .setChannel channel => (Radio.setChannel s.sys.radio channel).map s.withRadio
  | .halSetChannel channel => some (s.withRadio (Radio.halSetChannel s.sys.radio channel).2)
  | .setState idle =>
    some (s.withRadio (if idle then Radio.enable s.sys.radio else Radio.disable s.sys.radio))
  | .startTransmit data =>
    let (_, txInFlight, r) := Radio.startTransmit s.sys.radio s.txInFlight data
    some { s.withRadio r with txInFlight := txInFlight }
  | .checkTransmit =>
    let (_, txInFlight, r) := Radio.checkTransmit s.sys.radio s.txInFlight
    some { s.withRadio r with txInFlight := txInFlight }
  | .isBusy | .checkReceive => some s
  | .startReceive => some (s.withRadio (Radio.startReceive s.sys.radio))
  | .getReceived room => some (s.withRadio (Radio.getReceived s.sys.radio room).2)

/-- A step of the futures and the MACA. -/
theorem Full.step_base {s s' : Full Waker} {a : Act Waker} (h : s.step (.base a) = some s') :
    ∃ sys, s.sys.step a = some sys ∧ { s with sys := sys } = s' := by
  cases a with
  | setChannel index => cases h
  | _ => exact Option.map_eq_some_iff.mp h

/-- `set_channel` with a channel of 802.15.4. -/
theorem Full.step_setChannel {s s' : Full Waker} {channel : UInt8}
    (h : s.step (.setChannel channel) = some s') :
    (11 ≤ channel ∧ channel ≤ 26) ∧
      s' = s.withRadio (setChannelIndex s.sys.radio (channel - 11)) := by
  obtain ⟨r, hr, rfl⟩ := Option.map_eq_some_iff.mp h
  obtain ⟨hc, hr⟩ := Option.ite_none_right_eq_some.mp hr
  cases hr
  exact ⟨hc, rfl⟩

/-- The runs from the states `init`. -/
def full (Waker : Type) (init : Full Waker → Prop) : Lts := .ofStep init Full.step

/-- The radio after `init`, with the packets `pool`. -/
def Full.Started (pool : List Ptr) (s : Full Waker) : Prop :=
  s.sys.Started ∧ s.txInFlight = false ∧ s.sys.radio.maca.rxQueue = [] ∧
    s.sys.radio.maca.free ++ s.sys.radio.maca.receiving.toList = pool

/-- The radio with two free packets. -/
def Full.zero : Full Nat := ⟨Sys.zero, false⟩

theorem Full.zero_started : Full.zero.Started [0, 1] := ⟨Sys.zero_started, rfl, rfl, rfl⟩

end Mc1322x.Radio
