import Mc1322x.Hal.Util
import Mc1322x.Lib.Async

/-!
# The I2C driver (`mc1322x-hal/src/i2c.rs`)

* `Master` is the I2C module at its registers, with the byte on the wire and the history of the bus.
  A byte is transferred in the background: it starts with an access of `I2C_DR` and completes at any
  later time, at the latest when the next byte is sent. `Wire` is everything else on the bus.
* The driver's functions are programs on the bus of the module. A blocking function and its async
  equivalent are one program; they differ in the polls of a wait (`Wire.device`). A blocking wait
  polls the status over and over; an async one also arms the interrupt, and the handler `i2c_isr`
  runs at any time.
-/

namespace Mc1322x.I2c

open Mmio

/-! ## The bus -/

/-- What the addressed slave and the other masters do with a byte that the master sends. -/
inductive Reply where
  | ack
  | nack
  /-- The arbitration is lost in this byte. -/
  | lost
  deriving DecidableEq

/-- What happens on the bus. -/
inductive Event where
  /-- A START (or repeated START) with its address byte. -/
  | address (repeated : Bool) (byte : UInt8) (reply : Reply)
  | send (byte : UInt8) (reply : Reply)
  /-- A byte that the master receives and acknowledges or not. -/
  | recv (byte : UInt8) (nack lost : Bool)
  | stop
  deriving DecidableEq

/-- The other side of the bus: what it does with the next byte, from all that has happened. -/
structure Wire where
  reply : List Event → UInt8 → Reply
  data : List Event → UInt8
  /-- Whether the arbitration is lost in a NACK of the master. In an ACK it cannot be: there the
  master pulls the line low. -/
  nackLost : List Event → Bool

/-- A byte on the wire. -/
inductive Transfer where
  | address (repeated : Bool) (byte : UInt8)
  | data (byte : UInt8)
  | receive

/-- How a byte ends, where the master has `I2C_TXAK` set or not. -/
def Wire.event (w : Wire) (txak : Bool) (history : List Event) : Transfer → Event
  | .address repeated byte => .address repeated byte (w.reply history byte)
  | .data byte => .send byte (w.reply history byte)
  | .receive => .recv (w.data history) txak (txak && w.nackLost history)

/-- The arbitration is lost. -/
def Event.lost : Event → Bool
  | .address _ _ r | .send _ r => r = .lost
  | .recv _ _ lost => lost
  | .stop => false

/-- `I2C_RXAK` after the byte, from its value before. -/
def Event.rxak (event : Event) (old : Bool) : Bool :=
  match event with
  | .address _ _ r | .send _ r => r ≠ .ack
  | _ => old

/-- `I2C_DR` after the byte, from its value before. -/
def Event.dr (event : Event) (old : UInt8) : UInt8 :=
  match event with
  | .recv byte _ _ => byte
  | _ => old

/-! ## The module -/

/-- `I2C_CR`. -/
structure Cr where
  men : Bool := false
  mien : Bool := false
  msta : Bool := false
  mtx : Bool := false
  txak : Bool := false
  rsta : Bool := false

/-- `I2C_SR`. -/
structure Sr where
  mcf : Bool
  mbb : Bool
  mal : Bool
  mif : Bool
  rxak : Bool

/-- The registers of the module, with the byte on the wire and what has been there. -/
structure Master where
  cr : Cr
  mbb : Bool
  mal : Bool
  mif : Bool
  rxak : Bool
  /-- The last byte received. -/
  dr : UInt8
  /-- The byte on the wire. -/
  transfer : Option Transfer
  /-- A START (`false`) or repeated START (`true`) that the next byte written follows. -/
  request : Option Bool
  /-- An address has been sent since the module was enabled and the START was made. -/
  addressed : Bool
  history : List Event

namespace Master

variable (w : Wire)

/-- The byte on the wire completes. -/
def complete (s : Master) : Master :=
  match s.transfer with
  | none => s
  | some x =>
    let event := w.event s.cr.txak s.history x
    { s with
      transfer := none
      history := s.history ++ [event]
      mif := true
      mal := s.mal || event.lost
      rxak := event.rxak s.rxak
      dr := event.dr s.dr }

/-- `I2C_RSTA` reads as 0. -/
def readCr (s : Master) : Cr := { s.cr with rsta := false }

/-- `I2C_MCF` is set while no byte is on the wire. -/
def readSr (s : Master) : Sr where
  mcf := s.transfer.isNone
  mbb := s.mbb
  mal := s.mal
  mif := s.mif
  rxak := s.rxak

/-- Without `I2C_MEN` the byte on the wire is cut off. With it, `I2C_MSTA` makes a START when it
rises and a STOP when it falls. -/
def writeCr (v : Cr) (s : Master) : Master :=
  let s' := if s.cr.men && !v.men then
      { s with transfer := none, request := none, addressed := false }
    else s
  let s' := if v.men && v.msta && !s.cr.msta then { s' with request := some false, mbb := true }
    else s'
  let s' := if v.men && v.msta && v.rsta then { s' with request := some true } else s'
  let s' := if v.men && !v.msta && s.cr.msta then
      { s' with
        transfer := none
        request := none
        addressed := false
        mbb := false
        history := s.history ++ [.stop] }
    else s'
  { s' with cr := v }

/-- Of the status flags, a write clears `I2C_MIF` and `I2C_MAL`, where it writes 0. -/
def writeSr (v : Sr) (s : Master) : Master :=
  { s with mif := s.mif && v.mif, mal := s.mal && v.mal }

/-- In transmit mode a write of `I2C_DR` sends a byte, behind the byte on the wire. That is an
assumption about the module: the driver's own waits leave no byte on the wire here, except before the
repeated START that turns a read into a write. There the reception that the last read of `I2C_DR` has
started may be under way; it is assumed to complete first, so that no part of it is lost. -/
def writeDr (byte : UInt8) (s : Master) : Master :=
  if s.cr.men && s.cr.msta && s.cr.mtx then
    { s.complete w with
      transfer := some (match s.request with
        | some repeated => .address repeated byte
        | none => .data byte)
      request := none
      addressed := true }
  else s

/-- After an address, a read of `I2C_DR` in receive mode starts the reception of the next byte. -/
def readDr (s : Master) : UInt8 × Master :=
  (s.dr, if s.cr.men && s.cr.msta && !s.cr.mtx && s.addressed && s.transfer.isNone then
    { s with transfer := some .receive } else s)

end Master

/-! ## The driver's accesses -/

/-- The registers that the driver reads. -/
inductive In where
  | cr
  | sr
  | dr

/-- The registers that it writes. -/
inductive Out where
  | cr (v : Cr)
  | sr (v : Sr)
  | dr (byte : UInt8)

/-- The loops that wait for the module. -/
inductive Wait where
  /-- `while I2C_SR & I2C_MBB != 0`, yielding in the async driver. -/
  | busFree
  /-- `wait_byte`, up to the `stop()` after a lost arbitration. -/
  | byte

/-- How a wait for a byte ends. -/
inductive ByteStatus where
  | completed
  | arbitrationLost

/-- What a read gives. -/
def In.Val : In → Type
  | .cr => Cr
  | .sr => Sr
  | .dr => UInt8

/-- What a wait gives. -/
def Wait.Res : Wait → Type
  | .busFree => Unit
  | .byte => ByteStatus

/-- The accesses of the driver. -/
abbrev bus : Bus := ⟨In, In.Val, Out, Wait, Wait.Res⟩

/-- `poll_byte_status`, without the `stop()` after a lost arbitration; `none` is pending. -/
def pollByteStatus (s : Master) : Option ByteStatus × Master :=
  let sr := s.readSr
  if sr.mal then (some .arbitrationLost, s.writeSr { sr with mal := false })
  else if sr.mif && sr.mcf then (some .completed, s.writeSr { sr with mif := false })
  else (none, s)

/-- Whether the polls of a wait come from a loop or from the executor. -/
inductive Mode where
  | blocking
  | async

/-- The module with the driver's static `WAKER` and the waker of the task's context. -/
structure Shared (Waker : Type) where
  master : Master
  waker : WakerCell Waker
  cx : Waker

/-- One poll of `wait_byte`, or of `wait_byte_async`. -/
def pollWait {Waker : Type} (mode : Mode) (s : Shared Waker) : Option ByteStatus × Shared Waker :=
  match pollByteStatus s.master, mode with
  | (some r, m), _ => (some r, { s with master := m })
  | (none, m), .blocking => (none, { s with master := m })
  | (none, m), .async =>
    (none, { s with
      master := m.writeCr { m.readCr with mien := true }
      waker := s.waker.set s.cx })

/-- `i2c_isr`. -/
def i2cIsr {Waker : Type} (s : Shared Waker) : Shared Waker :=
  { s with
    master := s.master.writeCr { s.master.readCr with mien := false }
    waker := s.waker.wake.2 }

/-- What happens beside the task. -/
inductive Env (Waker : Type) where
  /-- The byte on the wire completes. -/
  | complete
  /-- Another master releases the bus. -/
  | release
  | isr
  /-- The task is next polled with another waker. -/
  | context (cx : Waker)

/-- The module with the blocking or the async driver. -/
def Wire.device (w : Wire) (mode : Mode) (Waker : Type) : AsyncDevice bus (Shared Waker) where
  read r s := match r with
    | .cr => (s.master.readCr, s)
    | .sr => (s.master.readSr, s)
    | .dr => (s.master.readDr.1, { s with master := s.master.readDr.2 })
  write o s := match o with
    | .cr v => { s with master := s.master.writeCr v }
    | .sr v => { s with master := s.master.writeSr v }
    | .dr byte => { s with master := s.master.writeDr w byte }
  start _ s := s
  poll _ wait s := match wait with
    | .busFree => (if s.master.mbb then none else some (), s)
    | .byte => pollWait mode s
  Env := Env Waker
  env e s := match e with
    | .complete => some { s with master := s.master.complete w }
    | .release => if s.master.cr.msta then none else some { s with master.mbb := false }
    | .isr => some (i2cIsr s)
    | .context cx => some { s with cx := cx }

/-! ## The driver -/

/-- `NoAcknowledgeSource`. -/
inductive NoAcknowledgeSource where
  | address
  | data
  deriving DecidableEq

/-- `Error`. -/
inductive Error where
  | noAcknowledge (source : NoAcknowledgeSource)
  | arbitrationLost
  deriving DecidableEq

/-- A read of `I2C_CR`. -/
def readCr : Prog bus Cr := Prog.readReg (B := bus) .cr

/-- A read of `I2C_SR`. -/
def readSr : Prog bus Sr := Prog.readReg (B := bus) .sr

/-- A read of `I2C_DR`. -/
def readDr : Prog bus UInt8 := Prog.readReg (B := bus) .dr

/-- A write of `I2C_CR`. -/
def writeCr (v : Cr) : Prog bus Unit := Prog.writeReg (B := bus) (.cr v)

/-- A write of `I2C_SR`. -/
def writeSr (v : Sr) : Prog bus Unit := Prog.writeReg (B := bus) (.sr v)

/-- A write of `I2C_DR`. -/
def writeDr (byte : UInt8) : Prog bus Unit := Prog.writeReg (B := bus) (.dr byte)

/-- The wait for a free bus. -/
def awaitBusFree : Prog bus Unit := Prog.await (B := bus) .busFree

/-- The loop of `wait_byte`. -/
def awaitByte : Prog bus ByteStatus := Prog.await (B := bus) .byte

/-- `clear_status`. -/
def clearStatus : Prog bus Unit := do
  let sr ← readSr
  writeSr { sr with mif := false, mal := false }

/-- `stop`. -/
def stop : Prog bus Unit := do
  writeCr { msta := true }
  writeCr { men := true, msta := true }
  let _ ← readDr
  writeCr { men := true }

/-- `wait_byte`. -/
def waitByte : Prog bus (Except Error Unit) := do
  match ← awaitByte with
  | .completed => return .ok ()
  | .arbitrationLost =>
    stop
    return .error .arbitrationLost

/-- `wait_byte` and the check of `I2C_RXAK` behind it. -/
def awaitAck (source : NoAcknowledgeSource) : Prog bus (Except Error Unit) := do
  match ← waitByte with
  | .error e => return .error e
  | .ok () =>
    let sr ← readSr
    if sr.rxak then
      stop
      return .error (.noAcknowledge source)
    return .ok ()

/-- The slave address with the R/W bit. -/
def addressByte (address : UInt8) (read : Bool) : UInt8 := address <<< 1 ||| read.toUInt8

/-- `start`. -/
def start (address : UInt8) (read : Bool) : Prog bus (Except Error Unit) := do
  awaitBusFree
  writeCr { men := true, msta := true, mtx := true }
  clearStatus
  writeDr (addressByte address read)
  awaitAck .address

/-- `restart`. -/
def restart (address : UInt8) (read : Bool) : Prog bus (Except Error Unit) := do
  let cr ← readCr
  writeCr { cr with mtx := true, rsta := true }
  clearStatus
  writeDr (addressByte address read)
  awaitAck .address

/-- `transmit_data`. -/
def transmitData : List UInt8 → Prog bus (Except Error Unit)
  | [] => return .ok ()
  | byte :: data => do
    writeDr byte
    match ← awaitAck .data with
    | .error e => return .error e
    | .ok () => transmitData data

/-- The loop of `receive_data` and `continue_receive`: the buffer after it, with the result. -/
def receiveLoop (nackTail : Bool) : List UInt8 → Prog bus (List UInt8 × Except Error Unit)
  | [] => return ([], .ok ())
  | byte :: data => do
    match ← waitByte with
    | .error e => return (byte :: data, .error e)
    | .ok () =>
      if nackTail && data.isEmpty then
        let cr ← readCr
        writeCr { cr with txak := true }
      let byte ← readDr
      let (data, result) ← receiveLoop nackTail data
      return (byte :: data, result)

/-- `continue_receive`. -/
def continueReceive (nackTail : Bool) (data : List UInt8) :
    Prog bus (List UInt8 × Except Error Unit) := do
  match ← receiveLoop nackTail data with
  | (data, .error e) => return (data, .error e)
  | (data, .ok ()) =>
    if nackTail && !data.isEmpty then
      return (data, ← waitByte)
    return (data, .ok ())

/-- `receive_data`. -/
def receiveData (nackTail : Bool) (data : List UInt8) :
    Prog bus (List UInt8 × Except Error Unit) := do
  let cr ← readCr
  writeCr { cr with mtx := false }
  let _ ← readDr
  continueReceive nackTail data

/-- `embedded_hal`'s `Operation`. -/
inductive Operation where
  | read (buf : List UInt8)
  | write (buf : List UInt8)
  deriving DecidableEq

/-- The operation reads. -/
def Operation.isRead : Operation → Bool
  | .read _ => true
  | .write _ => false

/-- The transfer of one operation, behind its START. -/
def perform (prevIsRead : Option Bool) (isLast : Bool) : Operation →
    Prog bus (Operation × Except Error Unit)
  | .read buf => do
    let (buf, result) ←
      if prevIsRead ≠ some true then receiveData isLast buf else continueReceive isLast buf
    return (.read buf, result)
  | .write buf => do
    let result ← transmitData buf
    return (.write buf, result)

/-- The START or repeated START of an operation, if it has one. -/
def begin (address : UInt8) (prevIsRead : Option Bool) (isRead : Bool) :
    Prog bus (Except Error Unit) :=
  match prevIsRead with
  | none => start address isRead
  | some prev => if prev ≠ isRead then restart address isRead else return .ok ()

/-- The loop of `transaction`, and the `stop()` behind it. -/
def transactionLoop (address : UInt8) : Option Bool → List Operation →
    Prog bus (List Operation × Except Error Unit)
  | _, [] => do
    stop
    return ([], .ok ())
  | prevIsRead, operation :: operations => do
    match ← begin address prevIsRead operation.isRead with
    | .error e => return (operation :: operations, .error e)
    | .ok () =>
      match ← perform prevIsRead operations.isEmpty operation with
      | (done, .error e) => return (done :: operations, .error e)
      | (done, .ok ()) =>
        let (rest, result) ← transactionLoop address (some operation.isRead) operations
        return (done :: rest, result)

/-- `transaction`, blocking or async: the operations with their buffers after it, and the result. -/
def transaction (address : UInt8) (operations : List Operation) :
    Prog bus (List Operation × Except Error Unit) :=
  if operations.isEmpty then return ([], .ok ())
  else transactionLoop address none operations

end Mc1322x.I2c
