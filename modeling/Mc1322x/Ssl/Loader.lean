import Mc1322x.Lib.Bytes
import Mc1322x.Hal.Uart
import Mc1322x.Hal.Nvm

/-!
# The second stage loader (`mc1322x-ssl/src/main.rs`)

The command loop of the loader, as a program on a UART and a flash: it reads frames, carries out the
requests in them, and answers. A frame is `SOF`, a 2-byte little-endian length, that many command
bytes, and their sum.
-/

namespace Mc1322x.Ssl

open Proc Bytes

/-- Start of frame. -/
def sof : UInt8 := 0x55

namespace Cmd

/-- `READ_REQUEST`. -/
def readRequest : UInt8 := 0x01

/-- `READ_RESPONSE`. -/
def readResponse : UInt8 := 0x02

/-- `WRITE_REQUEST`. -/
def writeRequest : UInt8 := 0x03

/-- `COMMIT_REQUEST`. -/
def commitRequest : UInt8 := 0x04

/-- `ERASE_REQUEST`. -/
def eraseRequest : UInt8 := 0x05

/-- `CONFIRM`. -/
def confirm : UInt8 := 0xF0

end Cmd

namespace Status

/-- `SUCCESS`. -/
def success : UInt8 := 0x02

/-- `WRITE_ERROR`. -/
def writeError : UInt8 := 0x03

/-- `READ_ERROR`. -/
def readError : UInt8 := 0x04

/-- `CRC_ERROR`. -/
def crcError : UInt8 := 0x05

/-- `EXEC_ERROR`. -/
def execError : UInt8 := 0x07

end Status

/-- `ENG_SECURED`. -/
def engSecured : UInt8 := 0xC3

/-- `ENG_UNSECURED`. -/
def engUnsecured : UInt8 := 0x3C

/-- `MAX_CHUNK`: the data bytes of one command. -/
def maxChunk : Nat := 1024

/-- The bytes of an ASCII text. -/
def ascii (s : String) : List UInt8 := s.toList.map fun c => .ofNat c.toNat

/-- `DIGITS`. -/
def digits : List UInt8 := ascii "0123456789abcdef"

namespace Loader

variable {S : Sig} (uart : Uart S) (nvm : Nvm.NorFlash S)

/-! ## Frames -/

/-- The loop of `read_exact` over a buffer of length `len`, of which `buf` is filled. -/
def fill (len : Nat) (buf : List UInt8) : Proc S (List UInt8) :=
  iterate buf fun buf => do
    if buf.length < len then
      let bytes ← uart.read (len - buf.length)
      return .inl (buf ++ bytes)
    else return .inr buf

/-- `read_exact`. -/
def readExact (len : Nat) : Proc S (List UInt8) := fill uart len []

/-- `send_frame`. -/
def sendFrame (command : List UInt8) : Proc S Unit := do
  uart.writeAll [sof]
  uart.writeAll (le 2 command.length)
  uart.writeAll command
  uart.writeAll [sum command]

/-- `send_confirm`. -/
def sendConfirm (status : UInt8) : Proc S Unit := sendFrame uart [Cmd.confirm, status]

/-- `send_read_response`, whose frame is written in parts. -/
def sendReadResponse (status : UInt8) (data : List UInt8) : Proc S Unit := do
  let header := [Cmd.readResponse, status] ++ le 2 data.length
  uart.writeAll [sof]
  uart.writeAll (le 2 (header.length + data.length))
  uart.writeAll header
  uart.writeAll data
  uart.writeAll [sum (header ++ data)]

/-- The scan for `SOF`. -/
def scan : Proc S Unit :=
  iterate () fun _ => do
    let b ← uart.read 1
    if b.length ≠ 1 then return .inl ()
    else if b.headD 0 = sof then return .inr () else return .inl ()

/-- `read_frame` into a buffer of length `bufLen`: the command bytes. -/
def readFrame (bufLen : Nat) : Proc S (Option (List UInt8)) := do
  scan uart
  let lenBytes ← readExact uart 2
  let len := ofLe lenBytes
  if len = 0 ∨ bufLen < len then return none
  else do
    let buf ← readExact uart len
    let crcByte ← readExact uart 1
    if crcByte.headD 0 ≠ sum buf then do
      sendConfirm uart Status.crcError
      return none
    else return some buf

/-! ## Diagnostics -/

/-- The bytes of `debug_hex_u32`. -/
def hexU32 (v : UInt32) : List UInt8 :=
  [24, 16, 8, 0].flatMap fun shift =>
    let byte := (v.toNat >>> shift) % 256
    [digits.getD (byte >>> 4) 0, digits.getD (byte &&& 0xF) 0]

/-- `debug_puts`, which writes to the UART's data register. -/
def debugPuts (bytes : List UInt8) : Proc S Unit := uart.writeAll bytes

/-- The code that a failed write reports. -/
def writeErrCode : Nvm.Error → UInt32
  | .rom c => c
  | .bounds _ => 0xB0000000
  | .unsupportedFlash => 0xF0000000

/-- What a failed write prints. -/
def writeErr (e : Nvm.Error) : Proc S Unit := do
  debugPuts uart (ascii "WRITE_ERR code=0x")
  debugPuts uart (hexU32 (writeErrCode e))
  debugPuts uart (ascii "\r\n")

/-! ## Requests -/

/-- `u32::from_le_bytes` of the four bytes from `i` on. -/
def u32At (frame : List UInt8) (i : Nat) : UInt32 := .ofNat (ofLe ((frame.drop i).take 4))

/-- `u16::from_le_bytes` of the two bytes from `i` on. -/
def u16At (frame : List UInt8) (i : Nat) : Nat := ofLe ((frame.drop i).take 2)

/-- An Erase Request: one sector, or the whole chip without its last one. -/
def handleErase (frame : List UInt8) : Proc S Unit := do
  let address := u32At frame 1
  let r ←
    if address = 0xFFFFFFFF then
      -- The whole chip but the reserved last sector.
      nvm.erase 0 (31 * 4096)
    else
      let sectorStart := address - address % 4096
      nvm.erase sectorStart (sectorStart + 4096)
  sendConfirm uart (if r.isOk then Status.success else Status.execError)

/-- A Write Request. A length that is not that of the data is answered like a write that fails. -/
def handleWrite (frame : List UInt8) : Proc S Unit := do
  let address := u32At frame 1
  let dataLen := u16At frame 5
  let ok ←
    if frame.length ≠ 7 + dataLen then pure false
    else do
      match ← nvm.write address ((frame.drop 7).take dataLen) with
      | .ok () => pure true
      | .error e => do
        writeErr uart e
        pure false
  sendConfirm uart (if ok then Status.success else Status.writeError)

/-- The signature for the "Secure" field of a commit. -/
def signature (secure : UInt8) : Option (List UInt8) :=
  if secure = engSecured then some (ascii "SECU")
  else if secure = engUnsecured then some (ascii "OKOK")
  else none

/-- A Commit Request: the header in front of the image, with a signature by the secure byte. -/
def handleCommit (frame : List UInt8) : Proc S Unit := do
  let imageLen := u32At frame 1
  let secure := frame.getD 5 0
  match signature secure with
  | none => sendConfirm uart Status.execError
  | some signature => do
    let r ← nvm.write 0 (signature ++ le 4 imageLen.toNat)
    sendConfirm uart (if r.isOk then Status.success else Status.writeError)

/-- A Read Request, of at most `MAX_CHUNK` bytes. -/
def handleRead (frame : List UInt8) : Proc S Unit := do
  let address := u32At frame 1
  let dataLen := min (u16At frame 5) maxChunk
  match ← nvm.read address dataLen with
  | .ok data => sendReadResponse uart Status.success data
  | .error _ => sendReadResponse uart Status.readError []

/-- The `match` on a frame, which is never empty. -/
def handle (frame : List UInt8) : Proc S Unit :=
  let len := frame.length
  let id := frame.headD 0
  if id = Cmd.eraseRequest ∧ len = 5 then handleErase uart nvm frame
  else if id = Cmd.writeRequest ∧ 7 ≤ len then handleWrite uart nvm frame
  else if id = Cmd.commitRequest ∧ len = 6 then handleCommit uart nvm frame
  else if id = Cmd.readRequest ∧ len = 7 then handleRead uart nvm frame
  else sendConfirm uart Status.execError

/-- One round of the command loop. -/
def serve : Proc S Unit := do
  match ← readFrame uart (maxChunk + 8) with
  | none => return ()
  | some frame => handle uart nvm frame

/-- The loop of `arm_main`. -/
def commandLoop : Proc S Empty := forever (serve uart nvm)

end Loader

end Mc1322x.Ssl
