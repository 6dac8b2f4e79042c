import Mc1322x.Ssl.Loader

/-!
# The host (`mc1322x-ssl/ssl_protocol.py`, `flash_host.py`)

The frames and `flash_image` of the host, as programs on a serial port whose reads have no timeout.
What is only printed is left out.
-/

namespace Mc1322x.Ssl.Host

open Proc Bytes

/-- The accesses to the serial port. -/
inductive Access where
  | read (size : Nat)
  | write (data : List UInt8)

/-- The accesses with what they give. -/
abbrev sig : Sig where
  Op := Access
  Ans
    | .read _ => List UInt8
    | .write _ => Unit

/-- `ser.read`. -/
def serRead (size : Nat) : Proc sig (List UInt8) := call (S := sig) (.read size)

/-- `ser.write`. -/
def serWrite (data : List UInt8) : Proc sig Unit := call (S := sig) (.write data)

/-- The exceptions of the scripts. -/
inductive Raised where
  | indexError
  | overflowError
  | runtimeError (message : String)
  deriving DecidableEq

/-- A program that may raise. -/
abbrev Raising := ExceptT Raised (Proc sig)

/-- `HEADER_SIZE`. -/
def headerSize : Nat := 8

/-- `CHUNK_SIZE`. -/
def chunkSize : Nat := 512

/-! ## Frames -/

/-- `x.to_bytes(length, "little")`. -/
def toBytes (x length : Nat) : Except Raised (List UInt8) :=
  if x < 256 ^ length then .ok (le length x) else .error .overflowError

/-- `sum(command) & 0xFF`. -/
def checksum (command : List UInt8) : Nat := (command.map UInt8.toNat).sum &&& 0xFF

/-- `build_frame`. -/
def buildFrame (commandBytes : List UInt8) : Except Raised (List UInt8) := do
  let length ← toBytes commandBytes.length 2
  return [sof] ++ length ++ commandBytes ++ [.ofNat (checksum commandBytes)]

/-- `read_frame`, whose deadline never comes. -/
def readFrame : Proc sig (List UInt8) :=
  iterate () fun _ => do
    let b ← serRead 1
    if b = [] ∨ b.headD 0 ≠ sof then return .inl ()
    else do
      let lengthBytes ← serRead 2
      if lengthBytes.length ≠ 2 then return .inl ()
      else do
        let length := ofLe lengthBytes
        let command ← serRead length
        if command.length ≠ length then return .inl ()
        else do
          let crc ← serRead 1
          if crc.length ≠ 1 then return .inl ()
          else if (crc.headD 0).toNat ≠ checksum command then return .inl ()
          else return .inr command

/-- The hexadecimal digits of a number, at least `width` of them. -/
def hex (width x : Nat) : String :=
  let s := String.ofList ((Nat.toDigits 16 x).map Char.toUpper)
  "".pushn '0' (width - s.length) ++ s

/-- `STATUS_NAMES`. -/
def statusNames : List (UInt8 × String) :=
  [(0x00, "gEngValidReq_c"), (0x01, "gEngInvalidReq_c"), (0x02, "gEngSuccessOp_c"),
    (0x03, "gEngWriteError_c"), (0x04, "gEngReadError_c"), (0x05, "gEngCRCError_c"),
    (0x06, "gEngCommError_c"), (0x07, "gEngExecError_c")]

/-- The name of a status in a message; its hexadecimal digits where it has none. -/
def statusName (status : UInt8) : String :=
  (statusNames.lookup status).getD s!"0x{hex 2 status.toNat}"

/-- `expect_confirm`. -/
def expectConfirm (what : String) : Raising Unit := do
  match ← readFrame with
  | [] => throw .indexError
  | id :: rest =>
    if id ≠ Cmd.confirm then
      throw (.runtimeError s!"{what}: expected Confirm (0xF0), got command 0x{hex 2 id.toNat}")
    else
      match rest with
      | [] => throw .indexError
      | status :: _ =>
        if status ≠ 0x02 then
          throw (.runtimeError s!"{what}: failed with status {statusName status}")
        else return ()

/-! ## Flashing -/

/-- `ser.write(build_frame(body))`. -/
def sendFrame (body : List UInt8) : Raising Unit := do
  serWrite (← buildFrame body)

/-- The erase of `flash_image`: the whole chip. -/
def eraseAll : Raising Unit := do
  sendFrame ([Cmd.eraseRequest] ++ (← toBytes 0xFFFFFFFF 4))
  expectConfirm "Erase"

/-- One round of the loop of `flash_image`. -/
def writeChunk (image : List UInt8) (offset : Nat) : Raising (Nat ⊕ Unit) := do
  if offset < image.length then
    let chunk := (image.drop offset).take chunkSize
    let flashAddr := headerSize + offset
    sendFrame ([Cmd.writeRequest] ++ (← toBytes flashAddr 4) ++ (← toBytes chunk.length 2) ++ chunk)
    expectConfirm s!"Write @0x{hex 6 flashAddr} ({chunk.length} bytes)"
    return .inl (offset + chunk.length)
  else return .inr ()

/-- The commit of `flash_image`. -/
def commit (image : List UInt8) (secureByte : UInt8) : Raising Unit := do
  sendFrame ([Cmd.commitRequest] ++ (← toBytes image.length 4) ++ [secureByte])
  expectConfirm "Commit"

/-- `flash_image`: erase, write and commit. -/
def flashImage (image : List UInt8) (secureByte : UInt8) : Raising Unit := do
  eraseAll
  iterateE 0 (writeChunk image)
  commit image secureByte

end Mc1322x.Ssl.Host
