import Mc1322x.Lib.Bytes
import Mc1322x.Lib.Prog

/-!
# The AES driver (`mc1322x-hal/src/aes.rs`)

* `Asm` is the AES Security Module at its registers: `START` latches an operation (`Job`), whose
  results appear in the result registers when it completes and raises `DONE`. Before that a read of
  a result register gives anything (`Chip.junk`).
* The driver's functions are programs on the bus of the ASM. A wait is `start_and_wait`, from the
  write of `START`. A blocking function and its async equivalent are one definition, at the two
  resting states of `CONTROL1` (`control1Idle`, `control1IdleAsync`).
* `Chip.blocking` runs a program with the busy-waiting `start_and_wait`.
-/

namespace Mc1322x.Aes

open Bytes Mmio

/-! ## Registers -/

/-- `START` of `CONTROL0`. -/
def control0Start : UInt32 := (1 : UInt32) <<< 24

/-- `CLEAR` of `CONTROL0`. -/
def control0Clear : UInt32 := (1 : UInt32) <<< 25

/-- `CLEAR_IRQ` of `CONTROL0`. -/
def control0ClearIrq : UInt32 := (1 : UInt32) <<< 31

/-- `ON` of `CONTROL1`. -/
def control1On : UInt32 := (1 : UInt32) <<< 0

/-- `NORMAL_MODE` of `CONTROL1`. -/
def control1NormalMode : UInt32 := (1 : UInt32) <<< 1

/-- `CBC` of `CONTROL1`. -/
def control1Cbc : UInt32 := (1 : UInt32) <<< 24

/-- `CTR` of `CONTROL1`. -/
def control1Ctr : UInt32 := (1 : UInt32) <<< 25

/-- `MASK_IRQ` of `CONTROL1`. -/
def control1MaskIrq : UInt32 := (1 : UInt32) <<< 31

/-- `DONE` of `STATUS`. -/
def statusDone : UInt32 := (1 : UInt32) <<< 24

/-- Resting state of `CONTROL1`: powered on, normal mode, IRQ masked. -/
def control1Idle : UInt32 := control1On ||| control1NormalMode ||| control1MaskIrq

/-- `control1Idle` with the IRQ unmasked, for the async operations. -/
def control1IdleAsync : UInt32 := control1Idle &&& ~~~control1MaskIrq

/-- The result registers. -/
inductive In where
  | ctrResult (i : Fin 4)
  | cbcResult (i : Fin 4)

/-- The writes of a program. -/
inductive Out where
  | key (i : Fin 4) (v : UInt32)
  | data (i : Fin 4) (v : UInt32)
  | ctr (i : Fin 4) (v : UInt32)
  /-- `CLEAR` to `CONTROL0`. -/
  | clear
  | control1 (v : UInt32)

/-- A wait is `start_and_wait`, or its async equivalent. -/
abbrev bus : Bus := ⟨In, fun _ => UInt32, Out, Unit, fun _ => Unit⟩

/-- The results of an operation that runs. -/
structure Job where
  ctrResult : Words
  cbcResult : Words

/-- The registers of the ASM, with the operation under way. -/
structure Asm where
  key : Words
  data : Words
  ctr : Words
  ctrResult : Words
  /-- The accumulator. -/
  cbcResult : Words
  control1 : UInt32
  /-- `STATUS.DONE`, with the interrupt line. -/
  done : Bool
  /-- The operation that runs. -/
  job : Option Job
  /-- The number of operations started so far. -/
  starts : Nat

/-- What the hardware decides: the cipher (key, block), the number of checks that an operation
outlasts, and what a result register shows while an operation runs. -/
structure Chip where
  cipher : Block → Block → Block
  latency : Nat → Nat
  junk : In → Asm → UInt32

variable (ch : Chip)

/-- `STATUS`. -/
def Asm.status (s : Asm) : UInt32 := if s.done then statusDone else 0

/-- The results of the operation that `START` starts. -/
def Chip.job (s : Asm) : Job where
  ctrResult :=
    if s.control1 &&& control1Ctr ≠ 0 then
      toWords ((ofWords s.data).xor (ch.cipher (ofWords s.key) (ofWords s.ctr)))
    else s.ctrResult
  cbcResult :=
    if s.control1 &&& control1Cbc ≠ 0 then
      toWords (ch.cipher (ofWords s.key) ((ofWords s.cbcResult).xor (ofWords s.data)))
    else s.cbcResult

/-- A write of `CONTROL0`, whose bits act on their own. -/
def Chip.writeControl0 (v : UInt32) (s : Asm) : Asm :=
  let s := if v &&& control0Clear ≠ 0 then { s with cbcResult := toWords .zero } else s
  let s := if v &&& control0ClearIrq ≠ 0 then { s with done := false } else s
  if v &&& control0Start ≠ 0 then { s with job := some (ch.job s), starts := s.starts + 1 } else s

/-- A write of `CONTROL1`. -/
def Asm.writeControl1 (v : UInt32) (s : Asm) : Asm := { s with control1 := v }

/-- A write of a register. -/
def Chip.write (o : Out) (s : Asm) : Asm :=
  match o with
  | .key i v => { s with key := s.key.put i v }
  | .data i v => { s with data := s.data.put i v }
  | .ctr i v => { s with ctr := s.ctr.put i v }
  | .clear => ch.writeControl0 control0Clear s
  | .control1 v => s.writeControl1 v

/-- A read of a result, which is junk while an operation is under way. -/
def Chip.read (r : In) (s : Asm) : UInt32 :=
  if s.job.isSome then ch.junk r s
  else match r with
    | .ctrResult i => s.ctrResult.get i
    | .cbcResult i => s.cbcResult.get i

/-- The operation that runs completes. -/
def Asm.complete (s : Asm) : Asm :=
  match s.job with
  | none => s
  | some j =>
    { s with ctrResult := j.ctrResult, cbcResult := j.cbcResult, done := true, job := none }

/-! ## Waiting -/

/-- `poll_done_status`: whether the operation has completed. -/
def pollDoneStatus (s : Asm) : Bool × Asm :=
  if s.status &&& statusDone = 0 then (false, s)
  else
    let s := ch.writeControl0 control0ClearIrq s
    (true, s.writeControl1 (s.control1 ||| control1MaskIrq))

/-- The loop of `start_and_wait`, where the operation completes after `n` checks. -/
def spin : Nat → Asm → Asm
  | 0, s => (pollDoneStatus ch s.complete).2
  | n + 1, s => if (pollDoneStatus ch s).1 then (pollDoneStatus ch s).2 else spin n s

/-- `start_and_wait`, on the ASM. -/
def Asm.startAndWait (s : Asm) : Asm :=
  spin ch (ch.latency s.starts) (ch.writeControl0 control0Start s)

/-- The ASM with the busy-waiting driver. -/
def Chip.blocking : Device bus Asm where
  read r s := (ch.read r s, s)
  write := ch.write
  wait _ s := ((), s.startAndWait ch)

/-! ## Block operations -/

/-- `write_words`. -/
def writeWords (base : Fin 4 → UInt32 → Out) (words : Words) : Prog bus Unit := do
  .writeReg (base 0 words[0])
  .writeReg (base 1 words[1])
  .writeReg (base 2 words[2])
  .writeReg (base 3 words[3])

/-- `read_words`. -/
def readWords (base : Fin 4 → In) : Prog bus Words := do
  let w0 ← .readReg (base 0)
  let w1 ← .readReg (base 1)
  let w2 ← .readReg (base 2)
  let w3 ← .readReg (base 3)
  return #v[w0, w1, w2, w3]

/-- `start_and_wait`, or `start_and_wait_async`. -/
def startAndWait : Prog bus Unit := .await ()

/-- `load_key`. -/
def loadKey (key : Block) : Prog bus Unit := writeWords .key (toWords key)

/-- Both variants of `ctr_block`; `idle` is the `CONTROL1` that they rest at. -/
def ctrBlockWith (idle : UInt32) (counter data : Block) : Prog bus Block := do
  .writeReg (.control1 (idle ||| control1Ctr))
  writeWords .data (toWords data)
  writeWords .ctr (toWords counter)
  startAndWait
  let w ← readWords .ctrResult
  return ofWords w

/-- `ctr_block`. -/
def ctrBlock := ctrBlockWith control1Idle

/-- `ctr_block_async`. -/
def ctrBlockAsync := ctrBlockWith control1IdleAsync

/-- Both variants of `cbc_mac_block`. The first block of a message clears the accumulator. -/
def cbcMacBlockWith (idle : UInt32) (block : Block) (first : Bool) : Prog bus Unit := do
  .writeReg (.control1 (idle ||| control1Cbc))
  writeWords .data (toWords block)
  if first then .writeReg .clear
  startAndWait

/-- `cbc_mac_block`. -/
def cbcMacBlock := cbcMacBlockWith control1Idle

/-- `cbc_mac_block_async`. -/
def cbcMacBlockAsync := cbcMacBlockWith control1IdleAsync

/-- `cbc_mac_result`. -/
def cbcMacResult : Prog bus Block := do
  let w ← readWords .cbcResult
  return ofWords w

/-- Both variants of `ecb_encrypt_block`: CTR of a block of zeros, with the block as the counter. -/
def ecbEncryptBlockWith (idle : UInt32) (key block : Block) : Prog bus Block := do
  loadKey key
  ctrBlockWith idle block .zero

/-- `ecb_encrypt_block`. -/
def ecbEncryptBlock := ecbEncryptBlockWith control1Idle

/-- `ecb_encrypt_block_async`. -/
def ecbEncryptBlockAsync := ecbEncryptBlockWith control1IdleAsync

/-! ## AES-CCM-16-64-128 -/

/-- Both variants of `feed_padded`: full blocks go into the MAC, the rest stays in the buffer. -/
def feedPaddedWith (idle : UInt32) (buf : Block) (filled : Fin 16) (bytes : List UInt8) :
    Prog bus (Block × Fin 16) :=
  if _h : bytes = [] then return (buf, filled)
  else
    let take := min (16 - filled.val) bytes.length
    let buf := buf.copyAt filled (bytes.take take)
    if h : filled.val + take = 16 then do
      cbcMacBlockWith idle buf false
      feedPaddedWith idle .zero 0 (bytes.drop take)
    else feedPaddedWith idle buf ⟨filled.val + take, by omega⟩ (bytes.drop take)
termination_by bytes.length
decreasing_by
  all_goals
    have := List.length_pos_iff.mpr _h
    rw [List.length_drop]
    omega

/-- `feed_padded`. -/
def feedPadded := feedPaddedWith control1Idle

/-- `feed_padded_async`. -/
def feedPaddedAsync := feedPaddedWith control1IdleAsync

/-- `build_a`. -/
def buildA (nonce : Vector UInt8 13) (counter : UInt16) : Block :=
  .ofList (0x01 :: (nonce.toList ++ be 2 counter.toNat))

/-- `embedded_cal`'s `build_b0`, from the nonce, the two lengths and the length of the tag. -/
abbrev BuildB0 := Vector UInt8 13 → Nat → Nat → Nat → Block

/-- The loop over the chunks of the additional data. -/
def feedChunks (idle : UInt32) : Block → Fin 16 → List (List UInt8) → Prog bus (Block × Fin 16)
  | buf, filled, [] => return (buf, filled)
  | buf, filled, chunk :: rest => do
    let (buf, filled) ← feedPaddedWith idle buf filled chunk
    feedChunks idle buf filled rest

/-- The part of `ccm_mac` for the additional data, behind their length in two bytes. -/
def macAad (idle : UInt32) (aad : List (List UInt8)) : Prog bus Unit := do
  let aLen := (aad.map List.length).sum
  if aLen > 0 then
    let (buf, filled) ← feedPaddedWith idle .zero 0 (be 2 (UInt16.ofNat aLen).toNat)
    let (buf, filled) ← feedChunks idle buf filled aad
    if filled > 0 then cbcMacBlockWith idle buf false

/-- The loop over the pieces of the message. -/
def macChunks (idle : UInt32) : List (List UInt8) → Prog bus Unit
  | [] => return
  | chunk :: rest => do
    cbcMacBlockWith idle (.ofList chunk) false
    macChunks idle rest

/-- Both variants of `ccm_mac`. -/
def ccmMacWith (idle : UInt32) (buildB0 : BuildB0) (nonce : Vector UInt8 13)
    (aad : List (List UInt8)) (message : List UInt8) : Prog bus Block := do
  let aLen := (aad.map List.length).sum
  cbcMacBlockWith idle (buildB0 nonce message.length aLen 8) true
  macAad idle aad
  macChunks idle (chunks 16 message)
  cbcMacResult

/-- `ccm_mac`. -/
def ccmMac := ccmMacWith control1Idle

/-- `ccm_mac_async`. -/
def ccmMacAsync := ccmMacWith control1IdleAsync

/-- The loop over the pieces of the message, the first one with index `i`. -/
def ctrChunks (idle : UInt32) (nonce : Vector UInt8 13) : Nat → List (List UInt8) →
    Prog bus (List UInt8)
  | _, [] => return []
  | i, chunk :: rest => do
    let out ← ctrBlockWith idle (buildA nonce (.ofNat (i + 1))) (.ofList chunk)
    let done ← ctrChunks idle nonce (i + 1) rest
    return out.toList.take chunk.length ++ done

/-- Both variants of `ccm_ctr_crypt`, from counter 1 on. -/
def ccmCtrCryptWith (idle : UInt32) (nonce : Vector UInt8 13) (message : List UInt8) :
    Prog bus (List UInt8) :=
  ctrChunks idle nonce 0 (chunks 16 message)

/-- `ccm_ctr_crypt`: the message buffer after it. -/
def ccmCtrCrypt := ccmCtrCryptWith control1Idle

/-- `ccm_ctr_crypt_async`. -/
def ccmCtrCryptAsync := ccmCtrCryptWith control1IdleAsync

/-- The first 8 bytes of the MAC under the key stream. -/
def maskTag (mac s0 : Block) : Vector UInt8 8 := .ofFn fun i => mac[i.val] ^^^ s0[i.val]

/-- A slice as a 13-byte nonce. -/
def toNonce (nonce : List UInt8) : Option (Vector UInt8 13) :=
  if h : nonce.length = 13 then some ⟨nonce.toArray, by simpa using h⟩ else none

/-- Both variants of `encrypt_in_place`: the message after it, and the tag. -/
def encryptWith (idle : UInt32) (buildB0 : BuildB0) (key : Block) (nonce : Vector UInt8 13)
    (message : List UInt8) (aad : List (List UInt8)) : Prog bus (List UInt8 × Vector UInt8 8) := do
  loadKey key
  let mac ← ccmMacWith idle buildB0 nonce aad message
  let s0 ← ctrBlockWith idle (buildA nonce 0) .zero
  let message ← ccmCtrCryptWith idle nonce message
  return (message, maskTag mac s0)

/-- `encrypt_in_place`: the message buffer and the tag. `none` is the panic on the length of the
nonce. -/
def encryptInPlace (buildB0 : BuildB0) (key : Block) (nonce message : List UInt8)
    (aad : List (List UInt8)) : Option (Prog bus (List UInt8 × Vector UInt8 8)) :=
  (toNonce nonce).map fun nonce => encryptWith control1Idle buildB0 key nonce message aad

/-- `encrypt_in_place_async`. -/
def encryptInPlaceAsync (buildB0 : BuildB0) (key : Block) (nonce message : List UInt8)
    (aad : List (List UInt8)) : Option (Prog bus (List UInt8 × Vector UInt8 8)) :=
  (toNonce nonce).map fun nonce => encryptWith control1IdleAsync buildB0 key nonce message aad

/-- The error of `decrypt_in_place`. -/
inductive DecryptionFailed where
  | decryptionFailed
  deriving DecidableEq

/-- Both variants of `decrypt_in_place`: the message after it, zeroed where the tag is wrong. -/
def decryptWith (idle : UInt32) (buildB0 : BuildB0) (key : Block) (nonce : Vector UInt8 13)
    (message tag : List UInt8) (aad : List (List UInt8)) :
    Prog bus (List UInt8 × Except DecryptionFailed Unit) := do
  loadKey key
  let message ← ccmCtrCryptWith idle nonce message
  let mac ← ccmMacWith idle buildB0 nonce aad message
  let s0 ← ctrBlockWith idle (buildA nonce 0) .zero
  if (maskTag mac s0).toList ≠ tag then
    return (.replicate message.length 0, .error .decryptionFailed)
  return (message, .ok ())

/-- `decrypt_in_place`: the message buffer and the result. `none` is a panic on the length of the
nonce or the tag. -/
def decryptInPlace (buildB0 : BuildB0) (key : Block) (nonce message tag : List UInt8)
    (aad : List (List UInt8)) : Option (Prog bus (List UInt8 × Except DecryptionFailed Unit)) := do
  let nonce ← toNonce nonce
  if tag.length ≠ 8 then none
  return decryptWith control1Idle buildB0 key nonce message tag aad

/-- `decrypt_in_place_async`. -/
def decryptInPlaceAsync (buildB0 : BuildB0) (key : Block) (nonce message tag : List UInt8)
    (aad : List (List UInt8)) : Option (Prog bus (List UInt8 × Except DecryptionFailed Unit)) := do
  let nonce ← toNonce nonce
  if tag.length ≠ 8 then none
  return decryptWith control1IdleAsync buildB0 key nonce message tag aad

end Mc1322x.Aes
