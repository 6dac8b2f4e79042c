import Mc1322x.Lib.Trace
import Mc1322x.Lib.Word

/-!
# The flash algorithm (`mc1322x-flash-algorithm/src/main.rs`)

The algorithm that a debug probe loads into the RAM of the chip. `Rom` has the boot ROM's routines
and the accesses to the registers as operations; nothing is assumed about their answers. The
arithmetic is that of the release profile: a `u32` sum wraps.

* `new_detects`: an algorithm is for a chip that the ROM has reported.
* `rom_calls_in_range`: the ranges of the calls to the ROM.
-/

namespace Mc1322x.FlashAlgorithm

open Proc

/-- The flash chips that `nvm_detect` reports. -/
inductive NvmType where
  | noNvm
  | sst
  | st
  | atm
  deriving DecidableEq

/-- `NvmType::from_raw`. -/
def NvmType.fromRaw (code : UInt32) : Option NvmType :=
  match code with
  | 0 => some .noNvm
  | 1 => some .sst
  | 2 => some .st
  | 3 => some .atm
  | _ => none

/-- `nvmInterface_t`. -/
inductive NvmInterface where
  | internal
  | external
  deriving DecidableEq

/-- The status codes of the ROM. -/
inductive NvmErr where
  | noError
  | invalidInterface
  | invalidNvmType
  | invalidPointer
  | writeProtect
  | verifyError
  | addressSpaceOverflow
  | blankCheckError
  | restrictedArea
  | unknown
  deriving DecidableEq

/-- `NvmErr::from_raw`. -/
def NvmErr.fromRaw (code : UInt32) : NvmErr :=
  match code with
  | 0 => .noError
  | 1 => .invalidInterface
  | 2 => .invalidNvmType
  | 3 => .invalidPointer
  | 4 => .writeProtect
  | 5 => .verifyError
  | 6 => .addressSpaceOverflow
  | 7 => .blankCheckError
  | 8 => .restrictedArea
  | _ => .unknown

/-- `CRM_BASE`. -/
def crmBase : UInt32 := 0x80003000

/-- `CRM_SYS_CNTL`. -/
def crmSysCntl : UInt32 := crmBase + 0x00

/-- `CRM_VREG_CNTL`. -/
def crmVregCntl : UInt32 := crmBase + 0x48

/-- `CRM_STATUS`. -/
def crmStatus : UInt32 := crmBase + 0x18

/-- `VREG_1P5V_RDY`. -/
def vreg1p5vRdy : UInt32 := (1 : UInt32) <<< 19

/-- `VREG_1P8V_RDY`. -/
def vreg1p8vRdy : UInt32 := (1 : UInt32) <<< 18

/-- `FLASH_SECTOR_SIZE`. -/
def flashSectorSize : UInt32 := 4096

/-- `FLASH_NUM_SECTORS`. -/
def flashNumSectors : UInt32 := 32

/-- The codes of `ErrorCode::new`. -/
def ErrorCode : Type := { code : UInt32 // code ≠ 0 }

/-- The address and the length of a `&[u8]`. -/
structure Slice where
  ptr : UInt32
  len : UInt32

/-! ## The operations -/

/-- The routines of the boot ROM, with their arguments, and the accesses to registers. -/
inductive Op where
  | romDataInit
  | nvmDetect (interface : NvmInterface)
  | nvmSetsvar (n : UInt32)
  | nvmErase (interface : NvmInterface) (type : NvmType) (sectors : UInt32)
  | nvmWrite (interface : NvmInterface) (type : NvmType) (src dest n : UInt32)
  | nvmVerify (interface : NvmInterface) (type : NvmType) (src dest n : UInt32)
  | writeVolatile (reg value : UInt32)
  | readVolatile (reg : UInt32)
  deriving DecidableEq

/-- `nvm_detect` answers its code and what the word for the type holds after it. -/
def Rom : Sig where
  Op := Op
  Ans
    | .romDataInit => Unit
    | .nvmDetect _ => UInt32 × UInt32
    | .nvmSetsvar _ => Unit
    | .nvmErase .. => UInt32
    | .nvmWrite .. => UInt32
    | .nvmVerify .. => UInt32
    | .writeVolatile .. => Unit
    | .readVolatile _ => UInt32

/-- The call `rom_data_init()`. -/
def romDataInit : Proc Rom Unit := call (S := Rom) .romDataInit

/-- The call `nvm_detect(..)`, with the type that it stores. -/
def nvmDetect (interface : NvmInterface) : Proc Rom (UInt32 × UInt32) :=
  call (S := Rom) (.nvmDetect interface)

/-- The call `nvm_setsvar(..)`. -/
def nvmSetsvar (n : UInt32) : Proc Rom Unit := call (S := Rom) (.nvmSetsvar n)

/-- The call `nvm_erase(..)`, which returns a raw error. -/
def nvmErase (interface : NvmInterface) (type : NvmType) (sectors : UInt32) : Proc Rom UInt32 :=
  call (S := Rom) (.nvmErase interface type sectors)

/-- The call `nvm_write(..)`, which returns a raw error. -/
def nvmWrite (interface : NvmInterface) (type : NvmType) (src dest n : UInt32) : Proc Rom UInt32 :=
  call (S := Rom) (.nvmWrite interface type src dest n)

/-- The call `nvm_verify(..)`, which returns a raw error. -/
def nvmVerify (interface : NvmInterface) (type : NvmType) (src dest n : UInt32) : Proc Rom UInt32 :=
  call (S := Rom) (.nvmVerify interface type src dest n)

/-- A write of a register of the chip. -/
def writeVolatile (reg value : UInt32) : Proc Rom Unit := call (S := Rom) (.writeVolatile reg value)

/-- A read of a register of the chip. -/
def readVolatile (reg : UInt32) : Proc Rom UInt32 := call (S := Rom) (.readVolatile reg)

/-! ## The algorithm -/

/-- `Algorithm`: the type of the flash, as `new` has detected it. -/
structure Algorithm where
  nvmType : NvmType

/-- A loop of `new` that reads the status until the flag is set. -/
def waitReady (flag : UInt32) : Proc Rom Unit :=
  iterate () fun _ => do
    let status ← readVolatile crmStatus
    return if status &&& flag = 0 then .inl () else .inr ()

/-- The set-up of the voltage regulators in `new`. -/
def startRegulators : Proc Rom Unit := do
  writeVolatile crmSysCntl 0x00000018
  writeVolatile crmVregCntl 0x00000f04
  let _ ← times 0x161a8 (readVolatile crmStatus)
  writeVolatile crmVregCntl 0x00000ff8
  waitReady vreg1p5vRdy
  waitReady vreg1p8vRdy

/-- `new`, from the call of `rom_data_init` on. -/
def new : Proc Rom (Except ErrorCode Algorithm) := do
  romDataInit
  startRegulators
  let (code, nvmTypeRaw) ← nvmDetect .internal
  let result := NvmErr.fromRaw code
  if result ≠ .noError then
    return .error ⟨0x7001, by decide⟩
  else
    match NvmType.fromRaw nvmTypeRaw with
    | none => return .error ⟨0x7008, by decide⟩
    | some .noNvm => return .error ⟨0x7002, by decide⟩
    | some nvmType => do
      nvmSetsvar 0
      return .ok ⟨nvmType⟩

section Methods

variable (alg : Algorithm)

/-- `erase_all`: all sectors but the last. -/
def eraseAll : Proc Rom (Except ErrorCode Unit) := do
  let code ← nvmErase .internal alg.nvmType 0x7FFFFFFF
  let result := NvmErr.fromRaw code
  return if result ≠ .noError then .error ⟨0x7003, by decide⟩ else .ok ()

/-- `erase_sector`, of the sector that `addr` is in. -/
def eraseSector (addr : UInt32) : Proc Rom (Except ErrorCode Unit) :=
  let sectorNum := addr / flashSectorSize
  if sectorNum ≥ flashNumSectors then
    return .error ⟨0x7004, by decide⟩
  else do
    let sectorBitmask := (1 : UInt32) <<< sectorNum
    let code ← nvmErase .internal alg.nvmType sectorBitmask
    let result := NvmErr.fromRaw code
    return if result ≠ .noError then .error ⟨0x7005, by decide⟩ else .ok ()

/-- `program_page`. -/
def programPage (addr : UInt32) (data : Slice) : Proc Rom (Except ErrorCode Unit) :=
  if data.len = 0 then
    return .ok ()
  else if addr ≥ 0x00020000 ∨ addr + data.len > 0x00020000 then
    return .error ⟨0x7006, by decide⟩
  else do
    let errorCount ← nvmWrite .internal alg.nvmType data.ptr addr data.len
    return if errorCount ≠ 0 then .error ⟨0x7007, by decide⟩ else .ok ()

/-- `verify`. Without data there is nothing to compare, and no blank check either. -/
def verify (address size : UInt32) (data : Option Slice) : Proc Rom (Except UInt32 Unit) :=
  match data with
  | none => return .ok ()
  | some data =>
    if size = 0 then
      return .ok ()
    else if address ≥ 0x00020000 ∨ address + size > 0x00020000 then
      return .error address
    else do
      let code ← nvmVerify .internal alg.nvmType data.ptr address size
      let result := NvmErr.fromRaw code
      return if result ≠ .noError then .error address else .ok ()

end Methods

/-! ## Detection -/

/-- An algorithm is for a type that the ROM has reported, and not for `NoNvm`. -/
theorem new_detects {calls : List Op} {alg : Algorithm}
    (h : Traces new calls (some (.ok alg))) : alg.nvmType ≠ .noNvm := by
  obtain ⟨_, _, _, -, -, h⟩ := h.bind_some
  obtain ⟨_, _, _, -, -, h⟩ := h.bind_some
  obtain ⟨⟨code, nvmTypeRaw⟩, _, _, -, -, h⟩ := h.bind_some
  dsimp only at h
  split at h
  · obtain ⟨-, h⟩ := traces_pure.mp h
    cases h
  · split at h
    · obtain ⟨-, h⟩ := traces_pure.mp h
      cases h
    · obtain ⟨-, h⟩ := traces_pure.mp h
      cases h
    · obtain ⟨_, _, _, -, -, h⟩ := h.bind_some
      obtain ⟨-, h⟩ := traces_pure.mp h
      cases h
      assumption

/-! ## The ranges -/

/-- The program makes the call `o`, once, if the range is a part of the flash and not empty, and no
other call; it raises an error for a range that is not a part of the flash. -/
def RangeChecked {ε : Type} (p : Proc Rom (Except ε Unit)) (o : Op) (address size : UInt32) :
    Prop :=
  ∀ calls result, Traces p calls result →
    calls = (if size ≠ 0 ∧ address.toNat + size.toNat ≤ 0x20000 then [o] else []) ∧
      (size ≠ 0 → ¬ address.toNat + size.toNat ≤ 0x20000 → ∃ e, result = some (.error e))

/-- The check of `programPage` and `verify` accepts a range whose exact sum is in the flash, and one
whose sum wraps to an address in it. -/
theorem check_iff (address : UInt32) {size : UInt32} (hsize : size ≠ 0) :
    ¬ (address ≥ 0x00020000 ∨ address + size > 0x00020000) ↔
      address.toNat + size.toNat ≤ 0x20000 ∨
        (address.toNat < 0x20000 ∧ 2 ^ 32 ≤ address.toNat + size.toNat) := by
  have hpos : size.toNat ≠ 0 := fun h => hsize (UInt32.toNat_inj.mp h)
  have ha := address.toNat_lt
  have hs := size.toNat_lt
  simp only [ge_iff_le, gt_iff_lt, UInt32.le_iff_toNat_le, UInt32.lt_iff_toNat_lt,
    UInt32.toNat_add, UInt32.reduceToNat]
  omega

/-- A program with the check of `programPage` and `verify` keeps to the flash exactly for the ranges
that start outside of it or whose sum does not wrap. -/
theorem rangeChecked_iff {ε : Type} (o : Op) (address size : UInt32) (e : ε)
    (f : Rom.Ans o → Except ε Unit) :
    RangeChecked (if size = 0 then return .ok ()
      else if address ≥ 0x00020000 ∨ address + size > 0x00020000 then return .error e
      else call (S := Rom) o >>= fun x => return f x) o address size ↔
      0x20000 ≤ address.toNat ∨ address.toNat + size.toNat < 2 ^ 32 := by
  by_cases hsize : size = 0
  · -- An empty range.
    have hlt := address.toNat_lt
    rw [if_pos hsize, hsize]
    refine iff_of_true (fun calls result h => ?_) (.inr hlt)
    obtain ⟨rfl, -⟩ := traces_pure.mp h
    exact ⟨(if_neg fun h => h.1 rfl).symm, fun hne => absurd rfl hne⟩
  rw [if_neg hsize]
  by_cases hcheck : address ≥ 0x00020000 ∨ address + size > 0x00020000
  · -- A range that the check rejects is not in the flash.
    have hnot := mt (check_iff _ hsize).mpr (not_not_intro hcheck)
    rw [if_pos hcheck]
    refine iff_of_true (fun calls result h => ?_) (by omega)
    obtain ⟨rfl, rfl⟩ := traces_pure.mp h
    exact ⟨(if_neg fun hin => hnot (.inl hin.2)).symm, fun _ _ => ⟨e, rfl⟩⟩
  · have hin := (check_iff _ hsize).mp hcheck
    rw [if_neg hcheck]
    constructor
    · -- The call is made, so the range must be in the flash.
      intro h
      obtain ⟨hcalls, -⟩ := h [o] none (traces_call_bind.mpr (.inl ⟨rfl, rfl⟩))
      split at hcalls
      · rename_i hflash
        omega
      · cases hcalls
    · intro hexact calls result h
      have hflash : address.toNat + size.toNat ≤ 0x20000 := by omega
      rw [if_pos ⟨hsize, hflash⟩]
      exact ⟨traces_call_pure h, fun _ hout => absurd hflash hout⟩

/-- The one call of `eraseSector` is for the bit of the address's sector, if the address is one of
the flash; otherwise it raises an error without a call. -/
def SectorChecked (alg : Algorithm) (addr : UInt32) : Prop :=
  ∀ calls result, Traces (eraseSector alg addr) calls result →
    (addr.toNat < 0x20000 → ∃ sectors : UInt32, calls = [.nvmErase .internal alg.nvmType sectors] ∧
      ∀ j < 32, sectors.toNat.testBit j = true ↔
        j * 4096 ≤ addr.toNat ∧ addr.toNat < (j + 1) * 4096) ∧
    (¬ addr.toNat < 0x20000 → calls = [] ∧ ∃ e, result = some (.error e))

theorem sectorChecked (alg : Algorithm) (addr : UInt32) : SectorChecked alg addr := by
  intro calls result h
  have hsector : (addr / flashSectorSize).toNat = addr.toNat / 4096 := UInt32.toNat_div _ _
  have hcheck : addr / flashSectorSize ≥ flashNumSectors ↔ 32 ≤ addr.toNat / 4096 := by
    rw [ge_iff_le, UInt32.le_iff_toNat_le, hsector]
    rfl
  unfold eraseSector at h
  dsimp only at h
  by_cases hge : addr / flashSectorSize ≥ flashNumSectors
  · rw [if_pos hge] at h
    obtain ⟨rfl, rfl⟩ := traces_pure.mp h
    rw [hcheck] at hge
    exact ⟨by omega, fun _ => ⟨rfl, _, rfl⟩⟩
  · rw [if_neg hge] at h
    rw [hcheck] at hge
    refine ⟨fun _ => ⟨(1 : UInt32) <<< (addr / flashSectorSize), ?_, fun j hj => ?_⟩, by omega⟩
    · exact traces_call_pure h
    · rw [Word.testBit_one_shiftLeft (by omega) hj, hsector, decide_eq_true_iff]
      omega

theorem programPage_iff (alg : Algorithm) (addr : UInt32) (data : Slice) :
    RangeChecked (programPage alg addr data) (.nvmWrite .internal alg.nvmType data.ptr addr data.len)
      addr data.len ↔ 0x20000 ≤ addr.toNat ∨ addr.toNat + data.len.toNat < 2 ^ 32 :=
  rangeChecked_iff (.nvmWrite .internal alg.nvmType data.ptr addr data.len) addr data.len
    (⟨0x7006, by decide⟩ : ErrorCode)
    fun x : UInt32 => if x ≠ 0 then .error ⟨0x7007, by decide⟩ else .ok ()

theorem verify_iff (alg : Algorithm) (address size : UInt32) (data : Slice) :
    RangeChecked (verify alg address size (some data))
      (.nvmVerify .internal alg.nvmType data.ptr address size) address size ↔
        0x20000 ≤ address.toNat ∨ address.toNat + size.toNat < 2 ^ 32 :=
  rangeChecked_iff (.nvmVerify .internal alg.nvmType data.ptr address size) address size address
    fun x : UInt32 => if NvmErr.fromRaw x ≠ .noError then .error address else .ok ()

/-- A slice has at most `isize::MAX` bytes, so the sum of `programPage` does not wrap where its first
check passes. -/
theorem programPage_rangeChecked (alg : Algorithm) (addr : UInt32) (data : Slice)
    (h : data.len.toNat < 2 ^ 31) :
    RangeChecked (programPage alg addr data) (.nvmWrite .internal alg.nvmType data.ptr addr data.len)
      addr data.len :=
  (programPage_iff alg addr data).mpr (by omega)

/-- **The calls stay in the flash, but for sums that wrap.** For every address and size,
`program_page` and `verify` with data call the ROM for exactly the ranges that are a part of the
flash, and `erase_sector` for the sector of an address in it, if and only if the address is
outside of the flash or the sum of the address and the size does not wrap. It is `verify` that can
be called with such a sum (`programPage_rangeChecked`). Without data, it has nothing to compare. -/
theorem rom_calls_in_range (alg : Algorithm) (address size ptr : UInt32) (data : Slice) :
    ((RangeChecked (programPage alg address ⟨ptr, size⟩)
          (.nvmWrite .internal alg.nvmType ptr address size) address size ∧
        RangeChecked (verify alg address size (some data))
          (.nvmVerify .internal alg.nvmType data.ptr address size) address size ∧
        SectorChecked alg address) ↔
      0x20000 ≤ address.toNat ∨ address.toNat + size.toNat < 2 ^ 32) ∧
    ∀ calls result, Traces (verify alg address size none) calls result →
      calls = [] ∧ result = some (.ok ()) := by
  have hprogram := programPage_iff alg address ⟨ptr, size⟩
  have hverify := verify_iff alg address size data
  refine ⟨⟨fun h => hverify.mp h.2.1, fun h => ⟨hprogram.mpr h, hverify.mpr h,
    sectorChecked alg address⟩⟩, fun calls result h => traces_pure.mp h⟩

/-- `verify` of `0xFFFFFF00` bytes at `0x100`, with a slice of one page: the sum wraps to 0, and the
ROM is called with the range. -/
theorem verify_wraps :
    Traces (verify ⟨.sst⟩ 0x100 0xFFFFFF00 (some ⟨0x400000, 0x100⟩))
      [.nvmVerify .internal .sst 0x400000 0x100 0xFFFFFF00] (some (.ok ())) ∧
    ¬ (0x100 : UInt32).toNat + (0xFFFFFF00 : UInt32).toNat ≤ 0x20000 :=
  ⟨traces_call_bind.mpr (.inr ⟨(0 : UInt32), [], rfl, .ret _⟩), by decide⟩

end Mc1322x.FlashAlgorithm
