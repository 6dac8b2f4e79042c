import Mc1322x.Lib.Proc
import Mc1322x.Lib.Word

/-!
# Serial flash (`mc1322x-hal/src/nvm.rs`)

`Nvm` checks its arguments with the functions of `embedded_storage` (`Checks`) and calls the boot
ROM (`RomCalls`). `Rom` is the ROM with the flash: any of its calls may fail, and `Rom.Lawful` is
what it does where it succeeds.
-/

namespace Mc1322x

/-- The driver. -/
structure Nvm where
  interface : UInt32
  nvmType : UInt32

namespace Nvm

/-- `SECTOR_COUNT`. -/
def sectorCount : Nat := 32

/-- `SECTOR_SIZE`. -/
def sectorSize : Nat := 4096

/-- `CAPACITY`. -/
def capacity : Nat := sectorCount * sectorSize

/-- `NorFlashErrorKind`. -/
inductive NorFlashErrorKind where
  | notAligned
  | outOfBounds
  | other
  deriving DecidableEq

/-- `Error`. -/
inductive Error where
  | unsupportedFlash
  | bounds (kind : NorFlashErrorKind)
  | rom (err : UInt32)
  deriving DecidableEq

/-- The values that `mc1322x_sys` has for the names of the ROM's interface. -/
structure Sys where
  gNvmErrNoError : UInt32
  gNvmTypeSst : UInt32
  gNvmInternalInterface : UInt32
  gNvmExternalInterface : UInt32

/-- `NvmInterface`. -/
inductive NvmInterface where
  | internal
  | external
  deriving DecidableEq

/-- `NvmInterface::as_raw`. -/
def NvmInterface.asRaw (sys : Sys) : NvmInterface → UInt32
  | .internal => sys.gNvmInternalInterface
  | .external => sys.gNvmExternalInterface

/-- `check_read`, `check_write` and `check_erase` of `embedded_storage`, on the capacity of the
flash, the size that the arguments are multiples of, and the arguments. -/
structure Checks where
  read : Nat → Nat → UInt32 → Nat → Except NorFlashErrorKind Unit
  write : Nat → Nat → UInt32 → Nat → Except NorFlashErrorKind Unit
  erase : Nat → Nat → UInt32 → UInt32 → Except NorFlashErrorKind Unit

/-- The checks accept what is in bounds and aligned. -/
structure Checks.Lawful (c : Checks) : Prop where
  read {cap size offset len} : c.read cap size offset len = .ok () ↔
    offset.toNat + len ≤ cap ∧ size ∣ offset.toNat ∧ size ∣ len
  write {cap size offset len} : c.write cap size offset len = .ok () ↔
    offset.toNat + len ≤ cap ∧ size ∣ offset.toNat ∧ size ∣ len
  erase {cap size first last} : c.erase cap size first last = .ok () ↔
    first ≤ last ∧ last.toNat ≤ cap ∧ size ∣ first.toNat ∧ size ∣ last.toNat

/-- `new_assume_sst`, on the interface of the board. -/
def newAssumeSst (sys : Sys) (interface : NvmInterface) : Nvm where
  interface := interface.asRaw sys
  nvmType := sys.gNvmTypeSst

/-- The ROM's entry points, for a program with the operations `S`. -/
structure RomCalls (S : Sig) where
  /-- `nvm_erase`: the answer is its error. -/
  erase : Nvm → UInt32 → Proc S UInt32
  /-- `nvm_write`. -/
  write : Nvm → List UInt8 → UInt32 → Proc S UInt32
  /-- `nvm_read`: its error, and what is in the buffer after it. -/
  read : Nvm → UInt32 → Nat → Proc S (UInt32 × List UInt8)

/-- The flash of `embedded_storage`: a read gives the bytes read. -/
structure NorFlash (S : Sig) where
  erase : UInt32 → UInt32 → Proc S (Except Error Unit)
  write : UInt32 → List UInt8 → Proc S (Except Error Unit)
  read : UInt32 → Nat → Proc S (Except Error (List UInt8))

section Driver

variable (sys : Sys) (checks : Checks)

/-- `check_rom`. -/
def checkRom (err : UInt32) : Except Error Unit :=
  if err = sys.gNvmErrNoError then .ok () else .error (.rom err)

/-- The bits of the sectors, from the first one on. -/
def sectorBitfield (firstSector count : Nat) : UInt32 :=
  (List.range count).foldl (fun bits i => bits ||| ((1 : UInt32) <<< .ofNat (firstSector + i))) 0

variable {S : Sig} (rom : RomCalls S) (nvm : Nvm)

/-- `erase`: one call of the ROM, for the sectors of the range. -/
def erase (first last : UInt32) : Proc S (Except Error Unit) :=
  match checks.erase capacity sectorSize first last with
  | .error kind => return .error (.bounds kind)
  | .ok () => do
    let firstSector := first.toNat / sectorSize
    let count := (last - first).toNat / sectorSize
    let err ← rom.erase nvm (sectorBitfield firstSector count)
    return checkRom sys err

/-- `write`. -/
def write (offset : UInt32) (bytes : List UInt8) : Proc S (Except Error Unit) :=
  match checks.write capacity 1 offset bytes.length with
  | .error kind => return .error (.bounds kind)
  | .ok () => do
    let err ← rom.write nvm bytes offset
    return checkRom sys err

/-- `read`, with the bytes that it fills its buffer with. -/
def read (offset : UInt32) (len : Nat) : Proc S (Except Error (List UInt8)) :=
  match checks.read capacity 1 offset len with
  | .error kind => return .error (.bounds kind)
  | .ok () => do
    let (err, bytes) ← rom.read nvm offset len
    return (checkRom sys err).map fun _ => bytes

/-- The driver as a `NorFlash`. -/
def norFlash : NorFlash S where
  erase := erase sys checks rom nvm
  write := write sys checks rom nvm
  read := read sys checks rom nvm

section Runs

variable {sys checks rom nvm} {σ : Type} {h : Handler S σ} {s t : σ} {err : UInt32}

theorem erase_runs {first last : UInt32}
    (hc : checks.erase capacity sectorSize first last = .ok ())
    (hr : Runs h (rom.erase nvm (sectorBitfield (first.toNat / sectorSize)
      ((last - first).toNat / sectorSize))) s err t) :
    Runs h (erase sys checks rom nvm first last) s (checkRom sys err) t := by
  unfold erase
  rw [hc]
  exact hr.bind .pure

theorem write_runs {offset : UInt32} {bytes : List UInt8}
    (hc : checks.write capacity 1 offset bytes.length = .ok ())
    (hr : Runs h (rom.write nvm bytes offset) s err t) :
    Runs h (write sys checks rom nvm offset bytes) s (checkRom sys err) t := by
  unfold write
  rw [hc]
  exact hr.bind .pure

end Runs

end Driver

/-! ## The sectors -/

/-- The bitfield has the bits of the sectors that it is for. -/
theorem testBit_sectorBitfield {firstSector count j : Nat} (h : firstSector + count ≤ 32)
    (hj : j < 32) : (sectorBitfield firstSector count).toNat.testBit j =
      decide (firstSector ≤ j ∧ j < firstSector + count) := by
  induction count with
  | zero =>
    have : ¬ (firstSector ≤ j ∧ j < firstSector + 0) := by omega
    rw [decide_eq_false this]
    exact Nat.zero_testBit j
  | succ count ih =>
    have hs : sectorBitfield firstSector (count + 1) =
        sectorBitfield firstSector count ||| ((1 : UInt32) <<< .ofNat (firstSector + count)) := by
      unfold sectorBitfield
      rw [List.range_succ, List.foldl_append]
      rfl
    have hi : (UInt32.ofNat (firstSector + count)).toNat = firstSector + count := by
      rw [UInt32.toNat_ofNat', Nat.mod_eq_of_lt (by omega)]
    rw [hs, UInt32.toNat_or, Nat.testBit_or, ih (by omega),
      Word.testBit_one_shiftLeft (by omega) hj, hi, ← Bool.decide_or]
    exact decide_eq_decide.mpr (by omega)

/-- The bytes of those sectors. -/
theorem testBit_sector {firstSector count a : Nat} (h : firstSector + count ≤ 32)
    (ha : a < capacity) : (sectorBitfield firstSector count).toNat.testBit (a / sectorSize) = true ↔
      firstSector * sectorSize ≤ a ∧ a < (firstSector + count) * sectorSize := by
  unfold capacity sectorCount at ha
  unfold sectorSize at ha ⊢
  rw [testBit_sectorBitfield h (by omega), decide_eq_true_iff]
  omega

/-! ## The ROM -/

/-- The ROM's routines on a state, and the flash in it. -/
structure Rom (ρ : Type) where
  erase : Nvm → UInt32 → ρ → UInt32 × ρ
  write : Nvm → List UInt8 → UInt32 → ρ → UInt32 × ρ
  read : Nvm → UInt32 → Nat → ρ → (UInt32 × List UInt8) × ρ
  flash : ρ → Nat → UInt8

/-- A call that succeeds: an erase sets the selected sectors to `0xFF`, a write leaves the bytes
written where the flash was `0xFF`, and neither changes the rest of the flash. -/
structure Rom.Lawful {ρ : Type} (rom : Rom ρ) (sys : Sys) (nvm : Nvm) : Prop where
  erase {bits r} : (rom.erase nvm bits r).1 = sys.gNvmErrNoError → ∀ a < capacity,
    rom.flash (rom.erase nvm bits r).2 a =
      if bits.toNat.testBit (a / sectorSize) then 0xFF else rom.flash r a
  write {src address r} : (rom.write nvm src address r).1 = sys.gNvmErrNoError →
    (∀ i < src.length, rom.flash r (address.toNat + i) = 0xFF) → ∀ a < capacity,
    rom.flash (rom.write nvm src address r).2 a =
      if address.toNat ≤ a ∧ a < address.toNat + src.length then src.getD (a - address.toNat) 0
      else rom.flash r a

/-- A ROM with nothing but the flash in it, whose calls all succeed. -/
def Rom.ideal (sys : Sys) : Rom (Nat → UInt8) where
  erase _ bits r := (sys.gNvmErrNoError, fun a =>
    if bits.toNat.testBit (a / sectorSize) then 0xFF else r a)
  write _ src address r := (sys.gNvmErrNoError, fun a =>
    if address.toNat ≤ a ∧ a < address.toNat + src.length then src.getD (a - address.toNat) 0
    else r a)
  read _ address len r :=
    ((sys.gNvmErrNoError, (List.range len).map fun i => r (address.toNat + i)), r)
  flash r := r

theorem Rom.lawful_ideal (sys : Sys) (nvm : Nvm) : (Rom.ideal sys).Lawful sys nvm where
  erase := fun _ _ _ => rfl
  write := fun _ _ _ _ => rfl

/-- Checks that tell what is out of bounds from what is not aligned. -/
def Checks.slice (cap size : Nat) (offset len : Nat) : Except NorFlashErrorKind Unit :=
  if offset + len ≤ cap then
    if size ∣ offset ∧ size ∣ len then .ok () else .error .notAligned
  else .error .outOfBounds

theorem Checks.slice_eq {cap size offset len : Nat} : slice cap size offset len = .ok () ↔
    offset + len ≤ cap ∧ size ∣ offset ∧ size ∣ len := by
  unfold slice
  split
  · split <;> simp_all
  · simp_all

/-- Checks as they are documented. -/
def Checks.ideal : Checks where
  read cap size offset len := slice cap size offset.toNat len
  write cap size offset len := slice cap size offset.toNat len
  erase cap size first last :=
    if first ≤ last then slice cap size first.toNat (last.toNat - first.toNat)
    else .error .outOfBounds

theorem Checks.lawful_ideal : Checks.ideal.Lawful where
  read := slice_eq
  write := slice_eq
  erase := by
    intro cap size first last
    simp only [Checks.ideal]
    by_cases h : first ≤ last
    · have hle : first.toNat ≤ last.toNat := UInt32.le_iff_toNat_le.mp h
      rw [if_pos h, slice_eq, Nat.add_sub_cancel' hle]
      have hsum : first.toNat + (last.toNat - first.toNat) = last.toNat := Nat.add_sub_cancel' hle
      constructor
      · rintro ⟨hc, hf, hl⟩
        exact ⟨h, hc, hf, hsum ▸ Nat.dvd_add hf hl⟩
      · rintro ⟨-, hc, hf, hl⟩
        exact ⟨hc, hf, Nat.dvd_sub hl hf⟩
    · rw [if_neg h]
      constructor
      · intro h'
        cases h'
      · exact fun h' => absurd h'.1 h

end Nvm

end Mc1322x
