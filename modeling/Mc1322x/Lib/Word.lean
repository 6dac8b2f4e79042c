import Mathlib.Data.UInt
import Mathlib.Data.Nat.Find

/-!
# Fixed-width arithmetic

Saturating operations, checked conversions and free-running counters on the fixed-width integers,
each with its value as a natural number.

* A **free-running counter** of `n` bits shows the true count modulo `2 ^ n`. The wrapping
  difference of two of its readings is the true difference as long as that is below `2 ^ n`
  (`sub_ofNat16`).
* A **mask** of one bit (`testBit_one_shiftLeft`).
* **Saturation** (`saturatingSub`, `saturatingMul`, `toNat_toU32_getD`): the exact value, clamped.
-/

namespace Word

/-! ## Saturating operations -/

/-- Subtraction that stops at zero. -/
def saturatingSub (a b : UInt64) : UInt64 := if b ≤ a then a - b else 0

/-- Multiplication that stops at the largest value. -/
def saturatingMul (a b : UInt64) : UInt64 :=
  if a.toNat * b.toNat < 2 ^ 64 then a * b else .ofNat (2 ^ 64 - 1)

/-- The value as 32 bits, if it fits. -/
def toU32? (a : UInt64) : Option UInt32 :=
  if a.toNat < 2 ^ 32 then some a.toUInt32 else none

/-- Addition that fails on overflow. -/
def checkedAdd (a b : UInt64) : Option UInt64 :=
  if a.toNat + b.toNat < 2 ^ 64 then some (a + b) else none

@[simp] theorem toNat_saturatingSub (a b : UInt64) :
    (saturatingSub a b).toNat = a.toNat - b.toNat := by
  unfold saturatingSub
  split
  · rename_i h
    exact UInt64.toNat_sub_of_le _ _ h
  · rename_i h
    have hlt : a.toNat < b.toNat := by simpa [UInt64.le_iff_toNat_le] using h
    simp [Nat.sub_eq_zero_of_le (Nat.le_of_lt hlt)]

@[simp] theorem toNat_saturatingMul (a b : UInt64) :
    (saturatingMul a b).toNat = min (a.toNat * b.toNat) (2 ^ 64 - 1) := by
  unfold saturatingMul
  split
  · rename_i h
    rw [UInt64.toNat_mul, Nat.mod_eq_of_lt h]
    omega
  · rename_i h
    simp only [UInt64.toNat_ofNat']
    omega

/-- `toU32?` with the largest value where it does not fit. -/
theorem toNat_toU32_getD (a : UInt64) :
    ((toU32? a).getD (.ofNat (2 ^ 32 - 1))).toNat = min a.toNat (2 ^ 32 - 1) := by
  unfold toU32?
  split
  · rename_i h
    simp only [Option.getD_some, UInt64.toNat_toUInt32, Nat.mod_eq_of_lt h]
    omega
  · rename_i h
    simp only [Option.getD_none, UInt32.toNat_ofNat']
    omega

theorem checkedAdd_eq_some {a b c : UInt64} :
    checkedAdd a b = some c ↔ c.toNat = a.toNat + b.toNat := by
  unfold checkedAdd
  constructor
  · intro h
    split at h
    · rename_i hlt
      cases h
      rw [UInt64.toNat_add, Nat.mod_eq_of_lt hlt]
    · cases h
  · intro h
    have hc := c.toNat_lt
    rw [if_pos (by omega)]
    congr 1
    apply UInt64.toNat_inj.mp
    rw [UInt64.toNat_add, Nat.mod_eq_of_lt (by omega), h]

theorem toNat_max32 (a b : UInt32) : (max a b).toNat = max a.toNat b.toNat := by
  show (if a ≤ b then b else a).toNat = _
  rw [Nat.max_def]
  by_cases h : a ≤ b
  · rw [if_pos h, if_pos (UInt32.le_iff_toNat_le.mp h)]
  · rw [if_neg h, if_neg (mt UInt32.le_iff_toNat_le.mpr h)]

theorem toNat_max64 (a b : UInt64) : (max a b).toNat = max a.toNat b.toNat := by
  show (if a ≤ b then b else a).toNat = _
  rw [Nat.max_def]
  by_cases h : a ≤ b
  · rw [if_pos h, if_pos (UInt64.le_iff_toNat_le.mp h)]
  · rw [if_neg h, if_neg (mt UInt64.le_iff_toNat_le.mpr h)]

/-! ## Masks of one bit -/

theorem testBit_one_shiftLeft {i : UInt32} {j : Nat} (hi : i.toNat < 32) (hj : j < 32) :
    ((1 : UInt32) <<< i).toNat.testBit j = decide (i.toNat = j) := by
  rw [UInt32.toNat_shiftLeft, Nat.mod_eq_of_lt hi, Nat.testBit_mod_two_pow]
  simp [hj, Nat.shiftLeft_eq, Nat.testBit_two_pow]

/-! ## Free-running counters -/

/-- The wrapping difference of two readings of a 16-bit counter. -/
theorem sub_ofNat16_mod {b c : Nat} (hb : b ≤ c) :
    (UInt16.ofNat c - UInt16.ofNat b).toNat = (c - b) % 65536 := by
  simp only [UInt16.toNat_sub, UInt16.toNat_ofNat']
  omega

/-- Less than one wrap apart, it is the true difference. -/
theorem sub_ofNat16 {b c : Nat} (hb : b ≤ c) (hc : c < b + 65536) :
    (UInt16.ofNat c - UInt16.ofNat b).toNat = c - b := by
  rw [sub_ofNat16_mod hb, Nat.mod_eq_of_lt (by omega)]

/-- The wrapping difference of two readings of a 32-bit counter. -/
theorem sub_ofNat32 {b c : Nat} (hb : b ≤ c) :
    (UInt32.ofNat c - UInt32.ofNat b).toNat = (c - b) % 2 ^ 32 := by
  simp only [UInt32.toNat_sub, UInt32.toNat_ofNat']
  omega

theorem ofNat16_add (a b : Nat) : UInt16.ofNat a + UInt16.ofNat b = UInt16.ofNat (a + b) := by
  apply UInt16.toNat_inj.mp
  simp

theorem ofNat64_add (a b : Nat) : UInt64.ofNat a + UInt64.ofNat b = UInt64.ofNat (a + b) := by
  apply UInt64.toNat_inj.mp
  simp

/-- A counter that moves by less than `p` between two readings falls behind `p` counts a reading. -/
theorem pos_add_le {p : Nat} {pos : Nat → Nat} (hslow : ∀ n, pos (n + 1) < pos n + p) (n : Nat) :
    pos n + n ≤ pos 0 + n * p := by
  induction n with
  | zero => omega
  | succ n ih =>
    have hn := hslow n
    rw [Nat.add_mul]
    omega

/-- A boundary that moves by `p` counts at a time catches up with a counter that moves by less than
that between two readings: at the first reading that is within `p` counts of it, it has not passed
the counter. -/
theorem exists_caught {p b : Nat} {pos : Nat → Nat} (hmono : ∀ n, pos n ≤ pos (n + 1))
    (hslow : ∀ n, pos (n + 1) < pos n + p) (hb : b ≤ pos 0) :
    ∃ k, (∀ n < k, b + n * p + p ≤ pos n) ∧ b + k * p ≤ pos k ∧ pos k < b + k * p + p := by
  have hex : ∃ k, pos k < b + k * p + p := by
    refine ⟨pos 0 + 1, ?_⟩
    have hk := pos_add_le hslow (pos 0 + 1)
    omega
  have hleft : ∀ n < Nat.find hex, b + n * p + p ≤ pos n :=
    fun n hn => Nat.le_of_not_lt (Nat.find_min hex hn)
  refine ⟨Nat.find hex, hleft, ?_, Nat.find_spec hex⟩
  cases hk : Nat.find hex with
  | zero => omega
  | succ n =>
    have hn := hleft n (by omega)
    have hle := hmono n
    rw [Nat.add_mul]
    omega

end Word
