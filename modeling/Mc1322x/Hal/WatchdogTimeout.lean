import Mc1322x.Hal.WatchdogPeriod
import Mathlib.Algebra.Order.Field.Rat

/-!
# `Timeout::from_millis` (`mc1322x-hal/src/watchdog.rs`)

`Timeout::from_millis` rounds up to a period of the COP, `Timeout::as_millis` rounds a period down.
`Timeout.period` is the exact period, in milliseconds at 24 MHz.

* `fromMillis_eq_some_iff`, `fromMillis_eq_none_iff`: `from_millis` as a ceiling, in cycles of
  `REF_OSC`.
* `fromMillis_exact`: at 24 MHz, with the exact periods; `as_millis` is undone by it.
-/

namespace Mc1322x.Watchdog

open Checked

/-- `Timeout::from_millis_saturating`; `Fin.last 127` is `MAX`. -/
def Timeout.fromMillisSaturating (refOsc ms : UInt32) : Except Panic Timeout := do
  match ← Timeout.fromMillisChecked refOsc ms with
  | some timeout => return timeout
  | none => return Fin.last 127

/-- `REF_OSC`. -/
def refOsc24MHz : UInt32 := 24000000

/-- The exact period in milliseconds. -/
def Timeout.period (t : Timeout) : Rat := t.cycles / 24000

/-! ## The ceiling -/

theorem IsLeast.unique {n : Nat} {s t : Timeout} (hs : IsLeast n s) (ht : IsLeast n t) : s = t :=
  Fin.le_antisymm (hs.2 t ht.1) (ht.2 s hs.1)

theorem IsLeast.mono {m n : Nat} {s t : Timeout} (hmn : m ≤ n) (hs : IsLeast m s)
    (ht : IsLeast n t) : s ≤ t :=
  hs.2 t (Nat.le_trans hmn ht.1)

section

variable {refOsc : UInt32}

theorem fromMillis_eq_some_iff (hr : 0 < refOsc.toNat / 1000) {ms : UInt32} {t : Timeout} :
    Timeout.fromMillis refOsc ms = some t ↔ IsLeast (ms.toNat * (refOsc.toNat / 1000)) t := by
  have hspec := fromMillis_spec hr ms
  constructor
  · intro h
    rw [h] at hspec
    exact hspec
  · intro ht
    cases hf : Timeout.fromMillis refOsc ms with
    | some s =>
      rw [hf] at hspec
      rw [hspec.unique ht]
    | none =>
      rw [hf] at hspec
      have hle := Nat.le_trans ht.1 (cycles_le t)
      omega

theorem fromMillis_eq_none_iff (hr : 0 < refOsc.toNat / 1000) {ms : UInt32} :
    Timeout.fromMillis refOsc ms = none ↔ 2 ^ 28 < ms.toNat * (refOsc.toNat / 1000) := by
  have hspec := fromMillis_spec hr ms
  cases hf : Timeout.fromMillis refOsc ms with
  | none =>
    rw [hf] at hspec
    exact iff_of_true rfl hspec
  | some t =>
    rw [hf] at hspec
    have hle := Nat.le_trans hspec.1 (cycles_le t)
    exact iff_of_false (Option.some_ne_none t) (Nat.not_lt.mpr hle)

theorem fromMillis_mono (hr : 0 < refOsc.toNat / 1000) {ms ms' : UInt32} {t' : Timeout}
    (hle : ms ≤ ms') (h : Timeout.fromMillis refOsc ms' = some t') :
    ∃ t, Timeout.fromMillis refOsc ms = some t ∧ t ≤ t' := by
  have hmul : ms.toNat * (refOsc.toNat / 1000) ≤ ms'.toNat * (refOsc.toNat / 1000) :=
    Nat.mul_le_mul_right _ (UInt32.le_iff_toNat_le.mp hle)
  have ht' := (fromMillis_eq_some_iff hr).mp h
  cases hf : Timeout.fromMillis refOsc ms with
  | none =>
    have hlong := (fromMillis_eq_none_iff hr).mp hf
    have hbound := Nat.le_trans ht'.1 (cycles_le t')
    omega
  | some t => exact ⟨t, rfl, ((fromMillis_eq_some_iff hr).mp hf).mono hmul ht'⟩

theorem asMillis_toNat (refOsc : UInt32) (t : Timeout) :
    (Timeout.asMillis refOsc t).toNat = t.cycles / (refOsc.toNat / 1000) := by
  have ht := t.isLt
  have hcycles : (((.ofNat t + 1 : UInt32)) <<< stepShift).toNat = t.cycles := by
    unfold Timeout.cycles
    rw [UInt32.toNat_shiftLeft, UInt32.toNat_add, UInt32.toNat_ofNat', Nat.shiftLeft_eq]
    show (t.val % 2 ^ 32 + 1) % 2 ^ 32 * 2 ^ 21 % 2 ^ 32 = (t.val + 1) * 2 ^ 21
    omega
  unfold Timeout.asMillis
  rw [UInt32.toNat_div, hcycles, refCyclesPerMs_toNat]

/-- A millisecond is no longer than a step, so that the whole milliseconds of a period are more than
the period before it. -/
theorem isLeast_asMillis (hr : 0 < refOsc.toNat / 1000) (hstep : refOsc.toNat / 1000 ≤ 2 ^ 21)
    (t : Timeout) :
    IsLeast ((Timeout.asMillis refOsc t).toNat * (refOsc.toNat / 1000)) t := by
  rw [asMillis_toNat]
  refine ⟨Nat.div_mul_le_self _ _, fun s hs => ?_⟩
  have hlt := Nat.lt_div_mul_add hr (a := t.cycles)
  unfold Timeout.cycles at hs hlt
  rw [Fin.le_def]
  omega

end

/-! ## At 24 MHz -/

theorem le_period {n : Nat} {t : Timeout} : (n : Rat) ≤ t.period ↔ n * 24000 ≤ t.cycles := by
  unfold Timeout.period
  rw [le_div_iff₀ (by decide)]
  exact_mod_cast Iff.rfl

theorem fromMillisSaturating_eq (refOsc ms : UInt32) :
    Timeout.fromMillisSaturating refOsc ms =
      .ok ((Timeout.fromMillis refOsc ms).getD (Fin.last 127)) := by
  unfold Timeout.fromMillisSaturating
  rw [fromMillisChecked_eq]
  cases Timeout.fromMillis refOsc ms <;> rfl

/-- A function that gives the least period of at least so many milliseconds, or `none` where they
are more than the longest one. -/
structure IsCeiling (f : UInt32 → Except Panic (Option Timeout)) : Prop where
  total : ∀ ms, ∃ r, f ms = .ok r
  least : ∀ ms t, f ms = .ok (some t) ↔
    (ms.toNat : Rat) ≤ t.period ∧ ∀ s : Timeout, (ms.toNat : Rat) ≤ s.period → t ≤ s
  tooLong : ∀ ms, f ms = .ok none ↔ Timeout.period (Fin.last 127) < ms.toNat
  mono : ∀ ms ms' t', ms ≤ ms' → f ms' = .ok (some t') → ∃ t, f ms = .ok (some t) ∧ t ≤ t'

theorem fromMillis_isCeiling : IsCeiling (Timeout.fromMillisChecked refOsc24MHz) := by
  have hr : 0 < refOsc24MHz.toNat / 1000 := by decide
  have hcycles : refOsc24MHz.toNat / 1000 = 24000 := rfl
  have hsome : ∀ ms t, Timeout.fromMillisChecked refOsc24MHz ms = .ok (some t) ↔
      Timeout.fromMillis refOsc24MHz ms = some t := by
    intro ms t
    rw [fromMillisChecked_eq, Except.ok.injEq]
  refine ⟨fun ms => ⟨_, fromMillisChecked_eq ms⟩, fun ms t => ?_, fun ms => ?_, ?_⟩
  · rw [hsome, fromMillis_eq_some_iff hr, hcycles]
    simp only [IsLeast, le_period]
  · have hlast : Timeout.cycles (Fin.last 127) = 2 ^ 28 := rfl
    rw [fromMillisChecked_eq, Except.ok.injEq, fromMillis_eq_none_iff hr, hcycles, ← hlast]
    exact (lt_iff_lt_of_le_iff_le le_period).symm
  · intro ms ms' t' hle h
    obtain ⟨t, ht, htt'⟩ := fromMillis_mono hr hle ((hsome ms' t').mp h)
    exact ⟨t, (hsome ms t).mpr ht, htt'⟩

/-- **`Timeout::from_millis`** is the exact ceiling and undoes `as_millis`. `from_millis_saturating`
is the same, with the longest period for what is too long. -/
theorem fromMillis_exact :
    IsCeiling (Timeout.fromMillisChecked refOsc24MHz) ∧
    (∀ t, Timeout.fromMillisChecked refOsc24MHz (Timeout.asMillis refOsc24MHz t) =
      .ok (some t)) ∧
    ∀ ms, (∀ t, Timeout.fromMillisChecked refOsc24MHz ms = .ok (some t) →
        Timeout.fromMillisSaturating refOsc24MHz ms = .ok t) ∧
      (Timeout.fromMillisChecked refOsc24MHz ms = .ok none →
        Timeout.fromMillisSaturating refOsc24MHz ms = .ok (Fin.last 127)) := by
  refine ⟨fromMillis_isCeiling, fun t => ?_, fun ms => ⟨fun t h => ?_, fun h => ?_⟩⟩
  · rw [fromMillisChecked_eq]
    exact congrArg _ ((fromMillis_eq_some_iff (by decide)).mpr (isLeast_asMillis (by decide)
      (by decide) t))
  · rw [fromMillisChecked_eq] at h
    rw [fromMillisSaturating_eq, Except.ok.inj h, Option.getD_some]
  · rw [fromMillisChecked_eq] at h
    rw [fromMillisSaturating_eq, Except.ok.inj h, Option.getD_none]

/-- 11184 ms are not too long, and the longest period is the least one for them. -/
theorem saturating_last : ¬ ∀ ms,
    Timeout.fromMillisSaturating refOsc24MHz ms = .ok (Fin.last 127) ↔
      Timeout.fromMillisChecked refOsc24MHz ms = .ok none := by
  intro h
  have hmax : Timeout.fromMillisSaturating refOsc24MHz 11184 = .ok (Fin.last 127) := rfl
  have hsome : Timeout.fromMillisChecked refOsc24MHz 11184 = .ok (some (Fin.last 127)) := rfl
  cases hsome.symm.trans ((h 11184).mp hmax)

end Mc1322x.Watchdog
