import Mc1322x.Hal.Watchdog
import Mc1322x.Lib.Checked
import Mc1322x.Lib.Word

/-!
# The period of the COP (`HardwareWatchdog::start` of `mc1322x-hal/src/watchdog.rs`)

`Cop.startFor` is the start for a `core::time::Duration`, with its arithmetic checked, and with the
COP that a panic leaves. A period is a number of steps of `2 ^ 21` cycles of `REF_OSC`; `refOsc` is
that frequency, a whole number of kilohertz.

* `fromMillis_spec`: `Timeout::from_millis` is the least period of at least so many milliseconds,
  and nothing in it overflows (`fromMillisChecked_eq`).
* `cop_never_short_iff`: a duration is rounded down to whole milliseconds before that, so that one
  which ends less than a millisecond after a step gets a period that is too short.
-/

namespace Mc1322x.Watchdog

open Checked

/-- `core::time::Duration`. -/
structure Duration where
  secs : UInt64
  nanos : UInt32
  nanos_lt : nanos.toNat < 1000000000

namespace Duration

/-- `subsec_millis`. -/
def subsecMillis (d : Duration) : UInt32 := d.nanos / 1000000

/-- `as_nanos`. -/
def asNanos (d : Duration) : Nat := d.secs.toNat * 1000000000 + d.nanos.toNat

/-- The whole milliseconds. -/
def asMillis (d : Duration) : Nat := d.secs.toNat * 1000 + d.nanos.toNat / 1000000

/-- The milliseconds that `HardwareWatchdog::start` asks for. -/
def millis (d : Duration) : UInt32 :=
  ((Word.toU32? d.secs).bind fun secs =>
    (Checked.mul secs 1000).toOption.bind fun ms =>
      (Checked.add ms d.subsecMillis).toOption).getD (.ofNat (2 ^ 32 - 1))

/-- So many cycles of `REF_OSC` are no shorter than the duration. -/
def Within (refOsc : UInt32) (d : Duration) (cycles : Nat) : Prop :=
  d.asNanos * refOsc.toNat ≤ cycles * 1000000000

instance (refOsc : UInt32) (d : Duration) (cycles : Nat) : Decidable (d.Within refOsc cycles) :=
  inferInstanceAs (Decidable (_ ≤ _))

end Duration

/-- The period in cycles of `REF_OSC`. -/
def Timeout.cycles (t : Timeout) : Nat := (t + 1) * 2 ^ 21

/-- The end of `Timeout::from_millis`. -/
def Timeout.ofSteps (steps : UInt32) : Except Panic (Option Timeout) := do
  if steps > fieldMask + 1 then return none
  let raw ← Checked.sub steps 1
  return some (Fin.ofNat 128 raw.toNat)

/-- `Timeout::from_millis`, with its arithmetic checked. -/
def Timeout.fromMillisChecked (refOsc ms : UInt32) : Except Panic (Option Timeout) := do
  let bound ← Checked.mul 2 (Timeout.asMillis refOsc (Fin.last 127))
  if ms > bound then return none
  let cycles ← Checked.mul ms (refCyclesPerMs refOsc)
  -- `div_ceil`.
  let steps := cycles / ((1 : UInt32) <<< stepShift) +
    if cycles % ((1 : UInt32) <<< stepShift) = 0 then 0 else 1
  Timeout.ofSteps (if steps = 0 then 1 else steps)

/-- The error of `Watchdog::start` and `Watchdog::stop`. -/
structure Locked where

/-- `Watchdog::stop`, with the COP after it also where it fails. -/
def Cop.tryStop (c : Cop) : Except Locked Unit × Cop :=
  if c.cntl &&& copWp ≠ 0 then (.error {}, c)
  else if c.cntl &&& copEn ≠ 0 then
    (.ok (), { c with cntl := c.cntl &&& (fieldMask <<< timeoutShift) })
  else (.ok (), c)

/-- `Watchdog::start`. -/
def Cop.tryStart (c : Cop) (timeout : Timeout) : Except Locked Unit × Cop :=
  match c.tryStop with
  | (.error e, c) => (.error e, c)
  | (.ok (), c) =>
    let timeout : UInt32 := .ofNat timeout <<< timeoutShift
    let c := { c with cntl := timeout }.service
    (.ok (), { c with cntl := timeout ||| copEn }.service)

/-- The panics of `HardwareWatchdog::start`. -/
inductive StartPanic where
  /-- "watchdog timeout longer than Timeout::MAX" -/
  | tooLong
  /-- "COP watchdog is locked" -/
  | locked
  | arithmetic (e : Panic)

/-- `HardwareWatchdog::start`: its panic, if any, and the COP after it. -/
def Cop.startFor (refOsc : UInt32) (c : Cop) (timeout : Duration) : Except StartPanic Unit × Cop :=
  match Timeout.fromMillisChecked refOsc timeout.millis with
  | .error e => (.error (.arithmetic e), c)
  | .ok none => (.error .tooLong, c)
  | .ok (some timeout) => match c.tryStart timeout with
    | (.error _, c) => (.error .locked, c)
    | (.ok (), c) => (.ok (), c)

/-! ## The COP register -/

theorem tryStart_eq (c : Cop) (timeout : Timeout) :
    c.start timeout = (c.tryStart timeout).1.toOption.map fun _ => (c.tryStart timeout).2 := by
  unfold Cop.start Cop.stop Cop.tryStart Cop.tryStop
  by_cases hwp : c.cntl &&& copWp ≠ 0
  · simp only [if_pos hwp]
    rfl
  · by_cases hen : c.cntl &&& copEn ≠ 0
    · simp only [if_neg hwp, if_pos hen]
      rfl
    · simp only [if_neg hwp, if_neg hen]
      rfl

theorem tryStart_locked {c : Cop} (h : c.cntl &&& copWp ≠ 0) (timeout : Timeout) :
    c.tryStart timeout = (.error {}, c) := by
  unfold Cop.tryStart Cop.tryStop
  rw [if_pos h]

theorem tryStart_unlocked {c : Cop} (h : c.cntl &&& copWp = 0) (timeout : Timeout) :
    (c.tryStart timeout).1 = .ok () ∧
      (c.tryStart timeout).2.cntl = (.ofNat timeout <<< timeoutShift) ||| copEn := by
  unfold Cop.tryStart Cop.tryStop
  rw [if_neg (not_not_intro h)]
  by_cases hen : c.cntl &&& copEn ≠ 0
  · rw [if_pos hen]
    exact ⟨rfl, rfl⟩
  · rw [if_neg hen]
    exact ⟨rfl, rfl⟩

/-- `COP_TIMEOUT` can be read back. -/
theorem cntl_inj {s t : Timeout}
    (h : (.ofNat s <<< timeoutShift) ||| copEn = (.ofNat t <<< timeoutShift) ||| copEn) :
    s = t := by
  have hread : ∀ t : Timeout,
      (((.ofNat t <<< timeoutShift) ||| copEn) >>> timeoutShift).toNat = t.val := by decide
  apply Fin.ext
  rw [← hread s, h, hread t]

/-! ## The least period -/

/-- The least period that has `n` cycles. -/
def IsLeast (n : Nat) (t : Timeout) : Prop := n ≤ t.cycles ∧ ∀ s : Timeout, n ≤ s.cycles → t ≤ s

theorem cycles_le (t : Timeout) : t.cycles ≤ 2 ^ 28 := by
  have ht := t.isLt
  unfold Timeout.cycles
  omega

/-- The number of steps that hold `n` cycles, one at least. -/
def stepsFor (n : Nat) : Nat := max 1 (n / 2 ^ 21 + if n % 2 ^ 21 = 0 then 0 else 1)

theorem stepsFor_le {n k : Nat} (hk : 0 < k) : stepsFor n ≤ k ↔ n ≤ k * 2 ^ 21 := by
  unfold stepsFor
  split <;> omega

theorem stepsFor_pos (n : Nat) : 0 < stepsFor n := by
  unfold stepsFor
  omega

theorem isLeast_stepsFor {n : Nat} (h : stepsFor n ≤ 128) :
    IsLeast n ⟨stepsFor n - 1, by have := stepsFor_pos n; omega⟩ := by
  have hpos := stepsFor_pos n
  constructor
  · have hle := (stepsFor_le hpos).mp (Nat.le_refl _)
    simp only [Timeout.cycles]
    rwa [Nat.sub_add_cancel hpos]
  · intro s hs
    have hle := (stepsFor_le (Nat.succ_pos s.val)).mpr hs
    rw [Fin.le_def]
    simp only
    omega

section

variable {refOsc : UInt32}

theorem asMillis_last (refOsc : UInt32) :
    (Timeout.asMillis refOsc (Fin.last 127)).toNat = 2 ^ 28 / (refOsc.toNat / 1000) := rfl

theorem refCyclesPerMs_toNat (refOsc : UInt32) :
    (refCyclesPerMs refOsc).toNat = refOsc.toNat / 1000 := rfl

theorem stepsWord_toNat (cycles : UInt32) :
    let steps := cycles / ((1 : UInt32) <<< stepShift) +
      if cycles % ((1 : UInt32) <<< stepShift) = 0 then 0 else 1
    (if steps = 0 then 1 else steps).toNat = stepsFor cycles.toNat := by
  have hdiv : (cycles / ((1 : UInt32) <<< stepShift)).toNat = cycles.toNat / 2 ^ 21 := rfl
  have hmod : (cycles % ((1 : UInt32) <<< stepShift)).toNat = cycles.toNat % 2 ^ 21 := rfl
  have hlt := cycles.toNat_lt
  have hmod' : cycles % ((1 : UInt32) <<< stepShift) = 0 ↔ cycles.toNat % 2 ^ 21 = 0 := by
    rw [← hmod, ← UInt32.toNat_inj]
    rfl
  -- The quotient has 11 bits, so rounding it up does not overflow.
  have hsteps : (cycles / ((1 : UInt32) <<< stepShift) +
      if cycles % ((1 : UInt32) <<< stepShift) = 0 then 0 else 1).toNat =
      cycles.toNat / 2 ^ 21 + if cycles.toNat % 2 ^ 21 = 0 then 0 else 1 := by
    rw [UInt32.toNat_add, hdiv]
    by_cases h0 : cycles.toNat % 2 ^ 21 = 0
    · rw [if_pos (hmod'.mpr h0), if_pos h0]
      simp only [UInt32.toNat_zero]
      omega
    · rw [if_neg fun h => h0 (hmod'.mp h), if_neg h0]
      simp only [UInt32.toNat_one]
      omega
  intro steps
  unfold stepsFor
  rw [← hsteps]
  by_cases h0 : steps = 0
  · rw [if_pos h0]
    have : steps.toNat = 0 := by rw [h0]; rfl
    show 1 = max 1 steps.toNat
    omega
  · rw [if_neg h0]
    have : steps.toNat ≠ 0 := fun h => h0 (UInt32.toNat_inj.mp h)
    show steps.toNat = max 1 steps.toNat
    omega

/-- The early bound keeps the product small. -/
theorem mul_refCyclesPerMs {ms : UInt32} (h : ms.toNat ≤ 2 * (2 ^ 28 / (refOsc.toNat / 1000))) :
    ms.toNat * (refOsc.toNat / 1000) ≤ 2 ^ 29 := by
  have hdiv := Nat.div_mul_le_self (2 ^ 28) (refOsc.toNat / 1000)
  have hmul := Nat.mul_le_mul_right (refOsc.toNat / 1000) h
  rw [Nat.mul_assoc] at hmul
  omega

theorem bound_toNat (refOsc : UInt32) :
    (2 * Timeout.asMillis refOsc (Fin.last 127)).toNat = 2 * (2 ^ 28 / (refOsc.toNat / 1000)) := by
  have hle := Nat.div_le_self (2 ^ 28) (refOsc.toNat / 1000)
  rw [UInt32.toNat_mul, asMillis_last]
  show 2 * (2 ^ 28 / (refOsc.toNat / 1000)) % 2 ^ 32 = _
  omega

/-- Past the early bound. -/
theorem lt_of_bound {ms : UInt32} (hr : 0 < refOsc.toNat / 1000)
    (h : 2 * (2 ^ 28 / (refOsc.toNat / 1000)) < ms.toNat) :
    2 ^ 28 < ms.toNat * (refOsc.toNat / 1000) := by
  apply Nat.lt_mul_of_div_lt _ hr
  omega

/-- `Timeout::from_millis`: the least period with the cycles of `ms` milliseconds; none is too
long. -/
theorem fromMillis_spec (hr : 0 < refOsc.toNat / 1000) (ms : UInt32) :
    match Timeout.fromMillis refOsc ms with
    | some t => IsLeast (ms.toNat * (refOsc.toNat / 1000)) t
    | none => 2 ^ 28 < ms.toNat * (refOsc.toNat / 1000) := by
  unfold Timeout.fromMillis
  by_cases hb : ms > 2 * Timeout.asMillis refOsc (Fin.last 127)
  · rw [if_pos hb]
    apply lt_of_bound hr
    rw [← bound_toNat]
    exact UInt32.lt_iff_toNat_lt.mp hb
  · rw [if_neg hb]
    -- Below the bound the product of milliseconds and cycles fits 32 bits.
    have hle : ms.toNat ≤ 2 * (2 ^ 28 / (refOsc.toNat / 1000)) := by
      rw [← bound_toNat]
      exact UInt32.le_iff_toNat_le.mp (UInt32.not_lt.mp hb)
    have hmul := mul_refCyclesPerMs hle
    have hcycles : (ms * refCyclesPerMs refOsc).toNat = ms.toNat * (refOsc.toNat / 1000) := by
      rw [UInt32.toNat_mul, refCyclesPerMs_toNat]
      exact Nat.mod_eq_of_lt (by omega)
    have hsteps := stepsWord_toNat (ms * refCyclesPerMs refOsc)
    dsimp only at hsteps ⊢
    simp only [hsteps, hcycles]
    have hpos := stepsFor_pos (ms.toNat * (refOsc.toNat / 1000))
    by_cases h128 : stepsFor (ms.toNat * (refOsc.toNat / 1000)) - 1 < 128
    · simp only [dif_pos h128]
      exact isLeast_stepsFor (by omega)
    · simp only [dif_neg h128]
      have hnot := mt (stepsFor_le (show 0 < 128 by decide)).mpr
        (show ¬ stepsFor (ms.toNat * (refOsc.toNat / 1000)) ≤ 128 by omega)
      omega

theorem ofSteps_eq {steps : UInt32} (h : 0 < steps.toNat) : Timeout.ofSteps steps =
    .ok (if h : steps.toNat - 1 < 128 then some ⟨steps.toNat - 1, h⟩ else none) := by
  have hgt : steps > fieldMask + 1 ↔ 128 < steps.toNat := UInt32.lt_iff_toNat_lt
  have h1 : (1 : UInt32) ≤ steps := UInt32.le_iff_toNat_le.mpr h
  unfold Timeout.ofSteps
  by_cases h128 : 128 < steps.toNat
  · rw [if_pos (hgt.mpr h128), dif_neg (by omega)]
    rfl
  · have hsub : (steps - 1).toNat = steps.toNat - 1 := UInt32.toNat_sub_of_le _ _ h1
    rw [if_neg (mt hgt.mp h128), dif_pos (by omega), sub_eq h1]
    refine congrArg (fun t => Except.ok (some t)) (Fin.ext ?_)
    show (steps - 1).toNat % 128 = steps.toNat - 1
    omega

/-- No arithmetic of `Timeout::from_millis` overflows. -/
theorem fromMillisChecked_eq (ms : UInt32) :
    Timeout.fromMillisChecked refOsc ms = .ok (Timeout.fromMillis refOsc ms) := by
  have hdiv := Nat.div_le_self (2 ^ 28) (refOsc.toNat / 1000)
  unfold Timeout.fromMillisChecked Timeout.fromMillis
  rw [mul_eq (by rw [asMillis_last]; show 2 * _ < _; omega)]
  dsimp only [bind, Except.bind]
  by_cases hb : ms > 2 * Timeout.asMillis refOsc (Fin.last 127)
  · rw [if_pos hb, if_pos hb]
    rfl
  · rw [if_neg hb, if_neg hb]
    have hle : ms.toNat ≤ 2 * (2 ^ 28 / (refOsc.toNat / 1000)) := by
      rw [← bound_toNat]
      exact UInt32.le_iff_toNat_le.mp (UInt32.not_lt.mp hb)
    have hmul := mul_refCyclesPerMs hle
    rw [mul_eq (by rw [refCyclesPerMs_toNat]; omega)]
    dsimp only
    have hsteps := stepsWord_toNat (ms * refCyclesPerMs refOsc)
    exact ofSteps_eq (Nat.lt_of_lt_of_eq (stepsFor_pos _) hsteps.symm)

end

/-! ## The start -/

/-- The milliseconds asked for, where they fit; else more than any period has. -/
theorem millis_toNat (d : Duration) : d.millis.toNat = min d.asMillis (2 ^ 32 - 1) := by
  have hn := d.nanos_lt
  have hsub : d.subsecMillis.toNat = d.nanos.toNat / 1000000 := rfl
  have hmax : (UInt32.ofNat (2 ^ 32 - 1)).toNat = 2 ^ 32 - 1 := rfl
  unfold Duration.millis Duration.asMillis Word.toU32?
  -- The seconds, the product and the sum may each not fit.
  by_cases hs : d.secs.toNat < 2 ^ 32
  · have hsecs : d.secs.toUInt32.toNat = d.secs.toNat := by
      rw [UInt64.toNat_toUInt32, Nat.mod_eq_of_lt hs]
    rw [if_pos hs, Option.bind_some]
    by_cases hm : d.secs.toUInt32.toNat * (1000 : UInt32).toNat < 2 ^ 32
    · have hmul : (d.secs.toUInt32 * 1000).toNat = d.secs.toNat * 1000 := by
        rw [UInt32.toNat_mul, Nat.mod_eq_of_lt hm, hsecs]
        rfl
      rw [mul_eq hm]
      dsimp only [Except.toOption, Option.bind_some]
      by_cases ha : (d.secs.toUInt32 * 1000).toNat + d.subsecMillis.toNat < 2 ^ 32
      · rw [add_eq ha]
        dsimp only [Except.toOption, Option.getD_some]
        rw [UInt32.toNat_add, Nat.mod_eq_of_lt ha, hmul, hsub]
        omega
      · rw [add_overflow (Nat.le_of_not_lt ha)]
        dsimp only [Except.toOption, Option.getD_none]
        rw [hmax]
        omega
    · have hthousand : (1000 : UInt32).toNat = 1000 := rfl
      rw [mul_overflow (Nat.le_of_not_lt hm)]
      rw [hthousand] at hm
      dsimp only [Except.toOption, Option.bind_none, Option.getD_none]
      rw [hmax]
      omega
  · rw [if_neg hs]
    dsimp only [Option.bind_none, Option.getD_none]
    rw [hmax]
    omega

/-- The start of the COP that a `WatchdogRunner` makes. -/
theorem hardwareStart_eq (refOsc : UInt32) (c : Cop) (d : Duration) :
    c.hardwareStart refOsc d.secs d.subsecMillis =
      (c.startFor refOsc d).1.toOption.map fun _ => (c.startFor refOsc d).2 := by
  have hms : UInt32.ofNat (min (d.secs.toNat * 1000 + d.subsecMillis.toNat) (UInt32.size - 1)) =
      d.millis := by
    have hlt : min (d.secs.toNat * 1000 + d.subsecMillis.toNat) (UInt32.size - 1) < 2 ^ 32 :=
      Nat.lt_of_le_of_lt (Nat.min_le_right _ _) (by decide)
    apply UInt32.toNat_inj.mp
    rw [UInt32.toNat_ofNat', Nat.mod_eq_of_lt hlt, millis_toNat]
    rfl
  unfold Cop.hardwareStart Cop.startFor
  dsimp only [bind, Option.bind]
  rw [hms, fromMillisChecked_eq]
  cases Timeout.fromMillis refOsc d.millis with
  | none => rfl
  | some t =>
    dsimp only
    rw [tryStart_eq]
    obtain ⟨result, after⟩ := c.tryStart t
    cases result <;> rfl

/-- `HardwareWatchdog::start` as it should be: on a locked COP it panics and leaves `COP_CNTL`; on
another it panics for a duration that is longer than any period, and sets the least one for any
other. No arithmetic in it overflows. -/
structure NeverShort (refOsc : UInt32) (c : Cop) (d : Duration) : Prop where
  locked : c.cntl &&& copWp ≠ 0 →
    (∃ e, (c.startFor refOsc d).1 = .error e) ∧ (c.startFor refOsc d).2.cntl = c.cntl
  tooLong : c.cntl &&& copWp = 0 →
    ((∃ e, (c.startFor refOsc d).1 = .error e) ↔ ¬ d.Within refOsc (128 * 2 ^ 21))
  enabled : c.cntl &&& copWp = 0 → d.Within refOsc (128 * 2 ^ 21) →
    ∃ t : Timeout, d.Within refOsc t.cycles ∧
      (∀ s : Timeout, d.Within refOsc s.cycles → t ≤ s) ∧
      (c.startFor refOsc d).2.cntl = (.ofNat t <<< timeoutShift) ||| copEn
  noOverflow : ∀ e, (c.startFor refOsc d).1 ≠ .error (.arithmetic e)

/-- No period ends between the whole milliseconds of the duration and the duration. -/
def Duration.NoPeriodEnds (refOsc : UInt32) (d : Duration) : Prop :=
  ∀ t : Timeout, d.asMillis * 1000000 * refOsc.toNat ≤ t.cycles * 1000000000 →
    d.Within refOsc t.cycles

theorem asMillis_mul_le (d : Duration) : d.asMillis * 1000000 ≤ d.asNanos := by
  unfold Duration.asMillis Duration.asNanos
  rw [Nat.add_mul, Nat.mul_assoc]
  exact Nat.add_le_add_left (Nat.div_mul_le_self d.nanos.toNat 1000000) _

section

variable {refOsc : UInt32} {c : Cop} {d : Duration}

/-- Cycles of whole milliseconds, by the cycles in one. -/
theorem millis_cycles (hk : refOsc.toNat % 1000 = 0) (ms n : Nat) :
    ms * (refOsc.toNat / 1000) ≤ n ↔ ms * 1000000 * refOsc.toNat ≤ n * 1000000000 := by
  have hr : refOsc.toNat = refOsc.toNat / 1000 * 1000 := by omega
  have hmul : ms * 1000000 * refOsc.toNat = ms * (refOsc.toNat / 1000) * 1000000000 := by
    rw [Nat.mul_assoc, Nat.mul_assoc]
    congr 1
    omega
  rw [hmul]
  omega

theorem startFor_some (t : Timeout) (h : Timeout.fromMillis refOsc d.millis = some t)
    (hwp : c.cntl &&& copWp = 0) : (c.startFor refOsc d).1 = .ok () ∧
      (c.startFor refOsc d).2.cntl = (.ofNat t <<< timeoutShift) ||| copEn := by
  obtain ⟨hok, hcntl⟩ := tryStart_unlocked hwp t
  unfold Cop.startFor
  rw [fromMillisChecked_eq, h]
  dsimp only
  split
  · rename_i hs
    rw [hs] at hok
    cases hok
  · rename_i hs
    rw [hs] at hcntl
    exact ⟨rfl, hcntl⟩

theorem startFor_none (h : Timeout.fromMillis refOsc d.millis = none) :
    c.startFor refOsc d = (.error .tooLong, c) := by
  unfold Cop.startFor
  rw [fromMillisChecked_eq, h]

theorem startFor_locked (refOsc : UInt32) (d : Duration) (hwp : c.cntl &&& copWp ≠ 0) :
    ∃ e, c.startFor refOsc d = (.error e, c) ∧ ∀ p, e ≠ .arithmetic p := by
  unfold Cop.startFor
  rw [fromMillisChecked_eq]
  cases Timeout.fromMillis refOsc d.millis with
  | none => exact ⟨.tooLong, rfl, fun p h => by cases h⟩
  | some t =>
    refine ⟨.locked, ?_, fun p h => by cases h⟩
    dsimp only
    rw [tryStart_locked hwp]

theorem neverShort_locked (hwp : c.cntl &&& copWp ≠ 0) : NeverShort refOsc c d := by
  obtain ⟨e, he, hp⟩ := startFor_locked refOsc d hwp
  refine ⟨fun _ => ?_, fun h => absurd h hwp, fun h => absurd h hwp, fun p h => ?_⟩
  · rw [he]
    exact ⟨⟨e, rfl⟩, rfl⟩
  · rw [he] at h
    cases h
    exact hp p rfl

/-- The duration is too long: it has more whole milliseconds than any period. -/
theorem neverShort_none (hk : refOsc.toNat % 1000 = 0) (hwp : c.cntl &&& copWp = 0)
    (h : Timeout.fromMillis refOsc d.millis = none)
    (hlong : 2 ^ 28 < d.asMillis * (refOsc.toNat / 1000)) :
    NeverShort refOsc c d ∧ d.NoPeriodEnds refOsc := by
  have hstart := startFor_none (c := c) h
  have hms : ∀ t : Timeout, ¬ d.asMillis * 1000000 * refOsc.toNat ≤ t.cycles * 1000000000 := by
    intro t ht
    have hle := (millis_cycles hk d.asMillis t.cycles).mpr ht
    have hcycles := cycles_le t
    omega
  have hwithin : ¬ d.Within refOsc (128 * 2 ^ 21) := by
    intro hw
    apply hms (Fin.last 127)
    exact Nat.le_trans (Nat.mul_le_mul_right _ (asMillis_mul_le d)) hw
  refine ⟨⟨fun hl => absurd hwp hl, fun _ => ?_, fun _ hw => absurd hw hwithin, fun e he => ?_⟩,
    fun t ht => absurd ht (hms t)⟩
  · rw [hstart]
    exact iff_of_true ⟨_, rfl⟩ hwithin
  · rw [hstart] at he
    cases he

/-- The period that is set is the least for the whole milliseconds. -/
theorem neverShort_some (hk : refOsc.toNat % 1000 = 0) (hwp : c.cntl &&& copWp = 0) {t : Timeout}
    (h : Timeout.fromMillis refOsc d.millis = some t)
    (ht : IsLeast (d.asMillis * (refOsc.toNat / 1000)) t) :
    NeverShort refOsc c d ↔ d.NoPeriodEnds refOsc := by
  obtain ⟨hok, hcntl⟩ := startFor_some t h hwp
  have hleast : ∀ s : Timeout, d.Within refOsc s.cycles → t ≤ s := by
    intro s hs
    apply ht.2
    rw [millis_cycles hk]
    exact Nat.le_trans (Nat.mul_le_mul_right _ (asMillis_mul_le d)) hs
  have hnoerr : ¬ ∃ e, (c.startFor refOsc d).1 = .error e := by
    rintro ⟨e, he⟩
    rw [hok] at he
    cases he
  constructor
  · intro hn s hs
    -- The start has not failed, so the longest period is long enough.
    have hwithin : d.Within refOsc (128 * 2 ^ 21) :=
      Decidable.byContradiction fun hw => hnoerr ((hn.tooLong hwp).mpr hw)
    obtain ⟨u, hu, -, hucntl⟩ := hn.enabled hwp hwithin
    have hut : t = u := cntl_inj (hcntl.symm.trans hucntl)
    have hts : t ≤ s := ht.2 s ((millis_cycles hk _ _).mpr hs)
    have hcycles : u.cycles ≤ s.cycles := by
      rw [← hut]
      unfold Timeout.cycles
      have := Fin.le_def.mp hts
      omega
    exact Nat.le_trans hu (Nat.mul_le_mul_right _ hcycles)
  · intro hno
    have hwithin : d.Within refOsc t.cycles := hno t ((millis_cycles hk _ _).mp ht.1)
    have hlast : d.Within refOsc (128 * 2 ^ 21) :=
      Nat.le_trans hwithin (Nat.mul_le_mul_right _ (cycles_le t))
    refine ⟨fun hl => absurd hwp hl, fun _ => iff_of_false hnoerr (not_not_intro hlast),
      fun _ _ => ⟨t, hwithin, hleast, hcntl⟩, fun e he => hnoerr ⟨_, he⟩⟩

end

/-- **The COP time-out.** `refOsc` is a whole number of kilohertz. The start does what it should if
and only if the COP is locked, or no period ends within the part of the duration that
`subsec_millis` cuts. -/
theorem cop_never_short_iff {refOsc : UInt32} (hk : refOsc.toNat % 1000 = 0) (h0 : 0 < refOsc)
    (c : Cop) (d : Duration) :
    NeverShort refOsc c d ↔ c.cntl &&& copWp ≠ 0 ∨ d.NoPeriodEnds refOsc := by
  have hpos : 0 < refOsc.toNat := UInt32.lt_iff_toNat_lt.mp h0
  have hr : 0 < refOsc.toNat / 1000 := by omega
  by_cases hwp : c.cntl &&& copWp = 0
  · have hspec := fromMillis_spec hr d.millis
    have hms := millis_toNat d
    have hcases : (c.cntl &&& copWp ≠ 0 ∨ d.NoPeriodEnds refOsc) ↔ d.NoPeriodEnds refOsc :=
      or_iff_right (not_not_intro hwp)
    rw [hcases]
    cases hf : Timeout.fromMillis refOsc d.millis with
    | none =>
      rw [hf] at hspec
      have hle : d.millis.toNat ≤ d.asMillis := by omega
      have hlong := Nat.lt_of_lt_of_le hspec (Nat.mul_le_mul_right (refOsc.toNat / 1000) hle)
      obtain ⟨hn, hno⟩ := neverShort_none hk hwp hf hlong
      exact iff_of_true hn hno
    | some t =>
      rw [hf] at hspec
      have hmul := Nat.le_mul_of_pos_right d.millis.toNat hr
      have hbound := Nat.le_trans hspec.1 (cycles_le t)
      -- A period was found, so the duration is below the clamp.
      have heq : d.millis.toNat = d.asMillis := by omega
      rw [heq] at hspec
      exact neverShort_some hk hwp hf hspec
  · exact iff_of_true (neverShort_locked hwp) (.inl hwp)

/-- A stopped COP, at 24 MHz and for a whole second. -/
theorem cop_never_short_iff_second : NeverShort 24000000 ⟨0, 0⟩ ⟨1, 0, by decide⟩ := by
  refine (cop_never_short_iff (by decide) (by decide) ⟨0, 0⟩ ⟨1, 0, by decide⟩).mpr (.inr ?_)
  unfold Duration.NoPeriodEnds Duration.Within
  decide

/-- 87.385 ms at 24 MHz, for which the COP is set to a period of 87.381 ms. -/
theorem cop_short : ¬ ∀ (c : Cop) (d : Duration), NeverShort 24000000 c d := by
  intro h
  have hn := h ⟨0, 0⟩ ⟨0, 87385000, by decide⟩
  obtain ⟨t, ht, -, hcntl⟩ := hn.enabled rfl (by unfold Duration.Within; decide)
  have h0 : t = 0 := cntl_inj hcntl.symm
  rw [h0] at ht
  revert ht
  unfold Duration.Within
  decide

end Mc1322x.Watchdog
