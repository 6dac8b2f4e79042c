import Mc1322x.Hal.Adc
import Mc1322x.Lib.Checked
import Mc1322x.Lib.Proc

/-!
# Millivolts (`mc1322x-hal/src/adc.rs`)

`voltage` and `battery_voltage` as programs of the accesses of `read` to the cache. The handler runs
in the gaps before these accesses, any number of times and with any entries (`Gap`).

* `reading`: the sample that a wait for a channel ends with, from the entries alone.
* `read_runs`, `read_waits`: `read` discards at its first access and then ends with `reading`, or
  spins.
* `converts_iff`: the conversions are exact and do not fault, except for a reference sample of 0.
-/

namespace Mc1322x.Adc

open Proc

/-- `INTERNAL_REFERENCE_MV`. -/
def internalReferenceMv : UInt32 := 1200

/-- `ADC_VBATT_TRIM`. -/
def adcVbattTrim : UInt32 := 183

/-- A panic. -/
inductive Fault where
  | checked (p : Checked.Panic)
  | divisionByZero
  deriving DecidableEq

/-- `/`. -/
def div (a b : UInt32) : Except Fault UInt32 :=
  if b = 0 then .error .divisionByZero else .ok (a / b)

/-- The one operation is `take_cached`. -/
def Cached : Sig where
  Op := Channel
  Ans _ := Option UInt16

/-- A function that takes samples from the cache, and may panic. -/
abbrev Prog := ExceptT Fault (Proc Cached)

/-- The panic, if it is one. -/
def raise {α : Type} (r : Except Fault α) : Prog α := .mk (pure r)

/-- Arithmetic that is checked, with its panic. -/
def checked {α : Type} (r : Except Checked.Panic α) : Prog α := raise (r.mapError .checked)

/-- `take_cached`; the index of the cache is checked. -/
def takeCached (channel : UInt8) : Prog (Option UInt16) :=
  match channel? channel with
  | none => raise (.error (.checked .outOfRange))
  | some ch => ExceptT.lift (call (S := Cached) ch)

/-- `read`: the cache is emptied, and then taken from until it holds a sample. -/
def read (channel : UInt8) : Prog UInt16 := do
  let _ ← takeCached channel
  iterateE () fun _ => do
    match ← takeCached channel with
    | some value => return .inr value
    | none => return .inl ()

/-- `voltage`, in millivolts, in terms of the reference of 1200 mV. -/
def voltage (channel : UInt8) : Prog UInt32 := do
  let reference ← read 8
  let sample ← read channel
  let product ← checked (Checked.mul sample.toUInt32 internalReferenceMv)
  raise (div product reference.toUInt32)

/-- `battery_voltage`, in millivolts. -/
def batteryVoltage : Prog UInt32 := do
  let reference ← read 8
  let product ← checked (Checked.mul 4095 internalReferenceMv)
  let quotient ← raise (div product reference.toUInt32)
  checked (Checked.add quotient adcVbattTrim)

/-! ## The handler in the gaps -/

/-- The runs of `adc_isr` before an access, each with what it reads from `ADC_IRQ` and from the
FIFO. -/
abbrev Gap := List (UInt16 × List UInt16)

variable {Waker : Type}

/-- The calls of `adc_isr` between two accesses of the cache. -/
def Statics.gap (s : Statics Waker) (g : Gap) : Statics Waker :=
  g.foldl (fun s r => (s.adcIsr r.1 r.2).2) s

/-- The accesses, each after the gap before it. After the last gap `read` spins. -/
def handler : Handler Cached (Statics Waker × List Gap)
  | _, (_, []) => none
  | ch, (s, g :: gaps) =>
    let (value, s) := (s.gap g).takeCached ch
    some (value.map (·.value), (s, gaps))

/-! ## The entries -/

/-- The entries that the handler reads in a gap. -/
def Gap.entries (g : Gap) : List UInt16 :=
  g.flatMap fun r => if r.1 &&& irqFifo = 0 then [] else r.2

/-- What is cached for a channel after an entry. -/
def latest (ch : Channel) (last : Option UInt16) (e : UInt16) : Option UInt16 :=
  if (e >>> 12).toNat = ch then some (e &&& 0x0FFF) else last

/-- The last sample of the channel in the first gap that has one, and the gaps after that. -/
def reading (ch : Channel) : List Gap → Option (UInt16 × List Gap)
  | [] => none
  | g :: gaps => match g.entries.foldl (latest ch) none with
    | some v => some (v, gaps)
    | none => reading ch gaps

/-- A reading behind the gap before the discard. -/
def freshReading (ch : Channel) (gaps : List Gap) : Option (UInt16 × List Gap) :=
  reading ch gaps.tail

section Gaps

variable {ch : Channel}

/-- The value cached for a channel. -/
def Statics.value (s : Statics Waker) (ch : Channel) : Option UInt16 :=
  (s.cache ch).map (·.value)

theorem drain_value (s : Statics Waker) (e : UInt16) :
    (s.drain e).value ch = latest ch (s.value ch) e := by
  unfold Statics.value latest
  rw [Statics.drain_cache]
  split <;> rfl

theorem foldl_drain_value (fifo : List UInt16) (s : Statics Waker) :
    (fifo.foldl Statics.drain s).value ch = fifo.foldl (latest ch) (s.value ch) := by
  induction fifo generalizing s with
  | nil => rfl
  | cons e fifo ih => rw [List.foldl_cons, ih, drain_value, List.foldl_cons]

theorem gap_value (g : Gap) (s : Statics Waker) :
    (s.gap g).value ch = g.entries.foldl (latest ch) (s.value ch) := by
  induction g generalizing s with
  | nil => rfl
  | cons r g ih =>
    have hisr : ((s.adcIsr r.1 r.2).2).value ch =
        (if r.1 &&& irqFifo = 0 then [] else r.2).foldl (latest ch) (s.value ch) := by
      unfold Statics.adcIsr
      split
      · rfl
      · exact foldl_drain_value r.2 s
    show ((s.adcIsr r.1 r.2).2.gap g).value ch = _
    rw [ih, hisr, ← List.foldl_append]
    rfl

theorem channel?_ofNat : ∀ ch : Channel, channel? (.ofNat ch) = some ch := by decide

theorem takeCached_eq (ch : Channel) :
    takeCached (.ofNat ch) = ExceptT.lift (call (S := Cached) ch) := by
  unfold takeCached
  rw [channel?_ofNat]
  rfl

/-- An access that a gap comes before. -/
theorem takeCached_runs (ch : Channel) (s : Statics Waker) (g : Gap) (gaps : List Gap) :
    ∃ s', s'.value ch = none ∧ Runs handler (takeCached (.ofNat ch)).run (s, g :: gaps)
      (.ok (g.entries.foldl (latest ch) (s.value ch))) (s', gaps) := by
  have hcleared : ((s.gap g).takeCached ch).2.cache ch = none := Function.update_self ..
  refine ⟨((s.gap g).takeCached ch).2, ?_, ?_⟩
  · unfold Statics.value
    rw [hcleared]
    rfl
  · rw [takeCached_eq, ← gap_value]
    exact .lift (.call rfl)

theorem takeCached_waits (s : Statics Waker) :
    Waits handler (takeCached (.ofNat ch)).run (s, []) (s, []) := by
  rw [takeCached_eq]
  exact Waits.bind (.call rfl)

/-- A wait for the channel, from a state with no sample for it. -/
theorem spin_spec (s : Statics Waker) (gaps : List Gap) (hs : s.value ch = none)
    {loop : Prog UInt16} (hloop : loop = iterateE () fun _ => do
      match ← takeCached (.ofNat ch) with
      | some value => return .inr value
      | none => return .inl ()) :
    match reading ch gaps with
    | some (v, rest) => ∃ s', Runs handler loop.run (s, gaps) (.ok v) (s', rest)
    | none => ∃ t, Waits handler loop.run (s, gaps) t := by
  subst hloop
  -- By induction on the gaps: each round of the loop uses up one.
  induction gaps generalizing s with
  | nil => exact ⟨_, .iterateE_body (.bind_run (takeCached_waits s))⟩
  | cons g gaps ih =>
    obtain ⟨s', hs', htake⟩ := takeCached_runs ch s g gaps
    rw [hs] at htake
    unfold reading
    cases hv : g.entries.foldl (latest ch) none with
    | some v =>
      rw [hv] at htake
      exact ⟨s', .iterateE_exit (.bind_ok htake .pure)⟩
    | none =>
      rw [hv] at htake
      have hround := ih s' hs'
      dsimp only
      cases hr : reading ch gaps with
      | some r =>
        rw [hr] at hround
        obtain ⟨u, hu⟩ := hround
        exact ⟨u, .iterateE_next (.bind_ok htake .pure) hu⟩
      | none =>
        rw [hr] at hround
        obtain ⟨t, ht⟩ := hround
        exact ⟨t, .iterateE_next (.bind_ok htake .pure) ht⟩

section Read

variable {gaps rest : List Gap} {v : UInt16}

/-- `read` ends with the reading behind the gap before its discard. -/
theorem read_runs (s : Statics Waker) (h : freshReading ch gaps = some (v, rest)) :
    ∃ s', Runs handler (read (.ofNat ch)).run (s, gaps) (.ok v) (s', rest) := by
  cases gaps with
  | nil => cases h
  | cons g gaps =>
    obtain ⟨s', hs', htake⟩ := takeCached_runs ch s g gaps
    have hspin := spin_spec s' gaps hs' rfl
    rw [show reading ch gaps = some (v, rest) from h] at hspin
    obtain ⟨u, hu⟩ := hspin
    exact ⟨u, .bind_ok htake hu⟩

/-- With no reading it spins. -/
theorem read_waits (s : Statics Waker) (h : freshReading ch gaps = none) :
    ∃ t, Waits handler (read (.ofNat ch)).run (s, gaps) t := by
  cases gaps with
  | nil => exact ⟨_, .bind_run (takeCached_waits s)⟩
  | cons g gaps =>
    obtain ⟨s', hs', htake⟩ := takeCached_runs ch s g gaps
    have hspin := spin_spec s' gaps hs' rfl
    rw [show reading ch gaps = none from h] at hspin
    obtain ⟨t, ht⟩ := hspin
    exact ⟨t, .after_ok htake ht⟩

end Read

end Gaps

/-! ## The arithmetic -/

theorem latest_le {ch : Channel} {l : List UInt16} {last : Option UInt16} {v : UInt16}
    (hlast : ∀ v, last = some v → v.toNat ≤ 4095) (h : l.foldl (latest ch) last = some v) :
    v.toNat ≤ 4095 := by
  induction l generalizing last with
  | nil => exact hlast v h
  | cons e l ih =>
    refine ih (fun v hv => ?_) h
    unfold latest at hv
    split at hv
    · cases hv
      rw [UInt16.toNat_and]
      exact Nat.and_le_right
    · exact hlast v hv

theorem reading_le {ch : Channel} {gaps rest : List Gap} {v : UInt16}
    (h : reading ch gaps = some (v, rest)) : v.toNat ≤ 4095 := by
  induction gaps with
  | nil => cases h
  | cons g gaps ih =>
    unfold reading at h
    split at h
    · rename_i hv
      cases h
      exact latest_le (fun _ hn => by cases hn) hv
    · exact ih h

theorem div_eq (p : UInt32) (r : UInt16) : div p r.toUInt32 =
    if r = 0 then .error .divisionByZero else .ok (.ofNat (p.toNat / r.toNat)) := by
  have hzero : r.toUInt32 = 0 ↔ r = 0 := by
    rw [← UInt32.toNat_inj, ← UInt16.toNat_inj, UInt16.toNat_toUInt32]
    rfl
  unfold div
  by_cases hr : r = 0
  · rw [if_pos (hzero.mpr hr), if_pos hr]
  · rw [if_neg (mt hzero.mp hr), if_neg hr]
    congr 1
    apply UInt32.toNat_inj.mp
    have hlt : p.toNat / r.toNat < 2 ^ 32 := Nat.lt_of_le_of_lt (Nat.div_le_self _ _) p.toNat_lt
    rw [UInt32.toNat_div, UInt16.toNat_toUInt32, UInt32.toNat_ofNat', Nat.mod_eq_of_lt hlt]

section Arithmetic

variable {v r : UInt16} {t : Statics Waker × List Gap}

theorem voltage_arith (hv : v.toNat ≤ 4095) :
    Runs handler (do
        let product ← checked (Checked.mul v.toUInt32 internalReferenceMv)
        raise (div product r.toUInt32) : Prog UInt32).run t
      (if r = 0 then .error .divisionByZero else .ok (.ofNat (v.toNat * 1200 / r.toNat))) t := by
  have hprod : (v.toUInt32).toNat * internalReferenceMv.toNat = v.toNat * 1200 := by
    rw [UInt16.toNat_toUInt32]
    rfl
  have hvalue : (v.toUInt32 * internalReferenceMv).toNat = v.toNat * 1200 := by
    rw [UInt32.toNat_mul, hprod, Nat.mod_eq_of_lt (by omega)]
  rw [Checked.mul_eq (by omega), ← hvalue, ← div_eq]
  exact .bind_ok .pure .pure

theorem battery_arith :
    Runs handler (do
        let product ← checked (Checked.mul 4095 internalReferenceMv)
        let quotient ← raise (div product r.toUInt32)
        checked (Checked.add quotient adcVbattTrim) : Prog UInt32).run t
      (if r = 0 then .error .divisionByZero
        else .ok (.ofNat (4095 * 1200 / r.toNat + 183))) t := by
  have hmul : Checked.mul 4095 internalReferenceMv = .ok 4914000 := by decide
  rw [hmul]
  refine .bind_ok .pure ?_
  rw [div_eq]
  by_cases hr : r = 0
  · rw [if_pos hr, if_pos hr]
    exact .bind_error .pure
  · rw [if_neg hr, if_neg hr]
    refine .bind_ok .pure ?_
    -- The quotient is far from the end of the range, so only the division can fault.
    have hle : 4095 * 1200 / r.toNat ≤ 4914000 := Nat.div_le_self _ _
    have hquotient : (UInt32.ofNat (4095 * 1200 / r.toNat)).toNat = 4095 * 1200 / r.toNat := by
      rw [UInt32.toNat_ofNat', Nat.mod_eq_of_lt (by omega)]
    have hsum : UInt32.ofNat (4095 * 1200 / r.toNat) + adcVbattTrim =
        .ofNat (4095 * 1200 / r.toNat + 183) := by
      apply UInt32.toNat_inj.mp
      rw [UInt32.toNat_add, hquotient, UInt32.toNat_ofNat']
      rfl
    have hadd : Checked.add (.ofNat (4095 * 1200 / r.toNat)) adcVbattTrim =
        .ok (.ofNat (4095 * 1200 / r.toNat + 183)) := by
      rw [Checked.add_eq, hsum]
      rw [hquotient]
      exact Nat.lt_of_le_of_lt (Nat.add_le_add_right hle 183) (by decide)
    show Runs _ (checked (Checked.add (.ofNat (4095 * 1200 / r.toNat)) adcVbattTrim)).run t _ t
    rw [hadd]
    exact .pure

end Arithmetic

/-! ## The conversions -/

section Conversions

variable {gaps rest rest' : List Gap} {ch : Channel} {r v : UInt16} (s : Statics Waker)

theorem voltage_runs (hr : freshReading 8 gaps = some (r, rest))
    (hv : freshReading ch rest = some (v, rest')) :
    ∃ t, Runs handler (voltage (.ofNat ch)).run (s, gaps)
      (if r = 0 then .error .divisionByZero else .ok (.ofNat (v.toNat * 1200 / r.toNat))) t := by
  obtain ⟨s₁, href⟩ := read_runs s hr
  obtain ⟨s₂, hsample⟩ := read_runs s₁ hv
  exact ⟨_, .bind_ok href (.bind_ok hsample (voltage_arith (reading_le hv)))⟩

theorem voltage_waits (h : ∀ r rest, freshReading 8 gaps = some (r, rest) →
    freshReading ch rest = none) :
    ∃ t, Waits handler (voltage (.ofNat ch)).run (s, gaps) t := by
  cases hr : freshReading 8 gaps with
  | none =>
    obtain ⟨t, ht⟩ := read_waits s hr
    exact ⟨t, .bind_run ht⟩
  | some x =>
    obtain ⟨s₁, href⟩ := read_runs s hr
    obtain ⟨t, ht⟩ := read_waits s₁ (h x.1 x.2 hr)
    exact ⟨t, .after_ok href (.bind_run ht)⟩

theorem battery_runs (hr : freshReading 8 gaps = some (r, rest)) :
    ∃ t, Runs handler batteryVoltage.run (s, gaps)
      (if r = 0 then .error .divisionByZero
        else .ok (.ofNat (4095 * 1200 / r.toNat + 183))) t := by
  obtain ⟨s₁, href⟩ := read_runs s hr
  exact ⟨_, .bind_ok href battery_arith⟩

theorem battery_waits (h : freshReading 8 gaps = none) :
    ∃ t, Waits handler batteryVoltage.run (s, gaps) t := by
  obtain ⟨t, ht⟩ := read_waits s h
  exact ⟨t, .bind_run ht⟩

variable {s}

theorem voltage_safe (h : ∀ r rest, freshReading 8 gaps = some (r, rest) → r ≠ 0) {fault : Fault}
    {t : Statics Waker × List Gap} :
    ¬ Runs handler (voltage (.ofNat ch)).run (s, gaps) (.error fault) t := by
  intro hrun
  by_cases hnone : ∀ r rest, freshReading 8 gaps = some (r, rest) → freshReading ch rest = none
  · obtain ⟨_, hw⟩ := voltage_waits s hnone
    exact hw.not_runs hrun
  · push Not at hnone
    obtain ⟨r, rest, hr, hv⟩ := hnone
    obtain ⟨⟨v, rest'⟩, hv⟩ := Option.ne_none_iff_exists'.mp hv
    obtain ⟨_, hok⟩ := voltage_runs s hr hv
    rw [if_neg (h r rest hr)] at hok
    cases (hok.det hrun).1

theorem battery_safe (h : ∀ r rest, freshReading 8 gaps = some (r, rest) → r ≠ 0) {fault : Fault}
    {t : Statics Waker × List Gap} :
    ¬ Runs handler batteryVoltage.run (s, gaps) (.error fault) t := by
  intro hrun
  cases hr : freshReading 8 gaps with
  | none =>
    obtain ⟨_, hw⟩ := battery_waits s hr
    exact hw.not_runs hrun
  | some x =>
    obtain ⟨_, hok⟩ := battery_runs s hr
    rw [if_neg (h x.1 x.2 hr)] at hok
    cases (hok.det hrun).1

end Conversions

variable (s : Statics Waker) (gaps : List Gap) (ch : Channel)

/-- The conversions do not fault, they end where the samples that they need come, and where the
reference sample is not 0 their values are exact. -/
structure Converts : Prop where
  safe : ∀ fault t, ¬ Runs handler (voltage (.ofNat ch)).run (s, gaps) (.error fault) t ∧
    ¬ Runs handler batteryVoltage.run (s, gaps) (.error fault) t
  voltage : ∀ r rest v rest', freshReading 8 gaps = some (r, rest) →
    freshReading ch rest = some (v, rest') →
      ∃ mv t, Runs handler (voltage (.ofNat ch)).run (s, gaps) (.ok mv) t ∧
        (r ≠ 0 → mv.toNat = v.toNat * 1200 / r.toNat)
  battery : ∀ r rest, freshReading 8 gaps = some (r, rest) →
    ∃ mv t, Runs handler batteryVoltage.run (s, gaps) (.ok mv) t ∧
      (r ≠ 0 → mv.toNat = 4095 * 1200 / r.toNat + 183)

/-- **The conversions need a reference sample that is not 0.** For every state of the cache, all
entries that come in the gaps before its accesses and every channel, `voltage` and
`battery_voltage` do not fault and are exact, if and only if the reference sample is not 0 where
there is one. -/
theorem converts_iff :
    Converts s gaps ch ↔ ∀ r rest, freshReading 8 gaps = some (r, rest) → r ≠ 0 := by
  constructor
  · -- A reference sample of 0 makes `battery_voltage` divide by it.
    rintro h r rest hr rfl
    obtain ⟨t, hfault⟩ := battery_runs s hr
    exact (h.safe _ t).2 hfault
  · intro h
    refine ⟨fun fault t => ⟨voltage_safe h, battery_safe h⟩, ?_, ?_⟩
    · intro r rest v rest' hr hv
      obtain ⟨t, ht⟩ := voltage_runs s hr hv
      rw [if_neg (h r rest hr)] at ht
      refine ⟨_, t, ht, fun _ => ?_⟩
      have hle : v.toNat * 1200 / r.toNat ≤ 4095 * 1200 :=
        Nat.le_trans (Nat.div_le_self _ _) (Nat.mul_le_mul_right _ (reading_le hv))
      rw [UInt32.toNat_ofNat', Nat.mod_eq_of_lt (Nat.lt_of_le_of_lt hle (by decide))]
    · intro r rest hr
      obtain ⟨t, ht⟩ := battery_runs s hr
      rw [if_neg (h r rest hr)] at ht
      refine ⟨_, t, ht, fun _ => ?_⟩
      have hle : 4095 * 1200 / r.toNat + 183 ≤ 4095 * 1200 + 183 :=
        Nat.add_le_add_right (Nat.div_le_self _ _) 183
      rw [UInt32.toNat_ofNat', Nat.mod_eq_of_lt (Nat.lt_of_le_of_lt hle (by decide))]

/-- A reference sample of 0, and then one of 0x123 on channel 3: both conversions divide by 0. -/
theorem zero_reference :
    (∃ t, Runs handler (voltage 3).run ((Statics.init : Statics Nat),
        [[], [(irqFifo, [0x8000])], [], [(irqFifo, [0x3123])]]) (.error .divisionByZero) t) ∧
      ∃ t, Runs handler batteryVoltage.run ((Statics.init : Statics Nat),
        [[], [(irqFifo, [0x8000])]]) (.error .divisionByZero) t := by
  have hzero : freshReading 8 [[], [(irqFifo, [0x8000])]] = some (0, []) := by decide
  have hzero' : freshReading 8 [[], [(irqFifo, [0x8000])], [], [(irqFifo, [0x3123])]] =
      some (0, [[], [(irqFifo, [0x3123])]]) := by decide
  have hsample : freshReading 3 [[], [(irqFifo, [0x3123])]] = some (0x123, []) := by decide
  exact ⟨voltage_runs .init hzero' hsample, battery_runs .init hzero⟩

end Mc1322x.Adc
