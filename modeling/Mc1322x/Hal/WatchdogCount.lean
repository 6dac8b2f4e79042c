import Mc1322x.Hal.WatchdogPeriod
import Mc1322x.Lib.Machine

/-!
# The COP with its count (`mc1322x-hal/src/watchdog.rs`)

`Hw` is the COP as the driver meets it: `COP_CNTL`, whose written bits `COP_WP` protects, the count
that a service restarts, and the reset of the chip at the end of the period. The methods of
`Watchdog` read and write the register.

* `Hw.start_follows`: for the register and its services, `Cop` is this COP.
* `driver_refines`: for the calls of the driver, this is a watchdog that is set, stopped, fed and
  locked (`Guard`).
* `locked_resets_iff`: started and locked, the COP resets the chip exactly when it is not fed for a
  period, whatever is called, and whatever else is written to its register.
-/

namespace Mc1322x.Watchdog

/-- `COP_OUT`. -/
def copOut : UInt32 := (1 : UInt32) <<< 1

/-- `COUNT_SHIFT`: the place of `COP_COUNT` in `COP_CNTL`. -/
def countShift : UInt32 := 16

/-- The bits of `COP_CNTL` that a write changes. -/
def writable : UInt32 := copEn ||| copOut ||| copWp ||| (fieldMask <<< timeoutShift)

/-- The COP with its count. -/
structure Hw where
  /-- The bits of `COP_CNTL` that were written. -/
  cntl : UInt32
  /-- The cycles of `REF_OSC` that the COP has counted since it was serviced. -/
  elapsed : Nat
  /-- The resets of the chip. -/
  resets : Nat

/-- After a reset. -/
def Hw.boot (resets : Nat) : Hw := ⟨0, 0, resets⟩

/-- `COP_COUNT`, the whole steps. -/
def stepsIn (elapsed : Nat) : Fin 128 := ⟨elapsed / 2 ^ 21 % 128, Nat.mod_lt _ (by decide)⟩

/-- `COP_TIMEOUT`. -/
def timeoutOf (cntl : UInt32) : Timeout :=
  ⟨((cntl >>> timeoutShift) &&& fieldMask).toNat % 128, Nat.mod_lt _ (by decide)⟩

namespace Hw

/-- `read_cntl`. -/
def readCntl (h : Hw) : UInt32 := h.cntl ||| (.ofNat (stepsIn h.elapsed) <<< countShift)

/-- `write_cntl`: protected, the register is read-only. -/
def writeCntl (h : Hw) (value : UInt32) : Hw :=
  if h.cntl &&& copWp ≠ 0 then h else { h with cntl := value &&& writable }

/-- `service`. -/
def service (h : Hw) : Hw := { h with elapsed := 0 }

/-- So many cycles pass. -/
def pass (h : Hw) (n : Nat) : Hw :=
  if h.cntl &&& copEn = 0 then h
  else if h.cntl &&& copOut = 0 ∧ (timeoutOf h.cntl).cycles ≤ h.elapsed + n then
    boot (h.resets + 1)
  else { h with elapsed := h.elapsed + n }

/-! ## The driver -/

/-- `Watchdog::stop`. -/
def stop (h : Hw) : Except Locked Unit × Hw :=
  let cntl := h.readCntl
  if cntl &&& copWp ≠ 0 then (.error {}, h)
  else if cntl &&& copEn ≠ 0 then
    (.ok (), h.writeCntl (cntl &&& (fieldMask <<< timeoutShift)))
  else (.ok (), h)

/-- `Watchdog::start`. -/
def start (h : Hw) (timeout : Timeout) : Except Locked Unit × Hw :=
  match h.stop with
  | (.error e, h) => (.error e, h)
  | (.ok (), h) =>
    let timeout : UInt32 := .ofNat timeout <<< timeoutShift
    let h := (h.writeCntl timeout).service
    (.ok (), (h.writeCntl (timeout ||| copEn)).service)

/-- `Watchdog::lock`. -/
def lock (h : Hw) : Hw := h.writeCntl (h.readCntl ||| copWp)

/-- `Watchdog::is_running`. -/
def isRunning (h : Hw) : Bool := h.readCntl &&& copEn ≠ 0

/-- `Watchdog::is_locked`. -/
def isLocked (h : Hw) : Bool := h.readCntl &&& copWp ≠ 0

/-- `Watchdog::timeout`. -/
def timeout (h : Hw) : Timeout := timeoutOf h.readCntl

/-- `count`. -/
def count (h : Hw) : UInt8 := ((h.readCntl >>> countShift) &&& fieldMask).toUInt8

end Hw

/-- The calls of the driver, and the time between them. -/
inductive Op where
  | start (timeout : Timeout)
  | stop
  | feed
  | lock
  | isRunning
  | isLocked
  | timeout
  | count
  | pass (cycles : Nat)

/-- What a call returns. -/
inductive Answer where
  | unit
  | result (r : Except Locked Unit)
  | bool (b : Bool)
  | timeout (t : Timeout)
  | count (n : UInt8)

/-- A call of the driver on the COP: its answer, and the COP after it. -/
def Hw.call (h : Hw) : Op → Answer × Hw
  | .start t => ((h.start t).map .result id)
  | .stop => h.stop.map .result id
  | .feed => (.unit, h.service)
  | .lock => (.unit, h.lock)
  | .isRunning => (.bool h.isRunning, h)
  | .isLocked => (.bool h.isLocked, h)
  | .timeout => (.timeout h.timeout, h)
  | .count => (.count h.count, h)
  | .pass n => (.unit, h.pass n)

/-! ## The watchdog -/

/-- What the driver offers. -/
structure Guard where
  running : Bool
  locked : Bool
  timeout : Timeout
  /-- The cycles that it has run since it was fed. -/
  elapsed : Nat
  resets : Nat

/-- After a reset. -/
def Guard.boot (resets : Nat) : Guard := ⟨false, false, timeoutOf 0, 0, resets⟩

/-- A call on the watchdog: its answer, and the watchdog after it. -/
def Guard.call (g : Guard) : Op → Answer × Guard
  | .start t =>
    if g.locked then (.result (.error {}), g)
    else (.result (.ok ()), { g with running := true, timeout := t, elapsed := 0 })
  | .stop =>
    if g.locked then (.result (.error {}), g)
    else (.result (.ok ()), { g with running := false })
  | .feed => (.unit, { g with elapsed := 0 })
  | .lock => (.unit, { g with locked := true })
  | .isRunning => (.bool g.running, g)
  | .isLocked => (.bool g.locked, g)
  | .timeout => (.timeout g.timeout, g)
  | .count => (.count (.ofNat (g.elapsed / 2 ^ 21)), g)
  | .pass n =>
    (.unit,
      if ¬ g.running then g
      else if g.timeout.cycles ≤ g.elapsed + n then .boot (g.resets + 1)
      else { g with elapsed := g.elapsed + n })

/-- The bits of `COP_CNTL` for it. -/
def Guard.cntl (g : Guard) : UInt32 :=
  (.ofNat g.timeout <<< timeoutShift) ||| (if g.running then copEn else 0) |||
    (if g.locked then copWp else 0)

/-- The register and the count are those of the watchdog. -/
structure Hw.Is (h : Hw) (g : Guard) : Prop where
  cntl : h.cntl = g.cntl
  elapsed : h.elapsed = g.elapsed
  resets : h.resets = g.resets

/-- The period is not over. -/
def Guard.InPeriod (g : Guard) : Prop := g.elapsed < g.timeout.cycles

/-! ## The bits of the register -/

theorem or_and_eq {a b m : UInt32} (h : b &&& m = 0) : (a ||| b) &&& m = a &&& m := by
  apply UInt32.toBitVec_inj.mp
  have hb := congrArg UInt32.toBitVec h
  simp only [UInt32.toBitVec_and, UInt32.toBitVec_or] at hb ⊢
  rw [BitVec.and_or_distrib_right, hb]
  exact BitVec.or_zero

/-- A field, shifted down and masked, is the field masked in place and shifted down. -/
theorem shiftRight_and_fieldMask (a : UInt32) :
    (a >>> timeoutShift) &&& fieldMask = (a &&& (fieldMask <<< timeoutShift)) >>> timeoutShift := by
  rw [UInt32.shiftRight_and]
  rfl

theorem countField_and (n : Fin 128) :
    (.ofNat n <<< countShift : UInt32) &&& copEn = 0 ∧
      (.ofNat n <<< countShift : UInt32) &&& copWp = 0 ∧
      (.ofNat n <<< countShift : UInt32) &&& (fieldMask <<< timeoutShift) = 0 ∧
      (.ofNat n <<< countShift : UInt32) &&& writable = 0 := by
  revert n
  decide

/-- The fields of `COP_CNTL`, as the watchdog has them. -/
structure Guard.Fields (g : Guard) (cntl : UInt32) : Prop where
  wp : cntl &&& copWp ≠ 0 ↔ g.locked = true
  en : cntl &&& copEn ≠ 0 ↔ g.running = true
  out : cntl &&& copOut = 0
  timeout : cntl &&& (fieldMask <<< timeoutShift) = .ofNat g.timeout <<< timeoutShift
  count : cntl >>> countShift &&& fieldMask = 0
  writable : cntl &&& writable = cntl

theorem Guard.fields (g : Guard) : g.Fields g.cntl := by
  have key : ∀ (running locked : Bool) (t : Timeout),
      let cntl : UInt32 := (.ofNat t <<< timeoutShift) ||| (if running then copEn else 0) |||
        (if locked then copWp else 0)
      (cntl &&& copWp ≠ 0 ↔ locked = true) ∧ (cntl &&& copEn ≠ 0 ↔ running = true) ∧
        cntl &&& copOut = 0 ∧ cntl &&& (fieldMask <<< timeoutShift) = .ofNat t <<< timeoutShift ∧
        cntl >>> countShift &&& fieldMask = 0 ∧ cntl &&& Watchdog.writable = cntl := by
    intro running locked
    cases running <;> cases locked <;> decide
  obtain ⟨hwp, hen, hout, hto, hcount, hwr⟩ := key g.running g.locked g.timeout
  exact ⟨hwp, hen, hout, hto, hcount, hwr⟩

theorem timeoutOf_field (t : Timeout) :
    (((.ofNat t <<< timeoutShift : UInt32)) >>> timeoutShift).toNat % 128 = t.val := by
  revert t
  decide

theorem countOf_field (n : Fin 128) :
    ((.ofNat n <<< countShift : UInt32) >>> countShift &&& fieldMask).toUInt8 = .ofNat n := by
  revert n
  decide

/-! ## The COP without its count -/

/-- The COP after `c` has become `c'`: its register is that of `c'`, and a service has restarted the
count. -/
def Hw.follow (h : Hw) (c c' : Cop) : Hw where
  cntl := c'.cntl
  elapsed := if c'.services = c.services then h.elapsed else 0
  resets := h.resets

section

variable {h : Hw} {c : Cop}

theorem Hw.readCntl_and (h : Hw) :
    h.readCntl &&& copWp = h.cntl &&& copWp ∧ h.readCntl &&& copEn = h.cntl &&& copEn ∧
      h.readCntl &&& (fieldMask <<< timeoutShift) = h.cntl &&& (fieldMask <<< timeoutShift) := by
  obtain ⟨hen, hwp, hto, -⟩ := countField_and (stepsIn h.elapsed)
  exact ⟨or_and_eq hwp, or_and_eq hen, or_and_eq hto⟩

/-- The configurations that `start` writes: they are kept, and leave the register unprotected. -/
theorem configuration_and (t : Timeout) (running : Bool) :
    let cntl : UInt32 := (.ofNat t <<< timeoutShift) ||| if running then copEn else 0
    cntl &&& writable = cntl ∧ cntl &&& copWp = 0 := by
  cases running <;> revert t <;> decide

/-- What a write does while the register is not protected. -/
theorem Hw.writeCntl_unlocked (hwp : h.cntl &&& copWp = 0) (v : UInt32) :
    h.writeCntl v = { h with cntl := v &&& writable } := by
  unfold Hw.writeCntl
  rw [if_neg (not_not_intro hwp)]

/-- A service. -/
theorem Hw.service_follows (hc : h.cntl = c.cntl) : h.service = h.follow c c.service := by
  unfold Hw.service Hw.follow Cop.service
  rw [if_neg (Nat.succ_ne_self _), hc]

/-- `Watchdog::stop` of the two answers the same, and leaves the same register. -/
theorem Hw.stop_follows (hc : h.cntl = c.cntl) :
    h.stop = (c.tryStop.1, h.follow c c.tryStop.2) := by
  obtain ⟨hwp, hen, hto⟩ := h.readCntl_and
  have hsame : h.follow c c = h := by
    unfold Hw.follow
    rw [if_pos rfl, ← hc]
  unfold Hw.stop Cop.tryStop
  dsimp only
  rw [hwp, hen, hto, hc]
  by_cases hl : c.cntl &&& copWp = 0
  · rw [if_neg (not_not_intro hl), if_neg (not_not_intro hl)]
    by_cases hr : c.cntl &&& copEn = 0
    · rw [if_neg (not_not_intro hr), if_neg (not_not_intro hr), hsame]
    · have hfield : fieldMask <<< timeoutShift &&& writable = fieldMask <<< timeoutShift := by decide
      rw [if_pos hr, if_pos hr, Hw.writeCntl_unlocked (hc ▸ hl), UInt32.and_assoc, hfield]
      simp only [Hw.follow, if_true]
  · rw [if_pos hl, if_pos hl, hsame]

theorem tryStop_ok {c' : Cop} (hs : c.tryStop = (.ok (), c')) :
    c'.cntl &&& copWp = 0 ∧ c'.services = c.services := by
  unfold Cop.tryStop at hs
  split at hs
  · cases hs
  · rename_i hl
    split at hs <;> cases hs
    · refine ⟨?_, rfl⟩
      have hfield : fieldMask <<< timeoutShift &&& copWp = 0 := by decide
      rw [UInt32.and_assoc, hfield, UInt32.and_zero]
    · exact ⟨Decidable.not_not.mp hl, rfl⟩

/-- So does `Watchdog::start`, which restarts the count exactly where it is counted as a service. -/
theorem Hw.start_follows (hc : h.cntl = c.cntl) (t : Timeout) :
    h.start t = ((c.tryStart t).1, h.follow c (c.tryStart t).2) := by
  unfold Hw.start Cop.tryStart
  rw [Hw.stop_follows hc]
  cases hs : c.tryStop with
  | mk r c' =>
    cases r with
    | error e => rfl
    | ok _ =>
      obtain ⟨hwp, hserv⟩ := tryStop_ok hs
      have hset := configuration_and t false
      have hrun := configuration_and t true
      simp only [Bool.false_eq_true, if_false, UInt32.or_zero, if_true] at hset hrun
      -- The two writes come through, and the services restart the count.
      have hfirst : (h.follow c c').writeCntl (.ofNat t <<< timeoutShift) =
          { h.follow c c' with cntl := .ofNat t <<< timeoutShift } := by
        rw [Hw.writeCntl_unlocked (show (h.follow c c').cntl &&& copWp = 0 from hwp), hset.1]
      have hsecond : ({ h.follow c c' with cntl := .ofNat t <<< timeoutShift } : Hw).service.writeCntl
          ((.ofNat t <<< timeoutShift) ||| copEn) =
          { h.follow c c' with cntl := (.ofNat t <<< timeoutShift) ||| copEn, elapsed := 0 } := by
        have hwp' : ({ h.follow c c' with cntl := .ofNat t <<< timeoutShift } : Hw).service.cntl &&&
            copWp = 0 := hset.2
        rw [Hw.writeCntl_unlocked hwp', hrun.1]
        rfl
      dsimp only
      rw [hfirst, hsecond]
      simp only [Hw.follow, Hw.service, Cop.service, hserv]
      rw [if_neg (by omega)]

end

/-! ## The driver -/

section

variable {h : Hw} {g : Guard}

theorem Hw.Is.readCntl (hg : h.Is g) :
    (h.readCntl &&& copWp ≠ 0 ↔ g.locked = true) ∧ (h.readCntl &&& copEn ≠ 0 ↔ g.running = true) ∧
      h.readCntl &&& (fieldMask <<< timeoutShift) = .ofNat g.timeout <<< timeoutShift := by
  obtain ⟨hwp, hen, hto⟩ := h.readCntl_and
  rw [hwp, hen, hto, hg.cntl]
  exact ⟨g.fields.wp, g.fields.en, g.fields.timeout⟩

theorem Hw.Is.timeout (hg : h.Is g) : h.timeout = g.timeout := by
  refine Fin.ext ?_
  change ((h.readCntl >>> timeoutShift) &&& fieldMask).toNat % 128 = _
  rw [shiftRight_and_fieldMask, hg.readCntl.2.2]
  exact timeoutOf_field g.timeout

theorem Hw.Is.timeoutOf (hg : h.Is g) : timeoutOf h.cntl = g.timeout := by
  refine Fin.ext ?_
  change ((h.cntl >>> timeoutShift) &&& fieldMask).toNat % 128 = _
  rw [shiftRight_and_fieldMask, hg.cntl, g.fields.timeout]
  exact timeoutOf_field g.timeout

/-- The count is that of the whole steps, none of which is lost. -/
theorem Hw.Is.count (hg : h.Is g) (hp : g.InPeriod) : h.count = .ofNat (g.elapsed / 2 ^ 21) := by
  have hlt : g.elapsed / 2 ^ 21 < 128 := by
    have := Nat.lt_of_lt_of_le hp (cycles_le g.timeout)
    omega
  have hsteps : (stepsIn h.elapsed).val = g.elapsed / 2 ^ 21 := by
    rw [hg.elapsed]
    exact Nat.mod_eq_of_lt hlt
  unfold Hw.count Hw.readCntl
  rw [UInt32.shiftRight_or, UInt32.or_comm, or_and_eq, countOf_field, hsteps]
  rw [hg.cntl]
  exact g.fields.count

theorem Hw.Is.unlocked (hg : h.Is g) (hl : g.locked = false) : h.cntl &&& copWp = 0 := by
  rw [hg.cntl]
  refine Decidable.byContradiction fun hne => ?_
  rw [g.fields.wp.mp hne] at hl
  cases hl

/-- A write of a configuration, which leaves the register unprotected. -/
theorem Hw.Is.write (hg : h.Is g) (hl : g.locked = false) (running : Bool) (t : Timeout) :
    (h.writeCntl ((.ofNat t <<< timeoutShift) ||| if running then copEn else 0)).Is
      { g with running := running, timeout := t } := by
  have hwr := { g with running := running, timeout := t : Guard }.fields.writable
  rw [Hw.writeCntl_unlocked (hg.unlocked hl)]
  refine ⟨?_, hg.elapsed, hg.resets⟩
  simp only [Guard.cntl, hl, Bool.false_eq_true, if_false, UInt32.or_zero] at hwr ⊢
  exact hwr

theorem Hw.Is.service (hg : h.Is g) : h.service.Is { g with elapsed := 0 } :=
  ⟨hg.cntl, rfl, hg.resets⟩

theorem Hw.Is.stop_locked (hg : h.Is g) (hl : g.locked = true) : h.stop = (.error {}, h) := by
  unfold Hw.stop
  rw [if_pos (hg.readCntl.1.mpr hl)]

theorem Hw.Is.stop_unlocked (hg : h.Is g) (hl : g.locked = false) :
    h.stop.1 = .ok () ∧ h.stop.2.Is { g with running := false } := by
  obtain ⟨hwp, hen, hto⟩ := hg.readCntl
  unfold Hw.stop
  rw [if_neg fun hne => Bool.false_ne_true (hl.symm.trans (hwp.mp hne))]
  by_cases hr : g.running = true
  · rw [if_pos (hen.mpr hr), hto]
    have hw := hg.write hl false g.timeout
    simp only [Bool.false_eq_true, if_false, UInt32.or_zero] at hw
    exact ⟨rfl, hw⟩
  · rw [if_neg fun hne => hr (hen.mp hne), ← Bool.eq_false_of_not_eq_true hr]
    exact ⟨rfl, hg⟩

theorem Hw.Is.start_locked (hg : h.Is g) (hl : g.locked = true) (t : Timeout) :
    h.start t = (.error {}, h) := by
  unfold Hw.start
  rw [hg.stop_locked hl]

theorem Hw.Is.start_unlocked (hg : h.Is g) (hl : g.locked = false) (t : Timeout) :
    (h.start t).1 = .ok () ∧
      (h.start t).2.Is { g with running := true, timeout := t, elapsed := 0 } := by
  obtain ⟨hok, hs⟩ := hg.stop_unlocked hl
  have hset := (hs.write hl false t).service
  simp only [Bool.false_eq_true, if_false, UInt32.or_zero] at hset
  have hrun := (hset.write hl true t).service
  simp only [if_true] at hrun
  unfold Hw.start
  cases hstop : h.stop with
  | mk r h' =>
    rw [hstop] at hok hrun
    obtain rfl : r = .ok () := hok
    exact ⟨rfl, hrun⟩

theorem Hw.Is.lock (hg : h.Is g) : h.lock.Is { g with locked := true } := by
  unfold Hw.lock
  by_cases hl : g.locked = true
  · unfold Hw.writeCntl
    rw [hg.cntl, if_pos (g.fields.wp.mpr hl), ← hl]
    exact hg
  · have hl := Bool.eq_false_of_not_eq_true hl
    have hwr := { g with locked := true : Guard }.fields.writable
    have hread : (h.readCntl ||| copWp) &&& writable = (h.cntl ||| copWp) &&& writable := by
      unfold Hw.readCntl
      rw [UInt32.or_assoc, UInt32.or_comm _ copWp, ← UInt32.or_assoc,
        or_and_eq (countField_and (stepsIn h.elapsed)).2.2.2]
    rw [Hw.writeCntl_unlocked (hg.unlocked hl), hread, hg.cntl]
    refine ⟨?_, hg.elapsed, hg.resets⟩
    simp only [Guard.cntl, hl, Bool.false_eq_true, if_false, UInt32.or_zero, if_true] at hwr ⊢
    exact hwr

theorem Hw.boot_is (n : Nat) : (Hw.boot n).Is (.boot n) ∧ (Guard.boot n).InPeriod :=
  have hcntl : (0 : UInt32) = (Guard.boot n).cntl := by
    change (0 : UInt32) = (Guard.boot 0).cntl
    decide
  ⟨⟨hcntl, rfl, rfl⟩, Nat.mul_pos (Nat.succ_pos 0) (by decide)⟩

theorem Hw.Is.pass (hg : h.Is g) (hp : g.InPeriod) (n : Nat) :
    (h.pass n).Is (g.call (.pass n)).2 ∧ (g.call (.pass n)).2.InPeriod := by
  have hto := hg.timeoutOf
  unfold Hw.pass
  simp only [Guard.call]
  rw [hto, hg.elapsed, hg.resets, hg.cntl]
  by_cases hr : g.running = true
  · rw [if_neg (g.fields.en.mpr hr), if_neg (not_not_intro hr)]
    by_cases hle : g.timeout.cycles ≤ g.elapsed + n
    · rw [if_pos ⟨g.fields.out, hle⟩, if_pos hle]
      exact Hw.boot_is (g.resets + 1)
    · rw [if_neg fun hc => hle hc.2, if_neg hle]
      exact ⟨⟨rfl, rfl, rfl⟩, Nat.lt_of_not_le hle⟩
  · rw [if_pos (Decidable.not_not.mp fun hne => hr (g.fields.en.mp hne)), if_pos hr]
    exact ⟨hg, hp⟩

/-- Time for a COP that has been started. -/
theorem Hw.pass_running (t : Timeout) (e r n : Nat) :
    let s := (Hw.mk ((.ofNat t <<< timeoutShift) ||| copEn) e r).pass n
    (e + n < t.cycles → s.elapsed = e + n ∧ s.resets = r) ∧
      (t.cycles ≤ e + n → s.resets = r + 1) := by
  have hg : (Hw.mk ((.ofNat t <<< timeoutShift) ||| copEn) e r).Is ⟨true, false, t, e, r⟩ :=
    ⟨by simp [Guard.cntl], rfl, rfl⟩
  obtain ⟨hen, hout⟩ := And.intro (Guard.fields ⟨true, false, t, e, r⟩).en.mpr
    (Guard.fields ⟨true, false, t, e, r⟩).out
  have hto := hg.timeoutOf
  rw [← hg.cntl] at hen hout
  simp only [Hw.pass, hto, if_neg (hen rfl), hout, true_and]
  constructor
  · intro hlt
    rw [if_neg (Nat.not_le.mpr hlt)]
    exact ⟨rfl, rfl⟩
  · intro hle
    rw [if_pos hle]
    rfl

/-- Each call answers as the watchdog does, and leaves it. -/
theorem Hw.Is.call (hg : h.Is g) (hp : g.InPeriod) (o : Op) :
    (h.call o).1 = (g.call o).1 ∧ (h.call o).2.Is (g.call o).2 ∧ (g.call o).2.InPeriod := by
  cases o with
  | start t =>
    simp only [Hw.call, Guard.call]
    by_cases hl : g.locked = true
    · rw [hg.start_locked hl, if_pos hl]
      exact ⟨rfl, hg, hp⟩
    · obtain ⟨hok, hs⟩ := hg.start_unlocked (Bool.eq_false_of_not_eq_true hl) t
      rw [if_neg hl]
      refine ⟨congrArg _ hok, hs, ?_⟩
      exact Nat.mul_pos (Nat.succ_pos t.val) (by decide)
  | stop =>
    simp only [Hw.call, Guard.call]
    by_cases hl : g.locked = true
    · rw [hg.stop_locked hl, if_pos hl]
      exact ⟨rfl, hg, hp⟩
    · obtain ⟨hok, hs⟩ := hg.stop_unlocked (Bool.eq_false_of_not_eq_true hl)
      rw [if_neg hl]
      exact ⟨congrArg _ hok, hs, hp⟩
  | feed => exact ⟨rfl, hg.service, Nat.mul_pos (Nat.succ_pos _) (by decide)⟩
  | lock => exact ⟨rfl, hg.lock, hp⟩
  | isRunning =>
    refine ⟨congrArg Answer.bool ?_, hg, hp⟩
    exact Bool.eq_iff_iff.mpr (decide_eq_true_iff.trans hg.readCntl.2.1)
  | isLocked =>
    refine ⟨congrArg Answer.bool ?_, hg, hp⟩
    exact Bool.eq_iff_iff.mpr (decide_eq_true_iff.trans hg.readCntl.1)
  | timeout => exact ⟨congrArg Answer.timeout hg.timeout, hg, hp⟩
  | count => exact ⟨congrArg Answer.count (hg.count hp), hg, hp⟩
  | pass n => exact ⟨rfl, hg.pass hp n⟩

end

/-- **The driver.** From a reset on, whatever is called and whenever, every call answers as the
watchdog does, and the register and the count stay its own, also over the resets. -/
theorem driver_refines (n : Nat) (ops : List Op) :
    (Machine.run Hw.call (.boot n) ops).1 = (Machine.run Guard.call (.boot n) ops).1 ∧
      (Machine.run Hw.call (.boot n) ops).2.Is (Machine.run Guard.call (.boot n) ops).2 := by
  have hsim : Machine.Simulates (fun _ : Op => True) Hw.call Guard.call
      fun h g => h.Is g ∧ g.InPeriod := fun h g o hr _ => hr.1.call hr.2 o
  have hall : ∀ o ∈ ops, True := fun _ _ => trivial
  obtain ⟨ha, hr⟩ := hsim.run (Hw.boot_is n) hall
  exact ⟨ha, hr.1⟩

/-! ## Locked -/

/-- What code that has gone astray may do as well. -/
inductive Act where
  | call (o : Op)
  /-- A write to `COP_CNTL`. -/
  | write (value : UInt32)

/-- A call, or a write of the register that is no call. -/
def Hw.act (h : Hw) : Act → Hw
  | .call o => (h.call o).2
  | .write value => h.writeCntl value

/-- The act services the COP. -/
def Act.Feeds (a : Act) : Prop := a = .call .feed

/-- The cycles that pass. -/
def Act.cycles : Act → Nat
  | .call (.pass n) => n
  | _ => 0

/-- The cycles that pass in some acts. -/
def passed (as : List Act) : Nat := (as.map Act.cycles).sum

/-- The count gets to `p` in some acts, from `e` on. -/
def Expires (p : Nat) : Nat → List Act → Prop
  | _, [] => False
  | _, .call .feed :: as => Expires p 0 as
  | e, a :: as => p ≤ e + a.cycles ∨ Expires p (e + a.cycles) as

/-- Somewhere in the acts `p` cycles pass without a feed. -/
def Neglects (p : Nat) (as : List Act) : Prop :=
  ∃ l m r, as = l ++ m ++ r ∧ (∀ a ∈ m, ¬ a.Feeds) ∧ p ≤ passed m

section

variable {h : Hw} {g : Guard} {p e : Nat}

theorem expires_cons {a : Act} (ha : ¬ a.Feeds) (as : List Act) :
    Expires p e (a :: as) ↔ p ≤ e + a.cycles ∨ Expires p (e + a.cycles) as := by
  cases a with
  | write value => exact Iff.rfl
  | call o =>
    cases o with
    | feed => exact absurd rfl ha
    | _ => exact Iff.rfl

theorem Expires.mono {e' : Nat} (he : e ≤ e') {as : List Act} (h : Expires p e as) :
    Expires p e' as := by
  induction as generalizing e e' with
  | nil => exact h
  | cons a as ih =>
    by_cases ha : a.Feeds
    · obtain rfl : a = .call .feed := ha
      exact h
    · rw [expires_cons ha] at h ⊢
      exact h.imp (fun hp => by omega) (ih (by omega))

theorem expires_of_passed (he : e < p) {m : List Act} (hm : ∀ a ∈ m, ¬ a.Feeds)
    (hp : p ≤ e + passed m) (r : List Act) : Expires p e (m ++ r) := by
  induction m generalizing e with
  | nil => exact absurd he (Nat.not_lt.mpr hp)
  | cons a m ih =>
    rw [List.cons_append, expires_cons (hm a (List.mem_cons_self ..))]
    by_cases hle : p ≤ e + a.cycles
    · exact .inl hle
    · refine .inr (ih (Nat.lt_of_not_le hle) (fun b hb => hm b (List.mem_cons_of_mem _ hb)) ?_)
      simp only [passed, List.map_cons, List.sum_cons] at hp ⊢
      omega

/-- The acts before a stretch without a feed can only have counted. -/
theorem Expires.append {as : List Act} (h : Expires p 0 as) (l : List Act) :
    Expires p e (l ++ as) := by
  induction l generalizing e with
  | nil => exact h.mono (Nat.zero_le e)
  | cons a l ih =>
    rw [List.cons_append]
    by_cases ha : a.Feeds
    · obtain rfl : a = .call .feed := ha
      exact ih
    · rw [expires_cons ha]
      exact .inr ih

theorem Expires.neglects {as : List Act} (h : Expires p e as) :
    (∃ m r, as = m ++ r ∧ (∀ a ∈ m, ¬ a.Feeds) ∧ p ≤ e + passed m) ∨ Neglects p as := by
  induction as generalizing e with
  | nil => exact h.elim
  | cons a as ih =>
    have hcons : Neglects p as → Neglects p (a :: as) := by
      rintro ⟨l, m, r, rfl, hm, hp⟩
      exact ⟨a :: l, m, r, rfl, hm, hp⟩
    by_cases ha : a.Feeds
    · obtain rfl : a = .call .feed := ha
      -- A feed starts a new count: what is neglected comes after it.
      rcases ih (e := 0) h with ⟨m, r, rfl, hm, hp⟩ | hn
      · exact .inr ⟨[.call .feed], m, r, rfl, hm, by omega⟩
      · exact .inr (hcons hn)
    · rw [expires_cons ha] at h
      rcases h with hp | h
      · refine .inl ⟨[a], as, rfl, ?_, by simpa [passed] using hp⟩
        intro b hb
        rw [List.mem_singleton.mp hb]
        exact ha
      · rcases ih h with ⟨m, r, rfl, hm, hp⟩ | hn
        · refine .inl ⟨a :: m, r, rfl, ?_, ?_⟩
          · intro b hb
            rcases List.mem_cons.mp hb with rfl | hb
            · exact ha
            · exact hm b hb
          · simp only [passed, List.map_cons, List.sum_cons] at hp ⊢
            omega
        · exact .inr (hcons hn)

theorem expires_iff_neglects (hp : 0 < p) (as : List Act) : Expires p 0 as ↔ Neglects p as := by
  constructor
  · intro h
    rcases h.neglects with ⟨m, r, rfl, hm, hle⟩ | hn
    · exact ⟨[], m, r, rfl, hm, by omega⟩
    · exact hn
  · rintro ⟨l, m, r, rfl, hm, hle⟩
    rw [List.append_assoc]
    exact (expires_of_passed hp hm (by omega) r).append l

/-- An act on the locked COP that runs: it resets the chip, or it counts, or it is a feed. -/
theorem Hw.Is.act (hg : h.Is g) (hp : g.InPeriod) (hl : g.locked = true) (hr : g.running = true)
    (a : Act) :
    (a.Feeds ∧ (h.act a).Is { g with elapsed := 0 }) ∨
      (¬ a.Feeds ∧ g.timeout.cycles ≤ g.elapsed + a.cycles ∧ (h.act a).resets = g.resets + 1) ∨
      (¬ a.Feeds ∧ g.elapsed + a.cycles < g.timeout.cycles ∧
        (h.act a).Is { g with elapsed := g.elapsed + a.cycles }) := by
  have hstay : ∀ a : Act, ¬ a.Feeds → a.cycles = 0 → h.act a = h →
      ¬ a.Feeds ∧ g.elapsed + a.cycles < g.timeout.cycles ∧
        (h.act a).Is { g with elapsed := g.elapsed + a.cycles } := by
    intro a ha hc hact
    rw [hc, hact]
    exact ⟨ha, hp, hg⟩
  cases a with
  | write value =>
    -- The write protection keeps the register.
    refine .inr (.inr (hstay _ nofun rfl ?_))
    show h.writeCntl value = h
    unfold Hw.writeCntl
    rw [hg.cntl, if_pos (g.fields.wp.mpr hl)]
  | call o =>
    cases o with
    | feed => exact .inl ⟨rfl, hg.service⟩
    | start t =>
      refine .inr (.inr (hstay _ nofun rfl ?_))
      show (h.start t).2 = h
      rw [hg.start_locked hl]
    | stop =>
      refine .inr (.inr (hstay _ nofun rfl ?_))
      show h.stop.2 = h
      rw [hg.stop_locked hl]
    | lock =>
      refine .inr (.inr ⟨nofun, hp, ?_⟩)
      have hlock := hg.lock
      rw [← hl] at hlock
      exact hlock
    | isRunning | isLocked | timeout | count => exact .inr (.inr (hstay _ nofun rfl rfl))
    | pass n =>
      obtain ⟨hpass, -⟩ := hg.pass hp n
      simp only [Guard.call, if_neg (not_not_intro hr)] at hpass
      by_cases hle : g.timeout.cycles ≤ g.elapsed + n
      · rw [if_pos hle] at hpass
        exact .inr (.inl ⟨nofun, hle, hpass.resets⟩)
      · rw [if_neg hle] at hpass
        exact .inr (.inr ⟨nofun, Nat.lt_of_not_le hle, hpass⟩)

/-- No act undoes a reset. -/
theorem Hw.act_resets (h : Hw) (a : Act) : h.resets ≤ (h.act a).resets := by
  have hw : ∀ (h : Hw) (v : UInt32), (h.writeCntl v).resets = h.resets := by
    intro h v
    unfold Hw.writeCntl
    split <;> rfl
  have hstop : ∀ h : Hw, h.stop.2.resets = h.resets := by
    intro h
    unfold Hw.stop
    dsimp only
    split
    · rfl
    · split
      · exact hw _ _
      · rfl
  -- Only the passing of time resets, and it adds to the count.
  cases a with
  | write value => exact (hw h value).ge
  | call o =>
    cases o with
    | start t =>
      show h.resets ≤ (h.start t).2.resets
      have hs := hstop h
      unfold Hw.start
      split
      · rename_i hst
        rw [hst] at hs
        exact hs.ge
      · rename_i hst
        rw [hst] at hs
        simp only [Hw.service, hw]
        exact hs.ge
    | stop => exact (hstop h).ge
    | lock => exact (hw h _).ge
    | pass n =>
      show h.resets ≤ (h.pass n).resets
      unfold Hw.pass
      split
      · exact Nat.le_refl _
      · split
        · exact Nat.le_succ _
        · exact Nat.le_refl _
    | feed | isRunning | isLocked | timeout | count => exact Nat.le_refl _

theorem Hw.acts_resets (h : Hw) (as : List Act) : h.resets ≤ (as.foldl Hw.act h).resets := by
  induction as generalizing h with
  | nil => exact Nat.le_refl _
  | cons a as ih => exact Nat.le_trans (h.act_resets a) (ih (h.act a))

theorem Hw.Is.acts (hg : h.Is g) (hp : g.InPeriod) (hl : g.locked = true) (hr : g.running = true)
    (as : List Act) :
    g.resets < (as.foldl Hw.act h).resets ↔ Expires g.timeout.cycles g.elapsed as := by
  induction as generalizing h g with
  | nil =>
    rw [List.foldl_nil, hg.resets]
    exact iff_of_false (Nat.lt_irrefl _) id
  | cons a as ih =>
    rw [List.foldl_cons]
    rcases hg.act hp hl hr a with ⟨ha, hg'⟩ | ⟨ha, hle, hres⟩ | ⟨ha, hlt, hg'⟩
    · obtain rfl : a = .call .feed := ha
      exact ih hg' (Nat.mul_pos (Nat.succ_pos _) (by decide)) hl hr
    · have hmono := (h.act a).acts_resets as
      rw [expires_cons ha]
      exact iff_of_true (by omega) (.inl hle)
    · rw [expires_cons ha, or_iff_right (Nat.not_le.mpr hlt)]
      exact ih hg' hlt hl hr

end

/-- Whatever is in an unlocked register, `start` sets it all. -/
theorem Hw.start_eq {h : Hw} (hwp : h.cntl &&& copWp = 0) (t : Timeout) :
    h.start t = (.ok (), ⟨(.ofNat t <<< timeoutShift) ||| copEn, 0, h.resets⟩) := by
  obtain ⟨-, hcount, -⟩ := countField_and (stepsIn h.elapsed)
  have hread : h.readCntl &&& copWp = 0 := by
    unfold Hw.readCntl
    rw [or_and_eq hcount, hwp]
  -- `stop` writes the time-out field only, so the register stays unlocked.
  have hmask : ∀ v : UInt32, (v &&& (fieldMask <<< timeoutShift)) &&& writable &&& copWp = 0 := by
    intro v
    rw [UInt32.and_assoc, UInt32.and_assoc]
    exact UInt32.and_zero
  have hset : (.ofNat t <<< timeoutShift : UInt32) &&& writable &&& copWp = 0 ∧
      ((.ofNat t <<< timeoutShift) ||| copEn) &&& writable =
        (.ofNat t <<< timeoutShift) ||| copEn := by
    revert t
    decide
  have hstop : ∃ v, h.stop = (.ok (), { h with cntl := v }) ∧ v &&& copWp = 0 := by
    unfold Hw.stop
    rw [if_neg (not_not_intro hread)]
    split
    · rw [Hw.writeCntl_unlocked hwp]
      exact ⟨_, rfl, hmask _⟩
    · exact ⟨h.cntl, rfl, hwp⟩
  obtain ⟨v, hstop, hv⟩ := hstop
  unfold Hw.start
  rw [hstop]
  simp only [Hw.writeCntl, Hw.service, hv, hset.1, hset.2, ne_eq, not_true_eq_false, if_false]

/-- **The lock.** Once the COP has been started and locked, it resets the chip in a run of calls,
of time and of writes to its register if and only if for a period of that run it is not fed. -/
theorem locked_resets_iff {h : Hw} (hwp : h.cntl &&& copWp = 0) (t : Timeout) (as : List Act) :
    h.resets < (as.foldl Hw.act (h.start t).2.lock).resets ↔ Neglects t.cycles as := by
  have hcycles : 0 < t.cycles := Nat.mul_pos (Nat.succ_pos _) (by decide)
  have hg : (h.start t).2.Is ⟨true, false, t, 0, h.resets⟩ := by
    rw [Hw.start_eq hwp]
    exact ⟨by simp [Guard.cntl], rfl, rfl⟩
  have hacts := hg.lock.acts hcycles rfl rfl as
  rw [← expires_iff_neglects hcycles]
  exact hacts

/-- A COP that counts to 8 s with a time-out in its register, and is locked at the longest. -/
theorem locked_resets_iff_fed : 3 < ([Act.call (.pass 200000000), .write 0, .call .feed,
    .call (.pass 268435456)].foldl Hw.act
      ((Hw.mk 0x5B01 7 3).start (Fin.last 127)).2.lock).resets := by
  refine (locked_resets_iff (h := ⟨0x5B01, 7, 3⟩) (by decide) (Fin.last 127) _).mpr ?_
  exact ⟨[.call (.pass 200000000), .write 0, .call .feed], [.call (.pass 268435456)], [], rfl,
    by simp [Act.Feeds], by decide⟩

end Mc1322x.Watchdog
