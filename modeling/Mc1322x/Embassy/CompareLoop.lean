import Mc1322x.Embassy.Clock

/-!
# The loop of `arm_next_compare` (`mc1322x-embassy/src/time_driver.rs`)

`armNextCompare` is the loop with the readings of the counter that it makes. The counter may run by
less than a period between two of them (`Slow`).

* `armNextCompare_eq`: the loop ends at the first reading that is not behind, with the boundary
  moved by one period for each reading before it.
* `arm_catches_up`: what holds then of the compare register and of the clock.
* `armNextCompare_run`: the loop is that of the runs of `Sys`.
-/

namespace Mc1322x.TimeDriver

variable {Q : Type}

/-- What the loop leaves: the driver, the last write of the compare register and the last reading of
the counter. -/
structure Armed (Q : Type) where
  drv : TmrDriver Q
  comp1 : UInt16
  cntr : UInt16

/-- `arm_next_compare` with its readings of the counter; `none` after `fuel` rounds. -/
def armNextCompare : Nat → (Nat → UInt16) → TmrDriver Q → Option (Armed Q)
  | 0, _, _ => none
  | fuel + 1, reads, d => match armStep d (reads 0) with
    | none => some ⟨d, nextBoundary d, reads 0⟩
    | some d => armNextCompare fuel (fun n => reads (n + 1)) d

/-- The driver after `k` rounds. -/
def TmrDriver.caughtUp (d : TmrDriver Q) (k : Nat) : TmrDriver Q :=
  { d with
    base := d.base + .ofNat k
    lastBoundary := d.lastBoundary + .ofNat (k * period) }

/-- The true positions of the counter at the readings: it runs by less than a period between
them. -/
structure Slow (pos : Nat → Nat) : Prop where
  mono : ∀ n, pos n ≤ pos (n + 1)
  slow : ∀ n, pos (n + 1) < pos n + period

/-- The instant, in counts, that `base` at the boundary `b` gives to the position `p`. -/
def instant (base : UInt64) (b p : Nat) : Int := base.toNat * period + ((p : Int) - b)

/-! ## The rounds -/

section

variable {d : TmrDriver Q}

theorem caughtUp_zero : d.caughtUp 0 = d := by
  unfold TmrDriver.caughtUp
  rw [Nat.zero_mul, show UInt64.ofNat 0 = 0 from rfl, show UInt16.ofNat 0 = 0 from rfl,
    UInt64.add_zero, UInt16.add_zero]

theorem caughtUp_succ (k : Nat) : (d.caughtUp 1).caughtUp k = d.caughtUp (k + 1) := by
  unfold TmrDriver.caughtUp
  simp only [UInt64.add_assoc, UInt16.add_assoc, Word.ofNat64_add, Word.ofNat16_add, Nat.add_mul,
    Nat.add_comm]

/-- A reading that is a period or more after the boundary. -/
theorem armStep_behind {cntr : UInt16} (h : period ≤ (d.since cntr).toNat) :
    armStep d cntr = some (d.caughtUp 1) :=
  (armStep_eq_some d).mpr ⟨h, by rw [TmrDriver.caughtUp, Nat.one_mul]⟩

/-- The loop goes on for the readings that are behind and ends at the first that is not. -/
theorem armNextCompare_eq (reads : Nat → UInt16) {k : Nat}
    (hbehind : ∀ n < k, period ≤ ((d.caughtUp n).since (reads n)).toNat)
    (hend : ((d.caughtUp k).since (reads k)).toNat < period) {fuel : Nat} (hfuel : k < fuel) :
    armNextCompare fuel reads d =
      some ⟨d.caughtUp k, nextBoundary (d.caughtUp k), reads k⟩ := by
  induction k generalizing d reads fuel with
  | zero =>
    obtain ⟨fuel, rfl⟩ := Nat.exists_eq_succ_of_ne_zero (Nat.ne_zero_of_lt hfuel)
    rw [caughtUp_zero] at hend ⊢
    rw [armNextCompare, (armStep_eq_none d).mpr hend]
  | succ k ih =>
    obtain ⟨fuel, rfl⟩ := Nat.exists_eq_succ_of_ne_zero (Nat.ne_zero_of_lt hfuel)
    have hfirst := hbehind 0 (Nat.succ_pos k)
    rw [caughtUp_zero] at hfirst
    rw [armNextCompare, armStep_behind hfirst, ← caughtUp_succ k]
    show armNextCompare fuel (fun n => reads (n + 1)) (d.caughtUp 1) = _
    refine ih (fun n => reads (n + 1)) (fun n hn => ?_) ?_ (Nat.lt_of_succ_lt_succ hfuel)
    · rw [caughtUp_succ]
      exact hbehind (n + 1) (Nat.succ_lt_succ hn)
    · rw [caughtUp_succ]
      exact hend

/-- The counts since a boundary that has been moved, while it has not passed the counter. -/
theorem since_caughtUp {b k p : Nat} (hb : d.lastBoundary = .ofNat b)
    (hle : b + k * period ≤ p) (hlt : p < b + k * period + 65536) :
    ((d.caughtUp k).since (.ofNat p)).toNat = p - (b + k * period) := by
  unfold TmrDriver.since TmrDriver.caughtUp
  dsimp only
  rw [hb, Word.ofNat16_add]
  exact Word.sub_ofNat16 hle hlt

/-- `base` together with the boundary gives each position the same instant as before, in the range
of `u64`. -/
theorem instant_caughtUp (b k p : Nat) :
    instant (d.caughtUp k).base (b + k * period) p % (2 ^ 64 * period) =
      instant d.base b p % (2 ^ 64 * period) := by
  unfold instant TmrDriver.caughtUp
  simp only [UInt64.toNat_add, UInt64.toNat_ofNat', period_eq]
  omega

theorem instant_caughtUp_of_lt {b k : Nat} (hk : d.base.toNat + k < 2 ^ 64) (p : Nat) :
    instant (d.caughtUp k).base (b + k * period) p = instant d.base b p := by
  unfold instant TmrDriver.caughtUp
  simp only [UInt64.toNat_add, UInt64.toNat_ofNat', period_eq]
  omega

/-- The match at the next boundary is ahead of a reading that is within a period of this one. -/
theorem ahead_of_since_lt {cntr : UInt16} (h : (d.since cntr).toNat < period) :
    0 < (nextBoundary d - cntr).toNat ∧ (nextBoundary d - cntr).toNat ≤ period := by
  unfold nextBoundary
  unfold TmrDriver.since at h
  simp only [UInt16.toNat_sub, UInt16.toNat_add, UInt16.toNat_ofNat', period_eq] at *
  have hc := cntr.toNat_lt
  have hl := d.lastBoundary.toNat_lt
  omega

end

/-- **`arm_next_compare` catches up and stops.** From every driver whose boundary is less than one
wrap behind the counter, while the counter runs by less than a period between two readings, the loop
ends. Then the compare register holds the boundary after `last_boundary`, the last reading is less
than a period after `last_boundary`, so that the match is ahead of it, and `base` with
`last_boundary` denotes the same instant as before: exactly while `base` does not wrap, and in any
case in the range of `u64`. -/
theorem arm_catches_up (d : TmrDriver Q) {b : Nat} {pos : Nat → Nat}
    (hb : d.lastBoundary = .ofNat b) (hpos : Slow pos) (hle : b ≤ pos 0)
    (hlag : pos 0 < b + 65536) :
    ∃ k out, (∀ fuel > k, armNextCompare fuel (fun n => .ofNat (pos n)) d = some out) ∧
      out.comp1 = out.drv.lastBoundary + 375 ∧ out.cntr = .ofNat (pos k) ∧
      (out.cntr - out.drv.lastBoundary).toNat < 375 ∧
      0 < (out.comp1 - out.cntr).toNat ∧ (out.comp1 - out.cntr).toNat ≤ 375 ∧
      out.drv = d.caughtUp k ∧ out.drv.lastBoundary = .ofNat (b + k * period) ∧
      b + k * period ≤ pos k ∧ pos k < b + k * period + period ∧
      (∀ p, instant out.drv.base (b + k * period) p % (2 ^ 64 * period) =
        instant d.base b p % (2 ^ 64 * period)) ∧
      (d.base.toNat + k < 2 ^ 64 →
        ∀ p, instant out.drv.base (b + k * period) p = instant d.base b p) := by
  obtain ⟨k, hbehind, hreach, hend⟩ := Word.exists_caught hpos.mono hpos.slow hle
  -- Each round moves the boundary further than the counter, so the lag never wraps.
  have hwrap : ∀ n, pos n < b + n * period + 65536 := by
    intro n
    have hn := Word.pos_add_le hpos.slow n
    omega
  have hlast : ((d.caughtUp k).since (.ofNat (pos k))).toNat < period := by
    rw [since_caughtUp hb hreach (hwrap k)]
    omega
  have hloop : ∀ fuel > k, armNextCompare fuel (fun n => .ofNat (pos n)) d =
      some ⟨d.caughtUp k, nextBoundary (d.caughtUp k), .ofNat (pos k)⟩ := by
    intro fuel hfuel
    refine armNextCompare_eq (fun n => .ofNat (pos n)) (fun n hn => ?_) hlast hfuel
    have hn' := hbehind n hn
    rw [since_caughtUp hb (by omega) (hwrap n)]
    omega
  have hahead := ahead_of_since_lt hlast
  have hmoved : (d.caughtUp k).lastBoundary = .ofNat (b + k * period) := by
    unfold TmrDriver.caughtUp
    rw [hb, Word.ofNat16_add]
  exact ⟨k, _, hloop, rfl, rfl, hlast, hahead.1, hahead.2, rfl, hmoved, hreach, hend,
    fun p => instant_caughtUp b k p, fun hk p => instant_caughtUp_of_lt hk p⟩

/-- A driver 1000 counts after its boundary, with `base` at `base`. -/
def behind (base : UInt64) : TmrDriver (List (UInt64 × Nat)) :=
  { base := base, lastBoundary := 0, queue := [], nextAlarm := none }

/-- The counter runs by 100 counts between two readings, from 1000 on. -/
def steady (n : Nat) : Nat := 1000 + 100 * n

theorem steady_slow : Slow steady where
  mono n := by
    unfold steady
    omega
  slow n := by
    rw [period_eq]
    unfold steady
    omega

/-- At tick 5, 1000 counts behind. -/
theorem arm_catches_up_at_5 :
    ∃ k out, (∀ fuel > k, armNextCompare fuel (fun n => .ofNat (steady n)) (behind 5) = some out) ∧
      out.comp1 = out.drv.lastBoundary + 375 ∧ out.cntr = .ofNat (steady k) ∧
      (out.cntr - out.drv.lastBoundary).toNat < 375 := by
  obtain ⟨k, out, hloop, hcomp, hread, hlast, -⟩ := arm_catches_up (behind 5) (b := 0) rfl
    steady_slow (Nat.zero_le _) (by decide)
  exact ⟨k, out, hloop, hcomp, hread, hlast⟩

/-- At the last tick of `u64` the loop moves `base` to 2 with the boundary, and the instant of each
position is `2 ^ 64` ticks earlier than before. -/
theorem arm_wraps :
    Slow steady ∧ steady 0 < 65536 ∧
      ∃ out, armNextCompare 4 (fun n => .ofNat (steady n)) (behind u64Max) = some out ∧
        out.drv.lastBoundary = .ofNat (3 * period) ∧ out.drv.base = 2 ∧
        ∀ p, instant out.drv.base (3 * period) p = instant u64Max 0 p - 2 ^ 64 * period := by
  refine ⟨steady_slow, by decide, _, rfl, rfl, rfl, fun p => ?_⟩
  have hbase : ((behind u64Max).caughtUp 3).base.toNat = 2 := rfl
  have hmax : u64Max.toNat = 2 ^ 64 - 1 := rfl
  show instant ((behind u64Max).caughtUp 3).base (3 * period) p = _
  unfold instant
  rw [hbase, hmax, period_eq]
  omega

/-! ## The runs of the driver -/

/-- The loop is that of the runs of the driver, from the write of the compare register to
`process_queue`. -/
theorem armNextCompare_run {Waker : Type} (T : TimerQueue Q Waker) {init : Sys Q → Prop}
    {pos : Nat → Nat} (hmono : ∀ n, pos n ≤ pos (n + 1)) {s : Sys Q} (hpc : s.pc = .arm)
    (hs : s.count ≤ pos 0) {fuel : Nat} {out : Armed Q}
    (h : armNextCompare fuel (fun n => .ofNat (pos n)) s.drv = some out) :
    ∃ tr s', (clock T init).Run s tr s' ∧ s'.pc = .process ∧ s'.drv = out.drv ∧
      s'.comp1 = out.comp1 ∧ s'.cntr = out.cntr := by
  induction fuel generalizing pos s with
  | zero => cases h
  | succ fuel ih =>
    -- The write, the counts up to the reading, and the reading.
    obtain ⟨s₁, h₁, hd₁, hc₁, hp₁, hn₁⟩ : ∃ s₁, s.step T .write = some s₁ ∧ s₁.drv = s.drv ∧
        s₁.comp1 = nextBoundary s.drv ∧ s₁.pc = .check ∧ s₁.count = s.count :=
      ⟨_, if_pos hpc, rfl, rfl, rfl, rfl⟩
    obtain ⟨s₂, h₂, hd₂, hc₂, hp₂, hn₂⟩ : ∃ s₂, s₁.step T (.advance (pos 0 - s.count)) = some s₂ ∧
        s₂.drv = s.drv ∧ s₂.comp1 = nextBoundary s.drv ∧ s₂.pc = .check ∧ s₂.count = pos 0 :=
      ⟨_, rfl, hd₁, hc₁, hp₁, by dsimp only; omega⟩
    have hread : s₂.cntr = .ofNat (pos 0) := by
      unfold Sys.cntr
      rw [hn₂]
    have hto : (clock T init).Run s _ s₂ := Lts.Run.cons h₁ (Lts.Run.single h₂)
    rw [armNextCompare] at h
    cases ha : armStep s.drv (.ofNat (pos 0)) with
    | none =>
      rw [ha] at h
      cases h
      have h₃ : s₂.step T .check = some { s₂ with pc := .process } := by
        simp only [Sys.step, hp₂, ↓reduceIte, hd₂, hread, ha]
      exact ⟨_, _, hto.trans (Lts.Run.single h₃), rfl, hd₂, hc₂, hread⟩
    | some d =>
      rw [ha] at h
      have h₃ : s₂.step T .check =
          some { s₂ with drv := d, boundary := s₂.boundary + period, pc := .arm } := by
        simp only [Sys.step, hp₂, ↓reduceIte, hd₂, hread, ha]
      have hle : s₂.count ≤ pos 1 := by
        rw [hn₂]
        exact hmono 0
      obtain ⟨tr, s', hr, hend⟩ := ih (fun n => hmono (n + 1)) (s := { s₂ with
        drv := d
        boundary := s₂.boundary + period
        pc := .arm }) rfl hle h
      exact ⟨_, s', (hto.trans (Lts.Run.single h₃)).trans hr, hend⟩

end Mc1322x.TimeDriver
