import Mc1322x.Embassy.Clock

/-!
# The clock across a sleep

`Doze` stops TMR0. The sleep timer restarts from zero on entry and keeps counting after the wake,
so after a sleep of `W` of its ticks its 32-bit counter shows `W` modulo `2 ^ 32`. `Sys.awake` is
the driver after `resync_after_sleep` has set `base` and `lastBoundary`, before the loop that arms
the compare register.

`resync_accounts`: the position of the clock is the boundary before the sleep, the counts passed
since then and the sleep time, to within one count, exactly when the sleep timer did not wrap (and
the tick count still fits `u64`); the rest of the resync adds the counts that TMR0 makes meanwhile.
A timeout clamped to the top of the 32-bit range makes the sleep timer wrap
(`resync_loses_clamped`).
-/

namespace Mc1322x.TimeDriver

variable {Q Waker : Type} (T : TimerQueue Q Waker)

/-- The sleep in sleep-timer ticks: the timeout programmed at the counter reading `cntr`, and the
wake-up latency. -/
def sleepTicks (d : TmrDriver Q) (cntr : UInt16) (latency : Nat) : Option Nat :=
  (dozeTicksUntilNextWake d cntr).map fun timeout => timeout.toNat + latency

/-- The wake comes before the sleep timer wraps: there is no latency, or the time to the deadline
in sleep-timer ticks and the latency are less than `2 ^ 32`. -/
def NoWrap (d : TmrDriver Q) (cntr : UInt16) (latency : Nat) : Prop :=
  ∀ nextAlarm ∈ d.nextAlarm, latency = 0 ∨
    ((nextAlarm.toNat - d.base.toNat) * period - (d.since cntr).toNat) / countsPerDozeTick +
      latency < 2 ^ 32

/-- The true time since the boundary before the sleep, in TMR0 counts: the counts before the sleep
and `W` sleep-timer ticks. -/
def sleepCounts (counts : UInt16) (W : Nat) : Nat := counts.toNat + W * countsPerDozeTick

/-- The driver after the resync has set its fields: TMR0 has made `c` counts since its restart
when the sleep timer, `W` ticks after its own restart, is read. (The true count starts at 65536,
so that the boundary, which is before the restart, has a position.) -/
def Sys.awake (d : TmrDriver Q) (counts : UInt16) (W c : Nat) : Sys Q where
  drv := resync d counts 0 (.ofNat c) (.ofNat W)
  count := 65536 + c
  comp1 := nextBoundary (configureTmr0 d 0)
  pc := .arm
  boundary := 65536 + c - (resyncRest counts (.ofNat W)).toNat % period

/-- Equal to within one. -/
def Near (x y : Nat) : Prop := x ≤ y + 1 ∧ y ≤ x + 1

instance (x y : Nat) : Decidable (Near x y) := inferInstanceAs (Decidable (_ ∧ _))

/-- The clock accounts for the sleep: its position is that of the boundary before the sleep, the
true time since then, and the counts `e` made after the sample of the sleep timer. -/
def Sys.Accounts (s : Sys Q) (d : TmrDriver Q) (counts : UInt16) (W e : Nat) : Prop :=
  Near (s.drv.position s.cntr) (d.base.toNat * period + sleepCounts counts W + e)

instance (s : Sys Q) (d : TmrDriver Q) (counts : UInt16) (W e : Nat) :
    Decidable (s.Accounts d counts W e) := inferInstanceAs (Decidable (Near _ _))

section

variable {T} {d : TmrDriver Q} {counts : UInt16} {W c : Nat}

theorem Sys.awake_cntr : (Sys.awake d counts W c).cntr = .ofNat c := by
  unfold Sys.cntr Sys.awake
  apply UInt16.toNat_inj.mp
  simp

/-- The phase as the 16 bits that the driver subtracts from the counter. -/
theorem toNat_resyncPhase (counts : UInt16) (w : UInt32) :
    (resyncRest counts w % .ofNat period).toUInt16.toNat =
      (resyncRest counts w).toNat % period := by
  have hr : (resyncRest counts w).toNat % 375 < 375 := Nat.mod_lt _ (by decide)
  simp only [UInt32.toNat_toUInt16, UInt32.toNat_mod, UInt32.toNat_ofNat', period_eq,
    Nat.reducePow, Nat.reduceMod]
  omega

/-- The new boundary is less than one period before the counter. -/
theorem Sys.awake_since :
    ((Sys.awake d counts W c).drv.since (.ofNat c)).toNat =
      (resyncRest counts (.ofNat W)).toNat % period := by
  have hr : (resyncRest counts (.ofNat W)).toNat % period < 375 := Nat.mod_lt _ (by decide)
  simp only [Sys.awake, TmrDriver.since, resync]
  rw [UInt16.toNat_sub, UInt16.toNat_sub, toNat_resyncPhase, UInt16.toNat_ofNat']
  omega

/-- The clock after the resync tracks from the tick count that the resync computes. -/
theorem Sys.awake_tracks :
    (Sys.awake d counts W c).Tracks
      (d.base.toNat + (resyncTicks counts (.ofNat W)).toNat) (Sys.awake d counts W c).boundary := by
  have hr : (resyncRest counts (.ofNat W)).toNat % period < 375 := Nat.mod_lt _ (by decide)
  refine ⟨0, by simp, ?_, ?_, ?_⟩
  · simp only [Sys.awake, resync, Nat.add_zero]
    apply UInt64.toNat_inj.mp
    simp
  · simp only [Sys.awake, resync]
    apply UInt16.toNat_inj.mp
    rw [UInt16.toNat_sub, toNat_resyncPhase, UInt16.toNat_ofNat', UInt16.toNat_ofNat']
    omega
  · simp only [Sys.awake]
    omega

/-- The position after the resync, with the tick count modulo `2 ^ 64` and the sleep timer's count
modulo `2 ^ 32`. -/
theorem Sys.awake_position :
    (Sys.awake d counts W c).drv.position (Sys.awake d counts W c).cntr =
      (d.base.toNat + (resyncTicks counts (.ofNat W)).toNat) % 2 ^ 64 * period +
        (resyncRest counts (.ofNat W)).toNat % period := by
  unfold TmrDriver.position
  rw [Sys.awake_cntr, Sys.awake_since]
  simp only [Sys.awake, resync, UInt64.toNat_add]

theorem Sys.count_le_reach {s₀ s : Sys Q} (hs : (clock T (· = s₀)).Reach InTime s) :
    s₀.count ≤ s.count := by
  refine Lts.Reach.induct (I := fun s : Sys Q => s₀.count ≤ s.count) ?_ ?_ hs
  · intro t ht
    exact Nat.le_of_eq (congrArg Sys.count (Eq.symm ht))
  · intro s a s' hi _ hst
    exact Nat.le_trans hi (Sys.count_le_step (T := T) hst)

/-- A later state of the resync has made its counts, as long as the tick count fits `u64`. -/
theorem Sys.awake_reach {s : Sys Q}
    (hs : (clock T (· = Sys.awake d counts W c)).Reach InTime s) (hl : s.Fresh)
    (hfit : d.base.toNat * period + sleepCounts counts (W % 2 ^ 32) + 1 +
      (s.count - (65536 + c)) < 2 ^ 64 * period) :
    s.drv.position s.cntr = d.base.toNat * period + sleepCounts counts (W % 2 ^ 32) + 1 +
      (s.count - (65536 + c)) := by
  have hsplit := resync_split counts (.ofNat W)
  have ht : s.Tracks (d.base.toNat + (resyncTicks counts (.ofNat W)).toNat)
      (65536 + c - (resyncRest counts (.ofNat W)).toNat % period) :=
    Sys.Tracks.reach (by rintro _ rfl; exact Sys.awake_tracks) hs
  have hle : 65536 + c ≤ s.count := Sys.count_le_reach hs
  have hpos := ht.position_eq hl
  have hr : (resyncRest counts (.ofNat W)).toNat % period < period :=
    Nat.mod_lt _ (by rw [period_eq]; decide)
  rw [UInt32.toNat_ofNat'] at hsplit
  unfold sleepCounts at hfit ⊢
  generalize (resyncRest counts (.ofNat W)).toNat % period = r at hsplit hpos hr
  rw [Nat.add_mul] at hpos
  rw [period_eq] at hr
  rw [hpos (by omega)]
  omega

end

/-- The clamp of the timeout leaves no room for a latency. -/
theorem sleepTicks_lt_iff {d : TmrDriver Q} {cntr : UInt16} {latency W : Nat}
    (hW : sleepTicks d cntr latency = some W) : W < 2 ^ 32 ↔ NoWrap d cntr latency := by
  obtain ⟨timeout, ht, rfl⟩ := Option.map_eq_some_iff.mp hW
  cases ha : d.nextAlarm with
  | none =>
    unfold dozeTicksUntilNextWake at ht
    rw [ha] at ht
    cases ht
  | some nextAlarm =>
    have htn := toNat_dozeTicks d ha ht
    have hs := (d.since cntr).toNat_lt
    have hn : NoWrap d cntr latency ↔ latency = 0 ∨
        ((nextAlarm.toNat - d.base.toNat) * period - (d.since cntr).toNat) / countsPerDozeTick +
          latency < 2 ^ 32 := by
      unfold NoWrap
      rw [ha]
      exact ⟨fun h => h nextAlarm rfl, fun h _ hx => Option.some.inj hx ▸ h⟩
    rw [hn, htn]
    simp only [period_eq, countsPerDozeTick_eq]
    omega

/-- **Sleep time.** Where the sleep timer is read, the clock accounts for the sleep exactly when
the sleep timer did not wrap and the tick count after the sleep fits `u64`. In every later state
of the resync, the counter read in time, it does so exactly when the sleep timer did not wrap, as
long as the tick count fits. -/
theorem resync_accounts (d : TmrDriver Q) (cntr₀ cntr₁ : UInt16) (latency c W : Nat)
    (hW : sleepTicks d cntr₀ latency = some W) :
    ((Sys.awake d (countsBeforeSleep d cntr₁) W c).Accounts d (countsBeforeSleep d cntr₁) W 0 ↔
      NoWrap d cntr₀ latency ∧
        d.base.toNat * period + sleepCounts (countsBeforeSleep d cntr₁) W + 1 < 2 ^ 64 * period) ∧
    ∀ s, (clock T (· = Sys.awake d (countsBeforeSleep d cntr₁) W c)).Reach InTime s → s.Fresh →
      d.base.toNat * period + sleepCounts (countsBeforeSleep d cntr₁) W + 1 +
        (s.count - (65536 + c)) < 2 ^ 64 * period →
      (s.Accounts d (countsBeforeSleep d cntr₁) W (s.count - (65536 + c)) ↔
        NoWrap d cntr₀ latency) := by
  rw [← sleepTicks_lt_iff hW]
  generalize countsBeforeSleep d cntr₁ = counts
  constructor
  · have hsplit := resync_split counts (.ofNat W)
    have hr : (resyncRest counts (.ofNat W)).toNat % period < period :=
      Nat.mod_lt _ (by rw [period_eq]; decide)
    unfold Sys.Accounts Near sleepCounts
    rw [Sys.awake_position]
    rw [UInt32.toNat_ofNat'] at hsplit
    generalize (resyncRest counts (.ofNat W)).toNat % period = r at hsplit hr ⊢
    generalize (resyncTicks counts (.ofNat W)).toNat = n at hsplit ⊢
    rw [period_eq, countsPerDozeTick_eq] at *
    omega
  · intro s hs hl hfit
    -- A wrap makes the sleep shorter, never longer, so the tick count fits here too.
    have hmod : sleepCounts counts (W % 2 ^ 32) ≤ sleepCounts counts W :=
      Nat.add_le_add_left (Nat.mul_le_mul_right _ (Nat.mod_le _ _)) _
    have hpos := Sys.awake_reach hs hl (by omega)
    unfold Sys.Accounts Near
    rw [hpos]
    unfold sleepCounts
    rw [countsPerDozeTick_eq]
    omega

/-- The driver at tick 0 with an empty queue and one deadline. -/
def driverAt (nextAlarm : UInt64) : TmrDriver (List (UInt64 × Nat)) where
  base := 0
  lastBoundary := 0
  queue := []
  nextAlarm := some nextAlarm

/-- A deadline one second ahead and a latency of 40 sleep-timer ticks: the clock accounts for the
187540 ticks. -/
theorem resync_accounts_one_second :
    sleepTicks (driverAt 1000) 0 40 = some 187540 ∧
      (Sys.awake (driverAt 1000) 0 187540 3).Accounts (driverAt 1000) 0 187540 0 :=
  ⟨by decide, (resync_accounts (listQueue Nat) (driverAt 1000) 0 0 40 3 187540 (by decide)).1.mpr
    ⟨(sleepTicks_lt_iff (W := 187540) (by decide)).mp (by decide), by decide⟩⟩

/-- A deadline beyond the range of the sleep timer and a latency of one tick: the timer wraps to
zero, and the clock loses the whole sleep. -/
theorem resync_loses_clamped :
    sleepTicks (driverAt (2 ^ 40)) 0 1 = some (2 ^ 32) ∧
      ¬ (Sys.awake (driverAt (2 ^ 40)) 0 (2 ^ 32) 0).Accounts (driverAt (2 ^ 40)) 0 (2 ^ 32) 0 := by
  decide

end Mc1322x.TimeDriver
