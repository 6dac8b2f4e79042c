import Mc1322x.Lib.Word

/-!
# The `embassy-time` driver on TMR0 (`mc1322x-embassy/src/time_driver.rs`)

TMR0 is a free-running 16-bit counter with `period` counts to a tick. The driver keeps the number
of whole ticks (`base`) at the counter value `lastBoundary`; `now` adds the whole periods that the
counter has run since. Every function that reads the counter takes the reading as an argument.

* `onTickBase` and `armStep` are the two halves of the interrupt: the advance by the whole periods
  elapsed, and one iteration of the loop that arms the compare register.
* `resync` is the arithmetic of `resync_after_sleep`, between the two.
* The timer queue is that of `embassy-time-queue-utils`: `TimerQueue` has the operations that the
  driver calls, `TimerQueue.Lawful` what it relies on.
-/

namespace Mc1322x.TimeDriver

/-- Reference oscillator frequency (Hz). -/
def refOscHz : Nat := 24000000

/-- Tick rate of the timebase. -/
def tickHz : Nat := 1000

/-- `log2` of the TMR0 input prescaler. -/
def prescaleShift : Nat := 6

/-- TMR0 input prescaler. -/
def prescale : Nat := 1 <<< prescaleShift

/-- Counter counts per tick. -/
def period : Nat := refOscHz / prescale / tickHz

/-- TMR0 counts per tick of the sleep timer in `Doze` (the reference oscillator ÷ 128). -/
def countsPerDozeTick : Nat := 128 / prescale

theorem period_eq : period = 375 := rfl

theorem countsPerDozeTick_eq : countsPerDozeTick = 2 := rfl

/-! ## The timer queue -/

/-- The queue of pending timers: its entries (deadline and waker), and the two operations that the
driver calls, with the wakers that each of them wakes. -/
structure TimerQueue (Q Waker : Type) where
  entries : Q → List (UInt64 × Waker)
  /-- Add a timer. -/
  scheduleWake : Q → UInt64 → Waker → List Waker × Q
  /-- Wake the timers due at a tick; the earliest deadline of the rest, or `u64::MAX`. -/
  nextExpiration : Q → UInt64 → UInt64 × List Waker × Q

/-- The sentinel for "no timer". -/
def u64Max : UInt64 := .ofNat (2 ^ 64 - 1)

/-- What the driver relies on: `scheduleWake` keeps the earlier deadline of a waker and changes no
other one; `nextExpiration` wakes the entries at or before `now`, keeps the rest and returns the
earliest deadline of these. -/
structure TimerQueue.Lawful {Q Waker : Type} (T : TimerQueue Q Waker) : Prop where
  schedule_mem : ∀ q at_ w e, e ∈ T.entries (T.scheduleWake q at_ w).2 →
    e ∈ T.entries q ∨ e = (at_, w)
  schedule_earlier : ∀ q at_ w d, (d, w) ∈ T.entries (T.scheduleWake q at_ w).2 → d ≤ at_
  next_entries : ∀ q now e,
    e ∈ T.entries (T.nextExpiration q now).2.2 ↔ e ∈ T.entries q ∧ now < e.1
  next_woken : ∀ q now w,
    w ∈ (T.nextExpiration q now).2.1 ↔ ∃ d, (d, w) ∈ T.entries q ∧ d ≤ now
  next_le : ∀ q now e, e ∈ T.entries (T.nextExpiration q now).2.2 →
    (T.nextExpiration q now).1 ≤ e.1
  next_mem : ∀ q now, (T.nextExpiration q now).1 = u64Max ∨
    ∃ e ∈ T.entries (T.nextExpiration q now).2.2, e.1 = (T.nextExpiration q now).1

/-- A queue as a list of its entries. -/
def listQueue (Waker : Type) [DecidableEq Waker] : TimerQueue (List (UInt64 × Waker)) Waker where
  entries q := q
  scheduleWake q at_ w :=
    ([], if q.any (·.2 = w) then q.map fun e => if e.2 = w then (min e.1 at_, w) else e
      else q ++ [(at_, w)])
  nextExpiration q now :=
    let rest := q.filter (fun e => now < e.1)
    (rest.foldr (fun e m => min e.1 m) u64Max, (q.filter (fun e => e.1 ≤ now)).map (·.2), rest)

theorem foldr_min_le {α : Type} (f : α → UInt64) (z : UInt64) {l : List α} {e : α} (he : e ∈ l) :
    l.foldr (fun e m => min (f e) m) z ≤ f e := by
  induction l with
  | nil => cases he
  | cons a l ih =>
    rw [List.foldr_cons]
    rcases List.mem_cons.mp he with rfl | he
    · exact Std.min_le_left
    · exact UInt64.le_trans Std.min_le_right (ih he)

theorem foldr_min_mem {α : Type} (f : α → UInt64) (z : UInt64) (l : List α) :
    l.foldr (fun e m => min (f e) m) z = z ∨ ∃ e ∈ l, f e = l.foldr (fun e m => min (f e) m) z := by
  induction l with
  | nil => exact .inl rfl
  | cons a l ih =>
    rw [List.foldr_cons]
    rcases Std.min_eq_or (a := f a) (b := l.foldr (fun e m => min (f e) m) z) with h | h
    · exact .inr ⟨a, List.mem_cons_self, h.symm⟩
    · rw [h]
      exact ih.imp_right fun ⟨e, he, h⟩ => ⟨e, List.mem_cons_of_mem _ he, h⟩

theorem listQueue_lawful (Waker : Type) [DecidableEq Waker] : (listQueue Waker).Lawful where
  schedule_mem q at_ w e he := by
    simp only [listQueue] at he ⊢
    split at he
    · obtain ⟨x, hx, rfl⟩ := List.mem_map.mp he
      split
      · rename_i hw
        rcases Std.min_eq_or (a := x.1) (b := at_) with h | h
        · exact .inl (by rw [h, ← hw]; exact hx)
        · exact .inr (by rw [h])
      · exact .inl hx
    · rcases List.mem_append.mp he with he | he
      · exact .inl he
      · exact .inr (List.mem_singleton.mp he)
  -- The waker has one entry, with the earlier of its deadlines.
  schedule_earlier q at_ w d hd := by
    simp only [listQueue] at hd
    split at hd
    · obtain ⟨x, -, hx⟩ := List.mem_map.mp hd
      split at hx
      · cases hx
        exact Std.min_le_right
      · rename_i hne
        exact absurd (by rw [hx]) hne
    · rename_i hne
      rcases List.mem_append.mp hd with hd | hd
      · exact absurd (List.any_eq_true.mpr ⟨_, hd, by simp⟩) hne
      · cases List.mem_singleton.mp hd
        exact UInt64.le_refl _
  next_entries _ _ _ := by simp [listQueue]
  next_woken q now w := by
    simp only [listQueue, List.mem_map, List.mem_filter, decide_eq_true_eq]
    exact ⟨fun ⟨e, he, hw⟩ => ⟨e.1, by rw [← hw]; exact he⟩, fun ⟨d, hd⟩ => ⟨(d, w), hd, rfl⟩⟩
  next_le q now e he := foldr_min_le (·.1) u64Max he
  next_mem q now := foldr_min_mem (fun e : UInt64 × Waker => e.1) u64Max _

/-! ## The driver -/

/-- The fields of `TmrDriver`, behind its mutex. -/
structure TmrDriver (Q : Type) where
  /-- Number of whole ticks completed at `lastBoundary`. -/
  base : UInt64
  /-- The TMR0 counter value at `base`. -/
  lastBoundary : UInt16
  /-- Pending timers. -/
  queue : Q
  /-- Next queue deadline. -/
  nextAlarm : Option UInt64

variable {Q Waker : Type} (T : TimerQueue Q Waker)

/-- The counts from `lastBoundary` to the counter reading `cntr`. -/
def TmrDriver.since (d : TmrDriver Q) (cntr : UInt16) : UInt16 := cntr - d.lastBoundary

/-- The driver's clock at the counter reading `cntr`, in TMR0 counts. -/
def TmrDriver.position (d : TmrDriver Q) (cntr : UInt16) : Nat :=
  d.base.toNat * period + (d.since cntr).toNat

/-- `now()`: `none` where the addition overflows, a panic. -/
def now (d : TmrDriver Q) (cntr : UInt16) : Option UInt64 :=
  Word.checkedAdd d.base ((d.since cntr).toUInt32 / .ofNat period).toUInt64

/-- `schedule_wake`: the wakers woken, and the driver after it. -/
def scheduleWake (d : TmrDriver Q) (at_ : UInt64) (waker : Waker) : List Waker × TmrDriver Q :=
  let r := T.scheduleWake d.queue at_ waker
  (r.1, { d with
    queue := r.2
    nextAlarm := some (d.nextAlarm.elim at_ fun next => min next at_) })

/-- `configure_tmr0`: the counter is reset and read back as `boundary`. -/
def configureTmr0 (d : TmrDriver Q) (boundary : UInt16) : TmrDriver Q :=
  { d with lastBoundary := boundary }

/-- The value for the compare register that arms the boundary after `lastBoundary`. -/
def nextBoundary (d : TmrDriver Q) : UInt16 := d.lastBoundary + .ofNat period

/-- The first half of `on_tick`: advance `base` by the whole periods elapsed. -/
def onTickBase (d : TmrDriver Q) (cntr : UInt16) : TmrDriver Q :=
  let elapsed := d.since cntr / .ofNat period
  { d with
    base := d.base + elapsed.toUInt64
    lastBoundary := d.lastBoundary + elapsed * .ofNat period }

/-- One iteration of `arm_next_compare`, after the write of the compare register: `none` leaves
the loop. -/
def armStep (d : TmrDriver Q) (cntr : UInt16) : Option (TmrDriver Q) :=
  if d.since cntr < .ofNat period then none
  else some { d with base := d.base + 1, lastBoundary := nextBoundary d }

/-- `process_queue`: the wakers woken, and the driver after it. -/
def processQueue (d : TmrDriver Q) : List Waker × TmrDriver Q :=
  let r := T.nextExpiration d.queue d.base
  (r.2.1, { d with
    queue := r.2.2
    nextAlarm := if r.1 ≠ u64Max then some r.1 else none })

/-! ## Around a sleep -/

/-- `counts_before_sleep`. -/
def countsBeforeSleep (d : TmrDriver Q) (cntr : UInt16) : UInt16 := d.since cntr

/-- `ticks_until_next_wake`: the outer `none` is a panic of `now()`. -/
def ticksUntilNextWake (d : TmrDriver Q) (cntr : UInt16) : Option (Option UInt64) :=
  match d.nextAlarm with
  | none => some none
  | some nextAlarm => (now d cntr).map fun n => some (Word.saturatingSub nextAlarm n)

/-- `doze_ticks_until_next_wake`. -/
def dozeTicksUntilNextWake (d : TmrDriver Q) (cntr : UInt16) : Option UInt32 :=
  d.nextAlarm.map fun nextAlarm =>
    let ticks := Word.saturatingSub nextAlarm d.base
    let counts := Word.saturatingSub (Word.saturatingMul ticks (.ofNat period))
      (countsBeforeSleep d cntr).toUInt64
    (Word.toU32? (counts / .ofNat countsPerDozeTick)).getD (.ofNat (2 ^ 32 - 1))

/-- The counts beyond the whole multiples of `countsPerDozeTick` ticks (`rest`). -/
def resyncRest (countsBeforeSleep : UInt16) (dozeTicks : UInt32) : UInt32 :=
  (dozeTicks % .ofNat period) * .ofNat countsPerDozeTick + .ofNat (countsPerDozeTick / 2) +
    countsBeforeSleep.toUInt32

/-- The whole ticks that the sleep took (`ticks`). -/
def resyncTicks (countsBeforeSleep : UInt16) (dozeTicks : UInt32) : UInt64 :=
  (dozeTicks / .ofNat period).toUInt64 * .ofNat countsPerDozeTick +
    (resyncRest countsBeforeSleep dozeTicks / .ofNat period).toUInt64

/-- `resync_after_sleep` up to `arm_next_compare`: TMR0 restarts at `boundary`, `cntr` is its
counter at the sample of the sleep timer (`doze_ticks`). -/
def resync (d : TmrDriver Q) (countsBeforeSleep : UInt16) (boundary cntr : UInt16)
    (dozeTicks : UInt32) : TmrDriver Q :=
  { configureTmr0 d boundary with
    base := d.base + resyncTicks countsBeforeSleep dozeTicks
    lastBoundary := cntr - (resyncRest countsBeforeSleep dozeTicks % .ofNat period).toUInt16 }

/-! ## What the steps do to the clock -/

section Clock

variable (d : TmrDriver Q)

/-- `now` is the position's whole ticks. -/
theorem now_eq_some {cntr : UInt16} {v : UInt64} :
    now d cntr = some v ↔ v.toNat = d.position cntr / period := by
  unfold now TmrDriver.position
  rw [Word.checkedAdd_eq_some]
  have hs := (d.since cntr).toNat_lt
  simp only [UInt32.toNat_toUInt64, UInt32.toNat_div, UInt16.toNat_toUInt32, UInt32.toNat_ofNat',
    period_eq, Nat.reducePow, Nat.reduceMod]
  omega

/-- The first half of `on_tick` moves the boundary by whole periods and `base` with it. -/
theorem onTickBase_eq (cntr : UInt16) :
    onTickBase d cntr =
      { d with
        base := d.base + .ofNat ((d.since cntr).toNat / period)
        lastBoundary := d.lastBoundary + .ofNat ((d.since cntr).toNat / period * period) } := by
  have hs := (d.since cntr).toNat_lt
  have hb : (d.since cntr / .ofNat period).toUInt64 =
      .ofNat ((d.since cntr).toNat / period) := by
    apply UInt64.toNat_inj.mp
    simp [period_eq]
    omega
  have hl : d.since cntr / .ofNat period * .ofNat period =
      .ofNat ((d.since cntr).toNat / period * period) := by
    apply UInt16.toNat_inj.mp
    simp [period_eq]
  simp only [onTickBase, hb, hl]

theorem armStep_eq_none {cntr : UInt16} :
    armStep d cntr = none ↔ (d.since cntr).toNat < period := by
  unfold armStep
  simp [UInt16.lt_iff_toNat_lt, period_eq]

/-- An iteration that stays in the loop moves the boundary by one period. -/
theorem armStep_eq_some {cntr : UInt16} {d' : TmrDriver Q} :
    armStep d cntr = some d' ↔ period ≤ (d.since cntr).toNat ∧
      d' = { d with
        base := d.base + .ofNat 1
        lastBoundary := d.lastBoundary + .ofNat period } := by
  unfold armStep
  split
  · rename_i h
    have : (d.since cntr).toNat < period := by simpa [UInt16.lt_iff_toNat_lt, period_eq] using h
    simp
    omega
  · rename_i h
    have : period ≤ (d.since cntr).toNat := by simpa [UInt16.lt_iff_toNat_lt, period_eq] using h
    simp only [Option.some.injEq, this, true_and]
    exact eq_comm

/-- The doze timeout is the time to the deadline in sleep-timer ticks, clamped to 32 bits. -/
theorem toNat_dozeTicks {cntr : UInt16} {nextAlarm : UInt64} {timeout : UInt32}
    (ha : d.nextAlarm = some nextAlarm) (ht : dozeTicksUntilNextWake d cntr = some timeout) :
    timeout.toNat =
      min ((min ((nextAlarm.toNat - d.base.toNat) * period) (2 ^ 64 - 1) - (d.since cntr).toNat) /
        countsPerDozeTick) (2 ^ 32 - 1) := by
  simp only [dozeTicksUntilNextWake, ha, Option.map_some, Option.some.injEq] at ht
  rw [← ht, Word.toNat_toU32_getD]
  simp [countsBeforeSleep, countsPerDozeTick_eq, period_eq]

/-! ## The arithmetic of the resync -/

theorem toNat_resyncRest (counts : UInt16) (w : UInt32) :
    (resyncRest counts w).toNat = w.toNat % period * countsPerDozeTick + 1 + counts.toNat := by
  have hc := counts.toNat_lt
  unfold resyncRest
  simp [period_eq, countsPerDozeTick_eq]
  omega

theorem toNat_resyncTicks (counts : UInt16) (w : UInt32) :
    (resyncTicks counts w).toNat =
      w.toNat / period * countsPerDozeTick + (resyncRest counts w).toNat / period := by
  have hc := counts.toNat_lt
  have hw := w.toNat_lt
  have hr := (resyncRest counts w).toNat_lt
  unfold resyncTicks
  simp [period_eq, countsPerDozeTick_eq]
  omega

/-- The whole ticks and the rest are the counts before the sleep and the sleep timer's count,
rounded up by half a sleep-timer tick. -/
theorem resync_split (counts : UInt16) (w : UInt32) :
    (resyncTicks counts w).toNat * period + (resyncRest counts w).toNat % period =
      counts.toNat + w.toNat * countsPerDozeTick + 1 := by
  rw [toNat_resyncTicks, toNat_resyncRest]
  simp only [period_eq, countsPerDozeTick_eq]
  omega

end Clock

end Mc1322x.TimeDriver
