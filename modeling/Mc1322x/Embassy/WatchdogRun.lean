import Mc1322x.Embassy.TaskWatchdog
import Mc1322x.Embassy.TimeDriver
import Mc1322x.Hal.WatchdogCount

/-!
# The task watchdog on the chip (`watchdog_run` of `mc1322x-embassy/src/task_watchdog.rs`)

`Chip` is the task table with `watchdog_run`, the clock and the COP, which counts while the chip is
awake and resets it at the end of its period. The calls of the tasks, the polls of `watchdog_run`
and the time come in any order.

* `never_reset`: tasks that keep their limits, and a `watchdog_run` that is polled in time, never
  see a reset.
* `starved_reset`: from the moment that a task has starved, and for as long as it does not call, the
  chip is awake for less than a period before it is reset.
-/

namespace Mc1322x.TaskWatchdog

open Watchdog

/-- The cycles of `REF_OSC` in a tick. -/
def cyclesPerTick : Nat := TimeDriver.refOscHz / TimeDriver.tickHz

theorem cyclesPerTick_eq : cyclesPerTick = 24000 := rfl

/-- `REF_OSC`. -/
def refOsc : UInt32 := .ofNat TimeDriver.refOscHz

/-- A tick is a millisecond, where the microseconds of a duration fit 64 bits. -/
def Time.Millis (T : Time) : Prop := ∀ d : UInt64, d.toNat * 1000 < 2 ^ 64 →
  (T.asSecs d).toNat * 1000 + (T.subsecMillis d).toNat = d.toNat

/-- Where `watchdog_run` is. -/
inductive Runner where
  /-- Before `start`. -/
  | start
  /-- Before `next_check` is set. -/
  | schedule (checkInterval : UInt64)
  /-- Before `check_tasks`. -/
  | check (checkInterval nextCheck : UInt64)
  /-- In `Timer::at`. -/
  | wait (checkInterval nextCheck : UInt64)
  | panicked

variable {I : Type} [DecidableEq I] {N : Nat}

/-- The task table with `watchdog_run`, the clock and the COP of one chip. -/
structure Chip (I : Type) (N : Nat) where
  state : State I N
  runner : Runner
  /-- The cycles of `REF_OSC` that the clock has counted. -/
  time : Nat
  /-- The cycles that the COP has counted since it was serviced. -/
  count : Nat
  /-- The COP has reset the chip. -/
  reset : Bool

namespace Chip

/-- `Instant::now`. -/
def now (s : Chip I N) : UInt64 := .ofNat (s.time / cyclesPerTick)

/-- After a call, which may have serviced the COP. -/
def table (s : Chip I N) (state : State I N) : Chip I N :=
  { s with
    state := state
    count := if state.cop.services = s.state.cop.services then s.count else 0 }

/-- So many cycles pass, and the chip is awake. -/
def run (s : Chip I N) (n : Nat) : Chip I N :=
  let cop := (Hw.mk s.state.cop.cntl s.count 0).pass n
  { s with time := s.time + n, count := cop.elapsed, reset := decide (0 < cop.resets) }

variable (T : Time)

/-- `watchdog_run`, up to its next use of the clock or the table; `none`: it waits. -/
def poll (s : Chip I N) : Option (Chip I N) :=
  match s.runner with
  | .start => match s.state.start T refOsc s.now with
    | some (checkInterval, state) =>
      some { s.table state with runner := .schedule checkInterval }
    | none => some { s with runner := .panicked }
  | .schedule checkInterval => match Word.checkedAdd s.now checkInterval with
    | some nextCheck => some { s with runner := .check checkInterval nextCheck }
    | none => some { s with runner := .panicked }
  | .check checkInterval nextCheck => match s.state.checkTasks T s.now with
    | some (_, state) => some { s.table state with runner := .wait checkInterval nextCheck }
    | none => some { s with runner := .panicked }
  | .wait checkInterval nextCheck =>
    if nextCheck ≤ s.now then match Word.checkedAdd nextCheck checkInterval with
      | some nextCheck => some { s with runner := .check checkInterval nextCheck }
      | none => some { s with runner := .panicked }
    else none
  | .panicked => none

end Chip

/-- What happens on the chip; between two steps of the task or the table any time may pass. -/
inductive Act (I : Type) where
  /-- A call of a task. -/
  | call (c : Call I)
  /-- A step of `watchdog_run`. -/
  | poll
  | run (cycles : Nat)
  /-- The chip sleeps, and the COP does not count. -/
  | doze (cycles : Nat)

/-- One step; `none`: not possible. `start` is private to `watchdog_run`, and a panic stops all. -/
def Chip.step (T : Time) (s : Chip I N) (a : Act I) : Option (Chip I N) :=
  if s.reset then none
  else match a with
    | .call .start => none
    | .call c => match s.runner with
      | .panicked => none
      | _ => (s.state.call T refOsc s.now c).map s.table
    | .poll => s.poll T
    | .run n => some (s.run n)
    | .doze n => some { s with time := s.time + n }

/-- After the boot of the chip, with the COP stopped. -/
def Chip.Booted (hardwareTimeout checkInterval : UInt64) (s : Chip I N) : Prop :=
  ∃ cop, s.state = .new cop hardwareTimeout checkInterval ∧ cop.cntl &&& copEn = 0 ∧
    s.runner = .start ∧ s.reset = false

/-- The runs from the boot. -/
def chip (T : Time) (I : Type) [DecidableEq I] (N : Nat) (hardwareTimeout checkInterval : UInt64) :
    Lts :=
  .ofStep (Chip.Booted (I := I) (N := N) hardwareTimeout checkInterval) (Chip.step T)

/-! ## The calls and the COP -/

section

variable {T : Time} {state state' : State I N} {now : UInt64}

/-- No call but `start` changes more of the COP than its count, and only `check_tasks` does that. -/
theorem State.call_cop {c : Call I} (hc : c ≠ .start)
    (h : state.call T refOsc now c = some state') :
    state'.cop.cntl = state.cop.cntl ∧ state'.hardwareTimeout = state.hardwareTimeout ∧
      state'.checkInterval = state.checkInterval ∧
      (c ≠ .checkTasks → state'.cop.services = state.cop.services) := by
  cases c with
  | registerTask id config =>
    cases h
    unfold State.registerTask
    dsimp only
    split
    · exact ⟨rfl, rfl, rfl, fun _ => rfl⟩
    · split <;> exact ⟨rfl, rfl, rfl, fun _ => rfl⟩
  | deregisterTask id =>
    cases h
    unfold State.deregisterTask
    split <;> exact ⟨rfl, rfl, rfl, fun _ => rfl⟩
  | feed id =>
    cases h
    unfold State.feed
    split <;> exact ⟨rfl, rfl, rfl, fun _ => rfl⟩
  | start => exact absurd rfl hc
  | checkTasks =>
    obtain ⟨x, hx, rfl⟩ := Option.map_eq_some_iff.mp h
    simp only [State.checkTasks, Option.bind_eq_bind, Option.bind_eq_some_iff] at hx
    obtain ⟨starved, -, hx⟩ := hx
    cases hx
    cases starved <;> exact ⟨rfl, rfl, rfl, fun hne => absurd rfl hne⟩

/-- The COP of the chip: the register of the table, with the count. -/
def Chip.hw (s : Chip I N) : Hw := ⟨s.state.cop.cntl, s.count, 0⟩

omit [DecidableEq I] in
/-- Where `start` starts the COP, the chip has the count that `Watchdog::start` leaves. -/
theorem Chip.table_start (s : Chip I N) {timeout : Timeout} {state : State I N}
    (h : s.state.cop.start timeout = some state.cop) :
    s.hw.start timeout = (.ok (), (s.table state).hw) := by
  rw [tryStart_eq] at h
  rw [Hw.start_follows rfl]
  cases hs : s.state.cop.tryStart timeout with
  | mk r cop =>
    rw [hs] at h
    cases r with
    | error e => cases h
    | ok _ =>
      obtain rfl : cop = state.cop := Option.some.inj h
      rfl

omit [DecidableEq I] in
/-- So it is where `check_tasks` services it. -/
theorem Chip.table_service (s : Chip I N) {state : State I N}
    (h : state.cop = s.state.cop.service) : s.hw.service = (s.table state).hw := by
  rw [Hw.service_follows rfl, ← h]
  rfl

/-- The COP that `HardwareWatchdog::start` starts runs for at least the time asked for. -/
theorem hardwareStart_some {cop cop' : Cop} {secs : UInt64} {ms : UInt32}
    (h : cop.hardwareStart refOsc secs ms = some cop') :
    ∃ t : Timeout, cop'.cntl = (.ofNat t <<< timeoutShift) ||| copEn ∧
      (secs.toNat * 1000 + ms.toNat) * cyclesPerTick ≤ t.cycles ∧
      cop.services < cop'.services := by
  simp only [Cop.hardwareStart, Option.bind_eq_bind, Option.bind_eq_some_iff] at h
  obtain ⟨t, ht, h⟩ := h
  have hkhz : refOsc.toNat / 1000 = 24000 := rfl
  have hpos : 0 < refOsc.toNat / 1000 := by decide
  have hspec := fromMillis_spec hpos
    (.ofNat (min (secs.toNat * 1000 + ms.toNat) (UInt32.size - 1)))
  rw [ht] at hspec
  have hcycles := hspec.1
  have hsize : UInt32.size = 2 ^ 32 := rfl
  rw [UInt32.toNat_ofNat_of_lt' (by rw [hsize]; omega), hkhz, hsize] at hcycles
  -- The clamp at `u32::MAX` is far past every period.
  have hclamp : ∀ a n : Nat, n ≤ 2 ^ 28 → min a (2 ^ 32 - 1) * 24000 ≤ n → a * 24000 ≤ n := by
    omega
  refine ⟨t, ?_, hclamp _ _ (cycles_le t) hcycles, ?_⟩
  · rw [tryStart_eq] at h
    obtain ⟨u, hu, rfl⟩ := Option.map_eq_some_iff.mp h
    by_cases hwp : cop.cntl &&& copWp = 0
    · exact (tryStart_unlocked hwp t).2
    · rw [tryStart_locked hwp] at hu
      cases hu
  · simp only [Cop.start, Cop.stop, Option.bind_eq_bind, Option.bind_eq_some_iff] at h
    obtain ⟨c, hc, h⟩ := h
    cases h
    simp only [Cop.service]
    split at hc
    · cases hc
    · split at hc <;> cases hc <;> exact Nat.lt_add_of_pos_right Nat.two_pos

omit [DecidableEq I] in
theorem State.start_some {x : UInt64 × State I N} (h : state.start T refOsc now = some x) :
    x.1 = state.checkInterval ∧ x.2.hardwareTimeout = state.hardwareTimeout ∧
      x.2.checkInterval = state.checkInterval ∧ state.cop.services < x.2.cop.services ∧
      ∃ t : Timeout, x.2.cop.cntl = (.ofNat t <<< timeoutShift) ||| copEn ∧
        ((T.asSecs state.hardwareTimeout).toNat * 1000 +
          (T.subsecMillis state.hardwareTimeout).toNat) * cyclesPerTick ≤ t.cycles := by
  simp only [State.start, Option.bind_eq_bind, Option.bind_eq_some_iff] at h
  obtain ⟨cop, hcop, h⟩ := h
  cases h
  obtain ⟨t, hcntl, hcycles, hserv⟩ := hardwareStart_some hcop
  exact ⟨rfl, rfl, rfl, hserv, t, hcntl, hcycles⟩

end

/-! ## The steps -/

/-- The slots hold the table, and no count was reset later than now. -/
def Chip.Table (s : Chip I N) (m : Watches I) : Prop :=
  s.state.Holds m ∧ ∀ id w, m.lookup id = some w → w.reset ≤ s.time / cyclesPerTick

/-- The clock has not run out of 64 bits. -/
def Chip.InRange (s : Chip I N) : Prop := s.time < 2 ^ 64 * cyclesPerTick

/-- The COP has been started, with a period. -/
def Chip.Runs (s : Chip I N) (t : Timeout) : Prop :=
  s.state.cop.cntl = (.ofNat t <<< timeoutShift) ||| copEn

section

variable {T : Time} {s s' : Chip I N} {m : Watches I}

omit [DecidableEq I] in
theorem Chip.now_toNat (h : s.InRange) : s.now.toNat = s.time / cyclesPerTick := by
  have hlt : s.time / cyclesPerTick < 2 ^ 64 := Nat.div_lt_of_lt_mul (by
    rw [Nat.mul_comm]
    exact h)
  exact UInt64.toNat_ofNat_of_lt' hlt

/-- What a step is. -/
theorem Chip.step_cases {a : Act I} (h : s.step T a = some s') : s.reset = false ∧
    ((∃ c state, a = .call c ∧ c ≠ .start ∧ s.state.call T refOsc s.now c = some state ∧
        s' = s.table state) ∨
      (a = .poll ∧ s.poll T = some s') ∨ (∃ n, a = .run n ∧ s' = s.run n) ∨
      ∃ n, a = .doze n ∧ s' = { s with time := s.time + n }) := by
  unfold Chip.step at h
  split at h
  · cases h
  · rename_i hr
    refine ⟨Bool.eq_false_of_not_eq_true hr, ?_⟩
    cases a with
    | call c =>
      refine .inl ⟨c, ?_⟩
      split at h
      · cases h
      · rename_i c' hne he
        cases he
        split at h
        · cases h
        · obtain ⟨state, hstate, rfl⟩ := Option.map_eq_some_iff.mp h
          exact ⟨state, rfl, hne, hstate, rfl⟩
      all_goals contradiction
    | poll => exact .inr (.inl ⟨rfl, h⟩)
    | run n =>
      cases h
      exact .inr (.inr (.inl ⟨n, rfl, rfl⟩))
    | doze n =>
      cases h
      exact .inr (.inr (.inr ⟨n, rfl, rfl⟩))

/-- What a step of `watchdog_run` is: one of its two calls, or none. -/
theorem Chip.poll_cases (h : s.poll T = some s') : ∃ r, r ≠ .start ∧
    ((∃ c state, s.state.call T refOsc s.now c = some state ∧
        s' = { s.table state with runner := r }) ∨
      s' = { s with runner := r }) := by
  have hstay : ∀ (o : Option UInt64) (f : UInt64 → Runner), (∀ x, f x ≠ .start) →
      (match o with
        | some x => some { s with runner := f x }
        | none => some { s with runner := .panicked }) = some s' →
      ∃ r, r ≠ .start ∧ ((∃ c state, s.state.call T refOsc s.now c = some state ∧
        s' = { s.table state with runner := r }) ∨ s' = { s with runner := r }) := by
    intro o f hf ho
    cases o with
    | some x =>
      cases ho
      exact ⟨_, hf x, .inr rfl⟩
    | none =>
      cases ho
      exact ⟨.panicked, (fun he => by cases he), .inr rfl⟩
  unfold Chip.poll at h
  split at h
  · split at h
    · rename_i hst
      cases h
      exact ⟨.schedule _, (fun he => by cases he),
        .inl ⟨.start, _, Option.map_eq_some_iff.mpr ⟨_, hst, rfl⟩, rfl⟩⟩
    · cases h
      exact ⟨.panicked, (fun he => by cases he), .inr rfl⟩
  · exact hstay _ (.check _) (fun _ he => by cases he) h
  · split at h
    · rename_i hst
      cases h
      exact ⟨.wait _ _, (fun he => by cases he),
        .inl ⟨.checkTasks, _, Option.map_eq_some_iff.mpr ⟨_, hst, rfl⟩, rfl⟩⟩
    · cases h
      exact ⟨.panicked, (fun he => by cases he), .inr rfl⟩
  · split at h
    · exact hstay _ (.check _) (fun _ he => by cases he) h
    · cases h
  · cases h

/-- The clock does not go back. -/
theorem Chip.step_time {a : Act I} (h : s.step T a = some s') : s.time ≤ s'.time := by
  obtain ⟨-, ⟨c, state, -, -, -, rfl⟩ | ⟨-, hpoll⟩ | ⟨n, -, rfl⟩ | ⟨n, -, rfl⟩⟩ :=
    Chip.step_cases h
  · exact Nat.le_refl _
  · obtain ⟨r, -, ⟨c, state, -, rfl⟩ | rfl⟩ := Chip.poll_cases hpoll <;> exact Nat.le_refl _
  · exact Nat.le_add_right _ _
  · exact Nat.le_add_right _ _

/-- A call keeps the slots on the table, by its rule. -/
theorem Chip.Table.call (hT : T.Lawful) (hm : s.Table m) (hn : s.InRange) {c : Call I}
    {state : State I N} (h : s.state.call T refOsc s.now c = some state) :
    (s.table state).Table (Watches.step N m (s.now, c)) := by
  refine ⟨hm.1.call hT h, fun id w hw => ?_⟩
  have hle := Watches.reset_le (x := (s.now, c)) hm.2 (Chip.now_toNat hn).ge hw
  rw [Chip.now_toNat hn] at hle
  exact hle

theorem Chip.Table.time (hm : s.Table m) {t : Chip I N} (hst : t.state = s.state)
    (ht : s.time ≤ t.time) : t.Table m := by
  refine ⟨by rw [hst]; exact hm.1, fun id w hw => ?_⟩
  exact Nat.le_trans (hm.2 id w hw) (Nat.div_le_div_right ht)

/-- `check_tasks` services the COP unless a task has starved. -/
theorem Chip.Table.checkTasks (hT : T.Lawful) (hm : s.Table m) (hn : s.InRange) :
    ∃ starved, s.state.checkTasks T s.now = some (starved,
        if starved then s.state else { s.state with cop := s.state.cop.service }) ∧
      (starved = true ↔ ∃ id w, m.lookup id = some w ∧ w.Starved s.now.toNat) := by
  refine hm.1.checkTasks hT fun id w hw => ?_
  rw [Chip.now_toNat hn]
  exact hm.2 id w hw

omit [DecidableEq I] in
/-- The COP counts the time awake, and resets the chip at the end of its period. -/
theorem Chip.run_eq {t : Timeout} (h : s.Runs t) (n : Nat) :
    (s.count + n < t.cycles → (s.run n).count = s.count + n ∧ (s.run n).reset = false) ∧
      (t.cycles ≤ s.count + n → (s.run n).reset = true) := by
  have hp := Hw.pass_running t s.count 0 n
  unfold Chip.run
  simp only [Chip.Runs] at h
  rw [h]
  constructor
  · intro hlt
    obtain ⟨he, hr⟩ := hp.1 hlt
    exact ⟨he, by simp [hr]⟩
  · intro hle
    simp [hp.2 hle]

omit [DecidableEq I] in
theorem Chip.run_stopped (h : s.state.cop.cntl &&& copEn = 0) (n : Nat) :
    (s.run n).reset = false := by
  unfold Chip.run Hw.pass
  simp [h]

end

/-! ## No reset without a starved task -/

/-- No step of time makes `watchdog_run` later than `late` ticks for its next check. -/
def Chip.OnTime (late : Nat) (s : Chip I N) (n : Nat) : Prop :=
  match s.runner with
  | .schedule checkInterval => s.count + n ≤ checkInterval.toNat * cyclesPerTick
  | .check checkInterval nextCheck =>
    s.time + n ≤ (nextCheck.toNat - checkInterval.toNat + late) * cyclesPerTick
  | .wait _ nextCheck => s.time + n ≤ (nextCheck.toNat + late) * cyclesPerTick
  | .start | .panicked => True

/-- No registered task has starved. -/
def Chip.Fed (s : Chip I N) : Prop :=
  ∀ task, some task ∈ s.state.tasks.toList → ¬ task.watch.Starved s.now.toNat

/-- What `watchdog_run` is promised: the clock has not run out (but for the longest period), it is
polled in time, and finds no starved task. -/
def Chip.Kept (late : Nat) (s : Chip I N) (a : Act I) : Prop :=
  s.time + 2 ^ 28 < 2 ^ 64 * cyclesPerTick ∧
    match a with
    | .run n | .doze n => s.OnTime late n
    | .poll => s.Fed
    | .call _ => True

instance (w : Watch) (now : Nat) : Decidable (w.Starved now) :=
  decidable_of_iff (∃ limit ∈ w.current, limit ≤ now - w.reset) Iff.rfl

instance (s : Chip I N) : Decidable s.Fed :=
  decidable_of_iff (∀ slot ∈ s.state.tasks.toList, ∀ task ∈ slot,
    ¬ task.watch.Starved s.now.toNat)
    ⟨fun h task ht => h _ ht task rfl, fun h _ hs task ht => h task (ht ▸ hs)⟩

instance (late : Nat) (s : Chip I N) (n : Nat) : Decidable (s.OnTime late n) :=
  match hr : s.runner with
  | .schedule c => decidable_of_iff (s.count + n ≤ c.toNat * cyclesPerTick)
      (by rw [Chip.OnTime, hr])
  | .check c next => decidable_of_iff
      (s.time + n ≤ (next.toNat - c.toNat + late) * cyclesPerTick) (by rw [Chip.OnTime, hr])
  | .wait c next => decidable_of_iff (s.time + n ≤ (next.toNat + late) * cyclesPerTick)
      (by rw [Chip.OnTime, hr])
  | .start | .panicked => isTrue (by rw [Chip.OnTime, hr]; trivial)

instance (late : Nat) (s : Chip I N) : (a : Act I) → Decidable (s.Kept late a)
  | .run n | .doze n => inferInstanceAs (Decidable (_ ∧ s.OnTime late n))
  | .poll => inferInstanceAs (Decidable (_ ∧ s.Fed))
  | .call _ => inferInstanceAs (Decidable (_ ∧ True))

/-- Where `watchdog_run` is, the COP has counted no more than this. `due` is the time of the check,
`last` that of the one before. -/
def Chip.Paced (checkInterval : UInt64) (s : Chip I N) : Prop :=
  match s.runner with
  | .start | .panicked => True
  | .schedule c => c = checkInterval ∧ s.count ≤ checkInterval.toNat * cyclesPerTick
  | .check c nextCheck => c = checkInterval ∧ ∃ due, nextCheck.toNat = due + checkInterval.toNat ∧
      due * cyclesPerTick ≤ s.time ∧
      s.count + due * cyclesPerTick ≤ s.time + checkInterval.toNat * cyclesPerTick
  | .wait c nextCheck => c = checkInterval ∧ ∃ last,
      nextCheck.toNat = last + checkInterval.toNat ∧ s.count + last * cyclesPerTick ≤ s.time

/-- The COP is stopped, or counts to a period that is no shorter than asked for. -/
def Chip.Set (hardwareTimeout : UInt64) (s : Chip I N) : Prop :=
  match s.runner with
  | .start | .panicked => s.state.cop.cntl &&& copEn = 0
  | _ => ∃ t, s.Runs t ∧ hardwareTimeout.toNat * cyclesPerTick ≤ t.cycles

/-- The invariant of the runs that keep the promises. -/
structure Chip.Fine (hardwareTimeout checkInterval : UInt64) (s : Chip I N) : Prop where
  alive : s.reset = false
  config : s.state.hardwareTimeout = hardwareTimeout ∧ s.state.checkInterval = checkInterval
  table : ∃ m, s.Table m
  paced : s.Paced checkInterval
  set : s.Set hardwareTimeout

section

variable {T : Time} {hardwareTimeout checkInterval : UInt64} {late : Nat} {s s' : Chip I N}

theorem Chip.Booted.fine (h : s.Booted hardwareTimeout checkInterval) :
    s.Fine hardwareTimeout checkInterval := by
  obtain ⟨cop, hstate, hcop, hrun, halive⟩ := h
  refine ⟨halive, ?_, ⟨∅, ?_, ?_⟩, ?_, ?_⟩
  · rw [hstate]
    exact ⟨rfl, rfl⟩
  · rw [hstate]
    exact .empty
  · intro id w hw
    cases hw
  · unfold Chip.Paced
    rw [hrun]
    trivial
  · unfold Chip.Set
    rw [hrun, hstate]
    exact hcop

omit [DecidableEq I] in
/-- Time asleep, and a service. -/
theorem Chip.Paced.less (h : s.Paced checkInterval) (hr : s'.runner = s.runner)
    (ht : s.time ≤ s'.time) (hc : s'.count ≤ s.count) : s'.Paced checkInterval := by
  unfold Chip.Paced at h ⊢
  rw [hr]
  split at h
  · trivial
  · trivial
  · exact ⟨h.1, Nat.le_trans hc h.2⟩
  · obtain ⟨he, due, hnext, hdue, hcount⟩ := h
    exact ⟨he, due, hnext, Nat.le_trans hdue ht, by omega⟩
  · obtain ⟨he, last, hnext, hcount⟩ := h
    exact ⟨he, last, hnext, by omega⟩

omit [DecidableEq I] in
/-- Time awake: the COP does not get past the interval and the lateness. -/
theorem Chip.Paced.awake (h : s.Paced checkInterval) (s' : Chip I N) {n : Nat}
    (ho : s.OnTime late n)
    (hr : s'.runner = s.runner) (ht : s'.time = s.time + n) (hc : s'.count = s.count + n) :
    s'.Paced checkInterval ∧ (s.runner = .start ∨ s.runner = .panicked ∨
      s.count + n ≤ (checkInterval.toNat + late) * cyclesPerTick) := by
  unfold Chip.Paced Chip.OnTime at *
  rw [hr]
  cases hs : s.runner with
  | start => exact ⟨trivial, .inl rfl⟩
  | panicked => exact ⟨trivial, .inr (.inl rfl)⟩
  | schedule c =>
    rw [hs] at h ho
    obtain ⟨rfl, -⟩ := h
    rw [← hc] at ho
    refine ⟨⟨rfl, ho⟩, .inr (.inr ?_)⟩
    rw [← hc, Nat.add_mul]
    exact Nat.le_trans ho (Nat.le_add_right _ _)
  | check c next =>
    rw [hs] at h ho
    obtain ⟨rfl, due, hnext, hdue, hcount⟩ := h
    rw [cyclesPerTick_eq] at *
    exact ⟨⟨rfl, due, hnext, by omega, by omega⟩, .inr (.inr (by omega))⟩
  -- The check was at the last reading, and the next one is due an interval after it.
  | wait c next =>
    rw [hs] at h ho
    obtain ⟨rfl, last, hnext, hcount⟩ := h
    rw [cyclesPerTick_eq] at *
    exact ⟨⟨rfl, last, hnext, by omega⟩, .inr (.inr (by omega))⟩

theorem Chip.Fine.call (hT : T.Lawful) (h : s.Fine hardwareTimeout checkInterval)
    (hn : s.InRange) {c : Call I} (hc : c ≠ .start) {state : State I N}
    (hs : s.state.call T refOsc s.now c = some state) :
    (s.table state).Fine hardwareTimeout checkInterval := by
  obtain ⟨hcntl, hhw, hci, -⟩ := State.call_cop hc hs
  obtain ⟨m, hm⟩ := h.table
  refine ⟨h.alive, ⟨hhw.trans h.config.1, hci.trans h.config.2⟩, ⟨_, hm.call hT hn hs⟩, ?_, ?_⟩
  · refine h.paced.less rfl (Nat.le_refl _) ?_
    unfold Chip.table
    dsimp only
    split
    · exact Nat.le_refl _
    · exact Nat.zero_le _
  · have hset := h.set
    unfold Chip.Set Chip.Runs Chip.table at *
    rw [hcntl]
    exact hset

theorem Chip.Fine.doze (h : s.Fine hardwareTimeout checkInterval) (n : Nat) :
    Chip.Fine hardwareTimeout checkInterval { s with time := s.time + n } := by
  obtain ⟨m, hm⟩ := h.table
  exact ⟨h.alive, h.config, ⟨m, hm.time rfl (Nat.le_add_right _ _)⟩,
    h.paced.less rfl (Nat.le_add_right _ _) (Nat.le_refl _), h.set⟩

theorem Chip.Fine.run (h : s.Fine hardwareTimeout checkInterval)
    (hlate : checkInterval.toNat + late < hardwareTimeout.toNat) {n : Nat}
    (ho : s.OnTime late n) : (s.run n).Fine hardwareTimeout checkInterval := by
  obtain ⟨m, hm⟩ := h.table
  have hfine : (s.run n).count = s.count + n → (s.run n).reset = false →
      (s.run n).Fine hardwareTimeout checkInterval := fun hc hr =>
    ⟨hr, h.config, ⟨m, hm.time rfl (Nat.le_add_right _ _)⟩,
      (h.paced.awake (s.run n) ho rfl rfl hc).1, h.set⟩
  -- Before the start, and after a panic in it, the COP does not count.
  have hstop : (s.runner = .start ∨ s.runner = .panicked) →
      (s.run n).Fine hardwareTimeout checkInterval := by
    intro hr
    have hset := h.set
    unfold Chip.Set at hset
    have hen : s.state.cop.cntl &&& copEn = 0 := by
      rcases hr with hr | hr <;> (rw [hr] at hset; exact hset)
    refine ⟨Chip.run_stopped hen n, h.config, ⟨m, hm.time rfl (Nat.le_add_right _ _)⟩, ?_, h.set⟩
    unfold Chip.Paced
    rcases hr with hr | hr <;> (rw [show (s.run n).runner = s.runner from rfl, hr]; trivial)
  rcases (h.paced.awake { s with time := s.time + n, count := s.count + n }
    ho rfl rfl rfl).2 with hr | hr | hle
  · exact hstop (.inl hr)
  · exact hstop (.inr hr)
  · have hset := h.set
    unfold Chip.Set at hset
    by_cases hr : s.runner = .start ∨ s.runner = .panicked
    · exact hstop hr
    · obtain ⟨t, ht, hcycles⟩ : ∃ t, s.Runs t ∧
          hardwareTimeout.toNat * cyclesPerTick ≤ t.cycles := by
        split at hset
        · rename_i he
          exact absurd (.inl he) hr
        · rename_i he
          exact absurd (.inr he) hr
        · exact hset
      -- The interval and the lateness are together shorter than the period.
      have hlt : s.count + n < t.cycles := by
        simp only [cyclesPerTick_eq] at *
        omega
      obtain ⟨hc, hres⟩ := (Chip.run_eq ht n).1 hlt
      exact hfine hc hres

omit [DecidableEq I] in
/-- No instant overflows while the clock is in range. -/
theorem checkedAdd_interval {a b : UInt64} {t : Nat} (ha : a.toNat ≤ t / cyclesPerTick)
    (hb : b.toNat * cyclesPerTick ≤ 2 ^ 28) (ht : t + 2 ^ 28 < 2 ^ 64 * cyclesPerTick) :
    ∃ c, Word.checkedAdd a b = some c ∧ c.toNat = a.toNat + b.toNat := by
  have hlt : a.toNat + b.toNat < 2 ^ 64 := by
    rw [cyclesPerTick_eq] at *
    omega
  have hc : (UInt64.ofNat (a.toNat + b.toNat)).toNat = a.toNat + b.toNat :=
    UInt64.toNat_ofNat_of_lt' hlt
  exact ⟨_, Word.checkedAdd_eq_some.mpr hc, hc⟩

theorem Chip.Fine.poll (hT : T.Lawful) (hms : T.Millis)
    (hsmall : hardwareTimeout.toNat * 1000 < 2 ^ 64)
    (h : s.Fine hardwareTimeout checkInterval)
    (hlate : checkInterval.toNat + late < hardwareTimeout.toNat) (hk : s.Kept late .poll)
    (hs : s.poll T = some s') : s'.Fine hardwareTimeout checkInterval := by
  obtain ⟨m, hm⟩ := h.table
  obtain ⟨hrange, hfed⟩ := hk
  have hn : s.InRange := Nat.lt_of_le_of_lt (Nat.le_add_right _ _) hrange
  have hnow := Chip.now_toNat hn
  have hset := h.set
  have hpaced := h.paced
  -- The interval is shorter than the period that the COP is set to.
  have hci : (∃ t, s.Runs t ∧ hardwareTimeout.toNat * cyclesPerTick ≤ t.cycles) →
      checkInterval.toNat * cyclesPerTick ≤ 2 ^ 28 := by
    rintro ⟨t, -, ht⟩
    have hle := Nat.mul_le_mul_right cyclesPerTick
      (Nat.le_of_lt (Nat.lt_of_le_of_lt (Nat.le_add_right _ late) hlate))
    exact Nat.le_trans hle (Nat.le_trans ht (cycles_le t))
  unfold Chip.poll at hs
  unfold Chip.Set at hset
  unfold Chip.Paced at hpaced
  cases hr : s.runner with
  | start =>
    rw [hr] at hs hset
    cases hst : s.state.start T refOsc s.now with
    | none =>
      rw [hst] at hs
      cases hs
      exact ⟨h.alive, h.config, ⟨m, hm.time rfl (Nat.le_refl _)⟩, trivial, hset⟩
    | some x =>
      rw [hst] at hs
      cases hs
      obtain ⟨hx, hhw, hcfg, hserv, t, ht, hcycles⟩ := State.start_some hst
      have hcall : s.state.call T refOsc s.now .start = some x.2 :=
        Option.map_eq_some_iff.mpr ⟨x, hst, rfl⟩
      obtain ⟨hm', hle'⟩ := hm.call hT hn hcall
      rw [h.config.1, hms _ hsmall] at hcycles
      refine ⟨h.alive, ⟨hhw.trans h.config.1, hcfg.trans h.config.2⟩, ⟨_, hm', hle'⟩, ?_,
        ⟨t, ht, hcycles⟩⟩
      refine ⟨hx.trans h.config.2, ?_⟩
      show (if x.2.cop.services = s.state.cop.services then s.count else 0) ≤ _
      rw [if_neg (Nat.ne_of_gt hserv)]
      exact Nat.zero_le _
  | schedule c =>
    rw [hr] at hs hset hpaced
    dsimp only at hs
    obtain ⟨rfl, hcount⟩ := hpaced
    obtain ⟨next, hadd, hnext⟩ := checkedAdd_interval (a := s.now) (b := c) (t := s.time)
      hnow.le (hci hset) hrange
    rw [hadd] at hs
    cases hs
    refine ⟨h.alive, h.config, ⟨m, hm.time rfl (Nat.le_refl _)⟩, ⟨rfl, s.now.toNat, hnext, ?_⟩,
      hset⟩
    rw [hnow]
    have hdiv := Nat.div_mul_le_self s.time cyclesPerTick
    refine ⟨hdiv, ?_⟩
    show s.count + s.time / cyclesPerTick * cyclesPerTick ≤ s.time + c.toNat * cyclesPerTick
    omega
  | check c next =>
    rw [hr] at hs hset hpaced
    dsimp only at hs
    obtain ⟨rfl, due, hnext, hdue, hcount⟩ := hpaced
    obtain ⟨starved, hcheck, hstarved⟩ := hm.checkTasks hT hn
    obtain rfl : starved = false := by
      refine Bool.eq_false_of_not_eq_true fun he => ?_
      obtain ⟨id, w, hw, hsw⟩ := hstarved.mp he
      obtain ⟨i, task, hi, -, rfl⟩ := (hm.1.lookup id w).mp hw
      refine hfed task ?_ hsw
      rw [← hi, Vector.mem_toList_iff]
      exact Vector.getElem_mem i.isLt
    rw [hcheck] at hs
    cases hs
    have hserv : (Cop.service s.state.cop).services ≠ s.state.cop.services :=
      Nat.succ_ne_self _
    refine ⟨h.alive, h.config, ⟨m, hm.1, hm.2⟩, ⟨rfl, due, hnext, ?_⟩, hset⟩
    show (if (Cop.service s.state.cop).services = s.state.cop.services then s.count else 0) +
      due * cyclesPerTick ≤ s.time
    rw [if_neg hserv, Nat.zero_add]
    exact hdue
  | wait c next =>
    rw [hr] at hs hset hpaced
    dsimp only at hs
    obtain ⟨rfl, last, hnext, hcount⟩ := hpaced
    split at hs
    · rename_i hle
      have hle' : next.toNat ≤ s.time / cyclesPerTick := by
        rw [← hnow]
        exact UInt64.le_iff_toNat_le.mp hle
      obtain ⟨next', hadd, hnext'⟩ := checkedAdd_interval (a := next) (b := c) (t := s.time)
        hle' (hci hset) hrange
      rw [hadd] at hs
      cases hs
      have hmul := (Nat.le_div_iff_mul_le (by decide)).mp hle'
      refine ⟨h.alive, h.config, ⟨m, hm.time rfl (Nat.le_refl _)⟩,
        ⟨rfl, next.toNat, hnext', hmul, ?_⟩, hset⟩
      show s.count + next.toNat * cyclesPerTick ≤ s.time + c.toNat * cyclesPerTick
      rw [hnext, Nat.add_mul]
      omega
    · cases hs
  | panicked =>
    rw [hr] at hs
    cases hs

theorem Chip.Fine.step (hT : T.Lawful) (hms : T.Millis)
    (hsmall : hardwareTimeout.toNat * 1000 < 2 ^ 64)
    (h : s.Fine hardwareTimeout checkInterval)
    (hlate : checkInterval.toNat + late < hardwareTimeout.toNat) {a : Act I} (hk : s.Kept late a)
    (hs : s.step T a = some s') : s'.Fine hardwareTimeout checkInterval := by
  obtain ⟨-, hcases⟩ := Chip.step_cases hs
  rcases hcases with ⟨c, state, -, hc, hcall, rfl⟩ | ⟨rfl, hpoll⟩ | ⟨n, rfl, rfl⟩ | ⟨n, rfl, rfl⟩
  · exact h.call hT (Nat.lt_of_le_of_lt (Nat.le_add_right _ _) hk.1) hc hcall
  · exact h.poll hT hms hsmall hlate hk hpoll
  · exact h.run hlate hk.2
  · exact h.doze n

end

/-! ## A starved task -/

/-- The call resets the count of the id, or takes it off the table. -/
def Call.On (id : I) : Call I → Prop
  | .registerTask i _ | .deregisterTask i | .feed i => i = id
  | .start | .checkTasks => False

/-- The cycles that the chip is awake. -/
def Act.awake : Act I → Nat
  | .run n => n
  | _ => 0

/-- The cycles that the chip is awake in some steps. -/
def awake (tr : List (Chip I N × Act I)) : Nat := (tr.map (·.2.awake)).sum

/-- The id is on the table, with this count. -/
def Chip.Keeps (s : Chip I N) (id : I) (w : Watch) : Prop :=
  ∃ m, s.Table m ∧ m.lookup id = some w

section

variable {T : Time} {s s' t t' : Chip I N} {id : I} {w : Watch}

theorem Watches.lookup_step {m : Watches I} {now : UInt64} {c : Call I} (hc : ¬ c.On id)
    (hs : c ≠ .start) : (Watches.step N m (now, c)).lookup id = m.lookup id := by
  cases c with
  | registerTask i config =>
    simp only [Watches.step]
    split
    · exact Finmap.lookup_insert_of_ne _ fun he => hc he.symm
    · rfl
  | deregisterTask i => exact Finmap.lookup_erase_ne fun he => hc he.symm
  | feed i =>
    simp only [Watches.step]
    split
    · exact Finmap.lookup_insert_of_ne _ fun he => hc he.symm
    · rfl
  | start => exact absurd rfl hs
  | checkTasks => rfl

theorem Watch.Starved.mono {a b : Nat} (h : w.Starved a) (hab : a ≤ b) : w.Starved b := by
  obtain ⟨limit, hl, hle⟩ := h
  exact ⟨limit, hl, by omega⟩

/-- While a task is starved, `check_tasks` does nothing. -/
theorem Chip.Keeps.checkTasks (hT : T.Lawful) (h : s.Keeps id w) (hn : s.InRange)
    (hw : w.Starved s.now.toNat) : s.state.checkTasks T s.now = some (true, s.state) := by
  obtain ⟨m, hm, hl⟩ := h
  obtain ⟨starved, hcheck, hstarved⟩ := hm.checkTasks hT hn
  obtain rfl : starved = true := hstarved.mpr ⟨id, w, hl, hw⟩
  exact hcheck

omit [DecidableEq I] in
theorem Chip.table_self (s : Chip I N) : s.table s.state = s := by
  unfold Chip.table
  rw [if_pos rfl]

/-- A step of `watchdog_run` behind its start, while a task is starved. -/
theorem Chip.Keeps.poll (hT : T.Lawful) (h : s.Keeps id w) (hn : s.InRange)
    (hw : w.Starved s.now.toNat) (hr : s.runner ≠ .start) (hs : s.poll T = some s') :
    ∃ r, r ≠ .start ∧ s' = { s with runner := r } := by
  have hadd : ∀ (o : Option UInt64) (f : UInt64 → Runner), (∀ x, f x ≠ .start) →
      (match o with
        | some x => some { s with runner := f x }
        | none => some { s with runner := .panicked }) = some s' →
      ∃ r, r ≠ .start ∧ s' = { s with runner := r } := by
    intro o f hf ho
    cases o with
    | some x =>
      cases ho
      exact ⟨_, hf x, rfl⟩
    | none =>
      cases ho
      exact ⟨.panicked, nofun, rfl⟩
  unfold Chip.poll at hs
  split at hs
  · contradiction
  · exact hadd _ (.check _) (fun _ he => by cases he) hs
  · rw [h.checkTasks hT hn hw] at hs
    simp only [Chip.table_self] at hs
    cases hs
    exact ⟨.wait _ _, (fun he => by cases he), rfl⟩
  · split at hs
    · exact hadd _ (.check _) (fun _ he => by cases he) hs
    · cases hs
  · cases hs

/-- What the steps keep while a task is starved and does not call: the COP is not serviced. -/
structure Chip.Starving (id : I) (w : Watch) (u : Timeout) (count : Nat) (s : Chip I N) : Prop where
  keeps : s.Keeps id w
  starved : w.Starved s.now.toNat
  runs : s.Runs u
  started : s.runner ≠ .start
  count : s.count = count

theorem Chip.Starving.call (hT : T.Lawful) {u : Timeout} {count : Nat}
    (h : s.Starving id w u count) (hn : s.InRange) {c : Call I} (hc : c ≠ .start)
    (hid : ¬ c.On id) {state : State I N} (hs : s.state.call T refOsc s.now c = some state) :
    (s.table state).Starving id w u count := by
  obtain ⟨hcntl, -, -, hserv⟩ := State.call_cop hc hs
  obtain ⟨m, hm, hl⟩ := h.keeps
  refine ⟨⟨_, hm.call hT hn hs, (Watches.lookup_step hid hc).trans hl⟩, h.starved,
    hcntl.trans h.runs, h.started, ?_⟩
  by_cases hcheck : c = .checkTasks
  · rw [hcheck] at hs
    simp only [State.call, h.keeps.checkTasks hT hn h.starved, Option.map_some] at hs
    cases hs
    rw [Chip.table_self]
    exact h.count
  · unfold Chip.table
    rw [if_pos (hserv hcheck)]
    exact h.count

theorem Chip.Starving.time {u : Timeout} {count : Nat} (h : s.Starving id w u count)
    (s' : Chip I N) (hn' : s'.InRange) (hst : s'.state = s.state) (hr : s'.runner = s.runner)
    (ht : s.time ≤ s'.time) : s'.Starving id w u s'.count := by
  obtain ⟨m, hm, hl⟩ := h.keeps
  have hn : s.InRange := Nat.lt_of_le_of_lt ht hn'
  refine ⟨⟨m, hm.time hst ht, hl⟩, h.starved.mono ?_, by rw [Chip.Runs, hst]; exact h.runs,
    by rw [hr]; exact h.started, rfl⟩
  rw [Chip.now_toNat hn, Chip.now_toNat hn']
  exact Nat.div_le_div_right ht

theorem Chip.Starving.step (hT : T.Lawful) {u : Timeout} {count : Nat}
    (h : s.Starving id w u count) (hn' : s'.InRange) {a : Act I}
    (ha : ∀ c, a = .call c → ¬ c.On id) (hs : s.step T a = some s') :
    s'.reset = true ∨ (s'.Starving id w u (count + a.awake) ∧
      (0 < a.awake → count + a.awake < u.cycles)) := by
  have hn : s.InRange := Nat.lt_of_le_of_lt (Chip.step_time hs) hn'
  obtain ⟨-, ⟨c, state, rfl, hc, hcall, rfl⟩ | ⟨rfl, hpoll⟩ | ⟨n, rfl, rfl⟩ | ⟨n, rfl, rfl⟩⟩ :=
    Chip.step_cases hs
  · exact .inr ⟨h.call hT hn' hc (ha c rfl) hcall, fun h0 => absurd h0 (Nat.lt_irrefl 0)⟩
  · obtain ⟨r, hr, rfl⟩ := h.keeps.poll hT hn h.starved h.started hpoll
    exact .inr ⟨⟨h.keeps, h.starved, h.runs, hr, h.count⟩, fun h0 => absurd h0 (Nat.lt_irrefl 0)⟩
  · obtain ⟨hlt, hge⟩ := Chip.run_eq h.runs n
    by_cases hc : s.count + n < u.cycles
    · have htime := h.time (s.run n) hn' rfl rfl (Nat.le_add_right _ _)
      rw [(hlt hc).1, h.count] at htime
      rw [h.count] at hc
      exact .inr ⟨htime, fun _ => hc⟩
    · exact .inl (hge (Nat.le_of_not_lt hc))
  · obtain ⟨hk, hw, hu, hr, -⟩ :=
      h.time { s with time := s.time + n } hn' rfl rfl (Nat.le_add_right _ _)
    exact .inr ⟨⟨hk, hw, hu, hr, h.count⟩, fun h0 => absurd h0 (Nat.lt_irrefl 0)⟩

/-- In every run the slots hold a table, and `watchdog_run` has started the COP if it runs. -/
theorem Chip.reach_table (hT : T.Lawful) {hardwareTimeout checkInterval : UInt64}
    (h : (chip T I N hardwareTimeout checkInterval).Reach (fun s _ => Chip.InRange s) s) :
    (∃ m, s.Table m) ∧ (s.runner = .start → s.state.cop.cntl &&& copEn = 0) := by
  refine h.induct (I := fun s : Chip I N =>
    (∃ m, s.Table m) ∧ (s.runner = .start → s.state.cop.cntl &&& copEn = 0)) ?_ ?_
  · intro s h0
    exact ⟨(Chip.Booted.fine h0).table, fun hr => by
      have hset := (Chip.Booted.fine h0).set
      unfold Chip.Set at hset
      rw [hr] at hset
      exact hset⟩
  · rintro s a s' ⟨⟨m, hm⟩, hstop⟩ hn hs
    obtain ⟨-, ⟨c, state, -, hc, hcall, rfl⟩ | ⟨-, hpoll⟩ | ⟨n, -, rfl⟩ | ⟨n, -, rfl⟩⟩ :=
      Chip.step_cases hs
    · obtain ⟨hcntl, -⟩ := State.call_cop hc hcall
      refine ⟨⟨_, hm.call hT hn hcall⟩, fun hr => ?_⟩
      show state.cop.cntl &&& copEn = 0
      rw [hcntl]
      exact hstop hr
    · obtain ⟨r, hr, ⟨c, state, hcall, rfl⟩ | rfl⟩ := Chip.poll_cases hpoll
      · exact ⟨⟨_, (hm.call hT hn hcall).1, (hm.call hT hn hcall).2⟩, fun he => absurd he hr⟩
      · exact ⟨⟨m, hm.1, hm.2⟩, fun he => absurd he hr⟩
    · exact ⟨⟨m, hm.time rfl (Nat.le_add_right _ _)⟩, hstop⟩
    · exact ⟨⟨m, hm.time rfl (Nat.le_add_right _ _)⟩, hstop⟩

/-- **A starved task.** Once a registered task has starved, and as long as it does not call, the
chip is reset before it has been awake for a period, whatever the other tasks call and however
`watchdog_run` is polled. -/
theorem starved_reset (hT : T.Lawful) {hardwareTimeout checkInterval : UInt64}
    (hs : (chip T I N hardwareTimeout checkInterval).Reach (fun s _ => Chip.InRange s) s)
    {m : Watches I} (hm : s.state.Holds m) (hl : m.lookup id = some w)
    (hw : w.Starved s.now.toNat) {u : Timeout} (hu : s.Runs u)
    {tr : List (Chip I N × Act I)}
    (hr : (chip T I N hardwareTimeout checkInterval).Run s tr t) (ht : t.InRange)
    (hid : ∀ x ∈ tr, ∀ c, x.2 = .call c → ¬ c.On id) (hawake : u.cycles ≤ awake tr) :
    t.reset = true := by
  obtain ⟨⟨m', hm'⟩, hstop⟩ := Chip.reach_table hT hs
  have hkeeps : s.Keeps id w := by
    refine ⟨m', hm', (hm'.1.lookup id w).mpr ((hm.lookup id w).mp hl)⟩
  have hstarted : s.runner ≠ .start := by
    intro hr
    have hen := (Guard.fields ⟨true, false, u, 0, 0⟩).en.mpr rfl
    have hcop := hstop hr
    rw [hu] at hcop
    simp only [Guard.cntl, if_true, Bool.false_eq_true, if_false, UInt32.or_zero] at hen
    exact hen hcop
  -- As long as the chip is not reset, no feed has come and the count is the time awake.
  have key : t.InRange → (∀ x ∈ tr, ∀ c, x.2 = .call c → ¬ c.On id) → t.reset = true ∨
      (t.Starving id w u (s.count + awake tr) ∧
        (0 < awake tr → s.count + awake tr < u.cycles)) := by
    refine Lts.Run.induct (I := fun tr t => Chip.InRange t →
      (∀ x ∈ tr, ∀ c, x.2 = .call c → ¬ c.On id) → Chip.reset t = true ∨
      (Chip.Starving id w u (s.count + awake tr) t ∧
        (0 < awake tr → s.count + awake tr < u.cycles))) ?_ ?_ hr
    · intro _ _
      exact .inr ⟨⟨hkeeps, hw, hu, hstarted, rfl⟩, fun h0 => absurd h0 (Nat.lt_irrefl 0)⟩
    · intro tr t a t' _ ih hst hn' hid
      have hsum : awake (tr ++ [(t, a)]) = awake tr + a.awake := by simp [awake]
      rcases ih (Nat.lt_of_le_of_lt (Chip.step_time hst) hn')
        (fun x hx => hid x (List.mem_append_left _ hx)) with hres | ⟨hst', hlt⟩
      · have hf := (Chip.step_cases hst).1
        rw [hres] at hf
        cases hf
      · rw [hsum, ← Nat.add_assoc]
        rcases hst'.step hT hn' (hid (t, a) (by simp)) hst with hres | ⟨hnext, hcount⟩
        · exact .inl hres
        · refine .inr ⟨hnext, fun h0 => ?_⟩
          by_cases ha : 0 < a.awake
          · exact hcount ha
          · have := hlt (by omega)
            omega
  rcases key ht hid with hres | ⟨-, hlt⟩
  · exact hres
  · have hpos : 0 < u.cycles := Nat.mul_pos (Nat.succ_pos _) (by decide)
    have := hlt (by omega)
    omega

end

/-! ## A concrete run -/

/-- A task with 2 ms to its feed is registered, and 3 ms pass. -/
def Chip.late : List (Chip Nat 1 × Act Nat) × Chip Nat 1 :=
  Lts.exec (Chip.step .millis) ⟨.new ⟨0, 0⟩ 100 50, .start, 0, 0, false⟩
    [.call (.registerTask 7 (.new 2)), .poll, .poll, .poll, .run 72000]

/-- 50 ms later there is a check, and the chip is awake for two steps of the COP. -/
def Chip.later : List (Chip Nat 1 × Act Nat) × Chip Nat 1 :=
  Lts.exec (Chip.step .millis) Chip.late.2
    [.run 1200000, .poll, .poll, .doze 24000000, .run 2994304]

theorem starved_reset_later : Chip.later.2.reset = true := by
  have hs : (chip .millis Nat 1 100 50).Run _ Chip.late.1 Chip.late.2 := .exec _ _ _ _
  have hr : (chip .millis Nat 1 100 50).Run _ Chip.later.1 Chip.later.2 := .exec _ _ _ _
  have hreach : (chip .millis Nat 1 100 50).Reach (fun s _ => Chip.InRange s) Chip.late.2 := by
    refine hs.reach (.init ⟨⟨0, 0⟩, rfl, rfl, rfl, rfl⟩) ?_
    show ∀ x ∈ Chip.late.1, x.1.time < 2 ^ 64 * cyclesPerTick
    decide +kernel
  obtain ⟨⟨m, hm⟩, -⟩ := Chip.reach_table Time.millis_lawful hreach
  have hlookup : m.lookup 7 = some ⟨0, 2, .none⟩ := by
    have htask : (Chip.late.2.state.tasks.get 0).map
        (fun task => (task.id, task.lastFeed, task.limit, task.setup)) = some (7, 0, 2, .none) := by
      decide +kernel
    obtain ⟨task, hget, htask⟩ := Option.map_eq_some_iff.mp htask
    simp only [Prod.mk.injEq] at htask
    obtain ⟨hid, hfeed, hlimit, hsetup⟩ := htask
    refine (hm.1.lookup _ _).mpr ⟨0, task, hget, hid, ?_⟩
    rw [Task.watch, hfeed, hlimit, hsetup]
    rfl
  have hruns : Chip.late.2.Runs 1 := by
    show Chip.late.2.state.cop.cntl = _
    decide +kernel
  refine starved_reset Time.millis_lawful hreach hm.1 hlookup (by decide +kernel) hruns hr ?_ ?_ ?_
  · show Chip.later.2.time < 2 ^ 64 * cyclesPerTick
    decide +kernel
  · intro x hx c hc hid
    have hnone : ∀ x ∈ Chip.later.1, ∀ c, x.2 ≠ .call c := by
      intro x hx c
      have hmem := Lts.Run.mem_exec hx
      simp only [List.mem_cons, List.not_mem_nil, or_false] at hmem
      rcases hmem with h | h | h | h | h <;> rw [h] <;> exact fun he => by cases he
    exact hnone x hx c hc
  · decide +kernel

end Mc1322x.TaskWatchdog
