import Mc1322x.Embassy.Resync

/-!
# The sleepy executor (`mc1322x-embassy/src/sleepy_executor.rs`)

The run loop clears `PENDED`, polls, and in one critical section decides whether to sleep, sleeps
and resyncs (`ExecPc`). Task code runs inside `poll`; interrupts wake tasks, and the TMR0 interrupt
runs the steps of `Clock`, at any point outside the critical section. A wake of a task that is
already queued does nothing; a wake that finds the run queue empty calls `pend`.

* `Exec.Queued`: once `poll` has taken the run queue, a task in it means that `PENDED` is set.
* `TmrDriver.Bounds`: `nextAlarm` is a lower bound of the finite deadlines in the queue.

`sleepy_safe` puts them together: what holds whenever `sleep_with` is entered.
-/

namespace Mc1322x.TimeDriver

variable {Q Task : Type} (T : TimerQueue Q Task)

/-! ## The earliest deadline -/

/-- `nextAlarm` is a lower bound of the finite deadlines. -/
def TmrDriver.Bounds (d : TmrDriver Q) : Prop :=
  ∀ e ∈ T.entries d.queue, e.1 ≠ u64Max → ∃ alarm, d.nextAlarm = some alarm ∧ alarm ≤ e.1

section Bounds

variable {T}

/-- `schedule_wake` tightens the bound. -/
theorem TmrDriver.Bounds.scheduleWake (hT : T.Lawful) {d : TmrDriver Q} (h : d.Bounds T)
    (at_ : UInt64) (t : Task) : (TimeDriver.scheduleWake T d at_ t).2.Bounds T := by
  intro e he hf
  simp only [TimeDriver.scheduleWake] at he ⊢
  refine ⟨_, rfl, ?_⟩
  rcases hT.schedule_mem _ _ _ _ he with hold | rfl
  · obtain ⟨alarm, ha, hle⟩ := h e hold hf
    rw [ha]
    exact UInt64.le_trans Std.min_le_left hle
  · cases d.nextAlarm with
    | none => exact UInt64.le_refl _
    | some next => exact Std.min_le_right

/-- `process_queue` recomputes the bound. -/
theorem TmrDriver.Bounds.processQueue (hT : T.Lawful) (d : TmrDriver Q) :
    (TimeDriver.processQueue T d).2.Bounds T := by
  intro e he hf
  simp only [TimeDriver.processQueue] at he ⊢
  have hle := hT.next_le _ _ _ he
  by_cases hm : (T.nextExpiration d.queue d.base).1 = u64Max
  · rw [hm] at hle
    have := e.1.toNat_lt
    exact absurd (UInt64.le_antisymm (by
      rw [UInt64.le_iff_toNat_le]
      unfold u64Max
      rw [UInt64.toNat_ofNat']
      omega) hle) hf
  · exact ⟨_, if_pos hm, hle⟩

/-- Every step of the time driver keeps the bound. -/
theorem TmrDriver.Bounds.step (hT : T.Lawful) {x x' : Sys Q} {a : Act Task}
    (h : x.drv.Bounds T) (hs : x.step T a = some x') : x'.drv.Bounds T := by
  cases a with
  | advance n => cases hs; exact h
  | check =>
    simp only [Sys.step, Option.ite_none_right_eq_some] at hs
    obtain ⟨-, hs⟩ := hs
    cases ha : armStep x.drv x.cntr with
    | none => rw [ha] at hs; cases hs; exact h
    | some d =>
      rw [ha] at hs
      cases hs
      obtain ⟨-, rfl⟩ := (armStep_eq_some x.drv).mp ha
      exact h
  | schedule at_ t =>
    simp only [Sys.step, Option.ite_none_right_eq_some] at hs
    obtain ⟨-, hs⟩ := hs
    cases hs
    exact h.scheduleWake hT at_ t
  | process =>
    simp only [Sys.step, Option.ite_none_right_eq_some] at hs
    obtain ⟨-, hs⟩ := hs
    cases hs
    exact .processQueue hT x.drv
  | now | isr | write =>
    simp only [Sys.step, Option.ite_none_right_eq_some] at hs
    obtain ⟨-, hs⟩ := hs
    cases hs
    exact h

end Bounds

/-! ## The run loop -/

/-- `MIN_SLEEP_TICKS`. -/
def minSleepTicks : Nat := 20

/-- Where the run loop is. -/
inductive ExecPc where
  /-- Before `PENDED` is cleared. -/
  | clear
  /-- Before `poll` takes the run queue. -/
  | poll
  /-- `poll` runs the tasks. -/
  | tasks
  /-- `poll` has returned. -/
  | decide
  /-- In the critical section, `ticks_until_next_wake` read the counter at count `nowAt`. -/
  | ticks (nowAt : Nat)
  /-- At the call of `sleep_with`: `now()` was read at count `nowAt`, and the timeout computed at
  count `dozeAt`. -/
  | sleep (nowAt dozeAt : Nat) (timeout : UInt32)
  /-- In the loop of `arm_next_compare` and in `process_queue`, after the sleep. -/
  | resync
  deriving DecidableEq

/-- The executor with its time driver: the flag that `wake` sets, the tasks to be polled, and where
`run` is. -/
structure Exec (Q Task : Type) where
  sys : Sys Q
  pended : Bool
  runQueue : List Task
  /-- The number of `SleepInhibitGuard`s held. -/
  guards : Nat
  pc : ExecPc

variable [DecidableEq Task]

/-- A wake enqueues the task; on an empty run queue it calls `SleepyPender::pend`. -/
def Exec.wake (s : Exec Q Task) (t : Task) : Exec Q Task :=
  if t ∈ s.runQueue then s
  else { s with runQueue := s.runQueue ++ [t], pended := s.pended || s.runQueue.isEmpty }

/-- `SleepInhibitGuard::count`. -/
def Exec.guardCount (s : Exec Q Task) : UInt32 := .ofNat s.guards

/-- The timers that are due wake their tasks, in order. -/
def Exec.wakeAll (s : Exec Q Task) (ts : List Task) : Exec Q Task := ts.foldl Exec.wake s

/-- The tasks that a step of the time driver wakes. -/
def Sys.woken (s : Sys Q) : Act Task → List Task
  | .schedule at_ t => (scheduleWake T s.drv at_ t).1
  | .process => (processQueue T s.drv).1
  | _ => []

/-- A step of the time driver: the driver after it, and its wakes. -/
def Exec.drive (s : Exec Q Task) (a : Act Task) : Option (Exec Q Task) :=
  (s.sys.step T a).map fun sys => { s with sys := sys }.wakeAll (s.sys.woken T a)

/-- The processor is in the critical section of the run loop. -/
def ExecPc.masked : ExecPc → Bool
  | .ticks _ | .sleep .. | .resync => true
  | _ => false

/-- A step of the time driver that is part of the interrupt handler. -/
def Act.inIsr : Act Task → Bool
  | .isr | .write | .check | .process => true
  | _ => false

/-- What happens while `run` runs: the hardware and the interrupts, the accesses of `run` itself,
and what the tasks do in `poll`. -/
inductive ExecAct (Task : Type) where
  /-- The counter advances. -/
  | advance (n : Nat)
  /-- A step of the TMR0 interrupt. -/
  | tmr0 (a : Act Task)
  /-- Another interrupt wakes a task. -/
  | interrupt (t : Task)
  | clear
  /-- `poll` takes the run queue. -/
  | take
  /-- A task schedules a timer. -/
  | schedule (at_ : UInt64) (t : Task)
  /-- A task wakes a task. -/
  | wake (t : Task)
  /-- A task starts an async wait. -/
  | guardNew
  /-- A task's async wait ends or is dropped. -/
  | guardDrop
  /-- `poll` returns. -/
  | polled
  /-- The critical section, up to the check of the ticks. -/
  | decide
  /-- The computation of the timeout, `n` counts after the reading for the ticks. -/
  | doze (n : Nat)
  /-- `sleep_with` and the resync up to `arm_next_compare`: the last reading of the counter before
  the sleep, the sleep in sleep-timer ticks, and the counts since the restart of TMR0. -/
  | sleep (cntr : UInt16) (W c : Nat)
  /-- A step of the rest of the resync. -/
  | resync (a : Act Task)

/-- One step; `none`: the step is not possible, or it panics.

Two bounds are assumed. The few instructions between the two readings of the counter (`.doze`) take
less than 19 ticks, one less than `minSleepTicks`: they are adjacent in the critical section, and a
tick is a millisecond. The guards are parts of futures in RAM, so their number fits the 32-bit count
(`.guardNew`). -/
def Exec.step (s : Exec Q Task) : ExecAct Task → Option (Exec Q Task)
  | .advance n => if s.pc.masked then none else s.drive T (.advance n)
  | .tmr0 a => if !s.pc.masked && a.inIsr then s.drive T a else none
  | .interrupt t =>
    if !s.pc.masked && s.sys.pc = .thread then some (s.wake t) else none
  | .clear =>
    if s.pc = .clear ∧ s.sys.pc = .thread then some { s with pended := false, pc := .poll }
    else none
  | .take =>
    if (s.pc = .poll ∨ s.pc = .tasks) ∧ s.sys.pc = .thread then
      some { s with runQueue := [], pc := .tasks }
    else none
  | .schedule at_ t => if s.pc = .tasks then s.drive T (.schedule at_ t) else none
  | .wake t => if s.pc = .tasks ∧ s.sys.pc = .thread then some (s.wake t) else none
  | .guardNew =>
    if s.pc = .tasks ∧ s.sys.pc = .thread ∧ s.guards + 1 < 2 ^ 32 then
      some { s with guards := s.guards + 1 }
    else none
  | .guardDrop =>
    if s.pc = .tasks ∧ s.sys.pc = .thread ∧ 0 < s.guards then
      some { s with guards := s.guards - 1 }
    else none
  | .polled =>
    if s.pc = .tasks ∧ s.sys.pc = .thread then some { s with pc := .decide } else none
  | .decide =>
    if s.pc = .decide ∧ s.sys.pc = .thread then
      if s.pended || s.guardCount ≠ 0 then some { s with pc := .clear }
      else match ticksUntilNextWake s.sys.drv s.sys.cntr with
        | none => none
        | some none => some { s with pc := .clear }
        | some (some ticks) =>
          if ticks < .ofNat minSleepTicks then some { s with pc := .clear }
          else some { s with pc := .ticks s.sys.count }
    else none
  | .doze n =>
    match s.pc with
    | .ticks nowAt =>
      if n < (minSleepTicks - 1) * period then
        match dozeTicksUntilNextWake s.sys.drv (.ofNat (s.sys.count + n)) with
        | none => some { s with pc := .clear }
        | some timeout => some { s with
            sys := { s.sys with count := s.sys.count + n }
            pc := .sleep nowAt (s.sys.count + n) timeout }
      else none
    | _ => none
  | .sleep cntr W c =>
    match s.pc with
    | .sleep .. =>
      some { s with sys := Sys.awake s.sys.drv (countsBeforeSleep s.sys.drv cntr) W c
                    pc := .resync }
    | _ => none
  | .resync a =>
    if s.pc = .resync then
      (s.drive T a).map fun s' => if s'.sys.pc = .thread then { s' with pc := .clear } else s'
    else none

/-- The runs of the executor, from the states in which `run` starts its loop. -/
def sleepy (init : Exec Q Task → Prop) : Lts := .ofStep init (Exec.step T)

/-- `run` at the start of its loop, with the initial tasks spawned and no timer yet. -/
def Exec.Started (s : Exec Q Task) : Prop :=
  s.pc = .clear ∧ T.entries s.sys.drv.queue = [] ∧ s.guards < 2 ^ 32

/-! ## The invariant -/

/-- A task in the run queue means that `PENDED` is set. -/
def Exec.Pends (s : Exec Q Task) : Prop := s.runQueue ≠ [] → s.pended = true

/-- Nothing to run, no guard held, and at count `nowAt` the next alarm was at least
`minSleepTicks` after `now()`. -/
def Exec.Idle (s : Exec Q Task) (nowAt : Nat) : Prop :=
  s.runQueue = [] ∧ s.guards = 0 ∧ ∃ alarm n, s.sys.drv.nextAlarm = some alarm ∧
    now s.sys.drv (.ofNat nowAt) = some n ∧ n.toNat + minSleepTicks ≤ alarm.toNat

/-- What holds at each point of the run loop. -/
def Exec.At (s : Exec Q Task) : ExecPc → Prop
  | .tasks | .decide => s.Pends
  | .ticks nowAt => s.Idle nowAt ∧ s.sys.count = nowAt
  | .sleep nowAt dozeAt timeout => s.Idle nowAt ∧ nowAt ≤ dozeAt ∧
      dozeAt < nowAt + (minSleepTicks - 1) * period ∧
      dozeTicksUntilNextWake s.sys.drv (.ofNat dozeAt) = some timeout
  | _ => True

/-- What holds between any two steps: what is known at the place of `run`, and the bounds of its
counters. -/
structure Exec.Inv (s : Exec Q Task) : Prop where
  pc : s.At s.pc
  bounds : s.sys.drv.Bounds T
  guards : s.guards < 2 ^ 32

section Invariant

variable {T} {s s' : Exec Q Task}

@[simp] theorem Exec.wake_sys (t : Task) : (s.wake t).sys = s.sys := by
  unfold Exec.wake; split <;> rfl

@[simp] theorem Exec.wake_pc (t : Task) : (s.wake t).pc = s.pc := by
  unfold Exec.wake; split <;> rfl

@[simp] theorem Exec.wake_guards (t : Task) : (s.wake t).guards = s.guards := by
  unfold Exec.wake; split <;> rfl

/-- `pend` is called where the run queue stops being empty. -/
theorem Exec.Pends.wake (h : s.Pends) (t : Task) : (s.wake t).Pends := by
  unfold Exec.wake
  split
  · exact h
  · intro _
    cases hq : s.runQueue with
    | nil => simp
    | cons a l =>
      have hp := h (by rw [hq]; exact List.cons_ne_nil _ _)
      simp [hp]

/-- What the wakes of a step change. -/
theorem Exec.wakeAll_keeps (s : Exec Q Task) (ts : List Task) :
    (s.wakeAll ts).sys = s.sys ∧ (s.wakeAll ts).pc = s.pc ∧ (s.wakeAll ts).guards = s.guards ∧
      (s.Pends → (s.wakeAll ts).Pends) := by
  induction ts generalizing s with
  | nil => exact ⟨rfl, rfl, rfl, id⟩
  | cons t ts ih =>
    obtain ⟨hs, hp, hg, hq⟩ := ih (s.wake t)
    unfold Exec.wakeAll at *
    rw [List.foldl_cons]
    exact ⟨by rw [hs, wake_sys], by rw [hp, wake_pc], by rw [hg, wake_guards],
      fun h => hq (h.wake t)⟩

/-- A step of the time driver in the executor. -/
theorem Exec.drive_spec {a : Act Task} (h : s.drive T a = some s') :
    s.sys.step T a = some s'.sys ∧ s'.pc = s.pc ∧ s'.guards = s.guards ∧ (s.Pends → s'.Pends) := by
  obtain ⟨sys, hs, rfl⟩ := Option.map_eq_some_iff.mp h
  obtain ⟨h₁, h₂, h₃, h₄⟩ := Exec.wakeAll_keeps { s with sys := sys } (s.sys.woken T a)
  exact ⟨by rw [h₁]; exact hs, h₂, h₃, h₄⟩

omit [DecidableEq Task] in
/-- What an interrupt outside the critical section keeps. -/
theorem Exec.At.pends (h : s.At s.pc) (hm : s.pc.masked = false)
    (hp : s'.pc = s.pc) (hq : s.Pends → s'.Pends) : s'.At s'.pc := by
  rw [hp]
  cases hpc : s.pc <;> rw [hpc] at h hm
  case tasks | decide => exact hq h
  case clear | poll | resync => trivial
  case ticks | sleep => cases hm

theorem Exec.Inv.drive (hT : T.Lawful) (h : s.Inv T) (hm : s.pc.masked = false) {a : Act Task}
    (hs : s.drive T a = some s') : s'.Inv T := by
  obtain ⟨hst, hp, hg, hq⟩ := Exec.drive_spec hs
  exact ⟨h.pc.pends hm hp hq, h.bounds.step hT hst, hg ▸ h.guards⟩

theorem Exec.Inv.wake (h : s.Inv T) (hm : s.pc.masked = false) (t : Task) :
    (s.wake t).Inv T := by
  refine ⟨h.pc.pends hm (wake_pc t) (·.wake t), ?_, ?_⟩
  · rw [wake_sys]
    exact h.bounds
  · rw [wake_guards]
    exact h.guards

/-- The critical section goes on past its checks only with nothing to run, no guard held and the
next alarm far enough. -/
theorem Exec.decide_spec (h : s.Inv T) (hs : s.step T .decide = some s') :
    s' = { s with pc := .clear } ∨
      s' = { s with pc := .ticks s.sys.count } ∧ s.Idle s.sys.count := by
  simp only [Exec.step, Option.ite_none_right_eq_some] at hs
  obtain ⟨⟨hp, -⟩, hs⟩ := hs
  have hpends : s.Pends := by
    have := h.pc
    rwa [hp] at this
  split at hs
  · cases hs
    exact .inl rfl
  rename_i hidle
  obtain ⟨hpe, hgu⟩ : s.pended = false ∧ s.guardCount = 0 := by simpa using hidle
  split at hs
  · cases hs
  · cases hs
    exact .inl rfl
  rename_i ticks ht
  split at hs
  · cases hs
    exact .inl rfl
  rename_i hmin
  cases hs
  refine .inr ⟨rfl, ?_, ?_, ?_⟩
  · -- A task in the queue would have pended the executor.
    refine Decidable.byContradiction fun hne => ?_
    rw [hpends hne] at hpe
    cases hpe
  · have := congrArg UInt32.toNat hgu
    unfold guardCount at this
    rw [UInt32.toNat_ofNat', Nat.mod_eq_of_lt h.guards] at this
    exact this
  · -- The alarm is at least the shortest sleep after the tick that was read.
    unfold ticksUntilNextWake at ht
    cases ha : s.sys.drv.nextAlarm with
    | none => rw [ha] at ht; cases ht
    | some alarm =>
      rw [ha] at ht
      obtain ⟨n, hn, hsub⟩ := Option.map_eq_some_iff.mp ht
      refine ⟨alarm, n, rfl, hn, ?_⟩
      cases hsub
      rw [UInt64.lt_iff_toNat_lt, Word.toNat_saturatingSub, UInt64.toNat_ofNat'] at hmin
      unfold minSleepTicks at *
      omega

/-- The timeout is computed, shortly after the reading for the ticks. -/
theorem Exec.doze_spec {n : Nat} (hs : s.step T (.doze n) = some s') :
    ∃ nowAt, s.pc = .ticks nowAt ∧ n < (minSleepTicks - 1) * period ∧
      (s' = { s with pc := .clear } ∨
        ∃ timeout, dozeTicksUntilNextWake s.sys.drv (.ofNat (s.sys.count + n)) = some timeout ∧
          s' = { s with
            sys := { s.sys with count := s.sys.count + n }
            pc := .sleep nowAt (s.sys.count + n) timeout }) := by
  simp only [Exec.step] at hs
  split at hs
  · rename_i nowAt hp
    rw [Option.ite_none_right_eq_some] at hs
    obtain ⟨hn, hs⟩ := hs
    refine ⟨nowAt, hp, hn, ?_⟩
    split at hs
    · cases hs
      exact .inl rfl
    · rename_i timeout ht
      cases hs
      exact .inr ⟨timeout, ht, rfl⟩
  · cases hs

/-- A step of the time driver after the sleep; the critical section ends with the last one. -/
theorem Exec.resync_spec {a : Act Task} (hs : s.step T (.resync a) = some s') :
    s.sys.step T a = some s'.sys ∧ s'.guards = s.guards ∧
      (s'.pc = .clear ∨ s'.pc = .resync) := by
  simp only [Exec.step, Option.ite_none_right_eq_some] at hs
  obtain ⟨hp, hs⟩ := hs
  obtain ⟨x, hx, rfl⟩ := Option.map_eq_some_iff.mp hs
  obtain ⟨hst, hpx, hg, -⟩ := Exec.drive_spec hx
  split
  · exact ⟨hst, hg, .inl rfl⟩
  · exact ⟨hst, hg, .inr (hpx.trans hp)⟩

theorem Exec.Inv.step (hT : T.Lawful) (h : s.Inv T) {a : ExecAct Task}
    (hs : s.step T a = some s') : s'.Inv T := by
  cases a with
  | advance n =>
    simp only [Exec.step, Option.ite_none_left_eq_some, Bool.not_eq_true] at hs
    exact h.drive hT hs.1 hs.2
  | tmr0 a =>
    simp only [Exec.step, Option.ite_none_right_eq_some, Bool.and_eq_true, Bool.not_eq_true'] at hs
    exact h.drive hT hs.1.1 hs.2
  | interrupt t =>
    simp only [Exec.step, Option.ite_none_right_eq_some, Bool.and_eq_true, Bool.not_eq_true'] at hs
    obtain ⟨⟨hm, -⟩, hs⟩ := hs
    cases hs
    exact h.wake hm t
  | clear =>
    simp only [Exec.step, Option.ite_none_right_eq_some] at hs
    cases hs.2
    exact ⟨trivial, h.bounds, h.guards⟩
  | take =>
    simp only [Exec.step, Option.ite_none_right_eq_some] at hs
    cases hs.2
    exact ⟨fun hne => absurd rfl hne, h.bounds, h.guards⟩
  | schedule at_ t =>
    simp only [Exec.step, Option.ite_none_right_eq_some] at hs
    exact h.drive hT (by rw [hs.1]; rfl) hs.2
  | wake t =>
    simp only [Exec.step, Option.ite_none_right_eq_some] at hs
    obtain ⟨⟨hp, -⟩, hs⟩ := hs
    cases hs
    exact h.wake (by rw [hp]; rfl) t
  | guardNew =>
    simp only [Exec.step, Option.ite_none_right_eq_some] at hs
    obtain ⟨⟨hp, -, hlt⟩, hs⟩ := hs
    cases hs
    exact ⟨h.pc.pends (by rw [hp]; rfl) rfl id, h.bounds, hlt⟩
  | guardDrop =>
    simp only [Exec.step, Option.ite_none_right_eq_some] at hs
    obtain ⟨⟨hp, -, -⟩, hs⟩ := hs
    cases hs
    exact ⟨h.pc.pends (by rw [hp]; rfl) rfl id, h.bounds,
      Nat.lt_of_le_of_lt (Nat.sub_le _ _) h.guards⟩
  | polled =>
    simp only [Exec.step, Option.ite_none_right_eq_some] at hs
    obtain ⟨⟨hp, -⟩, hs⟩ := hs
    cases hs
    have hq := h.pc
    rw [hp] at hq
    exact ⟨hq, h.bounds, h.guards⟩
  | decide =>
    rcases Exec.decide_spec h hs with rfl | ⟨rfl, hidle⟩
    · exact ⟨trivial, h.bounds, h.guards⟩
    · exact ⟨⟨hidle, rfl⟩, h.bounds, h.guards⟩
  | doze n =>
    obtain ⟨nowAt, hp, hn, rfl | ⟨timeout, ht, rfl⟩⟩ := Exec.doze_spec hs
    · exact ⟨trivial, h.bounds, h.guards⟩
    · have hq := h.pc
      rw [hp] at hq
      obtain ⟨hidle, hc⟩ := hq
      -- The second reading is less than 19 ticks after the first, so the alarm is still ahead.
      exact ⟨⟨hidle, by omega, by omega, ht⟩, h.bounds, h.guards⟩
  | sleep cntr W c =>
    simp only [Exec.step] at hs
    split at hs
    · cases hs
      exact ⟨trivial, h.bounds, h.guards⟩
    · cases hs
  | resync a =>
    obtain ⟨hst, hg, hp⟩ := Exec.resync_spec hs
    refine ⟨?_, h.bounds.step hT hst, hg ▸ h.guards⟩
    rcases hp with hp | hp <;> rw [hp] <;> trivial

omit [DecidableEq Task] in
theorem Exec.Started.inv (h : s.Started T) : s.Inv T := by
  obtain ⟨hp, he, hg⟩ := h
  refine ⟨?_, ?_, hg⟩
  · rw [hp]
    trivial
  · intro e hm
    rw [he] at hm
    cases hm

theorem Exec.Inv.reach (hT : T.Lawful) {C : Exec Q Task → ExecAct Task → Prop}
    (h : (sleepy T (Exec.Started T)).Reach C s) : s.Inv T :=
  Lts.Reach.induct (I := Exec.Inv T) (fun _ h => Exec.Started.inv h)
    (fun _ _ _ hi _ hs => hi.step hT hs) h

end Invariant

/-! ## Entering the sleep -/

omit [DecidableEq Task] in
/-- The timeout ends no later than the next alarm: at the reading for the timeout the alarm is
still ahead, since it was `minSleepTicks` ahead at the reading before. -/
theorem doze_le {d : TmrDriver Q} {nowAt dozeAt : Nat} {alarm n : UInt64} {timeout : UInt32}
    (ha : d.nextAlarm = some alarm) (hn : now d (.ofNat nowAt) = some n)
    (hmin : n.toNat + minSleepTicks ≤ alarm.toNat) (hle : nowAt ≤ dozeAt)
    (hlt : dozeAt < nowAt + (minSleepTicks - 1) * period)
    (ht : dozeTicksUntilNextWake d (.ofNat dozeAt) = some timeout) :
    d.position (.ofNat dozeAt) + timeout.toNat * countsPerDozeTick ≤ alarm.toNat * period := by
  have hnow := (now_eq_some d).mp hn
  have htn := toNat_dozeTicks d ha ht
  have hlast := d.lastBoundary.toNat_lt
  unfold TmrDriver.position TmrDriver.since at *
  rw [UInt16.toNat_sub, UInt16.toNat_ofNat'] at *
  simp only [period_eq, countsPerDozeTick_eq, minSleepTicks] at *
  omega

/-- **The executor does not sleep through work.** Whenever `sleep_with` is entered, the run queue
is empty and no guard is held, and each timer with a finite deadline is at least `minSleepTicks`
after `now()` and not before the end of the programmed timeout, counted from the position at which
it was computed. -/
theorem sleepy_safe (hT : T.Lawful) {s : Exec Q Task} {nowAt dozeAt : Nat} {timeout : UInt32}
    (h : (sleepy T (Exec.Started T)).Reach (Lts.Any _) s)
    (hp : s.pc = .sleep nowAt dozeAt timeout) :
    s.runQueue = [] ∧ s.guards = 0 ∧
      ∃ n, now s.sys.drv (.ofNat nowAt) = some n ∧
        ∀ e ∈ T.entries s.sys.drv.queue, e.1 ≠ u64Max →
          n.toNat + minSleepTicks ≤ e.1.toNat ∧
          s.sys.drv.position (.ofNat dozeAt) + timeout.toNat * countsPerDozeTick ≤
            e.1.toNat * period := by
  have hi := Exec.Inv.reach hT h
  have hpc := hi.pc
  rw [hp] at hpc
  obtain ⟨⟨hr, hg, alarm, n, ha, hn, hmin⟩, hle, hlt, ht⟩ := hpc
  refine ⟨hr, hg, n, hn, ?_⟩
  intro e he hf
  obtain ⟨alarm', ha', hbound⟩ := hi.bounds e he hf
  rw [ha] at ha'
  cases ha'
  rw [UInt64.le_iff_toNat_le] at hbound
  have hdoze := doze_le ha hn hmin hle hlt ht
  exact ⟨by omega, Nat.le_trans hdoze (Nat.mul_le_mul_right _ hbound)⟩

/-- The executor at the start of its loop, at tick 0, with one task spawned. -/
def Exec.zero : Exec (List (UInt64 × Nat)) Nat where
  sys := Sys.zero 0
  pended := true
  runQueue := [0]
  guards := 0
  pc := .clear

/-- The executor at the call of `sleep_with`, with a timer at tick 1000. -/
def Exec.dozing : Exec (List (UInt64 × Nat)) Nat where
  sys := { Sys.zero 40 with
    drv := { base := 0, lastBoundary := 0, queue := [(1000, 0)], nextAlarm := some 1000 } }
  pended := false
  runQueue := []
  guards := 0
  pc := .sleep 30 40 187480

theorem Exec.dozing_reach :
    (sleepy (listQueue Nat) (Exec.Started (listQueue Nat))).Reach (Lts.Any _) Exec.dozing := by
  have hr := Lts.Run.exec (Exec.Started (listQueue Nat)) (Exec.step (listQueue Nat)) Exec.zero
    [.clear, .take, .schedule 1000 0, .polled, .advance 30, .decide, .doze 10]
  exact hr.reach (.init ⟨rfl, rfl, by decide⟩) fun _ _ => trivial

/-- A task schedules a timer at tick 1000 and the executor goes to sleep 30 counts later. -/
theorem sleepy_safe_dozing :
    Exec.dozing.runQueue = [] ∧ Exec.dozing.guards = 0 ∧
      ∃ n, now Exec.dozing.sys.drv (.ofNat 30) = some n ∧
        ∀ e ∈ (listQueue Nat).entries Exec.dozing.sys.drv.queue, e.1 ≠ u64Max →
          n.toNat + minSleepTicks ≤ e.1.toNat ∧
          Exec.dozing.sys.drv.position (.ofNat 40) + (187480 : UInt32).toNat * countsPerDozeTick ≤
            e.1.toNat * period :=
  sleepy_safe (listQueue Nat) (listQueue_lawful Nat) Exec.dozing_reach rfl

end Mc1322x.TimeDriver
