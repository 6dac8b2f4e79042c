import Mc1322x.Embassy.SleepyExecutor

/-!
# The timers due after a sleep

The timeout is rounded down to whole sleep-timer ticks of two counts, and the resync adds half a
tick to the sleep that it measures. `resync_reaches`: a sleep that lasts the timeout brings `base`
to the deadline, whatever the parities, as long as the timeout is not clamped and the counts before
the sleep are not fewer than those it was computed with.

`timers_woken`: the critical section of the run loop then ends with the tasks of all timers due at
the deadline in the run queue. Where the tick count does not fit `u64`, `base` is before the
deadline again (`base_wraps`).
-/

namespace Mc1322x.TimeDriver

variable {Q Task : Type} (T : TimerQueue Q Task)

/-- The sleep-timer ticks to the deadline fit 32 bits. -/
def Unclamped (d : TmrDriver Q) (cntr : UInt16) : Prop :=
  ∀ alarm, d.nextAlarm = some alarm →
    ((alarm.toNat - d.base.toNat) * period - (d.since cntr).toNat) / countsPerDozeTick < 2 ^ 32

/-! ## The deadline is reached -/

section Reaches

variable {d : TmrDriver Q} {cntr : UInt16} {alarm : UInt64} {timeout : UInt32}

theorem toNat_unclamped (ha : d.nextAlarm = some alarm)
    (ht : dozeTicksUntilNextWake d cntr = some timeout) (hu : Unclamped d cntr) :
    timeout.toNat =
      ((alarm.toNat - d.base.toNat) * period - (d.since cntr).toNat) / countsPerDozeTick := by
  have hlt := hu alarm ha
  have hs := (d.since cntr).toNat_lt
  rw [toNat_dozeTicks d ha ht]
  simp only [period_eq, countsPerDozeTick_eq] at *
  omega

/-- A sleep of at least the timeout, with at least the counts before it, reaches the deadline. -/
theorem resync_reaches {counts : UInt16} {w : UInt32} (ha : d.nextAlarm = some alarm)
    (ht : dozeTicksUntilNextWake d cntr = some timeout) (hu : Unclamped d cntr)
    (hc : countsBeforeSleep d cntr ≤ counts) (hw : timeout ≤ w) :
    alarm.toNat ≤ d.base.toNat + (resyncTicks counts w).toNat := by
  have htn := toNat_unclamped ha ht hu
  have hsplit := resync_split counts w
  have hr : (resyncRest counts w).toNat % period < period := Nat.mod_lt _ (by decide)
  have hcn : (d.since cntr).toNat ≤ counts.toNat := UInt16.le_iff_toNat_le.mp hc
  have hwn := UInt32.le_iff_toNat_le.mp hw
  -- Twice the timeout is at most one count short of the deadline, which the half tick makes up.
  have hround : (alarm.toNat - d.base.toNat) * period ≤
      timeout.toNat * countsPerDozeTick + 1 + (d.since cntr).toNat := by
    rw [htn, countsPerDozeTick_eq]
    omega
  have hreach : (alarm.toNat - d.base.toNat) * period <
      (resyncTicks counts w).toNat * period + period := by
    rw [countsPerDozeTick_eq] at *
    omega
  rw [period_eq] at hreach
  omega

end Reaches

/-! ## The critical section after the sleep -/

variable [DecidableEq Task]

/-- The rest of the resync runs, and `base` does not overflow in it. -/
def InSection (s : Exec Q Task) (a : ExecAct Task) : Prop :=
  s.pc = .resync ∧
    (a = .resync .check → armStep s.sys.drv s.sys.cntr ≠ none →
      s.sys.drv.base.toNat + 1 < 2 ^ 64)

/-- The deadline has been reached; in the section, the queue `q` has not been processed yet, and at
its end the tasks of the timers due are in the run queue. -/
def Exec.Due (q : Q) (alarm : UInt64) (s : Exec Q Task) : Prop :=
  alarm ≤ s.sys.drv.base ∧
    (s.pc = .resync ∧ s.sys.pc ≠ .thread ∧ s.sys.drv.queue = q ∨
      s.pc = .clear ∧ ∀ e ∈ T.entries q, e.1 ≤ alarm → e.2 ∈ s.runQueue)

section Section

variable {T} {q : Q} {alarm : UInt64} {s s' : Exec Q Task}

theorem Exec.mem_wake (s : Exec Q Task) (t : Task) :
    t ∈ (s.wake t).runQueue ∧ ∀ u ∈ s.runQueue, u ∈ (s.wake t).runQueue := by
  unfold Exec.wake
  split
  · rename_i h
    exact ⟨h, fun _ hu => hu⟩
  · exact ⟨List.mem_append_right _ List.mem_cons_self, fun _ hu => List.mem_append_left _ hu⟩

theorem Exec.mem_wakeAll (s : Exec Q Task) (ts : List Task) :
    (∀ t ∈ ts, t ∈ (s.wakeAll ts).runQueue) ∧ ∀ u ∈ s.runQueue, u ∈ (s.wakeAll ts).runQueue := by
  induction ts generalizing s with
  | nil => exact ⟨nofun, fun _ hu => hu⟩
  | cons t ts ih =>
    obtain ⟨hall, hkeep⟩ := ih (s.wake t)
    obtain ⟨hmem, hold⟩ := s.mem_wake t
    refine ⟨?_, fun u hu => hkeep u (hold u hu)⟩
    intro u hu
    rcases List.mem_cons.mp hu with rfl | hu
    · exact hkeep u hmem
    · exact hall u hu

/-- In the section only the rest of the resync runs. -/
theorem Exec.step_resync (hp : s.pc = .resync) {a : ExecAct Task} (hs : s.step T a = some s') :
    ∃ b, a = .resync b := by
  cases a with
  | resync b => exact ⟨b, rfl⟩
  | _ => simp [Exec.step, hp, ExecPc.masked] at hs

/-- An iteration of the loop of `arm_next_compare` that goes on adds one to `base`. -/
theorem le_base_armStep {d d' : TmrDriver Q} {cntr : UInt16} (h : alarm ≤ d.base)
    (hfit : d.base.toNat + 1 < 2 ^ 64) (ha : armStep d cntr = some d') :
    alarm ≤ d'.base ∧ d'.queue = d.queue := by
  obtain ⟨-, rfl⟩ := (armStep_eq_some d).mp ha
  refine ⟨?_, rfl⟩
  rw [UInt64.le_iff_toNat_le] at h ⊢
  simp only [UInt64.toNat_add, UInt64.toNat_ofNat']
  omega

/-- A step of the rest of the resync: it goes on, or it ends with the wakes of `process_queue`. -/
theorem Exec.resync_cases {b : Act Task} (hp : s.pc = .resync) (hpc : s.sys.pc ≠ .thread)
    (hs : s.step T (.resync b) = some s') :
    (s'.pc = .resync ∧ s'.sys.pc ≠ .thread ∧ (s'.sys.drv = s.sys.drv ∨
        b = .check ∧ armStep s.sys.drv s.sys.cntr = some s'.sys.drv)) ∨
      b = .process ∧ s'.pc = .clear ∧ s'.sys.drv = (processQueue T s.sys.drv).2 ∧
        ∀ t ∈ (processQueue T s.sys.drv).1, t ∈ s'.runQueue := by
  simp only [Exec.step, if_pos hp, Option.map_eq_some_iff] at hs
  obtain ⟨x, hx, rfl⟩ := hs
  obtain ⟨hst, hxp, -, -⟩ := Exec.drive_spec hx
  -- Only `process` ends the resync.
  have hstay (h : x.sys.pc ≠ .thread) :
      (if x.sys.pc = .thread then { x with pc := .clear } else x) = x := if_neg h
  cases b with
  | now | schedule | isr =>
    simp only [Sys.step, hpc, ↓reduceIte, reduceCtorEq] at hst
  | advance n =>
    simp only [Sys.step, Option.some.injEq] at hst
    have hxpc : x.sys.pc ≠ .thread := by rw [← hst]; exact hpc
    rw [hstay hxpc]
    exact .inl ⟨hxp.trans hp, hxpc, .inl (by rw [← hst])⟩
  | write =>
    obtain ⟨-, hst⟩ := Option.ite_none_right_eq_some.mp hst
    simp only [Option.some.injEq] at hst
    have hxpc : x.sys.pc ≠ .thread := by
      rw [← hst]
      show Pc.check ≠ Pc.thread
      decide
    rw [hstay hxpc]
    exact .inl ⟨hxp.trans hp, hxpc, .inl (by rw [← hst])⟩
  | check =>
    obtain ⟨-, hst⟩ := Option.ite_none_right_eq_some.mp hst
    have hxpc : x.sys.pc ≠ .thread := by
      split at hst <;> simp only [Option.some.injEq] at hst <;> rw [← hst]
      · show Pc.process ≠ Pc.thread
        decide
      · show Pc.arm ≠ Pc.thread
        decide
    rw [hstay hxpc]
    refine .inl ⟨hxp.trans hp, hxpc, ?_⟩
    split at hst
    · simp only [Option.some.injEq] at hst
      exact .inl (by rw [← hst])
    · rename_i d hd
      simp only [Option.some.injEq] at hst
      exact .inr ⟨rfl, by rw [hd, ← hst]⟩
  | process =>
    obtain ⟨hproc, hst⟩ := Option.ite_none_right_eq_some.mp hst
    simp only [Option.some.injEq] at hst
    have hxpc : x.sys.pc = .thread := by rw [← hst]
    rw [if_pos hxpc]
    refine .inr ⟨rfl, rfl, by rw [← hst], ?_⟩
    simp only [Exec.drive, Sys.step, if_pos hproc, Option.map_some, Option.some.injEq] at hx
    rw [← hx]
    exact (Exec.mem_wakeAll _ _).1

/-- `arm_next_compare` leaves its loop with the boundary less than one period behind the counter. -/
theorem Exec.since_check (hs : s.step T (.resync .check) = some s')
    (hp : s'.sys.pc = .process) : (s'.sys.drv.since s.sys.cntr).toNat < period := by
  obtain ⟨hst, -, -⟩ := Exec.resync_spec hs
  obtain ⟨-, hst⟩ := Option.ite_none_right_eq_some.mp hst
  split at hst <;> simp only [Option.some.injEq] at hst
  · rename_i hnone
    rw [← hst]
    exact (armStep_eq_none s.sys.drv).mp hnone
  · rw [← hst] at hp
    cases hp

theorem Exec.Due.step (hT : T.Lawful) (h : s.Due T q alarm) {a : ExecAct Task}
    (hc : InSection s a) (hs : s.step T a = some s') : s'.Due T q alarm := by
  obtain ⟨hp, hfit⟩ := hc
  obtain ⟨hb, ⟨-, hpc, rfl⟩ | ⟨hp', -⟩⟩ := h
  · obtain ⟨b, rfl⟩ := Exec.step_resync hp hs
    obtain ⟨hp', hpc', hd | ⟨rfl, harm⟩⟩ | ⟨rfl, hp', hd, hwoken⟩ :=
      Exec.resync_cases hp hpc hs
    · exact ⟨by rw [hd]; exact hb, .inl ⟨hp', hpc', by rw [hd]⟩⟩
    · obtain ⟨hb', hq⟩ := le_base_armStep hb
        (hfit rfl (by rw [harm]; exact Option.some_ne_none _)) harm
      exact ⟨hb', .inl ⟨hp', hpc', hq⟩⟩
    · refine ⟨by rw [hd]; exact hb, .inr ⟨hp', fun e he hle => hwoken _ ?_⟩⟩
      exact (hT.next_woken _ _ _).mpr ⟨e.1, he, UInt64.le_trans hle hb⟩
  · rw [hp] at hp'
    cases hp'

end Section

/-! ## Timers due at the deadline -/

/-- **Due timers are woken.** Where the timeout was not clamped, the counter was read before the
power-down no earlier than for the timeout, the sleep timer shows at least the timeout without a
wrap, and the tick count fits `u64`:
* the resync leaves `base` at or past the deadline, with the boundary less than one period behind
  the counter, also where `arm_next_compare` leaves its loop;
* the critical section ends only with the tasks of all timers due at the deadline in the run queue.
-/
theorem timers_woken (hT : T.Lawful) {s s₁ : Exec Q Task} {nowAt dozeAt : Nat} {timeout : UInt32}
    {alarm : UInt64} {cntr : UInt16} {W c : Nat} (hp : s.pc = .sleep nowAt dozeAt timeout)
    (ht : dozeTicksUntilNextWake s.sys.drv (.ofNat dozeAt) = some timeout)
    (ha : s.sys.drv.nextAlarm = some alarm) (hu : Unclamped s.sys.drv (.ofNat dozeAt))
    (hc : countsBeforeSleep s.sys.drv (.ofNat dozeAt) ≤ countsBeforeSleep s.sys.drv cntr)
    (hW : timeout.toNat ≤ W) (hw : W < 2 ^ 32)
    (hfit : s.sys.drv.base.toNat +
      (resyncTicks (countsBeforeSleep s.sys.drv cntr) (.ofNat W)).toNat < 2 ^ 64)
    (hs : s.step T (.sleep cntr W c) = some s₁) :
    alarm ≤ s₁.sys.drv.base ∧ (s₁.sys.drv.since s₁.sys.cntr).toNat < period ∧
      ∀ s₂, (sleepy T (· = s₁)).Reach InSection s₂ →
        alarm ≤ s₂.sys.drv.base ∧
        (∀ s₃, s₂.step T (.resync .check) = some s₃ → s₃.sys.pc = .process →
          (s₃.sys.drv.since s₂.sys.cntr).toNat < period) ∧
        (s₂.pc = .resync ∨
          s₂.pc = .clear ∧ ∀ e ∈ T.entries s.sys.drv.queue, e.1 ≤ alarm → e.2 ∈ s₂.runQueue) := by
  simp only [Exec.step, hp, Option.some.injEq] at hs
  have hle : timeout ≤ .ofNat W := by
    rw [UInt32.le_iff_toNat_le, UInt32.toNat_ofNat', Nat.mod_eq_of_lt hw]
    exact hW
  -- The sleep is as long as the time-out, so the resync reaches the deadline.
  have hreach := resync_reaches ha ht hu hc hle
  have hbase : alarm ≤ s₁.sys.drv.base := by
    rw [← hs, UInt64.le_iff_toNat_le]
    simp only [Sys.awake, resync, UInt64.toNat_add, Nat.mod_eq_of_lt hfit]
    exact hreach
  have hsince : (s₁.sys.drv.since s₁.sys.cntr).toNat < period := by
    rw [← hs]
    simp only
    rw [Sys.awake_cntr, Sys.awake_since]
    exact Nat.mod_lt _ (by decide)
  have hdue₁ : s₁.Due T s.sys.drv.queue alarm := by
    refine ⟨hbase, .inl ?_⟩
    rw [← hs]
    refine ⟨rfl, ?_, rfl⟩
    show Pc.arm ≠ Pc.thread
    decide
  refine ⟨hbase, hsince, fun s₂ h₂ => ?_⟩
  -- From there on every step of the section keeps what is due.
  have hdue : s₂.Due T s.sys.drv.queue alarm := by
    refine Lts.Reach.induct (I := Exec.Due T s.sys.drv.queue alarm) ?_ ?_ h₂
    · intro t e
      rw [show t = s₁ from e]
      exact hdue₁
    · exact fun _ _ _ hi hc hst => hi.step hT hc hst
  exact ⟨hdue.1, fun s₃ => Exec.since_check, hdue.2.imp (·.1) id⟩

/-! ## Concrete sleeps -/

/-- The rest of the resync after a sleep of `W` sleep-timer ticks. -/
def Exec.afterSleep (s : Exec (List (UInt64 × Nat)) Nat) (W : Nat) :
    List (Exec (List (UInt64 × Nat)) Nat × ExecAct Nat) × Exec (List (UInt64 × Nat)) Nat :=
  Lts.exec (Exec.step (listQueue Nat))
    { s with sys := Sys.awake s.sys.drv (countsBeforeSleep s.sys.drv 40) W 3, pc := .resync }
    [.resync .write, .resync .check, .resync .process]

theorem Exec.afterSleep_reach (s : Exec (List (UInt64 × Nat)) Nat) (W : Nat)
    (h : ∀ x ∈ (s.afterSleep W).1, InSection x.1 x.2) :
    (sleepy (listQueue Nat) (· = { s with
      sys := Sys.awake s.sys.drv (countsBeforeSleep s.sys.drv 40) W 3
      pc := .resync })).Reach InSection (s.afterSleep W).2 :=
  (Lts.Run.exec _ _ _ _).reach (.init rfl) h

/-- The sleep of `Exec.dozing`, 40 sleep-timer ticks longer than its timeout. -/
theorem timers_woken_dozing : 1000 ≤ (Exec.dozing.afterSleep 187520).2.sys.drv.base ∧
    0 ∈ (Exec.dozing.afterSleep 187520).2.runQueue := by
  have hreach := Exec.dozing.afterSleep_reach 187520 (by
    refine List.forall_mem_cons.mpr ⟨⟨rfl, nofun⟩, List.forall_mem_cons.mpr ⟨⟨rfl, ?_⟩, ?_⟩⟩
    · exact fun _ _ => by decide
    · exact List.forall_mem_cons.mpr ⟨⟨rfl, nofun⟩, List.forall_mem_nil _⟩)
  have hu : Unclamped Exec.dozing.sys.drv (.ofNat 40) := by
    rintro alarm ⟨⟩
    decide
  obtain ⟨hb, -, h | ⟨-, h⟩⟩ := (timers_woken (listQueue Nat) (listQueue_lawful Nat)
    (s := Exec.dozing) rfl rfl rfl hu (by decide) (by decide) (by decide) (by decide)
    (show Exec.dozing.step _ (.sleep 40 187520 3) = some _ from rfl)).2.2 _ hreach
  · cases h
  · exact ⟨hb, h (1000, 0) List.mem_cons_self (by decide)⟩

/-- The executor at the call of `sleep_with`, 30 ticks before the tick count leaves `u64`, with a
timer at the last tick but one. -/
def Exec.lastTicks : Exec (List (UInt64 × Nat)) Nat where
  sys := { Sys.zero 40 with
    drv := {
      base := .ofNat (2 ^ 64 - 30)
      lastBoundary := 0
      queue := [(.ofNat (2 ^ 64 - 2), 0)]
      nextAlarm := some (.ofNat (2 ^ 64 - 2)) } }
  pended := false
  runQueue := []
  guards := 0
  pc := .sleep 40 40 5230

/-- A sleep 770 sleep-timer ticks longer than its timeout: `base` starts again from zero, and the
timer is not woken. -/
theorem base_wraps :
    dozeTicksUntilNextWake Exec.lastTicks.sys.drv (.ofNat 40) = some 5230 ∧
      Unclamped Exec.lastTicks.sys.drv (.ofNat 40) ∧
      Exec.lastTicks.step (listQueue Nat) (.sleep 40 6000 3) =
        some { Exec.lastTicks with
          sys := Sys.awake Exec.lastTicks.sys.drv 40 6000 3
          pc := .resync } ∧
      (Exec.lastTicks.afterSleep 6000).2.pc = .clear ∧
      (Exec.lastTicks.afterSleep 6000).2.sys.drv.base < .ofNat (2 ^ 64 - 2) ∧
      (Exec.lastTicks.afterSleep 6000).2.runQueue = [] := by
  refine ⟨by decide, ?_, rfl, by decide, by decide, by decide⟩
  rintro alarm ⟨⟩
  decide

end Mc1322x.TimeDriver
