import Mc1322x.Hal.AesAsync

/-!
# One wait for the ASM, step by step

`start_and_wait_async` from its write of `START` on, with the critical section of its first poll and
the handler `asm_isr` in two steps each (`Wait.step`), so that the operation may complete and the
handler may run between any two of them. `first_poll` and `isr_steps` put the steps together to
`pollWait` and `asmIsr`.

`lost_iff_not_safe`: a wait that the handler has served is never left pending without a wake to
come, unless the handler clears `DONE` before the first poll while `WAKER` is not the task's. The
completion is then missed: `check` finds `DONE` clear, and nothing wakes the task
(`completion_lost`).
-/

namespace Mc1322x.Aes

/-- How far `start_and_wait_async` is: before its first poll, in the critical section of that poll
with `DONE` found clear, pending, or done. -/
inductive Pc where
  | fresh
  | checked
  | pending
  | ready

/-- Whether `asm_isr` has cleared `DONE` and is to call `WAKER.wake()`. -/
inductive Isr where
  | idle
  | cleared

/-- The wait for `DONE`, with the handler beside it. -/
structure Wait (Waker : Type) where
  asm : Asm
  waker : WakerCell Waker
  /-- The waker of the task's context. -/
  cx : Waker
  pc : Pc
  isr : Isr
  /-- A wake of `cx` is outstanding. -/
  woken : Bool
  /-- The handler has cleared `DONE` since the operation completed. -/
  served : Bool

/-- The interrupt line. -/
def Asm.irq (s : Asm) : Bool := s.done && s.control1 &&& control1MaskIrq == 0

namespace Wait

variable {Waker : Type} (ch : Chip)

/-- A step of the task, of the handler or of the hardware. -/
inductive Act where
  /-- The operation completes. -/
  | complete
  /-- The first poll checks `DONE`. -/
  | check
  /-- The first poll arms the wait. -/
  | arm
  /-- A later poll. -/
  | poll
  | isrClear
  | isrWake

/-- One step; `none`: the step is not possible. The handler runs outside of critical sections, and
the task does not run inside the handler. -/
def step [DecidableEq Waker] (s : Wait Waker) : Act → Option (Wait Waker)
  | .complete => if s.asm.job = none then none else some { s with asm := s.asm.complete }
  | .check => match s.pc, s.isr with
    | .fresh, .idle => some { s with
        asm := (pollDoneStatus ch s.asm).2
        pc := if (pollDoneStatus ch s.asm).1 then .ready else .checked }
    | _, _ => none
  | .arm => match s.pc with
    | .checked => some { s with waker := s.waker.set s.cx, pc := .pending }
    | _ => none
  | .poll => match s.pc, s.isr with
    | .pending, .idle => some { s with pc := .ready }
    | _, _ => none
  | .isrClear => match s.pc, s.isr, s.asm.irq with
    | .checked, _, _ => none
    | _, .idle, true => some { s with
        asm := ch.writeControl0 control0ClearIrq s.asm
        isr := .cleared
        served := s.asm.job.isNone }
    | _, _, _ => none
  | .isrWake => match s.isr with
    | .cleared => some { s with
        waker := s.waker.wake.2
        isr := .idle
        woken := s.woken || s.waker.wake.1 = some s.cx }
    | .idle => none

/-- `START` has been written, with `CONTROL1` as `ctr_block_async` and `cbc_mac_block_async` set it,
and whatever the last wait has left in `WAKER`. -/
def Started (s : Wait Waker) : Prop :=
  (∃ asm mode, (mode = control1Ctr ∨ mode = control1Cbc) ∧
    s.asm = ch.writeControl0 control0Start (Asm.writeControl1 (control1IdleAsync ||| mode) asm)) ∧
  s.pc = .fresh ∧ s.isr = .idle ∧ s.served = false

/-- The runs of a wait. -/
def runs (Waker : Type) [DecidableEq Waker] : Lts :=
  .ofStep (Started ch : Wait Waker → Prop) (step ch)

/-- The operation has completed, the handler has run, the future is pending, and neither a wake nor
an interrupt is to come. -/
def Lost (s : Wait Waker) : Prop :=
  s.asm.job = none ∧ s.served = true ∧ s.isr = .idle ∧ s.pc = .pending ∧ s.woken = false ∧
    s.asm.irq = false

/-- The handler serves a completed operation before the first poll only where it wakes the task. -/
def Safe (s : Wait Waker) : Act → Prop
  | .isrClear => s.pc = .fresh → s.asm.job = none → s.woken = true ∨ s.waker.slot = some s.cx
  | _ => True

section Steps

variable [DecidableEq Waker] {ch} {s s' : Wait Waker} {a : Act}

/-- The guard of each step, and the state after it. -/
theorem step_iff : step ch s a = some s' ↔
    match a with
    | .complete => s.asm.job ≠ none ∧ { s with asm := s.asm.complete } = s'
    | .check => s.pc = .fresh ∧ s.isr = .idle ∧ { s with
        asm := (pollDoneStatus ch s.asm).2
        pc := if (pollDoneStatus ch s.asm).1 then .ready else .checked } = s'
    | .arm => s.pc = .checked ∧ { s with waker := s.waker.set s.cx, pc := .pending } = s'
    | .poll => s.pc = .pending ∧ s.isr = .idle ∧ { s with pc := .ready } = s'
    | .isrClear => s.pc ≠ .checked ∧ s.isr = .idle ∧ s.asm.irq = true ∧ { s with
        asm := ch.writeControl0 control0ClearIrq s.asm
        isr := .cleared
        served := s.asm.job.isNone } = s'
    | .isrWake => s.isr = .cleared ∧ { s with
        waker := s.waker.wake.2
        isr := .idle
        woken := s.woken || s.waker.wake.1 = some s.cx } = s' := by
  obtain ⟨asm, waker, cx, pc, isr, woken, served⟩ := s
  cases a with
  | complete => by_cases h : asm.job = none <;> simp [step, h]
  | isrClear => cases pc <;> cases isr <;> cases h : asm.irq <;> simp [step, h]
  | _ => cases pc <;> cases isr <;> simp [step]

/-! ## The steps together -/

/-- The state that `pollWait` and `asmIsr` see. -/
def shared (s : Wait Waker) : Shared Waker := ⟨s.asm, s.waker, s.cx⟩

/-- The first poll is `check`, and `arm` where `DONE` is clear. -/
theorem first_poll (hp : s.pc = .fresh) (hi : s.isr = .idle) :
    ∃ t, step ch s .check = some t ∧
      (t.pc = .ready ∧ pollWait ch false s.shared = (some (), t.shared) ∨
        ∃ u, step ch t .arm = some u ∧ u.pc = .pending ∧
          pollWait ch false s.shared = (none, u.shared)) := by
  refine ⟨_, step_iff.mpr ⟨hp, hi, rfl⟩, ?_⟩
  cases hd : s.asm.done with
  | true =>
    left
    simp [pollWait, shared, pollDoneStatus_of_done ch hd]
  | false =>
    right
    refine ⟨_, step_iff.mpr ⟨?_, rfl⟩, rfl, ?_⟩ <;>
      simp [pollWait, shared, pollDoneStatus_of_not_done ch hd]

/-- `asm_isr` is its two steps. -/
theorem isr_steps (h : step ch s .isrClear = some s') :
    ∃ t, step ch s' .isrWake = some t ∧ t.shared = (asmIsr ch s.shared).2 := by
  obtain ⟨-, -, -, rfl⟩ := step_iff.mp h
  exact ⟨_, step_iff.mpr ⟨rfl, rfl⟩, rfl⟩

end Steps

/-! ## Completions that are not missed -/

/-- An interrupt is to come. -/
def Due (s : Wait Waker) : Prop := s.asm.job ≠ none ∨ s.asm.done = true

/-- The wait is not lost: a wake or an interrupt is to come, for a task that will have set `WAKER`.
-/
def Awaited (s : Wait Waker) : Prop :=
  match s.pc with
  | .fresh => s.woken = true ∨ s.isr = .cleared ∧ s.waker.slot = some s.cx ∨ s.Due
  | .checked => s.isr = .idle ∧ (s.woken = true ∨ s.Due)
  | .pending => s.woken = true ∨ s.waker.slot = some s.cx ∧ (s.isr = .cleared ∨ s.Due)
  | .ready => True

/-- Until the wait is done, the IRQ is unmasked. -/
def Unmasked (s : Wait Waker) : Prop :=
  match s.pc with
  | .ready => True
  | _ => s.asm.control1 &&& control1MaskIrq = 0

section Invariant

variable {ch} {s s' : Wait Waker} {a : Act}

theorem Started.inv (h : Started ch s) : s.Unmasked ∧ s.Awaited := by
  obtain ⟨⟨asm, mode, hm, ha⟩, hp, -, -⟩ := h
  rw [writeControl0_start] at ha
  have hmask : (control1IdleAsync ||| mode) &&& control1MaskIrq = 0 := by
    rcases hm with rfl | rfl <;> rfl
  constructor
  · simp only [Unmasked, hp, ha]
    exact hmask
  · simp only [Awaited, Due, hp, ha]
    exact .inr (.inr (.inl (Option.some_ne_none _)))

theorem Awaited.not_lost (hu : s.Unmasked) (hw : s.Awaited) : ¬ s.Lost := by
  rintro ⟨hj, -, hi, hp, hwoken, hirq⟩
  simp only [Unmasked, hp] at hu
  simp only [Awaited, Due, hp, hi, hj, hwoken] at hw
  obtain hw | ⟨-, hw | hw | hd⟩ := hw
  · cases hw
  · cases hw
  · exact hw rfl
  · simp [Asm.irq, hu, hd] at hirq

theorem complete_keeps (s : Asm) : s.complete.control1 = s.control1 := by
  unfold Asm.complete
  cases s.job <;> rfl

theorem done_complete {s : Asm} (h : s.job ≠ none) : s.complete.done = true := by
  unfold Asm.complete
  cases hj : s.job with
  | none => exact absurd hj h
  | some j => rfl

variable [DecidableEq Waker]

theorem Unmasked.step (hu : s.Unmasked) (h : step ch s a = some s') : s'.Unmasked := by
  cases a with
  | complete =>
    obtain ⟨-, rfl⟩ := step_iff.mp h
    simpa only [Unmasked, complete_keeps] using hu
  | check =>
    obtain ⟨hp, -, rfl⟩ := step_iff.mp h
    simp only [Unmasked, hp] at hu
    cases hd : s.asm.done with
    | true => simp only [Unmasked, pollDoneStatus_of_done ch hd, ↓reduceIte]
    | false =>
      simp only [Unmasked, pollDoneStatus_of_not_done ch hd, Bool.false_eq_true, ↓reduceIte]
      exact hu
  | arm =>
    obtain ⟨hp, rfl⟩ := step_iff.mp h
    simpa only [Unmasked, hp] using hu
  | poll =>
    obtain ⟨-, -, rfl⟩ := step_iff.mp h
    exact trivial
  | isrClear =>
    obtain ⟨-, -, -, rfl⟩ := step_iff.mp h
    rw [writeControl0_clearIrq]
    exact hu
  | isrWake =>
    obtain ⟨-, rfl⟩ := step_iff.mp h
    exact hu

theorem Awaited.step (hw : s.Awaited) (hc : Safe s a) (h : step ch s a = some s') :
    s'.Awaited := by
  cases a with
  | complete =>
    obtain ⟨hj, rfl⟩ := step_iff.mp h
    have hd := done_complete hj
    cases hp : s.pc <;> simp only [Awaited, Due, hp, hd] at hw ⊢ <;> grind
  | check =>
    obtain ⟨hp, hi, rfl⟩ := step_iff.mp h
    cases hd : s.asm.done with
    | true => simp only [Awaited, pollDoneStatus_of_done ch hd, ↓reduceIte]
    | false =>
      simp only [Awaited, Due, hp, hi] at hw
      simp only [Awaited, Due, pollDoneStatus_of_not_done ch hd, Bool.false_eq_true, ↓reduceIte]
      grind
  | arm =>
    obtain ⟨hp, rfl⟩ := step_iff.mp h
    -- The waker is in its slot now, and no handler has run since the check.
    simp only [Awaited, Due, hp] at hw
    show s.woken = true ∨ _
    exact hw.2.imp_right fun hd => ⟨rfl, .inr hd⟩
  | poll =>
    obtain ⟨-, -, rfl⟩ := step_iff.mp h
    exact trivial
  | isrClear =>
    obtain ⟨hne, hi, hirq, rfl⟩ := step_iff.mp h
    rw [writeControl0_clearIrq]
    simp only [Safe] at hc
    cases hp : s.pc <;> simp only [Awaited, Due, hp] at hw hc hne ⊢ <;> grind
  | isrWake =>
    obtain ⟨hi, rfl⟩ := step_iff.mp h
    cases hp : s.pc <;> simp only [Awaited, Due, WakerCell.wake, hp, hi] at hw ⊢ <;> grind

end Invariant

section Runs

variable [DecidableEq Waker]

/-- Inside the handler, before the first poll: with no wake for the task, the wait is lost. -/
theorem lost_of_cleared (asm : Asm) (hd : asm.done = false) (hj : asm.job = none)
    {slot : Option Waker} {cx : Waker} (hslot : slot ≠ some cx) :
    ∃ tr t, (runs ch Waker).Run ⟨asm, ⟨slot⟩, cx, .fresh, .cleared, false, true⟩ tr t ∧ t.Lost := by
  have hwake : step ch ⟨asm, ⟨slot⟩, cx, .fresh, .cleared, false, true⟩ .isrWake =
      some ⟨asm, ⟨none⟩, cx, .fresh, .idle, false, true⟩ := by
    simp [step, WakerCell.wake, hslot]
  have hcheck : step ch ⟨asm, ⟨none⟩, cx, .fresh, .idle, false, true⟩ .check =
      some ⟨asm, ⟨none⟩, cx, .checked, .idle, false, true⟩ := by
    simp [step, pollDoneStatus_of_not_done ch hd]
  have harm : step ch ⟨asm, ⟨none⟩, cx, .checked, .idle, false, true⟩ .arm =
      some ⟨asm, ⟨some cx⟩, cx, .pending, .idle, false, true⟩ := rfl
  refine ⟨_, _, .cons hwake (.cons hcheck (.single harm)), hj, rfl, rfl, rfl, rfl, ?_⟩
  rw [Asm.irq, hd, Bool.false_and]

theorem Lost.of_isrClear {s s' : Wait Waker} (h : step ch s .isrClear = some s')
    (hc : ¬ Safe s .isrClear) :
    ∃ tr t, (runs ch Waker).Run s' tr t ∧ t.Lost := by
  obtain ⟨-, -, -, rfl⟩ := step_iff.mp h
  simp only [Safe, Classical.not_imp, not_or, Bool.not_eq_true] at hc
  obtain ⟨hp, hj, hwoken, hslot⟩ := hc
  rw [writeControl0_clearIrq, hp, hj, hwoken]
  exact lost_of_cleared ch { s.asm with done := false, job := none } rfl rfl hslot

/-- **No completion is lost** in the runs in which the handler serves it before the first poll only
where it wakes the task; in every other run the wait can be lost. -/
theorem lost_iff_not_safe :
    (∀ s, (runs ch Waker).Reach Safe s → ¬ s.Lost) ∧
    ∀ s s', step ch s .isrClear = some s' → ¬ Safe s .isrClear →
      ∃ tr t, (runs ch Waker).Run s' tr t ∧ t.Lost := by
  constructor
  · intro s hs
    have hi : s.Unmasked ∧ s.Awaited := by
      refine Lts.Reach.induct (I := fun s : Wait Waker => s.Unmasked ∧ s.Awaited) ?_ ?_ hs
      · exact fun _ h => h.inv
      · rintro s a s' ⟨hu, hw⟩ hc hst
        exact ⟨hu.step hst, hw.step hc hst⟩
    exact Awaited.not_lost hi.1 hi.2
  · intro s s' h hc
    exact Lost.of_isrClear ch h hc

end Runs

/-! ## Concrete runs -/

/-- `START` on the toy chip, with nothing in `WAKER`. -/
def zero : Wait Nat where
  asm := Chip.toy.writeControl0 control0Start
    (Asm.zero.writeControl1 (control1IdleAsync ||| control1Ctr))
  waker := ⟨none⟩
  cx := 0
  pc := .fresh
  isr := .idle
  woken := false
  served := false

theorem zero_started : Started Chip.toy zero :=
  ⟨⟨.zero, control1Ctr, .inl rfl, rfl⟩, rfl, rfl, rfl⟩

/-- The operation completes after the first poll. -/
def pollThenIsr : List (Wait Nat × Act) × Wait Nat :=
  Lts.exec (step Chip.toy) zero [.check, .arm, .complete, .isrClear, .isrWake]

/-- The operation completes before the first poll. -/
def isrThenPoll : List (Wait Nat × Act) × Wait Nat :=
  Lts.exec (step Chip.toy) zero [.complete, .isrClear, .isrWake, .check, .arm]

theorem pollThenIsr_not_lost : pollThenIsr.2.served = true ∧ ¬ pollThenIsr.2.Lost := by
  have hrun := Lts.Run.exec (Started Chip.toy) (step Chip.toy) zero
    [.check, .arm, .complete, .isrClear, .isrWake]
  refine ⟨rfl, (lost_iff_not_safe Chip.toy).1 _ (hrun.reach (.init zero_started) ?_)⟩
  refine List.forall_mem_cons.mpr ⟨trivial, List.forall_mem_cons.mpr ⟨trivial, ?_⟩⟩
  refine List.forall_mem_cons.mpr ⟨trivial, List.forall_mem_cons.mpr ⟨nofun, ?_⟩⟩
  exact List.forall_mem_cons.mpr ⟨trivial, List.forall_mem_nil _⟩

/-- The handler clears `DONE` and finds nothing in `WAKER`; the first poll then finds `DONE` clear
and arms a wait that nothing ends. -/
theorem completion_lost :
    (runs Chip.toy Nat).Reach (Lts.Any _) isrThenPoll.2 ∧ isrThenPoll.2.Lost := by
  have hrun := Lts.Run.exec (Started Chip.toy) (step Chip.toy) zero
    [.complete, .isrClear, .isrWake, .check, .arm]
  exact ⟨hrun.reach (.init zero_started) fun _ _ => trivial, rfl, rfl, rfl, rfl, rfl, rfl⟩

end Wait

end Mc1322x.Aes
