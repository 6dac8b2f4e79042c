import Mathlib.Data.Finset.Card
import Mc1322x.Embassy.SleepyExecutor
import Mc1322x.Hal.CrmSleep

/-!
# The executor and the waits on the CRM

`SleepyExecutor` runs the tasks, and the tasks wait on the CRM (`mc1322x-hal/src/delay.rs` and
`gpio.rs`). Each wait takes a `SleepInhibitGuard` where it becomes pending and drops it where it
ends or is dropped; the executor calls `sleep_with`, which writes all of `WU_CNTL`, only where the
count is 0.

* `Node.Inv`: the count is the number of the waits that have a guard, and a wait that is pending
  has one. So nothing is pending where the chip sleeps.
* `waits_survive`: what holds of a pending wait without any sleep holds with those of the executor.
* `count_exact`: no guard outlives its wait.
-/

namespace Mc1322x

/-! ## Guards in the executor -/

namespace TimeDriver

variable {Q Task : Type} {T : TimerQueue Q Task} [DecidableEq Task] {s s' : Exec Q Task}

/-- The number of guards after a step. -/
def ExecAct.guards : ExecAct Task → Nat → Nat
  | .guardNew, k => k + 1
  | .guardDrop, k => k - 1
  | _, k => k

theorem Exec.step_guards {a : ExecAct Task} (h : s.step T a = some s') :
    s'.guards = a.guards s.guards := by
  cases a with
  | advance n =>
    simp only [Exec.step, Option.ite_none_left_eq_some] at h
    exact (Exec.drive_spec h.2).2.2.1
  | tmr0 a | schedule at_ t =>
    simp only [Exec.step, Option.ite_none_right_eq_some] at h
    exact (Exec.drive_spec h.2).2.2.1
  | interrupt t | wake t =>
    simp only [Exec.step, Option.ite_none_right_eq_some] at h
    cases h.2
    simp [ExecAct.guards]
  | clear | take | guardNew | guardDrop | polled =>
    simp only [Exec.step, Option.ite_none_right_eq_some] at h
    cases h.2
    rfl
  | decide =>
    simp only [Exec.step, Option.ite_none_right_eq_some] at h
    obtain ⟨-, h⟩ := h
    split at h
    · cases h
      rfl
    split at h
    · cases h
    · cases h
      rfl
    split at h <;> cases h <;> rfl
  | doze n =>
    obtain ⟨nowAt, -, -, rfl | ⟨timeout, -, rfl⟩⟩ := Exec.doze_spec h <;> rfl
  | sleep cntr W c =>
    simp only [Exec.step] at h
    split at h <;> cases h
    rfl
  | resync a => exact (Exec.resync_spec h).2.1

omit [DecidableEq Task] in
theorem ExecAct.guards_add {a : ExecAct Task} {k : Nat} (h : a = .guardDrop → k ≠ 0) (m : Nat) :
    a.guards (k + m) = a.guards k + m := by
  cases a with
  | guardNew => exact Nat.add_right_comm k m 1
  | guardDrop =>
    have := h rfl
    simp only [ExecAct.guards]
    omega
  | _ => rfl

omit [DecidableEq Task] in
/-- Where the executor sleeps, no guard is held. -/
theorem Exec.Inv.guards_zero (h : s.Inv T) {nowAt dozeAt : Nat} {timeout : UInt32}
    (hp : s.pc = .sleep nowAt dozeAt timeout) : s.guards = 0 := by
  have hpc := h.pc
  rw [hp] at hpc
  exact hpc.1.2.1

/-- The wakes of a handler outside of the critical section. -/
theorem Exec.Inv.wakeAll (h : s.Inv T) (hm : s.pc.masked = false) (ts : List Task) :
    (s.wakeAll ts).Inv T := by
  obtain ⟨hs, hp, hg, hq⟩ := Exec.wakeAll_keeps s ts
  refine ⟨h.pc.pends hm hp hq, ?_, hg ▸ h.guards⟩
  rw [hs]
  exact h.bounds

end TimeDriver

/-! ## Waits that are not pending -/

namespace Crm

variable {Waker : Type} {x x' : Sys Waker}

/-- Without the sleeps that have returned. -/
def Sys.forget (x : Sys Waker) : Sys Waker := { x with slept := [] }

theorem Wf.forget (h : Wf x) : Wf x.forget := ⟨h.ready, h.pending, h.polled⟩

theorem pollStep_forget (p : Poll Waker) (count : UInt32) :
    x.forget.pollStep p count = (x.pollStep p count).forget := by
  unfold Sys.pollStep
  cases p.rest with
  | nil => rfl
  | cons i rest =>
    cases i with
    | modify f => cases p.hand <;> rfl
    | await =>
      by_cases hc : p.checked = true
      · simp only [if_pos hc]
        rfl
      · by_cases he : x.regs.status.getLsbD p.src.evt = true
        · have he' : x.forget.regs.status.getLsbD p.src.evt = true := he
          simp only [if_neg hc, if_pos he, if_pos he']
          rfl
        · have he' : ¬ x.forget.regs.status.getLsbD p.src.evt = true := he
          simp only [if_neg hc, if_neg he, if_neg he']
          rfl
    | elapsed ticks anchor =>
      by_cases he : ticks ≤ count - anchor
      · simp only [if_pos he]
        rfl
      · simp only [if_neg he]
        rfl
    | _ => rfl

/-- A step of a system that does not sleep does not depend on the sleeps before. -/
theorem Effect.forget {a : Act Waker} (h : Effect x a x')
    (hz : ∀ z, x.task ≠ some (.sleep z)) : Effect x.forget a x'.forget := by
  cases h with
  | latch bits => exact .latch bits
  | isr he => exact .isr he
  | call hs hr => exact .call hs hr
  | poll cx ht hs => exact .poll cx ht hs
  | drop s ht => exact .drop s ht
  | sleep mode sources retention ha ht => exact .sleep mode sources retention ha ht
  | pollStep count ht =>
    rw [← pollStep_forget]
    exact .pollStep count ht
  | sleepStep ht _ => exact absurd ht (hz _)

theorem call_waits {s : Src} {rest : List Instr} (h : x.call s rest = some x') :
    x.waits s = .idle ∧ x'.waits = Function.update x.waits s (.called rest) ∧
      x'.task = x.task := by
  unfold Sys.call at h
  split at h <;> cases h
  rename_i hs
  exact ⟨hs, rfl, rfl⟩

theorem poll_waits {s : Src} {cx : Waker} (h : x.poll s cx = some x') :
    x'.waits = Function.update x.waits s .polled ∧ ∀ z, x'.task ≠ some (.sleep z) := by
  unfold Sys.poll at h
  split at h <;> cases h <;> refine ⟨rfl, fun z hz => ?_⟩ <;> cases hz

theorem drop_waits {s : Src} (h : x.drop s = some x') :
    x'.waits = Function.update x.waits s .idle ∧ x'.task = x.task := by
  unfold Sys.drop at h
  split at h <;> cases h <;> exact ⟨rfl, rfl⟩

/-- Where nothing is pending, everything that is pending is armed. -/
theorem Kept.of_none (h : ∀ s, (x.waits s).isPending = false) : Kept x := by
  intro s rest hp
  have hs := h s
  rw [hp] at hs
  cases hs

/-- What holds of the CRM where nothing is pending at a sleep. -/
structure Settled (x : Sys Waker) : Prop where
  wf : Wf x
  kept : Kept x.forget
  polls : ∀ s, x.waits s = .polled → ∃ p, x.task = some (.poll p) ∧ p.src = s

theorem Settled.init (regs : Regs) : Settled (Sys.init regs : Sys Waker) :=
  ⟨.init regs, nofun, nofun⟩

theorem onSleep_poll {f : Sleep → Sleep} {p : Poll Waker} (h : x.task = some (.poll p)) :
    x.onSleep f = some (.poll p) := by
  unfold Sys.onSleep
  rw [h]
  rfl

/-- The future that is being polled, after a step that changes another or ends the poll. -/
theorem polled_update {s s' : Src} {f : Fut} (h : x'.waits s' = .polled)
    (hw : x'.waits = Function.update x.waits s f) (hf : f ≠ .polled) :
    s' ≠ s ∧ x.waits s' = .polled := by
  rw [hw] at h
  by_cases hs : s' = s
  · subst hs
    rw [Function.update_self] at h
    exact absurd h hf
  · rw [Function.update_of_ne hs] at h
    exact ⟨hs, h⟩

theorem Settled.effect {a : Act Waker} (hx : Settled x) (h : Effect x a x')
    (hz : ∀ z, x.task ≠ some (.sleep z)) : Settled x' := by
  refine ⟨hx.wf.effect h, hx.kept.effect hx.wf.forget (h.forget hz) hz, ?_⟩
  intro s hs
  cases h with
  | latch _ | isr _ =>
    obtain ⟨p, hp, hsrc⟩ := hx.polls s hs
    exact ⟨p, onSleep_poll hp, hsrc⟩
  | call _ _ => exact hx.polls s (polled_update hs rfl nofun).2
  | @poll s₀ rest cx ht _ =>
    by_cases hne : s = s₀
    · subst hne
      exact ⟨_, rfl, rfl⟩
    · obtain ⟨p, hp, -⟩ := hx.polls s ((Function.update_of_ne hne _ _).symm.trans hs)
      cases ht.symm.trans hp
  | drop s₀ ht => exact hx.polls s (polled_update hs rfl nofun).2
  | sleep mode sources retention _ ht =>
    obtain ⟨p, hp, -⟩ := hx.polls s hs
    cases ht.symm.trans hp
  | @pollStep p count ht =>
    -- The future of this poll, and no other, is being polled.
    have hsrc : ∀ s, x.waits s = .polled → s = p.src := by
      intro s hs
      obtain ⟨q, hq, hsrc⟩ := hx.polls s hs
      cases ht.symm.trans hq
      exact hsrc.symm
    obtain h | ⟨p', regs, h, hm⟩ | ⟨h, -⟩ :=
      pollStep_cases count ht (hx.wf.polled p ht).2
    · rw [h] at hs
      obtain ⟨hne, hs⟩ := polled_update hs rfl nofun
      exact absurd (hsrc s hs) hne
    · rw [h] at hs ⊢
      exact ⟨p', rfl, hm.src.trans (hsrc s hs).symm⟩
    · rw [h] at hs
      obtain ⟨hne, hs⟩ := polled_update hs rfl nofun
      exact absurd (hsrc s hs) hne
  | sleepStep ht _ => exact absurd ht (hz _)

/-- A step at a sleep, where nothing is pending. -/
theorem Settled.asleep {a : Act Waker} {z : Sleep} (hx : Settled x) (h : Effect x a x')
    (hz : x.task = some (.sleep z)) (hw : x'.waits = x.waits)
    (hn : ∀ s, (x.waits s).isPending = false) : Settled x' := by
  refine ⟨hx.wf.effect h, .of_none fun s => ?_, fun s hs => ?_⟩
  · exact (congrArg (fun w => (w s).isPending) hw).trans (hn s)
  · rw [hw] at hs
    obtain ⟨p, hp, -⟩ := hx.polls s hs
    cases hz.symm.trans hp

/-! ## Guards in the waits -/

/-- Whether a wait has a guard: one that is pending has, and one that has ended or has not been
polled has not. -/
def Fut.Guarded : Fut → Prop → Prop
  | .idle, held | .called _, held => ¬ held
  | .polled, _ => True
  | .pending _, held => held

end Crm

/-! ## The node -/

open TimeDriver (TimerQueue Exec ExecAct listQueue listQueue_lawful)

/-- The executor, and the CRM with the waits of its tasks. -/
structure Node (Q Task : Type) where
  exec : Exec Q Task
  crm : Crm.Sys Task
  /-- The waits that have a guard in `inhibit`. -/
  inhibit : Finset Crm.Src
  /-- The number of guards of the waits on other peripherals. -/
  others : Nat

namespace Node

variable {Q Task : Type} (T : TimerQueue Q Task) [DecidableEq Task]

/-- A step of the node: of the executor and all beside the CRM, of the CRM and its waits, or of the
sleep that joins the two. -/
inductive Act (Task : Type) where
  /-- A step of the executor, of the time driver or of a wait on another peripheral. -/
  | exec (a : ExecAct Task)
  /-- A step of the CRM or of a wait on it. -/
  | crm (a : Crm.Act Task)
  /-- The executor calls `sleep_with`. -/
  | doze
  /-- An access of that call; the rest is for the last one, as in `ExecAct.sleep`. -/
  | dozing (cntr : UInt16) (W c : Nat)

/-- `poll` runs a task. -/
def runs (n : Node Q Task) : Bool := n.exec.pc = .tasks && n.exec.sys.pc = .thread

/-- Whether the executor, its tasks or a handler may do this, with regard to a poll that is under
way. -/
def admits (n : Node Q Task) : ExecAct Task → Bool
  | .advance _ => true
  | .tmr0 _ | .interrupt _ => !n.crm.task.any Crm.Task.locked
  | .guardDrop => n.crm.task.isNone && n.others ≠ 0
  -- As part of `dozing`.
  | .sleep .. => false
  | _ => n.crm.task.isNone

/-- `inhibit.get_or_insert_with(SleepInhibitGuard::new)`. -/
def take (n : Node Q Task) (s : Crm.Src) : Option (Node Q Task) :=
  if s ∈ n.inhibit then some n
  else (n.exec.step T .guardNew).map fun exec => { n with exec, inhibit := insert s n.inhibit }

/-- The drop of `inhibit`. -/
def release (n : Node Q Task) (s : Crm.Src) : Option (Node Q Task) :=
  if s ∈ n.inhibit then
    (n.exec.step T .guardDrop).map fun exec => { n with exec, inhibit := n.inhibit.erase s }
  else some n

/-- The guard of a wait that has become pending, that has ended or that has been dropped. -/
def guard (n : Node Q Task) (s : Crm.Src) : Option (Node Q Task) :=
  match n.crm.waits s with
  | .pending _ => n.take T s
  | .idle => n.release T s
  | _ => some n

/-- A step of the CRM or of a wait on it. -/
def crmStep (n : Node Q Task) : Crm.Act Task → Option (Node Q Task)
  | .latch bits => some { n with crm := n.crm.latch bits }
  | .isr s =>
    if n.exec.pc.masked || n.exec.sys.pc ≠ .thread then none
    else (n.crm.step (.isr s)).map fun crm =>
      { n with crm, exec := n.exec.wakeAll (n.crm.wakers s).slot.toList }
  | .waitForEdge k edge =>
    if n.runs then (n.crm.step (.waitForEdge k edge)).map fun crm => { n with crm } else none
  | .waitRtcTicks ticks =>
    if n.runs then (n.crm.step (.waitRtcTicks ticks)).map fun crm => { n with crm } else none
  | .poll s cx =>
    if n.runs then (n.crm.step (.poll s cx)).map fun crm => { n with crm } else none
  | .drop s =>
    if n.runs then (n.crm.step (.drop s)).bind fun crm => { n with crm }.guard T s else none
  | .step count =>
    match n.crm.task with
    | some (.poll p) =>
      if n.runs then { n with crm := n.crm.pollStep p count }.guard T p.src else none
    | _ => none
  -- The executor sleeps, not its tasks.
  | .sleep _ _ _ => none

/-- What the executor passes to `sleep_with`. -/
def sources (timeout : UInt32) : Crm.WakeSources := ⟨some timeout, none, fun _ => none⟩

/-- One step; `none`: not possible. The accesses of the executor's sleep are those of `sleep_with`
on the CRM. -/
def step (n : Node Q Task) : Act Task → Option (Node Q Task)
  | .exec a =>
    if n.admits a then
      (n.exec.step T a).map fun exec => { n with exec, others := a.guards n.others }
    else none
  | .crm a => n.crmStep T a
  | .doze =>
    match n.exec.pc with
    | .sleep _ _ timeout =>
      (n.crm.step (.sleep .doze (sources timeout) ⟨true, true, .kb96⟩)).map fun crm =>
        { n with crm }
    | _ => none
  | .dozing cntr W c =>
    match n.crm.task with
    | some (.sleep z) => (n.crm.sleepStep z).bind fun crm =>
      if crm.task.isSome then some { n with crm }
      else (n.exec.step T (.sleep cntr W c)).map fun exec => { n with crm, exec }
    | _ => none

/-- The executor at the start of its loop, with no wait called yet. -/
def Started (n : Node Q Task) : Prop :=
  n.exec.Started T ∧ n.exec.guards = n.others ∧ n.inhibit = ∅ ∧ ∃ regs, n.crm = Crm.Sys.init regs

/-- The runs of the node. -/
def lts : Lts := .ofStep (Node.Started T) (Node.step T)

/-! ## The invariant -/

/-- The two machines agree: the guards of the executor are those of the waits on the CRM and of the
others, tasks poll the waits only in `poll`, and the chip sleeps only in `sleep_with`. -/
structure Inv (n : Node Q Task) : Prop where
  exec : n.exec.Inv T
  crm : Crm.Settled n.crm
  guards : n.exec.guards = n.others + n.inhibit.card
  inhibit : ∀ s, (n.crm.waits s).Guarded (s ∈ n.inhibit)
  polling : ∀ p, n.crm.task = some (.poll p) → n.exec.pc = .tasks
  asleep : ∀ z, n.crm.task = some (.sleep z) → ∃ nowAt dozeAt timeout,
    n.exec.pc = .sleep nowAt dozeAt timeout

section Invariant

variable {T} {n n' : Node Q Task} {s : Crm.Src}

omit [DecidableEq Task] in
/-- Nothing is pending where the executor sleeps. -/
theorem Inv.none_pending (h : n.Inv T) {nowAt dozeAt : Nat} {timeout : UInt32}
    (hp : n.exec.pc = .sleep nowAt dozeAt timeout) (s : Crm.Src) :
    (n.crm.waits s).isPending = false := by
  have hcard : n.inhibit.card = 0 := by
    have := h.guards
    rw [h.exec.guards_zero hp] at this
    omega
  have hs := h.inhibit s
  rw [Finset.card_eq_zero.mp hcard] at hs
  cases hw : n.crm.waits s with
  | pending rest =>
    rw [hw] at hs
    exact absurd hs (Finset.notMem_empty s)
  | idle | called _ | polled => rfl

/-- What a guard that is taken or dropped keeps. -/
structure Keeps (T : TimerQueue Q Task) (n n' : Node Q Task) : Prop where
  crm : n'.crm = n.crm
  pc : n'.exec.pc = n.exec.pc
  inv : n.exec.Inv T → n'.exec.Inv T
  guards : n.exec.guards = n.others + n.inhibit.card →
    n'.exec.guards = n'.others + n'.inhibit.card

omit [DecidableEq Task] in
theorem Keeps.refl (n : Node Q Task) : n.Keeps T n := ⟨rfl, rfl, id, id⟩

theorem take_spec (hT : T.Lawful) (h : n.take T s = some n') :
    n.Keeps T n' ∧ n'.inhibit = insert s n.inhibit := by
  unfold take at h
  by_cases hs : s ∈ n.inhibit
  · rw [if_pos hs] at h
    cases h
    exact ⟨.refl n, (Finset.insert_eq_of_mem hs).symm⟩
  · rw [if_neg hs] at h
    obtain ⟨exec, he, rfl⟩ := Option.map_eq_some_iff.mp h
    refine ⟨⟨rfl, ?_, fun hi => hi.step hT he, fun hg => ?_⟩, rfl⟩
    · simp only [Exec.step, Option.ite_none_right_eq_some] at he
      cases he.2
      rfl
    · have hk := TimeDriver.Exec.step_guards he
      simp only [ExecAct.guards] at hk
      simp only [Finset.card_insert_of_notMem hs]
      omega

theorem release_spec (hT : T.Lawful) (h : n.release T s = some n') :
    n.Keeps T n' ∧ n'.inhibit = n.inhibit.erase s := by
  unfold release at h
  by_cases hs : s ∈ n.inhibit
  · rw [if_pos hs] at h
    obtain ⟨exec, he, rfl⟩ := Option.map_eq_some_iff.mp h
    refine ⟨⟨rfl, ?_, fun hi => hi.step hT he, fun hg => ?_⟩, rfl⟩
    · simp only [Exec.step, Option.ite_none_right_eq_some] at he
      cases he.2
      rfl
    · have hk := TimeDriver.Exec.step_guards he
      have hpos := Finset.card_pos.mpr ⟨s, hs⟩
      simp only [ExecAct.guards] at hk
      simp only [Finset.card_erase_of_mem hs]
      omega
  · rw [if_neg hs] at h
    cases h
    exact ⟨.refl n, (Finset.erase_eq_of_notMem hs).symm⟩

/-- After the guard of the wait `s`, every wait has the guard it should have. -/
theorem guard_spec (hT : T.Lawful) (h : n.guard T s = some n')
    (hs : ∀ rest, n.crm.waits s ≠ .called rest)
    (hi : ∀ s' ≠ s, (n.crm.waits s').Guarded (s' ∈ n.inhibit)) :
    n.Keeps T n' ∧ ∀ s', (n'.crm.waits s').Guarded (s' ∈ n'.inhibit) := by
  unfold guard at h
  -- A pending wait takes its guard, an idle one gives it back.
  cases hw : n.crm.waits s with
  | called rest => exact absurd hw (hs rest)
  | polled =>
    rw [hw] at h
    cases h
    refine ⟨.refl n, fun s' => ?_⟩
    by_cases hne : s' = s
    · rw [hne, hw]
      trivial
    · exact hi s' hne
  | pending rest =>
    rw [hw] at h
    obtain ⟨hk, hn⟩ := take_spec hT h
    refine ⟨hk, fun s' => ?_⟩
    rw [hk.crm, hn]
    by_cases hne : s' = s
    · rw [hne, hw]
      exact Finset.mem_insert_self s _
    · simpa [Finset.mem_insert, hne] using hi s' hne
  | idle =>
    rw [hw] at h
    obtain ⟨hk, hn⟩ := release_spec hT h
    refine ⟨hk, fun s' => ?_⟩
    rw [hk.crm, hn]
    by_cases hne : s' = s
    · rw [hne, hw]
      exact Finset.notMem_erase s _
    · simpa [Finset.mem_erase, hne] using hi s' hne

/-! ## Steps -/

omit [DecidableEq Task] in
/-- No `sleep_with` is under way outside of the executor's critical section. -/
theorem Inv.awake (h : n.Inv T) (hm : n.exec.pc.masked = false) (z : Crm.Sleep) :
    n.crm.task ≠ some (.sleep z) := by
  intro hz
  obtain ⟨nowAt, dozeAt, timeout, hp⟩ := h.asleep z hz
  rw [hp] at hm
  cases hm

omit [DecidableEq Task] in
theorem tasks_of_runs (hr : n.runs = true) : n.exec.pc = .tasks := by
  have hr : n.exec.pc = .tasks ∧ n.exec.sys.pc = .thread := by simpa [runs] using hr
  exact hr.1

omit [DecidableEq Task] in
theorem Inv.running (h : n.Inv T) (hr : n.exec.pc = .tasks) (z : Crm.Sleep) :
    n.crm.task ≠ some (.sleep z) :=
  h.awake (by rw [hr]; rfl) z

/-- A step of the executor or of a handler at a sleep is not possible. -/
theorem unmasked_of_admits {a : ExecAct Task} {exec : Exec Q Task} {z : Crm.Sleep}
    (ha : n.admits a = true) (hs : n.exec.step T a = some exec)
    (hz : n.crm.task = some (.sleep z)) : n.exec.pc.masked = false := by
  cases a with
  | advance k =>
    simp only [Exec.step, Option.ite_none_left_eq_some, Bool.not_eq_true] at hs
    exact hs.1
  | tmr0 a | interrupt t =>
    simp only [Exec.step, Option.ite_none_right_eq_some, Bool.and_eq_true,
      Bool.not_eq_true'] at hs
    exact hs.1.1
  | _ => simp [admits, hz] at ha

/-- Only time and the handlers go on at a poll. -/
theorem pc_of_admits {a : ExecAct Task} {exec : Exec Q Task} {p : Crm.Poll Task}
    (ha : n.admits a = true) (hs : n.exec.step T a = some exec)
    (ht : n.crm.task = some (.poll p)) : exec.pc = n.exec.pc := by
  cases a with
  | advance k =>
    simp only [Exec.step, Option.ite_none_left_eq_some] at hs
    exact (TimeDriver.Exec.drive_spec hs.2).2.1
  | tmr0 a =>
    simp only [Exec.step, Option.ite_none_right_eq_some] at hs
    exact (TimeDriver.Exec.drive_spec hs.2).2.1
  | interrupt t =>
    simp only [Exec.step, Option.ite_none_right_eq_some] at hs
    cases hs.2
    exact TimeDriver.Exec.wake_pc t
  | _ => simp [admits, ht] at ha

theorem Inv.execStep (hT : T.Lawful) (h : n.Inv T) {a : ExecAct Task} {exec : Exec Q Task}
    (ha : n.admits a = true) (hs : n.exec.step T a = some exec) :
    ({ n with exec, others := a.guards n.others } : Node Q Task).Inv T where
  exec := h.exec.step hT hs
  crm := h.crm
  guards := by
    have hd : a = .guardDrop → n.others ≠ 0 := by
      rintro rfl
      simp only [admits, Bool.and_eq_true, decide_eq_true_eq] at ha
      exact ha.2
    rw [TimeDriver.Exec.step_guards hs, h.guards, ExecAct.guards_add hd]
  inhibit := h.inhibit
  polling p ht := (pc_of_admits ha hs ht).trans (h.polling p ht)
  asleep z hz := absurd hz (h.awake (unmasked_of_admits ha hs hz) z)

omit [DecidableEq Task] in
/-- A step of the CRM that concerns no guard. -/
theorem Inv.crmStep (h : n.Inv T) (hr : n.exec.pc = .tasks) {a : Crm.Act Task}
    {crm : Crm.Sys Task} (he : Crm.Effect n.crm a crm)
    (hz : ∀ z, crm.task ≠ some (.sleep z))
    (hi : ∀ s, (crm.waits s).Guarded (s ∈ n.inhibit)) :
    ({ n with crm } : Node Q Task).Inv T where
  exec := h.exec
  crm := h.crm.effect he (h.running hr)
  guards := h.guards
  inhibit := hi
  polling _ _ := hr
  asleep z hz' := absurd hz' (hz z)

/-- A step of the CRM at which the wait `s` becomes pending, ends or is dropped. -/
theorem Inv.guard (hT : T.Lawful) (h : n.Inv T) (hr : n.exec.pc = .tasks)
    {a : Crm.Act Task} {crm : Crm.Sys Task} (he : Crm.Effect n.crm a crm)
    (hz : ∀ z, crm.task ≠ some (.sleep z)) (hs : ∀ rest, crm.waits s ≠ .called rest)
    (hw : ∀ s' ≠ s, crm.waits s' = n.crm.waits s')
    (hg : ({ n with crm } : Node Q Task).guard T s = some n') : n'.Inv T := by
  obtain ⟨hk, hi⟩ := guard_spec hT hg hs fun s' hne => (hw s' hne).symm ▸ h.inhibit s'
  refine ⟨hk.inv h.exec, ?_, hk.guards h.guards, hi, fun _ _ => hk.pc.trans hr, fun z hz' => ?_⟩
  · rw [hk.crm]
    exact h.crm.effect he (h.running hr)
  · rw [hk.crm] at hz'
    exact absurd hz' (hz z)

omit [DecidableEq Task] in
/-- A wait that is called or polled anew. -/
theorem Inv.guarded_update (h : n.Inv T) {f : Crm.Fut}
    (hf : (n.crm.waits s).Guarded (s ∈ n.inhibit) → f.Guarded (s ∈ n.inhibit)) (s' : Crm.Src) :
    (Function.update n.crm.waits s f s').Guarded (s' ∈ n.inhibit) := by
  by_cases hne : s' = s
  · subst hne
    rw [Function.update_self]
    exact hf (h.inhibit s')
  · rw [Function.update_of_ne hne]
    exact h.inhibit s'

omit [DecidableEq Task] in
theorem Inv.call (h : n.Inv T) (hr : n.exec.pc = .tasks) {a : Crm.Act Task}
    {rest : List Crm.Instr} {crm : Crm.Sys Task} (hs : n.crm.call s rest = some crm)
    (he : Crm.Effect n.crm a crm) : ({ n with crm } : Node Q Task).Inv T := by
  obtain ⟨hidle, hw, ht⟩ := Crm.call_waits hs
  refine h.crmStep hr he (ht ▸ h.running hr) ?_
  rw [hw]
  refine h.guarded_update fun hi => ?_
  rw [hidle] at hi
  exact hi

omit [DecidableEq Task] in
theorem Inv.poll (h : n.Inv T) (hr : n.exec.pc = .tasks) {cx : Task}
    {crm : Crm.Sys Task} (hs : n.crm.step (.poll s cx) = some crm) :
    ({ n with crm } : Node Q Task).Inv T := by
  have he := Crm.step_effect hs
  simp only [Crm.Sys.step, Option.ite_none_left_eq_some] at hs
  obtain ⟨hw, ht⟩ := Crm.poll_waits hs.2
  refine h.crmStep hr he ht ?_
  rw [hw]
  exact h.guarded_update fun _ => trivial

theorem Inv.drop (hT : T.Lawful) (h : n.Inv T) (hr : n.exec.pc = .tasks)
    {crm : Crm.Sys Task} (hs : n.crm.step (.drop s) = some crm)
    (hg : ({ n with crm } : Node Q Task).guard T s = some n') : n'.Inv T := by
  have he := Crm.step_effect hs
  simp only [Crm.Sys.step, Option.ite_none_left_eq_some] at hs
  obtain ⟨hw, ht⟩ := Crm.drop_waits hs.2
  refine h.guard hT hr he (ht ▸ h.running hr) (fun rest hc => ?_) (fun s' hne => ?_) hg
  · rw [hw, Function.update_self] at hc
    cases hc
  · rw [hw]
    exact Function.update_of_ne hne _ _

theorem Inv.pollStep (hT : T.Lawful) (h : n.Inv T) (hr : n.exec.pc = .tasks)
    {p : Crm.Poll Task} (ht : n.crm.task = some (.poll p)) {count : UInt32}
    (hg : ({ n with crm := n.crm.pollStep p count } : Node Q Task).guard T p.src = some n') :
    n'.Inv T := by
  have he : Crm.Effect n.crm (.step count) (n.crm.pollStep p count) := .pollStep count ht
  have hz := (Crm.pollStep_awake count h.crm.wf ht).2
  obtain ⟨hp, hready⟩ := h.crm.wf.polled p ht
  refine h.guard hT hr he hz (fun rest hc => ?_) (fun s' hne => ?_) hg
  · obtain hst | ⟨p', regs, hst, -⟩ | ⟨hst, -⟩ := Crm.pollStep_cases count ht hready
    · simp [hst] at hc
    · simp [hst, hp] at hc
    · simp [hst, Crm.Sys.arm] at hc
  · obtain hst | ⟨p', regs, hst, -⟩ | ⟨hst, -⟩ := Crm.pollStep_cases count ht hready
    · rw [hst]
      exact Function.update_of_ne hne _ _
    · rw [hst]
    · rw [hst]
      exact Function.update_of_ne hne _ _

omit [DecidableEq Task] in
/-- The hardware latches events, also at a sleep. -/
theorem Inv.latch (h : n.Inv T) (bits : BitVec 32) :
    ({ n with crm := n.crm.latch bits } : Node Q Task).Inv T where
  exec := h.exec
  crm := by
    have he : Crm.Effect n.crm (.latch bits) (n.crm.latch bits) := .latch bits
    by_cases hz : ∃ z, n.crm.task = some (.sleep z)
    · obtain ⟨z, hz⟩ := hz
      obtain ⟨nowAt, dozeAt, timeout, hp⟩ := h.asleep z hz
      exact h.crm.asleep he hz rfl (h.none_pending hp)
    · exact h.crm.effect he fun z hz' => hz ⟨z, hz'⟩
  guards := h.guards
  inhibit := h.inhibit
  polling p hp := h.polling p (Crm.Wf.onSleep hp)
  asleep z hz := by
    obtain ⟨z', hz'⟩ := Crm.onSleep_sleep hz
    exact h.asleep z' hz'

/-- The handler runs outside of the executor's critical section, and wakes a task. -/
theorem Inv.isr (h : n.Inv T) (hm : n.exec.pc.masked = false) {crm : Crm.Sys Task}
    (hs : n.crm.step (.isr s) = some crm) :
    ({ n with crm, exec := n.exec.wakeAll (n.crm.wakers s).slot.toList } :
      Node Q Task).Inv T := by
  have he := Crm.step_effect hs
  simp only [Crm.Sys.step, Option.ite_none_left_eq_some, Option.some.injEq] at hs
  obtain ⟨-, rfl⟩ := hs
  obtain ⟨-, hp, hg, -⟩ := TimeDriver.Exec.wakeAll_keeps n.exec (n.crm.wakers s).slot.toList
  refine ⟨h.exec.wakeAll hm _, h.crm.effect he (h.awake hm), hg.trans h.guards, h.inhibit,
    fun p ht => hp.trans (h.polling p (Crm.Wf.onSleep ht)), fun z hz => ?_⟩
  obtain ⟨z', hz'⟩ := Crm.onSleep_sleep hz
  exact absurd hz' (h.awake hm z')

theorem Inv.crmAct (hT : T.Lawful) (h : n.Inv T) {a : Crm.Act Task}
    (hs : n.crmStep T a = some n') : n'.Inv T := by
  cases a with
  | latch bits =>
    cases hs
    exact h.latch bits
  | isr s =>
    simp only [Node.crmStep, Option.ite_none_left_eq_some, Bool.or_eq_true, not_or,
      Bool.not_eq_true] at hs
    obtain ⟨⟨hm, -⟩, hs⟩ := hs
    obtain ⟨crm, hst, rfl⟩ := Option.map_eq_some_iff.mp hs
    exact h.isr hm hst
  | waitForEdge k edge | waitRtcTicks ticks =>
    simp only [Node.crmStep, Option.ite_none_right_eq_some] at hs
    obtain ⟨hr, hs⟩ := hs
    obtain ⟨crm, hst, rfl⟩ := Option.map_eq_some_iff.mp hs
    exact h.call (tasks_of_runs hr) hst (Crm.step_effect hst)
  | poll s cx =>
    simp only [Node.crmStep, Option.ite_none_right_eq_some] at hs
    obtain ⟨hr, hs⟩ := hs
    obtain ⟨crm, hst, rfl⟩ := Option.map_eq_some_iff.mp hs
    exact h.poll (tasks_of_runs hr) hst
  | drop s =>
    simp only [Node.crmStep, Option.ite_none_right_eq_some] at hs
    obtain ⟨hr, hs⟩ := hs
    obtain ⟨crm, hs, hg⟩ := Option.bind_eq_some_iff.mp hs
    exact h.drop hT (tasks_of_runs hr) hs hg
  | step count =>
    simp only [Node.crmStep] at hs
    split at hs
    · rename_i p ht
      rw [Option.ite_none_right_eq_some] at hs
      exact h.pollStep hT (tasks_of_runs hs.1) ht hs.2
    · cases hs
  | sleep mode sources retention => cases hs

omit [DecidableEq Task] in
/-- An access of a `sleep_with`. -/
theorem Inv.dozing (h : n.Inv T) {z : Crm.Sleep} (hz : n.crm.task = some (.sleep z))
    {crm : Crm.Sys Task} (hs : n.crm.sleepStep z = some crm) :
    ({ n with crm } : Node Q Task).Inv T := by
  obtain ⟨nowAt, dozeAt, timeout, hp⟩ := h.asleep z hz
  have he : Crm.Effect n.crm (.step 0) crm := .sleepStep hz hs
  have hw : crm.waits = n.crm.waits := by
    obtain rfl | ⟨regs, stage, rfl, -⟩ | ⟨raw, regs, -, -, rfl⟩ := Crm.sleepStep_cases hs <;> rfl
  have hpoll : ∀ p, crm.task ≠ some (.poll p) := by
    intro p ht
    obtain rfl | ⟨regs, stage, rfl, -⟩ | ⟨raw, regs, -, -, rfl⟩ := Crm.sleepStep_cases hs
    · cases hz.symm.trans ht
    · cases ht
    · cases ht
  refine ⟨h.exec, h.crm.asleep he hz hw (h.none_pending hp), h.guards, fun s => ?_,
    fun p ht => absurd ht (hpoll p), fun _ _ => ⟨nowAt, dozeAt, timeout, hp⟩⟩
  rw [hw]
  exact h.inhibit s

theorem Inv.step (hT : T.Lawful) (h : n.Inv T) {a : Act Task} (hs : n.step T a = some n') :
    n'.Inv T := by
  cases a with
  | exec a =>
    simp only [Node.step, Option.ite_none_right_eq_some] at hs
    obtain ⟨ha, hs⟩ := hs
    obtain ⟨exec, hst, rfl⟩ := Option.map_eq_some_iff.mp hs
    exact h.execStep hT ha hst
  | crm a => exact h.crmAct hT hs
  | doze =>
    simp only [Node.step] at hs
    split at hs
    · rename_i nowAt dozeAt timeout hp
      obtain ⟨crm, hst, rfl⟩ := Option.map_eq_some_iff.mp hs
      have he := Crm.step_effect hst
      simp only [Crm.Sys.step, Option.ite_none_left_eq_some, Bool.or_eq_true, not_or,
        Option.isSome_iff_ne_none, ne_eq, not_not] at hst
      obtain ⟨⟨ht, -⟩, hst⟩ := hst
      cases hst
      -- The executor starts the sleep, and no other access was under way.
      have hz : ∀ z, n.crm.task ≠ some (.sleep z) := by simp [ht]
      exact ⟨h.exec, h.crm.effect he hz, h.guards, h.inhibit, (fun _ ht => by cases ht),
        fun _ _ => ⟨nowAt, dozeAt, timeout, hp⟩⟩
    · cases hs
  | dozing cntr W c =>
    simp only [Node.step] at hs
    split at hs
    · rename_i z hz
      obtain ⟨crm, hst, hs⟩ := Option.bind_eq_some_iff.mp hs
      have hd := h.dozing hz hst
      by_cases ht : crm.task.isSome = true
      · rw [if_pos ht] at hs
        cases hs
        exact hd
      · rw [if_neg ht] at hs
        obtain ⟨exec, he, rfl⟩ := Option.map_eq_some_iff.mp hs
        have ht : crm.task = none := by simpa using ht
        refine ⟨h.exec.step hT he, hd.crm, ?_, hd.inhibit, fun p hp => ?_, fun z hz => ?_⟩
        · exact (TimeDriver.Exec.step_guards he).trans h.guards
        · cases ht.symm.trans hp
        · cases ht.symm.trans hz
    · cases hs

omit [DecidableEq Task] in
theorem Started.inv (h : n.Started T) : n.Inv T := by
  obtain ⟨hx, hg, hi, regs, hc⟩ := h
  refine ⟨hx.inv, ?_, ?_, fun s => ?_, fun p hp => ?_, fun z hz => ?_⟩
  · rw [hc]
    exact .init regs
  · rw [hg, hi]
    rfl
  · rw [hc, hi]
    exact Finset.notMem_empty s
  · rw [hc] at hp
    cases hp
  · rw [hc] at hz
    cases hz

theorem Inv.reach (hT : T.Lawful) (h : (lts T).Reach (Lts.Any _) n) : n.Inv T :=
  h.induct (I := Node.Inv T) (fun _ h => Started.inv h) fun _ _ _ hi _ hs => hi.step hT hs

omit [DecidableEq Task] in
/-- The count that the executor reads is 0 only where no guard is held. -/
theorem Inv.guardCount_iff (h : n.Inv T) :
    n.exec.guardCount = 0 ↔ n.others = 0 ∧ n.inhibit = ∅ := by
  have hlt := h.exec.guards
  have hsum := h.guards
  rw [← Finset.card_eq_zero]
  unfold Exec.guardCount
  constructor
  · intro hc
    have hz := congrArg UInt32.toNat hc
    rw [UInt32.toNat_ofNat', Nat.mod_eq_of_lt hlt] at hz
    have hz : n.exec.guards = 0 := hz
    omega
  · rintro ⟨ho, hi⟩
    have hz : n.exec.guards = 0 := by omega
    rw [hz]
    rfl

omit [DecidableEq Task] in
/-- A wait that is pending has a guard. -/
theorem Inv.mem_of_pending (h : n.Inv T) (hp : (n.crm.waits s).isPending = true) :
    s ∈ n.inhibit := by
  obtain ⟨rest, hp⟩ := Crm.Fut.isPending_iff.mp hp
  have hs := h.inhibit s
  rw [hp] at hs
  exact hs

/-- **Waits survive the executor's sleeps.** In every run of the node, a wait that is pending keeps
the count of the guards from 0, and no call of `sleep_with` is under way. The wait is enabled in
`WU_CNTL`, whatever calls have returned before; as long as its event is not latched, so is its
interrupt; where it is latched, the interrupt is pending, or the wait's waker has been woken. -/
theorem waits_survive (hT : T.Lawful) (h : (lts T).Reach (Lts.Any _) n) (s : Crm.Src)
    (hp : (n.crm.waits s).isPending = true) :
    n.exec.guardCount ≠ 0 ∧ (∀ z, n.crm.task ≠ some (.sleep z)) ∧
    n.crm.regs.wuCntl.getLsbD s.en = true ∧
    (n.crm.regs.status.getLsbD s.evt = false → n.crm.regs.wuCntl.getLsbD s.ien = true) ∧
    (n.crm.regs.status.getLsbD s.evt = true →
      n.crm.regs.wuCntl.getLsbD s.ien = true ∧ n.crm.regs.crmEnabled = true ∨
        (n.crm.books s).Woken) := by
  have hi := Inv.reach hT h
  refine ⟨fun hc => ?_, fun z hz => ?_, ?_⟩
  · have hmem := hi.mem_of_pending hp
    rw [(hi.guardCount_iff.mp hc).2] at hmem
    exact Finset.notMem_empty s hmem
  · obtain ⟨nowAt, dozeAt, timeout, hpc⟩ := hi.asleep z hz
    rw [hi.none_pending hpc s] at hp
    cases hp
  · obtain ⟨rest, hp⟩ := Crm.Fut.isPending_iff.mp hp
    obtain ⟨he, -⟩ := hi.crm.wf.pending s rest hp
    have ha := hi.crm.kept s rest hp _ (.inl rfl)
    refine ⟨ha.en, fun hn => ?_, fun _ => ?_⟩
    · refine (ha.ien rfl).resolve_right fun hev => ?_
      cases hn.symm.trans hev.1
    · exact (ha.ien rfl).imp (fun hien => ⟨hien, he⟩) And.right

/-- **No guard outlives its wait.** In every run of the node, where the executor has polled its
tasks and checks the count of the guards, it is 0 exactly if no wait on the CRM is pending and no
wait on another peripheral has a guard. -/
theorem count_exact (hT : T.Lawful) (h : (lts T).Reach (Lts.Any _) n)
    (hp : n.exec.pc = .decide) :
    n.exec.guardCount = 0 ↔ n.others = 0 ∧ ∀ s, (n.crm.waits s).isPending = false := by
  have hi := Inv.reach hT h
  -- No wait is being polled.
  have hpolled : ∀ s, n.crm.waits s ≠ .polled := by
    intro s hs
    obtain ⟨p, ht, -⟩ := hi.crm.polls s hs
    have := hi.polling p ht
    rw [hp] at this
    cases this
  rw [hi.guardCount_iff]
  refine and_congr_right fun _ => ⟨fun he s => ?_, fun hn => ?_⟩
  · cases hw : (n.crm.waits s).isPending with
    | false => rfl
    | true =>
      have hmem := hi.mem_of_pending hw
      rw [he] at hmem
      exact absurd hmem (Finset.notMem_empty s)
  · refine Finset.eq_empty_of_forall_notMem fun s hmem => ?_
    have hs := hi.inhibit s
    cases hw : n.crm.waits s with
    | pending rest =>
      have := hn s
      rw [hw] at this
      cases this
    | polled => exact hpolled s hw
    | idle | called _ =>
      rw [hw] at hs
      exact hs hmem

end Invariant

/-- The node at the start, with one task. -/
def zero : Node (List (UInt64 × Nat)) Nat := ⟨Exec.zero, .init Crm.resetRegs, ∅, 0⟩

/-- The task schedules a timer, and the executor sleeps until it. -/
def nap : List (Act Nat) :=
  ([.exec .clear, .exec .take, .exec (.schedule 1000 0), .exec .polled, .exec (.advance 30),
    .exec .decide, .exec (.doze 10), .doze] : List (Act Nat)) ++
  List.replicate 4 (Act.dozing 40 187480 2) ++ [Act.crm (.latch (Crm.bit 0))] ++
  List.replicate 3 (Act.dozing 40 187480 2) ++ [Act.crm (.latch (Crm.bit 0 ||| Crm.bit 1))] ++
  List.replicate 3 (Act.dozing 40 187480 2) ++
  [Act.exec (.resync .write), Act.exec (.resync .check), Act.exec (.resync .process)]

/-- Then it waits for an edge on KBI4, with another timer. -/
def edge : List (Act Nat) :=
  [.exec .clear, .exec .take, .crm (.waitForEdge Crm.kbi4 .rising),
    .crm (.poll (.kbi Crm.kbi4) 0)] ++ List.replicate 8 (.crm (.step 0)) ++
  [.exec (.schedule 5000 0), .exec .polled]

/-- The state after these steps. -/
def after (as : List (Act Nat)) : Node (List (UInt64 × Nat)) Nat :=
  (Lts.exec (Node.step (listQueue Nat)) zero as).2

theorem reach_after (as : List (Act Nat)) :
    (lts (listQueue Nat)).Reach (Lts.Any _) (after as) := by
  have hrun := Lts.Run.exec (Node.Started (listQueue Nat)) (Node.step (listQueue Nat)) zero as
  have hstart : zero.Started (listQueue Nat) := ⟨⟨rfl, rfl, by decide⟩, rfl, rfl, _, rfl⟩
  exact hrun.reach (.init hstart) fun _ _ => trivial

theorem waits_survive_edge :
    let n := after (nap ++ edge)
    n.crm.slept.length = 1 ∧ n.crm.regs.wuCntl.getLsbD (Crm.Src.kbi Crm.kbi4).en = true ∧
      n.exec.guardCount ≠ 0 := by
  have hp : ((after (nap ++ edge)).crm.waits (.kbi Crm.kbi4)).isPending = true := by
    decide +kernel
  obtain ⟨hg, -, he, -⟩ :=
    waits_survive (listQueue_lawful Nat) (reach_after (nap ++ edge)) (.kbi Crm.kbi4) hp
  exact ⟨by decide +kernel, he, hg⟩

theorem count_exact_edge :
    (after (nap ++ edge)).exec.guardCount = 0 ↔ (after (nap ++ edge)).others = 0 ∧
      ∀ s, ((after (nap ++ edge)).crm.waits s).isPending = false :=
  count_exact (listQueue_lawful Nat) (reach_after (nap ++ edge)) (by decide +kernel)

end Node

end Mc1322x
