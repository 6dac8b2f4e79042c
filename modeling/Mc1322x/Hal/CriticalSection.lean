import Mc1322x.Lib.Lts

/-!
# Critical sections (`mc1322x-hal/src/critical_section_impl.rs`)

A critical section saves `INTENABLE`, clears it, and writes it back. The register is read and
cleared in two accesses, between which an interrupt may come; a handler has critical sections of its
own, and they nest. Interrupts that come in a section stay pending in the ITC.

* `section_excludes`: no handler runs in a section of the thread, unless the section enables an
  interrupt.
* `section_restores`: a section of the thread ends with the `INTENABLE` that its `acquire` has read,
  whatever was enabled or disabled in it.
-/

namespace Mc1322x.CriticalSection

/-- The thread, or a handler. -/
structure Context where
  /-- What `acquire` has read, before it clears the register. -/
  reading : Option UInt32
  /-- The `restore_state` of the sections, the innermost first. -/
  saved : List UInt32
deriving DecidableEq

/-- In no section. -/
def Context.outside : Context := ⟨none, []⟩

/-- The ITC, with the thread and the handler that may have interrupted it. -/
structure Cpu where
  /-- `INTENABLE`. -/
  intenable : UInt32
  /-- The interrupts that are pending in the ITC. -/
  pending : UInt32
  thread : Context
  /-- The handler that has interrupted the thread. -/
  handler : Option Context
deriving DecidableEq

/-- A step of the context that runs, or an interrupt. -/
inductive Act where
  /-- `acquire`, up to the write. -/
  | read
  /-- The write of `acquire`. -/
  | clear
  | release
  /-- A write to `INTENNUM`. -/
  | enable (num : UInt32)
  /-- A write to `INTDISNUM`. -/
  | disable (num : UInt32)
  /-- The peripherals. -/
  | raise (pending : UInt32)
  /-- The CPU takes an interrupt. In the handler it masks the others. -/
  | irq
  /-- The handler returns. -/
  | ret

namespace Cpu

/-- Where the code that runs is. -/
def running (s : Cpu) : Context := s.handler.getD s.thread

/-- The context that runs becomes `c`. -/
def setRunning (s : Cpu) (c : Context) : Cpu :=
  match s.handler with
  | some _ => { s with handler := some c }
  | none => { s with thread := c }

/-- One step; `none`: not possible. -/
def step (s : Cpu) : Act → Option Cpu
  | .read => match s.running.reading with
    | none => some (s.setRunning { s.running with reading := some s.intenable })
    | some _ => none
  | .clear => match s.running.reading with
    | none => none
    | some intenable =>
      some { s.setRunning ⟨none, intenable :: s.running.saved⟩ with intenable := 0 }
  | .release => match s.running with
    | ⟨none, restoreState :: saved⟩ =>
      some { s.setRunning ⟨none, saved⟩ with intenable := restoreState }
    | _ => none
  | .enable num => some { s with intenable := s.intenable ||| (1 <<< num) }
  | .disable num => some { s with intenable := s.intenable &&& ~~~(1 <<< num) }
  | .raise pending => some { s with pending := pending }
  | .irq =>
    if s.handler.isNone ∧ s.intenable &&& s.pending ≠ 0 then
      some { s with handler := some .outside }
    else none
  | .ret => match s.handler with
    | some ⟨none, []⟩ => some { s with handler := none }
    | _ => none

/-- The thread is about to start, outside of any section. -/
def Started (s : Cpu) : Prop := s.thread = .outside ∧ s.handler = none

end Cpu

/-- The runs from outside any critical section. -/
def cpu : Lts := .ofStep Cpu.Started Cpu.step

/-- An interrupt is enabled outside of the sections only. -/
def Outside (s : Cpu) : Act → Prop
  | .enable _ => s.running.saved = []
  | _ => True

instance (s : Cpu) : (a : Act) → Decidable (Outside s a)
  | .enable _ => inferInstanceAs (Decidable (s.running.saved = []))
  | .read | .clear | .release | .disable _ | .raise _ | .irq | .ret => .isTrue trivial

/-! ## What a step does -/

section

variable {s s' : Cpu} {a : Act}

/-- Where the thread is after a step of it, and of a handler. -/
theorem Cpu.setRunning_cases (s : Cpu) (c : Context) :
    (s.handler = none ∧ s.running = s.thread ∧ s.setRunning c = { s with thread := c }) ∨
      ∃ h, s.handler = some h ∧ s.running = h ∧ s.setRunning c = { s with handler := some c } := by
  unfold Cpu.running Cpu.setRunning
  cases s.handler with
  | none => exact .inl ⟨rfl, rfl, rfl⟩
  | some h => exact .inr ⟨h, rfl, rfl, rfl⟩

/-- A change of the context leaves the register as it is. -/
theorem Cpu.setRunning_intenable (s : Cpu) (c : Context) :
    { s.setRunning c with intenable := s.intenable } = s.setRunning c := by
  obtain ⟨-, -, hs⟩ | ⟨_, -, -, hs⟩ := s.setRunning_cases c <;> rw [hs]

theorem Cpu.step_read (h : s.step .read = some s') :
    s.running.reading = none ∧
      s' = s.setRunning { s.running with reading := some s.intenable } := by
  simp only [Cpu.step] at h
  split at h
  · rename_i hr
    cases h
    exact ⟨hr, rfl⟩
  · cases h

theorem Cpu.step_clear (h : s.step .clear = some s') : ∃ v, s.running.reading = some v ∧
    s' = { s.setRunning ⟨none, v :: s.running.saved⟩ with intenable := 0 } := by
  simp only [Cpu.step] at h
  split at h
  · cases h
  · rename_i v hr
    cases h
    exact ⟨v, hr, rfl⟩

theorem Cpu.step_release (h : s.step .release = some s') : ∃ v saved,
    s.running = ⟨none, v :: saved⟩ ∧
      s' = { s.setRunning ⟨none, saved⟩ with intenable := v } := by
  simp only [Cpu.step] at h
  split at h
  · rename_i v saved hr
    cases h
    exact ⟨v, saved, hr, rfl⟩
  · cases h

theorem Cpu.step_irq (h : s.step .irq = some s') : s.handler = none ∧
    s.intenable &&& s.pending ≠ 0 ∧ s' = { s with handler := some .outside } := by
  simp only [Cpu.step, Option.ite_none_right_eq_some, Option.isNone_iff_eq_none] at h
  obtain ⟨⟨hn, hp⟩, h⟩ := h
  cases h
  exact ⟨hn, hp, rfl⟩

theorem Cpu.step_ret (h : s.step .ret = some s') :
    s.handler = some .outside ∧ s' = { s with handler := none } := by
  simp only [Cpu.step] at h
  split at h
  · rename_i hh
    cases h
    exact ⟨hh, rfl⟩
  · cases h

end

/-! ## Exclusion -/

/-- In a section everything is masked, and so it was when an inner one was acquired. -/
def Context.Masked (c : Context) (intenable : UInt32) : Prop :=
  c.saved ≠ [] → intenable = 0 ∧ (∀ v, c.reading = some v → v = 0) ∧ ∀ v ∈ c.saved.dropLast, v = 0

/-- The invariant of the runs that enable interrupts outside of the sections only. -/
structure Cpu.Masked (s : Cpu) : Prop where
  running : s.running.Masked s.intenable
  thread : s.handler.isSome → s.thread.saved = []

section

variable {s s' : Cpu} {a : Act}

theorem Context.Masked.read {c : Context} {intenable : UInt32} (h : c.Masked intenable) :
    Context.Masked { c with reading := some intenable } intenable := by
  intro hs
  obtain ⟨h0, -, hd⟩ := h hs
  exact ⟨h0, fun v hv => (Option.some.inj hv).symm.trans h0, hd⟩

theorem Context.Masked.clear {c : Context} {intenable v : UInt32} (h : c.Masked intenable)
    (hv : c.reading = some v) : Context.Masked ⟨none, v :: c.saved⟩ 0 := by
  intro _
  refine ⟨rfl, (fun _ hu => by cases hu), fun u hu => ?_⟩
  cases hs : c.saved with
  | nil =>
    rw [hs] at hu
    cases hu
  | cons w rest =>
    obtain ⟨-, hr, hd⟩ := h (by rw [hs]; exact List.cons_ne_nil _ _)
    rw [hs, List.dropLast_cons_of_ne_nil (List.cons_ne_nil _ _)] at hu
    rcases List.mem_cons.mp hu with rfl | hu
    · exact hr _ hv
    · rw [hs] at hd
      exact hd u hu

theorem Context.Masked.release {intenable v : UInt32} {saved : List UInt32}
    (h : Context.Masked ⟨none, v :: saved⟩ intenable) : Context.Masked ⟨none, saved⟩ v := by
  intro hs
  obtain ⟨-, -, hd⟩ := h (List.cons_ne_nil _ _)
  simp only [List.dropLast_cons_of_ne_nil hs] at hd
  exact ⟨hd v (List.mem_cons_self ..), (fun _ hu => by cases hu),
    fun u hu => hd u (List.mem_cons_of_mem _ hu)⟩

/-- A change of the context that runs, and of the register. -/
theorem Cpu.Masked.setRunning (h : s.Masked) {c : Context} {intenable : UInt32}
    (hc : c.Masked intenable) :
    Cpu.Masked { s.setRunning c with intenable := intenable } := by
  obtain ⟨hh, -, hs⟩ | ⟨d, hh, -, hs⟩ := s.setRunning_cases c
  · rw [hs]
    refine ⟨?_, fun hi => ?_⟩
    · simp only [Cpu.running, hh, Option.getD_none]
      exact hc
    · rw [hh] at hi
      cases hi
  · rw [hs]
    refine ⟨hc, fun _ => h.thread ?_⟩
    rw [hh]
    rfl

theorem Cpu.Masked.step (h : s.Masked) (ho : Outside s a) (hs : s.step a = some s') :
    s'.Masked := by
  cases a with
  | read =>
    obtain ⟨-, rfl⟩ := Cpu.step_read hs
    have hm := h.setRunning h.running.read
    rwa [Cpu.setRunning_intenable] at hm
  | clear =>
    obtain ⟨v, hv, rfl⟩ := Cpu.step_clear hs
    exact h.setRunning (h.running.clear hv)
  | release =>
    obtain ⟨v, saved, hr, rfl⟩ := Cpu.step_release hs
    have hm := h.running
    rw [hr] at hm
    exact h.setRunning hm.release
  | enable num =>
    cases hs
    exact ⟨fun hne => absurd ho hne, h.thread⟩
  | disable num =>
    cases hs
    refine ⟨fun hne => ?_, h.thread⟩
    obtain ⟨h0, hrest⟩ := h.running hne
    refine ⟨?_, hrest⟩
    show s.intenable &&& ~~~(1 <<< num) = 0
    rw [h0, UInt32.zero_and]
  | raise pending =>
    cases hs
    exact ⟨h.running, h.thread⟩
  | irq =>
    obtain ⟨hn, hp, rfl⟩ := Cpu.step_irq hs
    refine ⟨fun hne => absurd rfl hne, fun _ => ?_⟩
    -- With the thread in a section there would be nothing to take.
    have hrun := h.running
    simp only [Cpu.running, hn, Option.getD_none] at hrun
    refine Decidable.byContradiction fun hne => hp ?_
    rw [(hrun hne).1, UInt32.zero_and]
  | ret =>
    obtain ⟨hh, rfl⟩ := Cpu.step_ret hs
    have hout := h.thread (by rw [hh]; rfl)
    exact ⟨fun hne => absurd hout hne, fun hi => by cases hi⟩

/-- **Exclusion.** In every run that enables interrupts outside of critical sections only: while the
thread is in a section no handler runs, and none can start; while a handler runs, the thread is in
no section, and nothing is enabled in the handler's own. -/
theorem section_excludes (h : cpu.Reach Outside s) :
    (s.thread.saved ≠ [] → s.handler = none ∧ s.intenable = 0 ∧ s.step .irq = none) ∧
      ∀ c, s.handler = some c → s.thread.saved = [] ∧ (c.saved ≠ [] → s.intenable = 0) := by
  have hm : s.Masked := h.induct (I := Cpu.Masked)
    (fun s h0 => ⟨by
      intro hne
      simp only [Cpu.running, h0.1, h0.2, Option.getD_none] at hne
      exact absurd rfl hne, by
      rw [h0.2]
      intro hi
      cases hi⟩) fun _ _ _ hi ho hst => Cpu.Masked.step hi ho hst
  refine ⟨fun hne => ?_, fun c hc => ⟨hm.thread (by rw [hc]; rfl), fun hne => ?_⟩⟩
  · have hn : s.handler = none := by
      cases hh : s.handler with
      | none => rfl
      | some c => exact absurd (hm.thread (by rw [hh]; rfl)) hne
    have hrun := hm.running
    simp only [Cpu.running, hn, Option.getD_none] at hrun
    refine ⟨hn, (hrun hne).1, ?_⟩
    simp only [Cpu.step]
    rw [if_neg]
    -- No bit of `INTENABLE` is set, so none of the pending interrupts is taken.
    rintro ⟨-, hp⟩
    rw [(hrun hne).1, UInt32.zero_and] at hp
    exact hp rfl
  · have hrun := hm.running
    simp only [Cpu.running, hc, Option.getD_some] at hrun
    exact (hrun hne).1

end

/-- An interrupt comes while `acquire` has read the register, one in a section of the thread. -/
def Cpu.pends : List (Cpu × Act) × Cpu :=
  Lts.exec Cpu.step ⟨0, 0, .outside, none⟩
    [.enable 2, .read, .raise 4, .irq, .read, .clear, .release, .raise 0, .ret, .clear, .raise 4]

theorem section_excludes_pending :
    Cpu.pends.2.pending = 4 ∧ Cpu.pends.2.handler = none ∧ Cpu.pends.2.step .irq = none := by
  have hr : cpu.Run _ Cpu.pends.1 Cpu.pends.2 := .exec _ _ _ _
  have hreach : cpu.Reach Outside Cpu.pends.2 := by
    refine hr.reach (.init ⟨rfl, rfl⟩) ?_
    show ∀ x ∈ Cpu.pends.1, Outside x.1 x.2
    decide +kernel
  obtain ⟨hn, -, hirq⟩ := (section_excludes hreach).1 (by decide +kernel)
  exact ⟨by decide +kernel, hn, hirq⟩

/-! ## Restoring -/

section

variable {s s' : Cpu} {a : Act}

/-- The thread is in a section, or about to be, that ends with `INTENABLE` at `v`. -/
def Context.Restores (c : Context) (v : UInt32) : Prop :=
  c = ⟨some v, []⟩ ∨ c.saved.getLast? = some v

/-- What a step does to a thread that is in a section. -/
theorem Context.Restores.step {v : UInt32} (h : s.thread.Restores v) (hs : s.step a = some s') :
    s'.thread.Restores v ∨ (s'.thread = .outside ∧ s'.intenable = v) := by
  -- A nested section saves on top: the outermost value stays at the end.
  have hcons : ∀ u (rest : List UInt32), rest.getLast? = some v →
      (u :: rest).getLast? = some v := by
    intro u rest hr
    cases rest with
    | nil => cases hr
    | cons w rest => exact hr
  cases a with
  | read =>
    obtain ⟨hr, rfl⟩ := Cpu.step_read hs
    obtain ⟨-, hrun, hset⟩ | ⟨d, -, -, hset⟩ :=
      s.setRunning_cases { s.running with reading := some s.intenable }
    · rw [hset]
      rw [hrun] at hr ⊢
      rcases h with he | hl
      · rw [he] at hr
        cases hr
      · exact .inl (.inr hl)
    · rw [hset]
      exact .inl h
  | clear =>
    obtain ⟨u, hu, rfl⟩ := Cpu.step_clear hs
    obtain ⟨-, hrun, hset⟩ | ⟨d, -, -, hset⟩ := s.setRunning_cases ⟨none, u :: s.running.saved⟩
    · rw [hset]
      rw [hrun] at hu ⊢
      rcases h with he | hl
      · rw [he] at hu ⊢
        cases hu
        exact .inl (.inr rfl)
      · exact .inl (.inr (hcons u _ hl))
    · rw [hset]
      exact .inl h
  | release =>
    obtain ⟨u, saved, hr, rfl⟩ := Cpu.step_release hs
    obtain ⟨-, hrun, hset⟩ | ⟨d, -, -, hset⟩ := s.setRunning_cases ⟨none, saved⟩
    · rw [hset]
      rw [hrun] at hr
      rcases h with he | hl
      · rw [he] at hr
        cases hr
      · rw [hr] at hl
        cases saved with
        | nil => exact .inr ⟨rfl, Option.some.inj hl⟩
        | cons w rest => exact .inl (.inr hl)
    · rw [hset]
      exact .inl h
  | enable num | disable num | raise pending =>
    cases hs
    exact .inl h
  | irq =>
    obtain ⟨-, -, rfl⟩ := Cpu.step_irq hs
    exact .inl h
  | ret =>
    obtain ⟨-, rfl⟩ := Cpu.step_ret hs
    exact .inl h

/-- **Restoring.** From the read of `acquire` on, the thread's section ends, whatever is done in it
and whatever handler came before the register was cleared, with `INTENABLE` as it was read. -/
theorem section_restores {t : Cpu} {tr : List (Cpu × Act)} (hn : s.handler = none)
    (ht : s.thread = .outside) (hread : s.step .read = some s') (hr : cpu.Run s' tr t)
    (hin : ∀ x ∈ tr, x.1.thread ≠ .outside) (hout : t.thread = .outside) :
    t.intenable = s.intenable := by
  have hstart : s'.thread.Restores s.intenable := by
    obtain ⟨-, rfl⟩ := Cpu.step_read hread
    obtain ⟨-, hrun, hset⟩ | ⟨d, hd, -, -⟩ :=
      s.setRunning_cases { s.running with reading := some s.intenable }
    · rw [hset, hrun, ht]
      exact .inl rfl
    · rw [hn] at hd
      cases hd
  -- The outermost saved value is the one read, as long as the thread is inside.
  have key : (∀ x ∈ tr, x.1.thread ≠ .outside) →
      t.thread.Restores s.intenable ∨ (t.thread = .outside ∧ t.intenable = s.intenable) := by
    refine Lts.Run.induct (I := fun tr t => (∀ x ∈ tr, Cpu.thread x.1 ≠ .outside) →
      (Cpu.thread t).Restores s.intenable ∨
        (Cpu.thread t = .outside ∧ Cpu.intenable t = s.intenable)) (fun _ => .inl hstart) ?_ hr
    intro tr t a u _ ih hst hin
    rcases ih fun x hx => hin x (List.mem_append_left _ hx) with hres | ⟨hout, -⟩
    · exact hres.step hst
    · exact absurd hout (hin (t, a) (by simp))
  rcases key hin with (he | hl) | ⟨-, he⟩
  · rw [hout] at he
    cases he
  · rw [hout] at hl
    cases hl
  · exact he

end

/-- Interrupts 0 and 1 are enabled, and the thread acquires a section. Before it clears the register
a handler disables interrupt 0; in the section it enables interrupt 2. -/
def Cpu.undone : List (Cpu × Act) × Cpu :=
  Lts.exec Cpu.step ⟨3, 1, ⟨some 3, []⟩, none⟩
    [.irq, .disable 0, .raise 0, .ret, .clear, .read, .clear, .enable 2, .release, .enable 2,
      .release]

theorem section_restores_undone : Cpu.undone.1.length = 11 ∧ Cpu.undone.2.intenable = 3 := by
  refine ⟨by decide +kernel, ?_⟩
  have hr : cpu.Run _ Cpu.undone.1 Cpu.undone.2 := .exec _ _ _ _
  refine section_restores (s := ⟨3, 1, .outside, none⟩) rfl rfl rfl hr ?_ ?_
  · show ∀ x ∈ Cpu.undone.1, x.1.thread ≠ .outside
    decide +kernel
  · decide +kernel

end Mc1322x.CriticalSection
