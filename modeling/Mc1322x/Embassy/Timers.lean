import Mc1322x.Embassy.SleepyExecutor

/-!
# The timers over all runs of the time driver

Task code schedules wakes at any time, and the tick interrupt comes at any time. An interrupt that
comes one wrap of the counter (65536 counts, 174 ticks) or more after the boundary loses whole wraps,
and `base` stays behind for good. What holds of a run depends on that in one direction only.

* `timer_fires`: the first tick interrupt that comes at a deadline, or after it, ends with the waker
  woken, if it has not been before. That interrupt comes less than one wrap after the boundary;
  none before it can have come later then, so the theorem asks nothing of those.
* `never_early`: no interrupt wakes a waker before a deadline that it was scheduled for, however late
  the interrupts come and however long the run is.
-/

namespace Mc1322x.TimeDriver

variable {Q Waker : Type} (T : TimerQueue Q Waker)

/-- What the queue keeps: `scheduleWake` puts the waker into it, and of the other entries it takes
out only those that it wakes (where it is full). -/
structure TimerQueue.Keeps : Prop where
  schedule_new : ∀ q at_ w, ∃ d, d ≤ at_ ∧ (d, w) ∈ T.entries (T.scheduleWake q at_ w).2
  schedule_old : ∀ q at_ w d v, (d, v) ∈ T.entries q →
    v ∈ (T.scheduleWake q at_ w).1 ∨ ∃ d', d' ≤ d ∧ (d', v) ∈ T.entries (T.scheduleWake q at_ w).2

theorem listQueue_keeps (Waker : Type) [DecidableEq Waker] : (listQueue Waker).Keeps where
  schedule_new q at_ w := by
    simp only [listQueue]
    split
    · rename_i h
      obtain ⟨e, he, hw⟩ := List.any_eq_true.mp h
      refine ⟨min e.1 at_, Std.min_le_right, List.mem_map.mpr ⟨e, he, ?_⟩⟩
      rw [if_pos (by simpa using hw)]
    · exact ⟨at_, UInt64.le_refl _, by simp⟩
  schedule_old q at_ w d v hv := by
    refine .inr ?_
    simp only [listQueue] at hv ⊢
    split
    · by_cases hvw : v = w
      · refine ⟨min d at_, Std.min_le_left, List.mem_map.mpr ⟨(d, v), hv, ?_⟩⟩
        rw [if_pos hvw, hvw]
      · refine ⟨d, UInt64.le_refl _, List.mem_map.mpr ⟨(d, v), hv, ?_⟩⟩
        rw [if_neg hvw]
    · exact ⟨d, UInt64.le_refl _, List.mem_append_left _ hv⟩

/-- The waker is in the queue, for the deadline or an earlier one. -/
def Sys.Pending (s : Sys Q) (at_ : UInt64) (w : Waker) : Prop :=
  ∃ d, d ≤ at_ ∧ (d, w) ∈ T.entries s.drv.queue

section

variable {T} {s s' : Sys Q} {a : Act Waker} {at_ : UInt64} {w : Waker}

/-- What a step does to the queue. -/
theorem Sys.step_queue (hs : s.step T a = some s') :
    (∃ at_ w, a = .schedule at_ w ∧ s'.drv.queue = (T.scheduleWake s.drv.queue at_ w).2) ∨
      (a = .process ∧ s'.drv.queue = (T.nextExpiration s.drv.queue s.drv.base).2.2) ∨
      (s.woken T a = [] ∧ s'.drv.queue = s.drv.queue) := by
  cases a with
  | advance n =>
    cases hs
    exact .inr (.inr ⟨rfl, rfl⟩)
  | check =>
    simp only [Sys.step, Option.ite_none_right_eq_some] at hs
    obtain ⟨-, hs⟩ := hs
    cases ha : armStep s.drv s.cntr with
    | none =>
      rw [ha] at hs
      cases hs
      exact .inr (.inr ⟨rfl, rfl⟩)
    | some d =>
      rw [ha] at hs
      cases hs
      obtain ⟨-, rfl⟩ := (armStep_eq_some s.drv).mp ha
      exact .inr (.inr ⟨rfl, rfl⟩)
  | schedule at_ w =>
    simp only [Sys.step, Option.ite_none_right_eq_some] at hs
    obtain ⟨-, hs⟩ := hs
    cases hs
    exact .inl ⟨at_, w, rfl, rfl⟩
  | process =>
    simp only [Sys.step, Option.ite_none_right_eq_some] at hs
    obtain ⟨-, hs⟩ := hs
    cases hs
    exact .inr (.inl ⟨rfl, rfl⟩)
  | now | isr | write =>
    simp only [Sys.step, Option.ite_none_right_eq_some] at hs
    obtain ⟨-, hs⟩ := hs
    cases hs
    exact .inr (.inr ⟨rfl, rfl⟩)

/-- The deadlines in the queue that are due are woken, and the others stay. -/
theorem Sys.Pending.step (hT : T.Lawful) (hk : T.Keeps) (h : s.Pending T at_ w)
    (hs : s.step T a = some s') : w ∈ s.woken T a ∨ s'.Pending T at_ w := by
  obtain ⟨d, hd, hmem⟩ := h
  unfold Sys.Pending
  rcases Sys.step_queue hs with ⟨at', v, rfl, hq⟩ | ⟨rfl, hq⟩ | ⟨-, hq⟩
  · rw [hq]
    rcases hk.schedule_old _ at' v d w hmem with hw | ⟨d', hd', hmem'⟩
    · exact .inl hw
    · exact .inr ⟨d', UInt64.le_trans hd' hd, hmem'⟩
  · rw [hq]
    by_cases hdue : d ≤ s.drv.base
    · exact .inl ((hT.next_woken _ _ _).mpr ⟨d, hmem, hdue⟩)
    · exact .inr ⟨d, hd, (hT.next_entries _ _ _).mpr ⟨hmem, UInt64.not_le.mp hdue⟩⟩
  · rw [hq]
    exact .inr ⟨d, hd, hmem⟩

theorem Sys.Pending.run (hT : T.Lawful) (hk : T.Keeps) {init : Sys Q → Prop}
    {tr : List (Sys Q × Act Waker)} (h : s.Pending T at_ w) (hr : (clock T init).Run s tr s') :
    (∃ x ∈ tr, w ∈ x.1.woken T x.2) ∨ s'.Pending T at_ w := by
  refine Lts.Run.induct (I := fun tr s' => (∃ x ∈ tr, w ∈ Sys.woken T x.1 x.2) ∨
    Sys.Pending T s' at_ w) (.inr h) ?_ hr
  intro tr t a u _ ih hst
  rcases ih with ⟨x, hx, hw⟩ | hp
  · exact .inl ⟨x, List.mem_append_left _ hx, hw⟩
  · rcases hp.step hT hk hst with hw | hp
    · exact .inl ⟨(t, a), by simp, hw⟩
    · exact .inr hp

/-! ## The tick count -/

/-- The boundary never goes back. -/
theorem Sys.boundary_le_step (hs : s.step T a = some s') : s.boundary ≤ s'.boundary := by
  cases a <;> simp only [Sys.step, Option.ite_none_right_eq_some, Option.some.injEq] at hs
  case advance n => rw [← hs]
  case isr =>
    obtain ⟨-, rfl⟩ := hs
    exact Nat.le_add_right _ _
  case check =>
    obtain ⟨-, hs⟩ := hs
    split at hs
    · cases hs
      exact Nat.le_refl _
    · cases hs
      exact Nat.le_add_right _ _
  all_goals
    obtain ⟨-, rfl⟩ := hs
    exact Nat.le_refl _

theorem Sys.boundary_le_run {init : Sys Q → Prop} {tr : List (Sys Q × Act Waker)}
    (h : (clock T init).Run s tr s') : s.boundary ≤ s'.boundary :=
  h.relates (R := fun s s' : Sys Q => s.boundary ≤ s'.boundary) (fun _ => Nat.le_refl _)
    (fun _ _ _ h h' => Nat.le_trans h h') fun _ _ _ hst => Sys.boundary_le_step hst

/-- `base` never passes the counter, in a wrap of its own as well. -/
theorem Sys.Tracks.base_le (h : s.Tracks 0 0) : s.drv.base.toNat * period ≤ s.count := by
  obtain ⟨k, hb, hbase, -, hle⟩ := h
  have hmod : s.drv.base.toNat ≤ k := by
    rw [hbase, Nat.zero_add, UInt64.toNat_ofNat']
    exact Nat.mod_le _ _
  calc s.drv.base.toNat * period ≤ k * period := Nat.mul_le_mul_right period hmod
    _ = s.boundary := by rw [hb, Nat.zero_add]
    _ ≤ s.count := hle

/-- `base` is the tick of the boundary, as long as it fits `u64`. -/
theorem Sys.Tracks.base_eq (h : s.Tracks 0 0) (hc : s.count < 2 ^ 64 * period) :
    s.drv.base.toNat * period = s.boundary := by
  obtain ⟨k, hb, hbase, -, hle⟩ := h
  have hk : k < 2 ^ 64 := by
    rw [period_eq] at *
    omega
  rw [hbase, hb, Nat.zero_add, Nat.zero_add, UInt64.toNat_ofNat_of_lt' hk]

/-- The interrupt leaves less than a period behind the boundary. -/
theorem Sys.Tracks.isr (h : s.Tracks 0 0) (hf : s.Fresh) (hs : s.step T .isr = some s') :
    s.count < s'.boundary + period := by
  have hsince := h.since_eq hf
  obtain ⟨-, -, -, -, hle⟩ := h
  simp only [Sys.step, Option.ite_none_right_eq_some, Option.some.injEq] at hs
  obtain ⟨-, rfl⟩ := hs
  have hmod := Nat.lt_div_mul_add (a := s.count - s.boundary) (b := period) (by decide)
  show s.count < s.boundary + (s.drv.since s.cntr).toNat / period * period + period
  rw [hsince]
  omega

/-! ## The wakes -/

/-- A due waker does not stay in the queue. -/
theorem Sys.Pending.fires (hT : T.Lawful) (h : s.Pending T at_ w) (hdue : at_ ≤ s.drv.base) :
    w ∈ s.woken T .process := by
  obtain ⟨d, hd, hmem⟩ := h
  exact (hT.next_woken _ _ _).mpr ⟨d, hmem, UInt64.le_trans hd hdue⟩

/-- **A timer fires.** A waker is scheduled, and later the tick interrupt comes at the deadline or
after it, less than one wrap of the counter after the boundary. Before that interrupt is over, the
waker is woken: by it, or by a step since it was scheduled. -/
theorem timer_fires (hT : T.Lawful) (hk : T.Keeps) {s s₁ z z₁ y : Sys Q}
    {tr₁ tr₂ : List (Sys Q × Act Waker)}
    (hs : (clock T Sys.Started).Reach (Lts.Any _) s)
    (hsched : s.step T (.schedule at_ w) = some s₁)
    (h₁ : (clock T Sys.Started).Run s₁ tr₁ z) (hisr : z.step T .isr = some z₁) (hf : z.Fresh)
    (h₂ : (clock T Sys.Started).Run z₁ tr₂ y)
    (hdeadline : at_.toNat * period ≤ z.count) (hc : y.count < 2 ^ 64 * period) :
    w ∈ y.woken T .process ∨ ∃ x ∈ tr₁ ++ tr₂, w ∈ x.1.woken T x.2 := by
  have hs₁ := Sys.reach_step hs (.schedule at_ w) trivial hsched
  have hz := h₁.reach hs₁ fun _ _ => trivial
  have hz₁ := Sys.reach_step hz .isr trivial hisr
  have hy := h₂.reach hz₁ fun _ _ => trivial
  have hpending : s₁.Pending T at_ w := by
    rcases Sys.step_queue hsched with ⟨_, _, ⟨⟩, hq⟩ | ⟨⟨⟩, -⟩ | ⟨-, hq⟩
    · unfold Sys.Pending
      rw [hq]
      exact hk.schedule_new _ _ _
    · simp only [Sys.step, Option.ite_none_right_eq_some, Option.some.injEq] at hsched
      obtain ⟨-, rfl⟩ := hsched
      exact hk.schedule_new _ _ _
  rcases hpending.run hT hk h₁ with ⟨x, hx, hw⟩ | hpz
  · exact .inr ⟨x, List.mem_append_left _ hx, hw⟩
  rcases hpz.step hT hk hisr with hw | hpz₁
  · cases hw
  rcases hpz₁.run hT hk h₂ with ⟨x, hx, hw⟩ | hpy
  · exact .inr ⟨x, List.mem_append_right _ hx, hw⟩
  · refine .inl (hpy.fires hT ?_)
    -- The interrupt brings the boundary to the deadline, and nothing takes it back.
    have htz := Sys.Tracks.reach (fun _ h => h.tracks) hz
    have hlt := htz.isr hf hisr
    have hle := Sys.boundary_le_run h₂
    have hbase := (Sys.Tracks.reach (fun _ h => h.tracks) hy).base_eq hc
    rw [UInt64.le_iff_toNat_le]
    rw [period_eq] at *
    omega

/-- **No timer fires early.** From an empty queue on, a waker that the tick interrupt wakes was
scheduled for a deadline that the true count has reached. -/
theorem never_early (hT : T.Lawful) {s₀ s : Sys Q} {tr : List (Sys Q × Act Waker)}
    (h₀ : s₀.Started) (hempty : T.entries s₀.drv.queue = [])
    (hr : (clock T Sys.Started).Run s₀ tr s) (hw : w ∈ s.woken T .process) :
    ∃ x ∈ tr, ∃ at_, x.2 = .schedule at_ w ∧ at_.toNat * period ≤ s.count := by
  -- What is in the queue was scheduled in the run.
  have hfrom : ∀ e ∈ T.entries s.drv.queue, ∃ x ∈ tr, x.2 = .schedule e.1 e.2 := by
    refine Lts.Run.induct (I := fun tr s => ∀ e ∈ T.entries (Sys.drv s).queue,
      ∃ x ∈ tr, x.2 = Act.schedule e.1 e.2) ?_ ?_ hr
    · rw [hempty]
      exact nofun
    · intro tr t a u _ ih hst e he
      have hold : e ∈ T.entries t.drv.queue → ∃ x ∈ tr ++ [(t, a)], x.2 = .schedule e.1 e.2 := by
        intro he
        obtain ⟨x, hx, hxe⟩ := ih e he
        exact ⟨x, List.mem_append_left _ hx, hxe⟩
      rcases Sys.step_queue hst with ⟨at', v, rfl, hq⟩ | ⟨-, hq⟩ | ⟨-, hq⟩
      · rw [hq] at he
        rcases hT.schedule_mem _ _ _ _ he with he | rfl
        · exact hold he
        · exact ⟨(t, .schedule at' v), by simp, rfl⟩
      · rw [hq] at he
        exact hold ((hT.next_entries _ _ _).mp he).1
      · rw [hq] at he
        exact hold he
  obtain ⟨d, hmem, hdue⟩ := (hT.next_woken _ _ _).mp hw
  obtain ⟨x, hx, hxe⟩ := hfrom (d, w) hmem
  refine ⟨x, hx, d, hxe, ?_⟩
  have hs := hr.reach (C := Lts.Any _) (.init h₀) fun _ _ => trivial
  have ht := Sys.Tracks.reach (fun _ h => h.tracks) hs
  calc d.toNat * period
      ≤ s.drv.base.toNat * period :=
        Nat.mul_le_mul_right period (UInt64.le_iff_toNat_le.mp hdue)
    _ ≤ s.count := ht.base_le

end

/-! ## A concrete run -/

instance (s : Sys Q) : Decidable s.Fresh := inferInstanceAs (Decidable (_ < _))

/-- Steps with the list queue. -/
def Sys.steps (s : Sys (List (UInt64 × Nat))) (as : List (Act Nat)) :
    List (Sys (List (UInt64 × Nat)) × Act Nat) × Sys (List (UInt64 × Nat)) :=
  Lts.exec (Sys.step (listQueue Nat)) s as

/-- Waker 7 is scheduled for tick 2, and `n` counts pass. -/
def Sys.ticked (n : Nat) : List (Sys (List (UInt64 × Nat)) × Act Nat) × Sys (List (UInt64 × Nat)) :=
  (Sys.zero 0).steps [.schedule 2 7, .advance n]

/-- The interrupt then, up to `process_queue`. -/
def Sys.handled (n : Nat) : List (Sys (List (UInt64 × Nat)) × Act Nat) × Sys (List (UInt64 × Nat)) :=
  (Sys.ticked n).2.steps [.isr, .write, .check]

/-- 800 counts are more than two periods. -/
theorem timer_fires_at_800 : (Sys.handled 800).2.pc = .process ∧
    (7 ∈ (Sys.handled 800).2.woken (listQueue Nat) .process ∨
      ∃ x ∈ (Sys.ticked 800).1.drop 1 ++ (Sys.handled 800).1.drop 1,
        7 ∈ x.1.woken (listQueue Nat) x.2) := by
  refine ⟨by decide +kernel, ?_⟩
  obtain ⟨s₁, hs₁⟩ : ∃ s₁, (Sys.zero 0).step (listQueue Nat) (.schedule 2 7) = some s₁ := ⟨_, rfl⟩
  obtain ⟨z₁, hz₁⟩ : ∃ z₁, (Sys.ticked 800).2.step (listQueue Nat) .isr = some z₁ := ⟨_, rfl⟩
  have h₁ : (clock (listQueue Nat) Sys.Started).Run s₁ ((Sys.ticked 800).1.drop 1)
      (Sys.ticked 800).2 := by
    have h := Lts.Run.exec Sys.Started (Sys.step (listQueue Nat)) s₁ [.advance 800]
    cases hs₁
    exact h
  have h₂ : (clock (listQueue Nat) Sys.Started).Run z₁ ((Sys.handled 800).1.drop 1)
      (Sys.handled 800).2 := by
    have h := Lts.Run.exec Sys.Started (Sys.step (listQueue Nat)) z₁ [.write, .check]
    cases hz₁
    exact h
  exact timer_fires (listQueue_lawful Nat) (listQueue_keeps Nat) (.init Sys.zero_started) hs₁ h₁
    hz₁ (by decide +kernel) h₂ (by decide +kernel) (by decide +kernel)

/-- An interrupt one wrap late takes the 70000 counts for 4464, and wakes for `base` 11. -/
theorem never_early_at_70000 : (Sys.handled 70000).2.drv.base = 11 ∧
    ∃ x ∈ (Sys.ticked 70000).1 ++ (Sys.handled 70000).1, ∃ at_,
      x.2 = .schedule at_ 7 ∧ at_.toNat * period ≤ (Sys.handled 70000).2.count := by
  refine ⟨by decide +kernel, ?_⟩
  have hr : (clock (listQueue Nat) Sys.Started).Run (Sys.zero 0)
      ((Sys.ticked 70000).1 ++ (Sys.handled 70000).1) (Sys.handled 70000).2 :=
    (Lts.Run.exec _ _ _ _).trans (.exec _ _ _ _)
  exact never_early (listQueue_lawful Nat) Sys.zero_started rfl hr (by decide +kernel)

end Mc1322x.TimeDriver
