import Mc1322x.Lib.Lts
import Mc1322x.Embassy.TimeDriver

/-!
# The clock over all runs of the time driver

The driver runs with its timer (`Sys`): the counter advances at any time, also between the
register accesses of `arm_next_compare`; task code calls `now` and `schedule_wake`; the interrupt
comes at any time in task code (a critical section holds it back, so it may come late).

`Tracks n b` is the invariant: the boundary is `k` periods after position `b`, `base` is `k` ticks
after tick `n`, and `lastBoundary` is the boundary modulo 65536. Every step keeps it: a read of the
counter that comes too late loses whole wraps, so the boundary never passes the counter. Where
every read comes less than one wrap after the boundary (`InTime`), nothing is lost: from the start
(`n = b = 0`), `now` is the true count divided by `period` (`now_exact`), up to the range of
`u64`: after `2 ^ 64` ticks the clock restarts from zero (`now_wraps`).
-/

namespace Mc1322x.TimeDriver

/-- Where the processor is: in task code, or in the interrupt before the write of the compare
register, before the read of the counter after it, or before `process_queue`. -/
inductive Pc where
  | thread | arm | check | process
  deriving DecidableEq

/-- The driver with TMR0. -/
structure Sys (Q : Type) where
  drv : TmrDriver Q
  /-- The true number of counts; the counter shows it modulo 65536. -/
  count : Nat
  comp1 : UInt16
  pc : Pc
  /-- The true position of `lastBoundary`. -/
  boundary : Nat

/-- The counter register. -/
def Sys.cntr {Q : Type} (s : Sys Q) : UInt16 := .ofNat s.count

/-- The counts since the boundary are those that the counter register shows. -/
def Sys.Fresh {Q : Type} (s : Sys Q) : Prop := s.count < s.boundary + 65536

/-- What happens to the time driver: the counter goes on, `now` and `schedule_wake` are called, and
the TMR0 interrupt is handled access by access. -/
inductive Act (Waker : Type) where
  | advance (n : Nat)
  | now
  | schedule (at_ : UInt64) (waker : Waker)
  /-- `tmr0_isr`, up to the loop of `arm_next_compare`. -/
  | isr
  | write
  | check
  | process

variable {Q Waker : Type} (T : TimerQueue Q Waker)

/-- One step; `none`: the step is not possible. -/
def Sys.step (s : Sys Q) : Act Waker → Option (Sys Q)
  | .advance n => some { s with count := s.count + n }
  | .now => if s.pc = .thread then some s else none
  | .schedule at_ w =>
    if s.pc = .thread then some { s with drv := (scheduleWake T s.drv at_ w).2 } else none
  | .isr =>
    if s.pc = .thread then
      some { s with
        drv := onTickBase s.drv s.cntr
        boundary := s.boundary + (s.drv.since s.cntr).toNat / period * period
        pc := .arm }
    else none
  | .write =>
    if s.pc = .arm then some { s with comp1 := nextBoundary s.drv, pc := .check } else none
  | .check =>
    if s.pc = .check then
      match armStep s.drv s.cntr with
      | none => some { s with pc := .process }
      | some d => some { s with drv := d, boundary := s.boundary + period, pc := .arm }
    else none
  | .process =>
    if s.pc = .process then some { s with drv := (processQueue T s.drv).2, pc := .thread }
    else none

/-- The runs of the driver from the states `init`. -/
def clock (init : Sys Q → Prop) : Lts := .ofStep init (Sys.step T)

/-- A step that reads the counter does so less than one wrap after the boundary. -/
def InTime (s : Sys Q) : Act Waker → Prop
  | .now | .isr | .check => s.Fresh
  | _ => True

/-- The state after `init`. -/
def Sys.Started (s : Sys Q) : Prop :=
  s.drv.base = 0 ∧ s.drv.lastBoundary = 0 ∧ s.count = 0 ∧ s.boundary = 0 ∧ s.pc = .thread

/-- The boundary is `k` periods after position `b`, and `base` is `k` ticks after tick `n`. -/
def Sys.Tracks (n b : Nat) (s : Sys Q) : Prop :=
  ∃ k, s.boundary = b + k * period ∧ s.drv.base = .ofNat (n + k) ∧
    s.drv.lastBoundary = .ofNat s.boundary ∧ s.boundary ≤ s.count

/-! ## The invariant -/

section Invariant

variable {T} {n b : Nat} {s s' : Sys Q}

/-- What a read of the counter shows: the counts since the boundary, less whole wraps. -/
theorem Sys.Tracks.since_mod (h : s.Tracks n b) :
    (s.drv.since s.cntr).toNat = (s.count - s.boundary) % 65536 := by
  obtain ⟨k, -, -, hb, hle⟩ := h
  unfold TmrDriver.since Sys.cntr
  rw [hb]
  exact Word.sub_ofNat16_mod hle

theorem Sys.Tracks.since_eq (h : s.Tracks n b) (hl : s.Fresh) :
    (s.drv.since s.cntr).toNat = s.count - s.boundary := by
  unfold Sys.Fresh at hl
  rw [h.since_mod, Nat.mod_eq_of_lt (by omega)]

/-- However late it comes, a read never shows more than has passed. -/
theorem Sys.Tracks.since_le (h : s.Tracks n b) :
    s.boundary + (s.drv.since s.cntr).toNat ≤ s.count := by
  have hmod := Nat.mod_le (s.count - s.boundary) 65536
  rw [h.since_mod]
  obtain ⟨-, -, -, -, hle⟩ := h
  omega

theorem Sys.Started.tracks (h : s.Started) : s.Tracks 0 0 := by
  obtain ⟨hb, hl, hc, hp, -⟩ := h
  exact ⟨0, by rw [hp]; rfl, by rw [hb]; rfl, by rw [hl, hp]; rfl, by omega⟩

/-- A move of the boundary by `j` whole periods, not past the counter, with `base`. -/
theorem Sys.Tracks.move (h : s.Tracks n b) {j : Nat} {d : TmrDriver Q}
    (hj : s.boundary + j * period ≤ s.count) (hbase : d.base = s.drv.base + .ofNat j)
    (hlast : d.lastBoundary = s.drv.lastBoundary + .ofNat (j * period)) (pc : Pc) :
    Sys.Tracks n b { s with drv := d, boundary := s.boundary + j * period, pc := pc } := by
  obtain ⟨k, hb, hn, hl, -⟩ := h
  refine ⟨k + j, ?_, ?_, ?_, hj⟩
  · simp only [hb, Nat.add_mul]
    omega
  · simp only [hbase, hn, Word.ofNat64_add, Nat.add_assoc]
  · simp only [hlast, hl, Word.ofNat16_add]

/-- Every step keeps the invariant. -/
theorem Sys.Tracks.step (h : s.Tracks n b) {a : Act Waker} (hs : s.step T a = some s') :
    s'.Tracks n b := by
  have hsince := h.since_le
  cases a with
  | advance m =>
    cases hs
    obtain ⟨k, hb, hn, hl, hle⟩ := h
    exact ⟨k, hb, hn, hl, Nat.le_trans hle (Nat.le_add_right _ _)⟩
  | now =>
    simp only [Sys.step, Option.ite_none_right_eq_some] at hs
    obtain ⟨-, hs⟩ := hs
    cases hs
    exact h
  | schedule at_ w =>
    simp only [Sys.step, Option.ite_none_right_eq_some] at hs
    obtain ⟨-, hs⟩ := hs
    cases hs
    exact h
  | isr =>
    simp only [Sys.step, Option.ite_none_right_eq_some] at hs
    obtain ⟨-, hs⟩ := hs
    cases hs
    refine h.move ?_ ?_ ?_ .arm
    -- The whole periods of the counts that the read shows.
    · have := Nat.div_mul_le_self (s.drv.since s.cntr).toNat period
      omega
    · rw [onTickBase_eq]
    · rw [onTickBase_eq]
  | write =>
    simp only [Sys.step, Option.ite_none_right_eq_some] at hs
    obtain ⟨-, hs⟩ := hs
    cases hs
    exact h
  | check =>
    simp only [Sys.step, Option.ite_none_right_eq_some] at hs
    obtain ⟨-, hs⟩ := hs
    cases ha : armStep s.drv s.cntr with
    | none =>
      rw [ha] at hs
      cases hs
      exact h
    | some d =>
      rw [ha] at hs
      cases hs
      obtain ⟨hp, rfl⟩ := (armStep_eq_some s.drv).mp ha
      have hm := h.move (j := 1) (d := { s.drv with
        base := s.drv.base + .ofNat 1
        lastBoundary := s.drv.lastBoundary + .ofNat period })
        (by simp only [period_eq] at hp ⊢; omega) rfl (by simp) .arm
      simpa using hm
  | process =>
    simp only [Sys.step, Option.ite_none_right_eq_some] at hs
    obtain ⟨-, hs⟩ := hs
    cases hs
    exact h

theorem Sys.Tracks.reach {init : Sys Q → Prop} {C : Sys Q → Act Waker → Prop}
    (h0 : ∀ s, init s → s.Tracks n b) (h : (clock T init).Reach C s) : s.Tracks n b := by
  refine h.induct (I := Sys.Tracks n b) h0 ?_
  intro s a s' hi _ hst
  exact Sys.Tracks.step (T := T) (a := a) hi hst

theorem Sys.reach_step {init : Sys Q → Prop} {C : Sys Q → Act Waker → Prop}
    (h : (clock T init).Reach C s) (a : Act Waker) (ht : C s a) (hs : s.step T a = some s') :
    (clock T init).Reach C s' :=
  .step h ht hs

/-- The position of a clock that tracks, as long as its tick count fits `u64`. -/
theorem Sys.Tracks.position_eq (h : s.Tracks n b) (hl : s.Fresh)
    (hn : n * period + (s.count - b) < 2 ^ 64 * period) :
    s.drv.position s.cntr = n * period + (s.count - b) := by
  have hd := h.since_eq hl
  obtain ⟨k, hb, hbase, -, hle⟩ := h
  unfold TmrDriver.position
  rw [hd, hbase, UInt64.toNat_ofNat']
  simp only [period_eq] at *
  rw [Nat.mod_eq_of_lt (by omega)]
  omega

/-- The counter never goes back. -/
theorem Sys.count_le_step {a : Act Waker} (hs : s.step T a = some s') : s.count ≤ s'.count := by
  cases a <;> simp only [Sys.step, Option.ite_none_right_eq_some, Option.some.injEq] at hs
  case advance n => rw [← hs]; exact Nat.le_add_right _ _
  case check =>
    obtain ⟨-, hs⟩ := hs
    split at hs <;> · cases hs; exact Nat.le_refl _
  all_goals
    obtain ⟨-, rfl⟩ := hs
    exact Nat.le_refl _

theorem Sys.count_le_run {init : Sys Q → Prop} {tr : List (Sys Q × Act Waker)}
    (h : (clock T init).Run s tr s') : s.count ≤ s'.count :=
  h.relates (R := fun s s' : Sys Q => s.count ≤ s'.count) (fun _ => Nat.le_refl _)
    (fun _ _ _ h h' => Nat.le_trans h h') fun _ _ _ hst => Sys.count_le_step hst

end Invariant

/-! ## `now` -/

/-- What `now` returns to a call in state `s`. -/
def Sys.now (s : Sys Q) : Option UInt64 := TimeDriver.now s.drv s.cntr

theorem Sys.Tracks.now_eq {s : Sys Q} (h : s.Tracks 0 0) (hl : s.Fresh)
    (hc : s.count < 2 ^ 64 * period) :
    s.now = some (.ofNat (s.count / period)) := by
  have hp := h.position_eq hl (by simpa using hc)
  unfold Sys.now
  rw [now_eq_some, hp, UInt64.toNat_ofNat']
  simp only [Nat.zero_mul, Nat.zero_add, Nat.sub_zero, period_eq] at hc ⊢
  omega

/-- **The clock is exact and monotone.** In every run in which each read of the counter comes less
than one wrap after the boundary, a call of `now` returns the whole ticks of the true count, as
long as these fit `u64`, and a later call of the run does not return less. -/
theorem now_exact {s s' : Sys Q} {tr : List (Sys Q × Act Waker)}
    (hs : (clock T Sys.Started).Reach InTime s) (hl : InTime s (.now : Act Waker))
    (hr : (clock T Sys.Started).Run s tr s') (htr : ∀ x ∈ tr, InTime x.1 x.2)
    (hl' : InTime s' (.now : Act Waker)) (hc : s'.count < 2 ^ 64 * period) :
    ∃ v v', s.now = some v ∧ v.toNat = s.count / period ∧
      s'.now = some v' ∧ v'.toNat = s'.count / period ∧ v ≤ v' := by
  have hle : s.count ≤ s'.count := Sys.count_le_run hr
  have hval : ∀ t : Sys Q, (clock T Sys.Started).Reach InTime t → t.Fresh →
      t.count < 2 ^ 64 * period → ∃ v, t.now = some v ∧ v.toNat = t.count / period := by
    intro t ht hf htc
    refine ⟨_, (Sys.Tracks.reach (fun _ h => h.tracks) ht).now_eq hf htc, ?_⟩
    rw [UInt64.toNat_ofNat', period_eq] at *
    omega
  obtain ⟨v, hv, hvn⟩ := hval s hs hl (by omega)
  obtain ⟨v', hv', hvn'⟩ := hval s' (hr.reach hs htr) hl' hc
  refine ⟨v, v', hv, hvn, hv', hvn', ?_⟩
  rw [UInt64.le_iff_toNat_le, hvn, hvn']
  exact Nat.div_le_div_right hle

/-! ## Concrete runs -/

/-- The state after `init`, with an empty list queue and the counter at `count`. -/
def Sys.zero (count : Nat) : Sys (List (UInt64 × Nat)) where
  drv := { base := 0, lastBoundary := 0, queue := [], nextAlarm := none }
  count := count
  comp1 := .ofNat period
  pc := .thread
  boundary := 0

theorem Sys.zero_started : (Sys.zero 0).Started := ⟨rfl, rfl, rfl, rfl, rfl⟩

/-- 800 counts after the start, `now` is 2, not less than the 0 at the start. -/
theorem now_exact_at_800 :
    ∃ v v', (Sys.zero 0).now = some v ∧ v.toNat = 0 ∧
      (Sys.zero 800).now = some v' ∧ v'.toNat = 2 ∧ v ≤ v' := by
  have hs : (clock (listQueue Nat) Sys.Started).Reach InTime (Sys.zero 0) := .init Sys.zero_started
  have hr : (clock (listQueue Nat) Sys.Started).Run (Sys.zero 0)
      [(Sys.zero 0, Act.advance 800)] (Sys.zero 800) := Lts.Run.single rfl
  exact now_exact (listQueue Nat) hs (by simp [InTime, Sys.Fresh, Sys.zero]) hr
    (fun x hx => by cases List.mem_singleton.mp hx; trivial)
    (by simp [InTime, Sys.Fresh, Sys.zero]) (by simp [Sys.zero, period_eq])

/-- An interrupt served one period after the boundary moves the boundary to the counter. -/
theorem tick_reach {s : Sys (List (UInt64 × Nat))}
    (hs : (clock (listQueue Nat) Sys.Started).Reach InTime s) (hp : s.pc = .thread)
    (hc : s.count = s.boundary) :
    ∃ s', (clock (listQueue Nat) Sys.Started).Reach InTime s' ∧ s'.pc = .thread ∧
      s'.count = s.count + period ∧ s'.count = s'.boundary := by
  have ht : s.Tracks 0 0 := Sys.Tracks.reach (fun _ h => h.tracks) hs
  -- The counter advances by one period, and the interrupt is served.
  obtain ⟨s₁, h₁, hc₁, hb₁, hp₁⟩ : ∃ s₁, s.step (listQueue Nat) (.advance period) = some s₁ ∧
      s₁.count = s.count + period ∧ s₁.boundary = s.boundary ∧ s₁.pc = .thread :=
    ⟨_, rfl, rfl, rfl, hp⟩
  have hr₁ := Sys.reach_step hs (.advance period) trivial h₁
  have hf₁ : s₁.Fresh := by unfold Sys.Fresh; rw [hc₁, hb₁, hc, period_eq]; omega
  have ht₁ := ht.step h₁
  have hd₁ : (s₁.drv.since s₁.cntr).toNat = period := by
    rw [ht₁.since_eq hf₁, hc₁, hb₁, hc, Nat.add_sub_cancel_left]
  obtain ⟨s₂, h₂, hc₂, hb₂, hp₂⟩ : ∃ s₂, s₁.step (listQueue Nat) .isr = some s₂ ∧
      s₂.count = s.count + period ∧ s₂.boundary = s.boundary + period ∧ s₂.pc = .arm := by
    refine ⟨_, if_pos hp₁, hc₁, ?_, rfl⟩
    rw [hd₁, hb₁]
    rfl
  have hr₂ := Sys.reach_step hr₁ .isr hf₁ h₂
  have ht₂ := ht₁.step h₂
  -- The loop leaves at its first read: the counter is at the new boundary.
  obtain ⟨s₃, h₃, hc₃, hb₃, hp₃⟩ : ∃ s₃, s₂.step (listQueue Nat) .write = some s₃ ∧
      s₃.count = s.count + period ∧ s₃.boundary = s.boundary + period ∧ s₃.pc = .check :=
    ⟨_, if_pos hp₂, hc₂, hb₂, rfl⟩
  have hr₃ := Sys.reach_step hr₂ .write trivial h₃
  have ht₃ := ht₂.step h₃
  have hf₃ : s₃.Fresh := by unfold Sys.Fresh; rw [hc₃, hb₃, hc]; omega
  have ha₃ : armStep s₃.drv s₃.cntr = none := by
    rw [armStep_eq_none, ht₃.since_eq hf₃, hc₃, hb₃, hc, Nat.sub_self, period_eq]
    decide
  obtain ⟨s₄, h₄, hc₄, hb₄, hp₄⟩ : ∃ s₄, s₃.step (listQueue Nat) .check = some s₄ ∧
      s₄.count = s.count + period ∧ s₄.boundary = s.boundary + period ∧ s₄.pc = .process := by
    refine ⟨{ s₃ with pc := .process }, ?_, hc₃, hb₃, rfl⟩
    simp only [Sys.step, hp₃, ↓reduceIte, ha₃]
  have hr₄ := Sys.reach_step hr₃ .check hf₃ h₄
  obtain ⟨s₅, h₅, hc₅, hb₅, hp₅⟩ : ∃ s₅, s₄.step (listQueue Nat) .process = some s₅ ∧
      s₅.count = s.count + period ∧ s₅.boundary = s.boundary + period ∧ s₅.pc = .thread :=
    ⟨_, if_pos hp₄, hc₄, hb₄, rfl⟩
  exact ⟨s₅, Sys.reach_step hr₄ .process trivial h₅, hp₅, hc₅, by rw [hc₅, hb₅, hc]⟩

/-- After `n` interrupts, each served at its boundary, the counter is at `n` periods. -/
theorem ticks_reach (n : Nat) :
    ∃ s, (clock (listQueue Nat) Sys.Started).Reach InTime s ∧ s.pc = .thread ∧
      s.count = n * period ∧ s.count = s.boundary := by
  induction n with
  | zero => exact ⟨_, .init Sys.zero_started, rfl, by simp [Sys.zero], rfl⟩
  | succ n ih =>
    obtain ⟨s, hs, hp, hc, hb⟩ := ih
    obtain ⟨s', hs', hp', hc', hb'⟩ := tick_reach hs hp hb
    exact ⟨s', hs', hp', by rw [hc', hc, Nat.succ_mul], hb'⟩

/-- `now` after `2 ^ 64` ticks, each interrupt served at its boundary: the tick count does not fit
`u64`, and `now` is 0 again. -/
theorem now_wraps :
    ∃ s, (clock (listQueue Nat) Sys.Started).Reach InTime s ∧ s.pc = .thread ∧ s.Fresh ∧
      s.count = 2 ^ 64 * period ∧ s.now = some 0 ∧ s.count / period = 2 ^ 64 := by
  obtain ⟨s, hs, hp, hc, hb⟩ := ticks_reach (2 ^ 64)
  have ht : s.Tracks 0 0 := Sys.Tracks.reach (fun _ h => h.tracks) hs
  have hf : s.Fresh := by unfold Sys.Fresh; omega
  have htick : s.count / period = 2 ^ 64 :=
    (congrArg (· / period) hc).trans (Nat.mul_div_cancel _ (by decide))
  refine ⟨s, hs, hp, hf, hc, ?_, htick⟩
  have hd := ht.since_eq hf
  obtain ⟨k, hk, hbase, -, -⟩ := ht
  have hkn : k = 2 ^ 64 := by
    rw [← hb, hc, Nat.zero_add] at hk
    exact (Nat.eq_of_mul_eq_mul_right (by rw [period_eq]; decide) hk).symm
  unfold Sys.now
  rw [now_eq_some]
  unfold TmrDriver.position
  rw [hd, hbase, hb, hkn, period_eq, Nat.sub_self]
  decide

end Mc1322x.TimeDriver
