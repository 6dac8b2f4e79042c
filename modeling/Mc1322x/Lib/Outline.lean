import Mc1322x.Lib.Async

/-!
# Proof outlines for tasks

An outline annotates a task with an assertion before each access and one for each wait. The hardware
and the interrupt handler run between any two steps, so every assertion has to be stable under their
steps (`Stable`); that of a wait also survives the polls that are pending (`Waits`).

* `Outline.done`: a task that is done ends in the last assertion.
* `Outline.ends`: from every state that the task reaches, some run goes on to its end. No wait is
  stuck.
-/

namespace Mmio

namespace AsyncDevice

variable {B : Bus} {σ α β : Type} (A : AsyncDevice B σ)

/-- The hardware and the interrupt handler keep the assertion. -/
def Stable (P : σ → Prop) : Prop := ∀ e s s', P s → A.env e s = some s' → P s'

/-- Steps of the hardware and the interrupt handler, one after the other. -/
def envs : List A.Env → σ → Option σ
  | [], s => some s
  | e :: es, s => (A.env e s).bind (envs es)

/-- What holds during a wait (`J`), and after it with its answer (`P`). -/
structure Waits (w : B.Wait) (J : σ → Prop) (P : B.Res w → σ → Prop) : Prop where
  stable : A.Stable J
  pending : ∀ armed s s', J s → A.poll armed w s = (none, s') → J s'
  resolved : ∀ armed s s' r, J s → A.poll armed w s = (some r, s') → P r s'
  /-- The hardware brings the wait to its end. -/
  ends : ∀ armed s, J s → ∃ es s', A.envs es s = some s' ∧ (A.poll armed w s').1 ≠ none

/-- A proof outline of a program: what holds at each of its accesses, whatever the device does
between them, and `Q` where it ends. -/
inductive Outline (Q : α → σ → Prop) : (σ → Prop) → Prog B α → Prop
  | ret {P : σ → Prop} {a : α} (hs : A.Stable P) (h : ∀ s, P s → Q a s) : Outline Q P (.ret a)
  | read {P : σ → Prop} {r : B.In} {k : B.Val r → Prog B α} {P' : B.Val r → σ → Prop}
      (hs : A.Stable P) (h : ∀ s, P s → P' (A.read r s).1 (A.read r s).2)
      (hk : ∀ v, Outline Q (P' v) (k v)) : Outline Q P (.read r k)
  | write {P P' : σ → Prop} {o : B.Out} {k : Prog B α} (hs : A.Stable P)
      (h : ∀ s, P s → P' (A.write o s)) (hk : Outline Q P' k) : Outline Q P (.write o k)
  | wait {P J : σ → Prop} {w : B.Wait} {k : B.Res w → Prog B α} {P' : B.Res w → σ → Prop}
      (hs : A.Stable P) (h : ∀ s, P s → J (A.start w s)) (hw : A.Waits w J P')
      (hk : ∀ r, Outline Q (P' r) (k r)) : Outline Q P (.wait w k)

variable {A}

theorem Stable.const (φ : Prop) : A.Stable fun _ => φ := fun _ _ _ h _ => h

theorem Stable.and {P P' : σ → Prop} (h : A.Stable P) (h' : A.Stable P') :
    A.Stable fun s => P s ∧ P' s :=
  fun e s s' hs he => ⟨h e s s' hs.1 he, h' e s s' hs.2 he⟩

theorem Stable.envs {P : σ → Prop} (h : A.Stable P) {es : List A.Env} {s s' : σ} (hs : P s)
    (he : A.envs es s = some s') : P s' := by
  induction es generalizing s with
  | nil =>
    cases he
    exact hs
  | cons e es ih =>
    obtain ⟨s₁, he₁, hes⟩ := Option.bind_eq_some_iff.mp he
    exact ih (h e s s₁ hs he₁) hes

namespace Outline

variable {P P' : σ → Prop} {Q Q' : α → σ → Prop} {p : Prog B α}

/-! ## Rules -/

theorem stable (h : A.Outline Q P p) : A.Stable P := by
  cases h <;> assumption

/-- A stronger assertion before the program. -/
theorem pre (hs : A.Stable P') (hp : ∀ s, P' s → P s) (h : A.Outline Q P p) :
    A.Outline Q P' p := by
  cases h with
  | ret _ h => exact .ret hs fun s hP => h s (hp s hP)
  | read _ h hk => exact .read hs (fun s hP => h s (hp s hP)) hk
  | write _ h hk => exact .write hs (fun s hP => h s (hp s hP)) hk
  | wait _ h hw hk => exact .wait hs (fun s hP => h s (hp s hP)) hw hk

/-- A weaker assertion after the program. -/
theorem post (hq : ∀ a s, Q a s → Q' a s) (h : A.Outline Q P p) : A.Outline Q' P p := by
  induction h with
  | ret hs h => exact .ret hs fun s hP => hq _ s (h s hP)
  | read hs h _ ih => exact .read hs h ih
  | write hs h _ ih => exact .write hs h ih
  | wait hs h hw _ ih => exact .wait hs h hw ih

theorem bind {R : β → σ → Prop} {f : α → Prog B β} (h : A.Outline Q P p)
    (hf : ∀ a, A.Outline R (Q a) (f a)) : A.Outline R P (p >>= f) := by
  induction h with
  | ret hs h => exact (hf _).pre hs h
  | read hs h _ ih => exact .read hs h ih
  | write hs h _ ih => exact .write hs h ih
  | wait hs h hw _ ih => exact .wait hs h hw ih

/-- No state meets the assertion. -/
theorem absurd (Q : α → σ → Prop) (p : Prog B α) : A.Outline Q (fun _ => False) p := by
  have hf : A.Stable fun _ => False := .const False
  induction p with
  | ret a => exact .ret hf fun _ h => h.elim
  | read r k ih => exact .read hf (fun _ h => h) ih
  | write o k ih => exact .write hf (fun _ h => h) ih
  | wait w k ih =>
    refine .wait (J := fun _ => False) hf (fun _ h => h) ⟨hf, ?_, ?_, ?_⟩ ih
    · exact fun _ _ _ h _ => h
    · exact fun _ _ _ _ h _ => h
    · exact fun _ _ h => h.elim

/-- A condition on no state. -/
theorem of_pure {φ : Prop} (h : φ → A.Outline Q P p) :
    A.Outline Q (fun s => φ ∧ P s) p := by
  by_cases hφ : φ
  · exact (h hφ).pre ((Stable.const φ).and (h hφ).stable) fun _ hP => hP.2
  · exact (absurd Q p).pre (fun _ _ _ hP _ => (hφ hP.1).elim) fun _ hP => hφ hP.1

theorem ofRet {a : α} (hs : A.Stable P) (h : ∀ s, P s → Q a s) : A.Outline Q P (pure a) :=
  .ret hs h

theorem ofRead {r : B.In} {Q : B.Val r → σ → Prop} (hs : A.Stable P) (hq : ∀ v, A.Stable (Q v))
    (h : ∀ s, P s → Q (A.read r s).1 (A.read r s).2) : A.Outline Q P (.readReg r) :=
  .read hs h fun v => .ret (hq v) fun _ h => h

theorem ofWrite {o : B.Out} {Q : Unit → σ → Prop} (hs : A.Stable P) (hq : A.Stable (Q ()))
    (h : ∀ s, P s → Q () (A.write o s)) : A.Outline Q P (.writeReg o) :=
  .write hs h (.ret hq fun _ h => h)

theorem ofWait {w : B.Wait} {J : σ → Prop} {Q : B.Res w → σ → Prop} (hs : A.Stable P)
    (hq : ∀ r, A.Stable (Q r)) (h : ∀ s, P s → J (A.start w s)) (hw : A.Waits w J Q) :
    A.Outline Q P (.await w) :=
  .wait hs h hw fun r => .ret (hq r) fun _ h => h

/-! ## Runs -/

/-- The task is at an assertion that holds. -/
def At (A : AsyncDevice B σ) (Q : α → σ → Prop) : σ × Fiber B α → Prop
  | (s, .run p) => ∃ P, A.Outline Q P p ∧ P s
  | (s, .wait _ w k) => ∃ J P, A.Waits w J P ∧ J s ∧ ∀ r, A.Outline Q (P r) (k r)
  | (s, .done a) => ∃ P, A.Stable P ∧ P s ∧ ∀ s, P s → Q a s

theorem At.step {x x' : σ × Fiber B α} {a : A.Act} (hx : At A Q x)
    (hs : A.step x a = some x') : At A Q x' := by
  obtain ⟨s, task⟩ := x
  cases a with
  | env e =>
    simp only [AsyncDevice.step, Option.map_eq_some_iff] at hs
    obtain ⟨s', he, rfl⟩ := hs
    cases task with
    | run p =>
      obtain ⟨P, h, hP⟩ := hx
      exact ⟨P, h, h.stable e s s' hP he⟩
    | wait armed w k =>
      obtain ⟨J, P, hw, hJ, hk⟩ := hx
      exact ⟨J, P, hw, hw.stable e s s' hJ he, hk⟩
    | done a =>
      obtain ⟨P, hst, hP, hQ⟩ := hx
      exact ⟨P, hst, hst e s s' hP he, hQ⟩
  | step =>
    cases task with
    | run p =>
      obtain ⟨P, h, hP⟩ := hx
      cases h with
      | ret hst h =>
        cases hs
        exact ⟨P, hst, hP, h⟩
      | read _ h hk =>
        cases hs
        exact ⟨_, hk _, h s hP⟩
      | write _ h hk =>
        cases hs
        exact ⟨_, hk, h s hP⟩
      | wait _ h hw hk =>
        cases hs
        exact ⟨_, _, hw, h s hP, hk⟩
    | wait armed w k =>
      obtain ⟨J, P, hw, hJ, hk⟩ := hx
      cases hs
      cases hp : A.poll armed w s with
      | mk o s' =>
        cases o with
        | none => exact ⟨J, P, hw, hw.pending armed s s' hJ hp, hk⟩
        | some r => exact ⟨_, hk r, hw.resolved armed s s' r hJ hp⟩
    | done a => cases hs

variable {init : σ → Prop}

theorem At.reach (h : A.Outline Q P p) (h0 : ∀ s, init s → P s) {x : σ × Fiber B α}
    {C : σ × Fiber B α → A.Act → Prop} (hx : (A.runs p init).Reach C x) : At A Q x := by
  refine Lts.Reach.induct (I := At A Q) ?_ ?_ hx
  · rintro ⟨s, _⟩ ⟨hs, rfl⟩
    exact ⟨P, h, h0 s hs⟩
  · exact fun x a x' hx _ hst => At.step hx hst

/-- A task that is done ends in the last assertion. -/
theorem done (h : A.Outline Q P p) (h0 : ∀ s, init s → P s) {s : σ} {a : α}
    {C : σ × Fiber B α → A.Act → Prop} (hs : (A.runs p init).Reach C (s, .done a)) : Q a s := by
  obtain ⟨P, -, hP, hQ⟩ := At.reach h h0 hs
  exact hQ s hP

/-- The steps of the hardware are steps of the task's run. -/
theorem run_envs {es : List A.Env} {s s' : σ} (task : Fiber B α) (h : A.envs es s = some s') :
    ∃ tr, (A.runs p init).Run (s, task) tr (s', task) := by
  induction es generalizing s with
  | nil =>
    cases h
    exact ⟨[], .nil _⟩
  | cons e es ih =>
    obtain ⟨s₁, he, hes⟩ := Option.bind_eq_some_iff.mp h
    obtain ⟨tr, hr⟩ := ih hes
    have hst : A.step (s, task) (.env e) = some (s₁, task) := by
      simp only [AsyncDevice.step, he, Option.map_some]
    exact ⟨_, .cons hst hr⟩

theorem ends_wait {w : B.Wait} {J : σ → Prop} {P : B.Res w → σ → Prop} (hw : A.Waits w J P)
    {armed : Bool} {s : σ} (hJ : J s) {k : B.Res w → Prog B α}
    (hk : ∀ r s, P r s → ∃ tr s' a, (A.runs p init).Run (s, .run (k r)) tr (s', .done a)) :
    ∃ tr s' a, (A.runs p init).Run (s, .wait armed w k) tr (s', .done a) := by
  obtain ⟨es, s₁, hes, hne⟩ := hw.ends armed s hJ
  have hJ₁ := hw.stable.envs hJ hes
  obtain ⟨tr₁, hr₁⟩ : ∃ tr, (A.runs p init).Run (s, .wait armed w k) tr (s₁, .wait armed w k) :=
    run_envs _ hes
  cases hp : A.poll armed w s₁ with
  | mk o s₂ =>
    cases o with
    | none => exact (hne (by rw [hp])).elim
    | some r =>
      have hst : A.step (s₁, .wait armed w k) .step = some (s₂, .run (k r)) := by
        simp only [AsyncDevice.step, hp]
      obtain ⟨tr₂, s', a, hr₂⟩ := hk r s₂ (hw.resolved armed s₁ s₂ r hJ₁ hp)
      exact ⟨_, s', a, hr₁.trans (.cons hst hr₂)⟩

theorem ends_run {q : Prog B α} (h : A.Outline Q P q) {s : σ} (hP : P s) :
    ∃ tr s' a, (A.runs p init).Run (s, .run q) tr (s', .done a) := by
  induction h generalizing s with
  | @ret P a =>
    have hst : A.step (s, .run (.ret a)) .step = some (s, .done a) := rfl
    exact ⟨_, _, _, .single hst⟩
  | @read P r k P' _ h _ ih =>
    obtain ⟨tr, s', a, hr⟩ := ih _ (h s hP)
    have hst : A.step (s, .run (.read r k)) .step =
      some ((A.read r s).2, .run (k (A.read r s).1)) := rfl
    exact ⟨_, s', a, .cons hst hr⟩
  | @write P P' o k _ h _ ih =>
    obtain ⟨tr, s', a, hr⟩ := ih (h s hP)
    have hst : A.step (s, .run (.write o k)) .step = some (A.write o s, .run k) := rfl
    exact ⟨_, s', a, .cons hst hr⟩
  | @wait P J w k P' _ h hw _ ih =>
    have hst : A.step (s, .run (.wait w k)) .step = some (A.start w s, .wait false w k) := rfl
    obtain ⟨tr, s', a, hr⟩ := ends_wait hw (h s hP) fun r s hP => ih r hP
    exact ⟨_, s', a, .cons hst hr⟩

/-- From every state that the task reaches, some run goes on to its end. -/
theorem ends (h : A.Outline Q P p) (h0 : ∀ s, init s → P s) {x : σ × Fiber B α}
    {C : σ × Fiber B α → A.Act → Prop} (hx : (A.runs p init).Reach C x) :
    ∃ tr s' a, (A.runs p init).Run x tr (s', .done a) := by
  obtain ⟨s, task⟩ := x
  have hat := At.reach h h0 hx
  cases task with
  | run q =>
    obtain ⟨P, h, hP⟩ := hat
    exact ends_run h hP
  | wait armed w k =>
    obtain ⟨J, P, hw, hJ, hk⟩ := hat
    exact ends_wait hw hJ fun r s hP => ends_run (hk r) hP
  | done a => exact ⟨[], s, a, .nil _⟩

end Outline

end AsyncDevice

end Mmio
