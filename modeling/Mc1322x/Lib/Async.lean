import Mc1322x.Lib.Lts
import Mc1322x.Lib.Prog

/-!
# Programs that wait without blocking

A program as a task (`Fiber`): its register accesses are single steps, and at a wait it starts the
hardware, checks once and arms, and is then polled again at any time until a poll resolves. The
hardware and the interrupt handler take steps of their own at any time (`AsyncDevice.env`).

`Refines.done`: an asynchronous device refines a device with blocking waits if its state stays
related to that device's state, also while a wait is in flight (`Mid`). Where every poll that
resolves a wait does so in a state that is `Ok`, a task that is done has the result of the blocking
run.
-/

namespace Mmio

/-- The accesses of a device as steps, with waits that are polled. -/
structure AsyncDevice (B : Bus) (σ : Type) where
  read : (r : B.In) → σ → B.Val r × σ
  write : B.Out → σ → σ
  /-- What a wait does before its first poll. -/
  start : B.Wait → σ → σ
  /-- A poll of a wait, the first one (`false`) or a later one (`true`): `none` is pending. -/
  poll : Bool → (w : B.Wait) → σ → Option (B.Res w) × σ
  /-- The steps of the hardware and of the interrupt handler. -/
  Env : Type
  env : Env → σ → Option σ

/-- A task: running, in a wait that has been polled (`armed`) or not, or done. -/
inductive Fiber (B : Bus) (α : Type) where
  | run (p : Prog B α)
  | wait (armed : Bool) (w : B.Wait) (k : B.Res w → Prog B α)
  | done (a : α)

namespace AsyncDevice

variable {B : Bus} {σ τ α : Type} (A : AsyncDevice B σ)

/-- What happens: the task goes on, or the device does. -/
inductive Act where
  /-- The next access of the task, or a poll of its wait. -/
  | step
  | env (e : A.Env)

/-- One step; `none`: the step is not possible. -/
def step : σ × Fiber B α → A.Act → Option (σ × Fiber B α)
  | (s, .run (.ret a)), .step => some (s, .done a)
  | (s, .run (.read r k)), .step => some ((A.read r s).2, .run (k (A.read r s).1))
  | (s, .run (.write o k)), .step => some (A.write o s, .run k)
  | (s, .run (.wait w k)), .step => some (A.start w s, .wait false w k)
  | (s, .wait armed w k), .step =>
    some ((A.poll armed w s).2, match (A.poll armed w s).1 with
      | some r => .run (k r)
      | none => .wait true w k)
  | (_, .done _), .step => none
  | (s, t), .env e => (A.env e s).map (·, t)

theorem step_env (s : σ) (t : Fiber B α) (e : A.Env) :
    A.step (s, t) (.env e) = (A.env e s).map (·, t) := by
  cases t with
  | run p => cases p <;> rfl
  | wait armed w k => rfl
  | done a => rfl

/-- The runs of a program as a task, from the states `init`. -/
def runs (p : Prog B α) (init : σ → Prop) : Lts :=
  .ofStep (fun x => init x.1 ∧ x.2 = .run p) (A.step (α := α))

/-- A poll resolves a wait only in a state that is `Ok`. -/
def Resolves (Ok : B.Wait → σ → Prop) (x : σ × Fiber B α) : A.Act → Prop
  | .step => match x.2 with
    | .wait armed w _ => (A.poll armed w x.1).1 ≠ none → Ok w x.1
    | _ => True
  | .env _ => True

/-- An asynchronous device refines a device with blocking waits. -/
structure Refines (D : Device B τ) (Rel : σ → τ → Prop) (Mid : B.Wait → σ → τ → Prop)
    (Ok : B.Wait → σ → Prop) : Prop where
  read : ∀ r s t, Rel s t → (A.read r s).1 = (D.read r t).1 ∧ Rel (A.read r s).2 (D.read r t).2
  write : ∀ o s t, Rel s t → Rel (A.write o s) (D.write o t)
  start : ∀ w s t, Rel s t → Mid w (A.start w s) t
  pending : ∀ armed w s s' t, Mid w s t → A.poll armed w s = (none, s') → Mid w s' t
  resolved : ∀ armed w s s' t r, Mid w s t → Ok w s → A.poll armed w s = (some r, s') →
    r = (D.wait w t).1 ∧ Rel s' (D.wait w t).2
  env : ∀ e s s' t, Rel s t → A.env e s = some s' → Rel s' t
  env_mid : ∀ e w s s' t, Mid w s t → A.env e s = some s' → Mid w s' t

namespace Refines

variable {A} {D : Device B τ} {Rel : σ → τ → Prop} {Mid : B.Wait → σ → τ → Prop}
  {Ok : B.Wait → σ → Prop} {p : Prog B α} {t₀ : τ}

/-- The rest of the task, run with blocking waits, ends as the whole program. -/
def Agrees (D : Device B τ) (Rel : σ → τ → Prop) (Mid : B.Wait → σ → τ → Prop) (p : Prog B α)
    (t₀ : τ) (x : σ × Fiber B α) : Prop :=
  match x.2 with
  | .run q => ∃ t, Rel x.1 t ∧ D.eval q t = D.eval p t₀
  | .wait _ w k => ∃ t, Mid w x.1 t ∧ D.eval (.wait w k) t = D.eval p t₀
  | .done a => ∃ t, Rel x.1 t ∧ (a, t) = D.eval p t₀

theorem Agrees.step (h : A.Refines D Rel Mid Ok) {x x' : σ × Fiber B α} {a : A.Act}
    (hx : Agrees D Rel Mid p t₀ x) (hc : A.Resolves Ok x a) (hs : A.step x a = some x') :
    Agrees D Rel Mid p t₀ x' := by
  obtain ⟨s, task⟩ := x
  cases a with
  | env e =>
    simp only [AsyncDevice.step, Option.map_eq_some_iff] at hs
    obtain ⟨s', he, rfl⟩ := hs
    cases task with
    | run q =>
      obtain ⟨t, hr, ht⟩ := hx
      exact ⟨t, h.env e s s' t hr he, ht⟩
    | wait armed w k =>
      obtain ⟨t, hr, ht⟩ := hx
      exact ⟨t, h.env_mid e w s s' t hr he, ht⟩
    | done a =>
      obtain ⟨t, hr, ht⟩ := hx
      exact ⟨t, h.env e s s' t hr he, ht⟩
  | step =>
    cases task with
    | run q =>
      obtain ⟨t, hr, ht⟩ := hx
      cases q with
      | ret a =>
        cases hs
        exact ⟨t, hr, ht⟩
      | read r k =>
        cases hs
        obtain ⟨hv, hr'⟩ := h.read r s t hr
        refine ⟨_, hr', ?_⟩
        rw [hv]
        exact ht
      | write o k =>
        cases hs
        exact ⟨_, h.write o s t hr, ht⟩
      | wait w k =>
        cases hs
        exact ⟨t, h.start w s t hr, ht⟩
    | wait armed w k =>
      obtain ⟨t, hm, ht⟩ := hx
      cases hs
      cases hp : A.poll armed w s with
      | mk o s' =>
        cases o with
        | none => exact ⟨t, h.pending armed w s s' t hm hp, ht⟩
        | some r =>
          -- The poll that resolves is one of those at which the wait may do so.
          have hok : Ok w s := hc (by rw [hp]; exact Option.some_ne_none r)
          obtain ⟨hv, hr⟩ := h.resolved armed w s s' t r hm hok hp
          refine ⟨_, hr, ?_⟩
          rw [hv]
          exact ht
    | done a => cases hs

/-- A task that is done has the result of the blocking run. -/
theorem done (h : A.Refines D Rel Mid Ok) {init : σ → Prop} (h0 : ∀ s, init s → Rel s t₀) {s : σ}
    {a : α} (hs : (A.runs p init).Reach (A.Resolves Ok) (s, Fiber.done a)) :
    a = (D.eval p t₀).1 ∧ Rel s (D.eval p t₀).2 := by
  have hx : Agrees D Rel Mid p t₀ (s, Fiber.done a) := by
    refine Lts.Reach.induct (I := Agrees D Rel Mid p t₀) ?_ ?_ hs
    · rintro ⟨s, _⟩ ⟨hr, rfl⟩
      exact ⟨t₀, h0 s hr, rfl⟩
    · intro x a x' hx hc hst
      exact Agrees.step h hx hc hst
  obtain ⟨t, hr, ht⟩ := hx
  rw [← ht]
  exact ⟨rfl, hr⟩

end Refines

end AsyncDevice

end Mmio
