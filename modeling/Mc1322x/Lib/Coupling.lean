import Mc1322x.Lib.Async

/-!
# Coupled programs

Two programs that make the same accesses, with values that need not be the same: `V` relates the
values that they read, `W` the values that they write, and `R` their results (`Couples`). Two
devices are coupled (`Coupled`) if such accesses keep their states related.

`Coupled.run`: beside a run of one program as a task there is, step by step, a run of the other one.
-/

namespace Mmio

variable {B : Bus} {α β γ δ : Type}

/-- The values read in the same place of two programs, and the values written. -/
structure Coupling (B : Bus) where
  V : (r : B.In) → B.Val r → B.Val r → Prop
  W : B.Out → B.Out → Prop
  symm_V : ∀ {r : B.In} {v v' : B.Val r}, V r v v' → V r v' v
  symm_W : ∀ {o o' : B.Out}, W o o' → W o' o

/-- Two programs that make the same accesses, with results in `R`. -/
inductive Couples (C : Coupling B) (R : α → β → Prop) : Prog B α → Prog B β → Prop
  | ret {a : α} {b : β} (h : R a b) : Couples C R (.ret a) (.ret b)
  | read {r : B.In} {k : B.Val r → Prog B α} {l : B.Val r → Prog B β}
      (h : ∀ v v', C.V r v v' → Couples C R (k v) (l v')) : Couples C R (.read r k) (.read r l)
  | write {o o' : B.Out} {p : Prog B α} {q : Prog B β} (ho : C.W o o') (h : Couples C R p q) :
      Couples C R (.write o p) (.write o' q)
  | wait {w : B.Wait} {k : B.Res w → Prog B α} {l : B.Res w → Prog B β}
      (h : ∀ x, Couples C R (k x) (l x)) : Couples C R (.wait w k) (.wait w l)

namespace Couples

variable {C : Coupling B} {R : α → β → Prop} {S : γ → δ → Prop} {p : Prog B α} {q : Prog B β}

theorem ofRet {a : α} {b : β} (h : R a b) : Couples C R (pure a) (pure b) := .ret h

theorem bind {f : α → Prog B γ} {g : β → Prog B δ} (h : Couples C R p q)
    (hf : ∀ a b, R a b → Couples C S (f a) (g b)) : Couples C S (p >>= f) (q >>= g) := by
  induction h with
  | ret h => exact hf _ _ h
  | read _ ih => exact .read ih
  | write ho _ ih => exact .write ho ih
  | wait _ ih => exact .wait ih

/-- The rule for results that are the same. -/
theorem bind_eq {p q : Prog B α} {f : α → Prog B γ} {g : α → Prog B δ} (h : Couples C Eq p q)
    (hf : ∀ a, Couples C S (f a) (g a)) : Couples C S (p >>= f) (q >>= g) := by
  refine h.bind ?_
  rintro a _ rfl
  exact hf a

theorem symm (h : Couples C R p q) : Couples C (fun b a => R a b) q p := by
  induction h with
  | ret h => exact .ret h
  | read _ ih => exact .read fun v v' hv => ih v' v (C.symm_V hv)
  | write ho _ ih => exact .write (C.symm_W ho) ih
  | wait _ ih => exact .wait ih

theorem ofRead (r : B.In) : Couples C (C.V r) (.readReg r) (.readReg r) :=
  .read fun _ _ h => .ret h

theorem ofWrite {o o' : B.Out} (h : C.W o o') : Couples C Eq (.writeReg o) (.writeReg o') :=
  .write h (.ret rfl)

theorem ofWait (w : B.Wait) : Couples C Eq (.await w) (.await w) := .wait fun _ => .ret rfl

end Couples

namespace AsyncDevice

variable {σ τ : Type}

/-- Two devices whose states stay related. -/
structure Coupled (A : AsyncDevice B σ) (A' : AsyncDevice B τ) (C : Coupling B)
    (Rel : σ → τ → Prop) : Prop where
  read : ∀ r s t, Rel s t →
    C.V r (A.read r s).1 (A'.read r t).1 ∧ Rel (A.read r s).2 (A'.read r t).2
  write : ∀ o o' s t, C.W o o' → Rel s t → Rel (A.write o s) (A'.write o' t)
  start : ∀ w s t, Rel s t → Rel (A.start w s) (A'.start w t)
  poll : ∀ armed w s t, Rel s t →
    (A.poll armed w s).1 = (A'.poll armed w t).1 ∧ Rel (A.poll armed w s).2 (A'.poll armed w t).2
  env : ∀ e s s' t, Rel s t → A.env e s = some s' → ∃ e' t', A'.env e' t = some t' ∧ Rel s' t'

/-- Two tasks at the same access. -/
inductive Beside (C : Coupling B) (R : α → β → Prop) : Fiber B α → Fiber B β → Prop
  | run {p : Prog B α} {q : Prog B β} (h : Couples C R p q) : Beside C R (.run p) (.run q)
  | wait {armed : Bool} {w : B.Wait} {k : B.Res w → Prog B α} {l : B.Res w → Prog B β}
      (h : ∀ x, Couples C R (k x) (l x)) : Beside C R (.wait armed w k) (.wait armed w l)
  | done {a : α} {b : β} (h : R a b) : Beside C R (.done a) (.done b)

variable {A : AsyncDevice B σ} {A' : AsyncDevice B τ} {C : Coupling B} {Rel : σ → τ → Prop}
  {R : α → β → Prop}

theorem Beside.symm {f : Fiber B α} {g : Fiber B β} (h : Beside C R f g) :
    Beside C (fun b a => R a b) g f := by
  cases h with
  | run h => exact .run h.symm
  | wait h => exact .wait fun x => (h x).symm
  | done h => exact .done h

theorem Coupled.step (h : A.Coupled A' C Rel) {s s' : σ} {t : τ} {f f' : Fiber B α}
    {g : Fiber B β} {a : A.Act} (hr : Rel s t) (hf : Beside C R f g)
    (hst : A.step (s, f) a = some (s', f')) :
    ∃ a' t' g', A'.step (t, g) a' = some (t', g') ∧ Rel s' t' ∧ Beside C R f' g' := by
  cases a with
  | env e =>
    rw [step_env] at hst
    obtain ⟨s₁, he, hs⟩ := Option.map_eq_some_iff.mp hst
    cases hs
    obtain ⟨e', t', he', hr'⟩ := h.env e s s' t hr he
    refine ⟨.env e', t', g, ?_, hr', hf⟩
    rw [step_env, he']
    rfl
  | step =>
    cases hf with
    | run hp =>
      cases hp with
      | ret hR =>
        cases hst
        exact ⟨.step, _, _, rfl, hr, .done hR⟩
      | @read r k l hk =>
        cases hst
        obtain ⟨hv, hr'⟩ := h.read r s t hr
        exact ⟨.step, _, _, rfl, hr', .run (hk _ _ hv)⟩
      | write ho hp =>
        cases hst
        exact ⟨.step, _, _, rfl, h.write _ _ s t ho hr, .run hp⟩
      | wait hk =>
        cases hst
        exact ⟨.step, _, _, rfl, h.start _ s t hr, .wait hk⟩
    | @wait armed w k l hk =>
      cases hst
      obtain ⟨ha, hr'⟩ := h.poll armed w s t hr
      refine ⟨.step, _, _, rfl, hr', ?_⟩
      rw [ha]
      cases (A'.poll armed w t).1 with
      | none => exact .wait hk
      | some x => exact .run (hk x)
    | done hR => cases hst

variable {p : Prog B α} {q : Prog B β} {init : σ → Prop} {init' : τ → Prop}

/-- For every state that a task reaches, the other task reaches one beside it. -/
theorem Coupled.reach (h : A.Coupled A' C Rel) (hp : Couples C R p q)
    (hinit : ∀ s, init s → ∃ t, init' t ∧ Rel s t) {x : σ × Fiber B α}
    (hx : (A.runs p init).Reach (Lts.Any _) x) :
    ∃ y, (A'.runs q init').Reach (Lts.Any _) y ∧ Rel x.1 y.1 ∧ Beside C R x.2 y.2 := by
  refine Lts.Reach.induct (I := fun x : σ × Fiber B α => ∃ y,
    (A'.runs q init').Reach (Lts.Any _) y ∧ Rel x.1 y.1 ∧ Beside C R x.2 y.2) ?_ ?_ hx
  · rintro ⟨s, _⟩ ⟨hs, rfl⟩
    obtain ⟨t, ht, hr⟩ := hinit s hs
    exact ⟨(t, .run q), .init ⟨ht, rfl⟩, hr, .run hp⟩
  · rintro ⟨s, f⟩ a ⟨s', f'⟩ ⟨⟨t, g⟩, hy, hr, hf⟩ - hst
    obtain ⟨a', t', g', hst', hr', hf'⟩ := h.step hr hf hst
    exact ⟨(t', g'), .step hy trivial hst', hr', hf'⟩

/-- A run goes on beside one that goes on. -/
theorem Coupled.run (h : A.Coupled A' C Rel) {x x' : σ × Fiber B α} {y : τ × Fiber B β}
    {tr : List ((σ × Fiber B α) × A.Act)} (hr : Rel x.1 y.1) (hf : Beside C R x.2 y.2)
    (hx : (A.runs p init).Run x tr x') :
    ∃ tr' y', (A'.runs q init').Run y tr' y' ∧ Rel x'.1 y'.1 ∧ Beside C R x'.2 y'.2 := by
  refine Lts.Run.induct (I := fun _ x' => ∃ tr' y', (A'.runs q init').Run y tr' y' ∧
    Rel x'.1 y'.1 ∧ Beside C R x'.2 y'.2) ⟨[], y, .nil (S := A'.runs q init') y, hr, hf⟩ ?_ hx
  rintro _ _ a ⟨s', f'⟩ - ⟨tr', ⟨t, g⟩, hy, hr', hf'⟩ hst
  obtain ⟨a', t', g', hst', hr'', hf''⟩ := h.step hr' hf' hst
  exact ⟨_, (t', g'), .snoc hy hst', hr'', hf''⟩

/-- A task that is done stands beside one that is done. -/
theorem Beside.of_done {a : α} {g : Fiber B β} (h : Beside C R (.done a) g) :
    ∃ b, g = .done b ∧ R a b := by
  cases h with
  | done h => exact ⟨_, rfl, h⟩

end AsyncDevice

end Mmio
