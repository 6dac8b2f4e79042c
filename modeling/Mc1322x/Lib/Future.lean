/-!
# Futures over a shared state

A future that is polled (`Future`): a poll runs to its end, changes the shared state, and either
resolves the future or leaves it in a phase. Between two polls the shared state changes in any way
(`Event.other`).

* `Future.andThen`: a task that awaits one future and then another, which it polls first in the same
  poll that resolves the one before.
* `Future.Equivalent`: two futures that are polled at the same moments can't be told apart, neither
  by what they do to the shared state nor by when and with what they resolve, nor by a panic.
  `Equivalent.of_bisim` is its rule: a relation of the phases that each pair of polls keeps.
-/

/-- A future over the shared state `σ`, with wakers `ω`. -/
structure Future (σ ω α : Type) where
  Phase : Type
  start : Phase
  /-- The result, or the next phase, and the shared state; `none` is a panic. -/
  poll : σ → ω → Phase → Option ((α ⊕ Phase) × σ)

namespace Future

variable {σ ω α β : Type}

/-- What happens between the call of a future and its end. -/
inductive Event (σ ω : Type) where
  | poll (w : ω)
  /-- Everything else that changes the shared state between two polls. -/
  | other (f : σ → σ)

/-- What is seen of an event: the shared state after it, and the result, if it resolves the future;
or a panic. -/
inductive Seen (σ α : Type) where
  | step (s : σ) (result : Option α)
  | panic

/-- What is seen of a future in a phase; `none`: it has resolved, and is not polled again. -/
def observe (F : Future σ ω α) : σ → Option F.Phase → List (Event σ ω) → List (Seen σ α)
  | _, _, [] => []
  | s, p, .other f :: es => .step (f s) none :: F.observe (f s) p es
  | s, none, .poll _ :: es => F.observe s none es
  | s, some p, .poll w :: es => match F.poll s w p with
    | none => [.panic]
    | some (.inl a, s') => .step s' (some a) :: F.observe s' none es
    | some (.inr p', s') => .step s' none :: F.observe s' (some p') es

/-- The same is seen of two futures, in every run. -/
def Equivalent (F G : Future σ ω α) : Prop :=
  ∀ (s : σ) (es : List (Event σ ω)), F.observe s (some F.start) es = G.observe s (some G.start) es

/-- `F.await; G.await`. -/
def andThen (F : Future σ ω α) (G : Future σ ω β) : Future σ ω β where
  Phase := F.Phase ⊕ G.Phase
  start := .inl F.start
  poll s w
    | .inl p => match F.poll s w p with
      | none => none
      | some (.inr p', s') => some (.inr (.inl p'), s')
      | some (.inl _, s') => (G.poll s' w G.start).map fun x => (x.1.map id .inr, x.2)
    | .inr q => (G.poll s w q).map fun x => (x.1.map id .inr, x.2)

/-- Two polls: both panic, or the shared state is the same after them, and both resolve with one
result or leave related phases. -/
def Polls {P Q : Type} (R : P → Q → Prop) :
    Option ((α ⊕ P) × σ) → Option ((α ⊕ Q) × σ) → Prop
  | none, none => True
  | some (x, s), some (y, t) => s = t ∧ Sum.LiftRel Eq R x y
  | _, _ => False

theorem observe_resolved (F G : Future σ ω α) (s : σ) (es : List (Event σ ω)) :
    F.observe s none es = G.observe s none es := by
  induction es generalizing s with
  | nil => rfl
  | cons e es ih =>
    cases e with
    | poll w => exact ih s
    | other f =>
      simp only [observe]
      rw [ih (f s)]

theorem Equivalent.of_bisim {F G : Future σ ω α} (R : F.Phase → G.Phase → Prop)
    (h0 : R F.start G.start)
    (hp : ∀ s w p q, R p q → Polls R (F.poll s w p) (G.poll s w q)) : Equivalent F G := by
  -- By induction on the events, for related phases of two pending futures.
  have key : ∀ (es : List (Event σ ω)) (s : σ) (p : F.Phase) (q : G.Phase), R p q →
      F.observe s (some p) es = G.observe s (some q) es := by
    intro es
    induction es with
    | nil => exact fun _ _ _ _ => rfl
    | cons e es ih =>
      intro s p q h
      cases e with
      | other f =>
        simp only [observe]
        rw [ih (f s) p q h]
      | poll w =>
        have hpoll := hp s w p q h
        simp only [observe]
        cases hF : F.poll s w p with
        | none =>
          cases hG : G.poll s w q with
          | none => rfl
          | some y =>
            rw [hF, hG] at hpoll
            exact hpoll.elim
        | some x =>
          cases hG : G.poll s w q with
          | none =>
            rw [hF, hG] at hpoll
            exact hpoll.elim
          | some y =>
            rw [hF, hG] at hpoll
            obtain ⟨x, s'⟩ := x
            obtain ⟨y, t'⟩ := y
            obtain ⟨rfl, hxy⟩ := hpoll
            cases hxy with
            | inl e =>
              subst e
              dsimp only
              -- Both have resolved: a resolved future is not polled.
              rw [observe_resolved F G]
            | inr hr =>
              dsimp only
              rw [ih s' _ _ hr]
  exact fun s es => key es s _ _ h0

end Future
