import Mathlib.Logic.Relation
import Mc1322x.Lib.Proc

/-!
# Two programs over one state

Two programs (`Net`) that take steps in any order. Where the operations of one commute with those of
the other (`Commutes`), as those on the two ends of a queue do, the order has no influence on where
the two end up:

* `Diamond.finish`: if one path of a relation with the diamond property ends in `t`, every other
  path is part of a path to `t` of the same length.
* `Net.diamond`: the steps of two programs with commuting operations have it.
* `Joint`: the right program runs to the end while the left one takes steps; its rules are those of
  `Runs`.
-/

universe u

/-! ## Paths -/

section Steps

variable {X : Type u} {r : X → X → Prop} {a b c t : X} {m n : Nat}

/-- A path of `n` steps. -/
inductive Steps (r : X → X → Prop) : Nat → X → X → Prop
  | refl (a : X) : Steps r 0 a a
  | head {n : Nat} {a b c : X} : r a b → Steps r n b c → Steps r (n + 1) a c

/-- No step is possible. -/
def Stuck (r : X → X → Prop) (a : X) : Prop := ∀ b, ¬ r a b

/-- Two steps from one point lead to one point, or can be joined by a step each. -/
def Diamond (r : X → X → Prop) : Prop :=
  ∀ ⦃a b c⦄, r a b → r a c → b = c ∨ ∃ d, r b d ∧ r c d

namespace Steps

theorem of_reach (h : Relation.ReflTransGen r a b) : ∃ n, Steps r n a b := by
  induction h using Relation.ReflTransGen.head_induction_on with
  | refl => exact ⟨0, .refl _⟩
  | head hst _ ih =>
    obtain ⟨n, hn⟩ := ih
    exact ⟨n + 1, .head hst hn⟩

theorem reach (h : Steps r n a b) : Relation.ReflTransGen r a b := by
  induction h with
  | refl => exact .refl
  | head hst _ ih => exact .head hst ih

end Steps

/-- A step from the start of a path to a stuck point is the first one of a path there of the same
length. -/
theorem Diamond.descend (hd : Diamond r) (ht : Stuck r t) (h : Steps r n a t) (hst : r a b) :
    ∃ m, n = m + 1 ∧ Steps r m b t := by
  induction h generalizing b with
  | refl a => exact absurd hst (ht b)
  | @head n a c t hc hp ih =>
    rcases hd hc hst with rfl | ⟨d, hcd, hbd⟩
    · exact ⟨n, rfl, hp⟩
    · obtain ⟨m, rfl, hm⟩ := ih ht hcd
      exact ⟨m + 1, rfl, .head hbd hm⟩

theorem Diamond.finish (hd : Diamond r) (ht : Stuck r t) (h : Steps r n a t) (hp : Steps r m a b) :
    ∃ k, n = m + k ∧ Steps r k b t := by
  induction hp generalizing n with
  | refl a => exact ⟨n, (Nat.zero_add n).symm, h⟩
  | head hst _ ih =>
    obtain ⟨n', rfl, hn'⟩ := hd.descend ht h hst
    obtain ⟨k, rfl, hk⟩ := ih hn'
    exact ⟨k, by omega, hk⟩

end Steps

/-! ## Nets -/

/-- Two programs and their common state. -/
structure Net (S T : Sig) (σ α β : Type) where
  left : Proc S α
  right : Proc T β
  state : σ

section Net

open Proc

variable {S T : Sig} {σ α β γ δ ε : Type} {h₁ : Handler S σ} {h₂ : Handler T σ}

namespace Net

/-- A step of either program. -/
inductive Step (h₁ : Handler S σ) (h₂ : Handler T σ) : Net S T σ α β → Net S T σ α β → Prop
  | left {p p' : Proc S α} {q : Proc T β} {s s' : σ} :
      p.step h₁ s = some (p', s') → Step h₁ h₂ ⟨p, q, s⟩ ⟨p', q, s'⟩
  | right {p : Proc S α} {q q' : Proc T β} {s s' : σ} :
      q.step h₂ s = some (q', s') → Step h₁ h₂ ⟨p, q, s⟩ ⟨p, q', s'⟩

/-- Steps of the two programs, in some order. -/
abbrev Reaches (h₁ : Handler S σ) (h₂ : Handler T σ) : Net S T σ α β → Net S T σ α β → Prop :=
  Relation.ReflTransGen (Step h₁ h₂)

end Net

/-- Operations of the two sides that both need not wait can be done in either order, with the same
answers. -/
def Commutes (h₁ : Handler S σ) (h₂ : Handler T σ) : Prop :=
  ∀ ⦃o₁ o₂ s x s₁ y s₂⦄, h₁ o₁ s = some (x, s₁) → h₂ o₂ s = some (y, s₂) →
    ∃ u, h₂ o₂ s₁ = some (y, u) ∧ h₁ o₁ s₂ = some (x, u)

/-- Steps of the two sides can be taken in either order. -/
theorem Commutes.step (hc : Commutes h₁ h₂) {p p' : Proc S α} {q q' : Proc T β} {s s₁ s₂ : σ}
    (hp : p.step h₁ s = some (p', s₁)) (hq : q.step h₂ s = some (q', s₂)) :
    ∃ u, q.step h₂ s₁ = some (q', u) ∧ p.step h₁ s₂ = some (p', u) := by
  -- Only an operation touches the state, so two operations are all that can meet.
  cases p with
  | ret a => cases hp
  | loop b body k =>
    cases hp
    exact ⟨s₂, hq, rfl⟩
  | op o k =>
    cases q with
    | ret a => cases hq
    | loop b body k =>
      cases hq
      exact ⟨s₁, rfl, hp⟩
    | op o' k' =>
      simp only [Proc.step, Option.map_eq_some_iff] at hp hq
      obtain ⟨⟨x, u₁⟩, hx, hp⟩ := hp
      obtain ⟨⟨y, u₂⟩, hy, hq⟩ := hq
      cases hp
      cases hq
      obtain ⟨u, hu₁, hu₂⟩ := hc hx hy
      exact ⟨u, by simp [Proc.step, hu₁], by simp [Proc.step, hu₂]⟩

/-- Two programs with commuting operations come to one configuration, whatever the order of their
steps. -/
theorem Net.diamond (hc : Commutes h₁ h₂) :
    Diamond (Net.Step (α := α) (β := β) h₁ h₂) := by
  intro a b c hb hc'
  -- Two steps of one side are the same step.
  cases hb with
  | left hp =>
    cases hc' with
    | left hp' =>
      cases hp.symm.trans hp'
      exact .inl rfl
    | right hq =>
      obtain ⟨u, hu₁, hu₂⟩ := hc.step hp hq
      exact .inr ⟨_, .right hu₁, .left hu₂⟩
  | right hq =>
    cases hc' with
    | left hp =>
      obtain ⟨u, hu₁, hu₂⟩ := hc.step hp hq
      exact .inr ⟨_, .left hu₂, .right hu₁⟩
    | right hq' =>
      cases hq.symm.trans hq'
      exact .inl rfl

/-! ## Runs of one side -/

namespace Net

variable {p : Proc S α} {q : Proc T β} {s t : σ} {a : α} {b : β}

theorem step_left {p' : Proc S α} (h : p.step h₁ s = some (p', t)) :
    Step h₁ h₂ ⟨p, q, s⟩ ⟨p', q, t⟩ :=
  .left h

theorem step_right {q' : Proc T β} (h : q.step h₂ s = some (q', t)) :
    Step h₁ h₂ ⟨p, q, s⟩ ⟨p, q', t⟩ :=
  .right h

theorem reaches_left (hr : Runs h₁ p s a t) {f : α → Proc S γ} :
    Reaches h₁ h₂ ⟨p >>= f, q, s⟩ ⟨f a, q, t⟩ := by
  induction hr with
  | ret => exact .refl
  | @op o k s t u x a e _ ih =>
    refine .head (step_left (t := t) ?_) ih
    change (h₁ o s).map _ = _
    rw [e]
    rfl
  | @loop β γ b body k s t a _ ih =>
    refine .head (step_left rfl) ?_
    rw [unroll_bind] at ih
    exact ih

theorem reaches_right (hr : Runs h₂ q s b t) {f : β → Proc T γ} :
    Reaches h₁ h₂ ⟨p, q >>= f, s⟩ ⟨p, f b, t⟩ := by
  induction hr with
  | ret => exact .refl
  | @op o k s t u x a e _ ih =>
    refine .head (step_right (t := t) ?_) ih
    change (h₂ o s).map _ = _
    rw [e]
    rfl
  | @loop β γ b body k s t a _ ih =>
    refine .head (step_right rfl) ?_
    rw [unroll_bind] at ih
    exact ih

theorem end_left (hr : Runs h₁ p s a t) : Reaches h₁ h₂ ⟨p, q, s⟩ ⟨.ret a, q, t⟩ := by
  have h : Reaches h₁ h₂ ⟨p >>= pure, q, s⟩ ⟨pure a, q, t⟩ := reaches_left hr
  rwa [bind_pure] at h

theorem end_right (hr : Runs h₂ q s b t) : Reaches h₁ h₂ ⟨p, q, s⟩ ⟨p, .ret b, t⟩ := by
  have h : Reaches h₁ h₂ ⟨p, q >>= pure, s⟩ ⟨p, pure b, t⟩ := reaches_right hr
  rwa [bind_pure] at h

/-- One round of an endless loop of the left side. -/
theorem reaches_forever {body : Proc S Unit} (hr : Runs h₁ body s () t) :
    Reaches h₁ h₂ ⟨forever body, q, s⟩ ⟨forever body, q, t⟩ := by
  refine .head (step_left rfl) ?_
  unfold unroll
  rw [bind_assoc]
  exact reaches_left hr

/-- Where the left side comes to wait and the right one has ended, both stop. -/
theorem stuck_left (hw : Waits h₁ p s t) :
    ∃ p', Reaches h₁ h₂ ⟨p, .ret b, s⟩ ⟨p', .ret b, t⟩ ∧
      Stuck (Step h₁ h₂) (⟨p', .ret b, t⟩ : Net S T σ α β) := by
  induction hw with
  | @here o k s e =>
    -- The left side waits at its next operation, and the right one has none.
    refine ⟨.op o k, .refl, fun c hst => ?_⟩
    cases hst with
    | left hp =>
      rw [Proc.step, e] at hp
      cases hp
    | right hq => cases hq
  | @op o k s t u x e _ ih =>
    obtain ⟨p', hr, hs⟩ := ih
    refine ⟨p', .head (step_left (t := t) ?_) hr, hs⟩
    rw [Proc.step, e]
    rfl
  | loop _ ih =>
    obtain ⟨p', hr, hs⟩ := ih
    exact ⟨p', .head (step_left rfl) hr, hs⟩

/-- Where the left side has ended and the right one comes to wait, both stop. -/
theorem stuck_right (hw : Waits h₂ q s t) :
    ∃ q', Reaches h₁ h₂ ⟨.ret a, q, s⟩ ⟨.ret a, q', t⟩ ∧ (∀ b, q' ≠ .ret b) ∧
      Stuck (Step h₁ h₂) (⟨.ret a, q', t⟩ : Net S T σ α β) := by
  induction hw with
  | @here o k s e =>
    refine ⟨.op o k, .refl, ?_, fun c hst => ?_⟩
    · intro b hb
      cases hb
    · cases hst with
      | left hp => cases hp
      | right hq =>
        rw [Proc.step, e] at hq
        cases hq
  | @op o k s t u x e _ ih =>
    obtain ⟨q', hr, hs⟩ := ih
    refine ⟨q', .head (step_right (t := t) ?_) hr, hs⟩
    rw [Proc.step, e]
    rfl
  | loop _ ih =>
    obtain ⟨q', hr, hs⟩ := ih
    exact ⟨q', .head (step_right rfl) hr, hs⟩

theorem state_of_step {p' : Proc S α} (h : p.step h₁ s = some (p', t)) :
    t = s ∨ ∃ o x, h₁ o s = some (x, t) := by
  cases p with
  | ret a => cases h
  | op o k =>
    obtain ⟨⟨x, u⟩, hx, h⟩ := Option.map_eq_some_iff.mp h
    cases h
    exact .inr ⟨o, x, hx⟩
  | loop b body k =>
    cases h
    exact .inl rfl

section Relates

variable {R : σ → σ → Prop} {c d : Net S T σ α β}

/-- A relation that is reflexive, transitive and keeps every operation relates the states of a
run. -/
theorem relates (hr : ∀ s, R s s) (ht : ∀ s t u, R s t → R t u → R s u)
    (hl : ∀ o s x t, h₁ o s = some (x, t) → R s t) (hh : ∀ o s x t, h₂ o s = some (x, t) → R s t)
    (h : Reaches h₁ h₂ c d) : R c.state d.state := by
  induction h with
  | refl => exact hr _
  | tail _ hst ih =>
    refine ht _ _ _ ih ?_
    cases hst with
    | left hp =>
      rcases state_of_step hp with rfl | ⟨o, x, ho⟩
      · exact hr _
      · exact hl o _ x _ ho
    | right hq =>
      rcases state_of_step hq with rfl | ⟨o, x, ho⟩
      · exact hr _
      · exact hh o _ x _ ho

/-- Once the right program has ended, the operations of the left one are enough. -/
theorem relates_left (hr : ∀ s, R s s) (ht : ∀ s t u, R s t → R t u → R s u)
    (hl : ∀ o s x t, h₁ o s = some (x, t) → R s t) (h : Reaches h₁ h₂ c d)
    (hc : c.right = .ret b) : R c.state d.state ∧ d.right = .ret b := by
  induction h with
  | refl => exact ⟨hr _, hc⟩
  | tail _ hst ih =>
    cases hst with
    | left hp =>
      refine ⟨ht _ _ _ ih.1 ?_, ih.2⟩
      rcases state_of_step hp with rfl | ⟨o, x, ho⟩
      · exact hr _
      · exact hl o _ x _ ho
    | right hq =>
      cases ih.2
      cases hq

end Relates

/-- A program that has ended stays so. -/
theorem ret_right {c d : Net S T σ α β} (h : Reaches h₁ h₂ c d) (hc : c.right = .ret b) :
    d.right = .ret b :=
  (relates_left (R := fun _ _ => True) (fun _ => trivial) (fun _ _ _ _ _ => trivial)
    (fun _ _ _ _ _ => trivial) h hc).2

/-- Where both have ended, both stop. -/
theorem stuck_ret : Stuck (Step h₁ h₂) (⟨.ret a, .ret b, s⟩ : Net S T σ α β) := by
  intro c hst
  cases hst with
  | left hp => cases hp
  | right hq => cases hq

end Net

/-! ## Joint runs -/

/-- The right program ends with the result `b`, while the left one goes from `p` to `p'`. -/
def Joint (h₁ : Handler S σ) (h₂ : Handler T σ) (p : Proc S α) (q : Proc T β) (s : σ)
    (p' : Proc S α) (b : β) (s' : σ) : Prop :=
  ∀ (γ : Type) (f : β → Proc T γ), Net.Reaches h₁ h₂ ⟨p, q >>= f, s⟩ ⟨p', f b, s'⟩

namespace Joint

variable {p p' p'' : Proc S α} {q : Proc T β} {s t u : σ} {b : β} {c : γ}

theorem pure : Joint h₁ h₂ p (pure b) s p b s := fun _ _ => .refl

theorem of_runs (hr : Runs h₂ q s b t) : Joint h₁ h₂ p q s p b t :=
  fun _ _ => Net.reaches_right hr

/-- The whole run of the right program. -/
theorem reaches (hj : Joint h₁ h₂ p q s p' b t) :
    Net.Reaches h₁ h₂ ⟨p, q, s⟩ ⟨p', .ret b, t⟩ := by
  have := hj β Pure.pure
  rwa [bind_pure] at this

/-- Steps of the left program before. -/
theorem after (hl : ∀ (γ : Type) (q : Proc T γ), Net.Reaches h₁ h₂ ⟨p, q, s⟩ ⟨p', q, t⟩)
    (hj : Joint h₁ h₂ p' q t p'' b u) : Joint h₁ h₂ p q s p'' b u :=
  fun γ f => (hl γ _).trans (hj γ f)

theorem bind {f : β → Proc T γ} (hq : Joint h₁ h₂ p q s p' b t)
    (hf : Joint h₁ h₂ p' (f b) t p'' c u) : Joint h₁ h₂ p (q >>= f) s p'' c u := by
  intro δ g
  rw [bind_assoc]
  exact (hq δ _).trans (hf δ g)

section Loop

variable {x y : β} {body : β → Proc T (β ⊕ γ)}

theorem iterate_next (hb : Joint h₁ h₂ p (body x) s p' (.inl y) t)
    (hk : Joint h₁ h₂ p' (iterate y body) t p'' c u) :
    Joint h₁ h₂ p (iterate x body) s p'' c u := by
  intro δ f
  refine .head (Net.step_right rfl) ?_
  unfold unroll
  exact (hb δ _).trans (hk δ f)

theorem iterate_exit (hb : Joint h₁ h₂ p (body x) s p' (.inr c) t) :
    Joint h₁ h₂ p (iterate x body) s p' c t := by
  intro δ f
  refine .head (Net.step_right rfl) ?_
  unfold unroll
  exact hb δ _

end Loop

section Except

variable {e : ε}

theorem bind_ok {q : ExceptT ε (Proc T) β} {f : β → ExceptT ε (Proc T) γ} {r : Except ε γ}
    (hq : Joint h₁ h₂ p q.run s p' (.ok b) t) (hf : Joint h₁ h₂ p' (f b).run t p'' r u) :
    Joint h₁ h₂ p (q >>= f).run s p'' r u :=
  Joint.bind (f := ExceptT.bindCont f) hq hf

theorem bind_error {q : ExceptT ε (Proc T) β} {f : β → ExceptT ε (Proc T) γ}
    (hq : Joint h₁ h₂ p q.run s p' (.error e) t) :
    Joint h₁ h₂ p (q >>= f).run s p' (.error e) t :=
  Joint.bind (f := ExceptT.bindCont f) hq Joint.pure

variable {x y : β} {body : β → ExceptT ε (Proc T) (β ⊕ γ)} {r : Except ε γ}

theorem iterateE_next (hb : Joint h₁ h₂ p (body x).run s p' (.ok (.inl y)) t)
    (hk : Joint h₁ h₂ p' (iterateE y body).run t p'' r u) :
    Joint h₁ h₂ p (iterateE x body).run s p'' r u :=
  iterate_next (Joint.bind hb Joint.pure) hk

theorem iterateE_exit (hb : Joint h₁ h₂ p (body x).run s p' (.ok (.inr c)) t) :
    Joint h₁ h₂ p (iterateE x body).run s p' (.ok c) t :=
  iterate_exit (Joint.bind hb Joint.pure)

theorem iterateE_error (hb : Joint h₁ h₂ p (body x).run s p' (.error e) t) :
    Joint h₁ h₂ p (iterateE x body).run s p' (.error e) t :=
  iterate_exit (Joint.bind hb Joint.pure)

end Except

end Joint

end Net
