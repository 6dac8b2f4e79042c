/-!
# Programs that wait

A program (`Proc`) of operations, each of which may have to wait, and of loops that may run for
ever. A handler (`Handler`) gives the operations a meaning on a state: an operation with no answer
waits.

* `Proc.step` is one step of a program.
* `Runs h p s a t`: from the state `s` the program ends with the result `a` in the state `t`. The
  rules of sequence (`Runs.bind`, `Runs.bind_ok`) and of loops (`Runs.iterate_next`,
  `Runs.iterate_exit`) give the run of a program from those of its parts, `Runs.iterate_induct` is
  the rule for what a loop that ends has kept.
* `Waits h p s t`: from `s` the program comes to wait in the state `t`.
-/

/-- The operations of a program and the answers to them. -/
structure Sig where
  Op : Type
  Ans : Op → Type

/-- A program. The body of a loop answers `.inl` with the next round's value or `.inr` with the
loop's result. -/
inductive Proc (S : Sig) : Type → Type 1 where
  | ret {α : Type} (a : α) : Proc S α
  | op {α : Type} (o : S.Op) (k : S.Ans o → Proc S α) : Proc S α
  | loop {α β γ : Type} (b : β) (body : β → Proc S (β ⊕ γ)) (k : γ → Proc S α) : Proc S α

/-- The answer to an operation and the state after it, if it need not wait. -/
abbrev Handler (S : Sig) (σ : Type) := (o : S.Op) → σ → Option (S.Ans o × σ)

namespace Proc

variable {S : Sig} {σ α β γ δ ε : Type}

/-- One program, and then the next on its result. -/
protected def bind {α β : Type} : Proc S α → (α → Proc S β) → Proc S β
  | .ret a, f => f a
  | .op o k, f => .op o fun x => (k x).bind f
  | .loop b body k, f => .loop b body fun c => (k c).bind f

instance : Monad (Proc S) where
  pure := .ret
  bind := Proc.bind

/-- One operation. -/
def call (o : S.Op) : Proc S (S.Ans o) := .op o .ret

/-- A loop. -/
def iterate (b : β) (body : β → Proc S (β ⊕ γ)) : Proc S γ := .loop b body .ret

/-- A program `n` times over, with the results. -/
def times : Nat → Proc S α → Proc S (List α)
  | 0, _ => pure []
  | n + 1, p => do
    let a ← p
    let as ← times n p
    return a :: as

/-- A loop that never ends. -/
def forever (body : Proc S Unit) : Proc S Empty :=
  iterate () fun _ => do
    body
    return .inl ()

/-- How a round that may raise goes on: an exception ends the loop. -/
def exit : Except ε (β ⊕ γ) → β ⊕ Except ε γ
  | .ok (.inl b) => .inl b
  | .ok (.inr c) => .inr (.ok c)
  | .error e => .inr (.error e)

/-- A loop whose body may raise. -/
def iterateE (b : β) (body : β → ExceptT ε (Proc S) (β ⊕ γ)) : ExceptT ε (Proc S) γ :=
  .mk <| iterate b fun b => do return exit (← (body b).run)

protected theorem bind_ret (p : Proc S α) : p.bind .ret = p := by
  induction p with
  | ret a => rfl
  | op o k ih => exact congrArg _ (funext ih)
  | loop b body k _ ih => exact congrArg _ (funext ih)

protected theorem bind_bind (p : Proc S α) (f : α → Proc S β) (g : β → Proc S γ) :
    (p.bind f).bind g = p.bind fun a => (f a).bind g := by
  induction p with
  | ret a => rfl
  | op o k ih => exact congrArg _ (funext fun x => ih x f)
  | loop b body k _ ih => exact congrArg _ (funext fun c => ih c f)

instance : LawfulMonad (Proc S) :=
  .mk' (Proc S) Proc.bind_ret (fun _ _ => rfl) Proc.bind_bind

/-- The first round of a loop. -/
def unroll (b : β) (body : β → Proc S (β ⊕ γ)) (k : γ → Proc S α) : Proc S α :=
  body b >>= Sum.elim (fun b => .loop b body k) k

theorem unroll_bind (b : β) (body : β → Proc S (β ⊕ γ)) (k : γ → Proc S α) (f : α → Proc S δ) :
    unroll b body k >>= f = unroll b body fun c => k c >>= f := by
  unfold unroll
  rw [bind_assoc]
  congr 1
  funext x
  cases x with
  | inl b => rfl
  | inr c => rfl

/-- One step: an operation that need not wait, or the start of a round. -/
def step (h : Handler S σ) : Proc S α → σ → Option (Proc S α × σ)
  | .ret _, _ => none
  | .op o k, s => (h o s).map fun r => (k r.1, r.2)
  | .loop b body k, s => some (unroll b body k, s)

end Proc

section Runs

open Proc

variable {S : Sig} {σ α β γ ε : Type}

/-- The program ends with the result and in the state given. -/
inductive Runs (h : Handler S σ) : Proc S α → σ → α → σ → Prop
  | ret (a : α) (s : σ) : Runs h (.ret a) s a s
  | op {o : S.Op} {k : S.Ans o → Proc S α} {s t u : σ} {x : S.Ans o} {a : α} :
      h o s = some (x, t) → Runs h (k x) t a u → Runs h (.op o k) s a u
  | loop {β γ : Type} {b : β} {body : β → Proc S (β ⊕ γ)} {k : γ → Proc S α} {s t : σ} {a : α} :
      Runs h (unroll b body k) s a t → Runs h (.loop b body k) s a t

/-- The program comes to wait in the state given. -/
inductive Waits (h : Handler S σ) : Proc S α → σ → σ → Prop
  | here {o : S.Op} {k : S.Ans o → Proc S α} {s : σ} : h o s = none → Waits h (.op o k) s s
  | op {o : S.Op} {k : S.Ans o → Proc S α} {s t u : σ} {x : S.Ans o} :
      h o s = some (x, t) → Waits h (k x) t u → Waits h (.op o k) s u
  | loop {β γ : Type} {b : β} {body : β → Proc S (β ⊕ γ)} {k : γ → Proc S α} {s t : σ} :
      Waits h (unroll b body k) s t → Waits h (.loop b body k) s t

namespace Runs

variable {h : Handler S σ} {s t u : σ} {a a' : α} {b : β}

theorem pure : Runs h (pure a) s a s := .ret a s

theorem call {o : S.Op} {x : S.Ans o} (e : h o s = some (x, t)) : Runs h (call o) s x t :=
  .op e (.ret x t)

theorem bind {p : Proc S α} {f : α → Proc S β} (hp : Runs h p s a t)
    (hf : Runs h (f a) t b u) : Runs h (p >>= f) s b u := by
  induction hp with
  | ret => exact hf
  | op e _ ih => exact .op e (ih hf)
  | loop _ ih =>
    refine .loop ?_
    have := ih hf
    rwa [unroll_bind] at this

section Loop

variable {x y : β} {c : γ} {body : β → Proc S (β ⊕ γ)} {k : γ → Proc S α}

theorem loop_next (hb : Runs h (body x) s (.inl y) t) (hk : Runs h (.loop y body k) t a u) :
    Runs h (.loop x body k) s a u :=
  .loop (hb.bind hk)

theorem loop_exit (hb : Runs h (body x) s (.inr c) t) (hk : Runs h (k c) t a u) :
    Runs h (.loop x body k) s a u :=
  .loop (hb.bind hk)

theorem iterate_next (hb : Runs h (body x) s (.inl y) t) (hk : Runs h (iterate y body) t c u) :
    Runs h (iterate x body) s c u :=
  loop_next hb hk

theorem iterate_exit (hb : Runs h (body x) s (.inr c) t) : Runs h (iterate x body) s c t :=
  loop_exit hb (.ret c t)

end Loop

/-- A program has one run from a state. -/
theorem det {p : Proc S α} {a' : α} {t' : σ} (hp : Runs h p s a t) (hp' : Runs h p s a' t') :
    a = a' ∧ t = t' := by
  induction hp with
  | ret =>
    cases hp'
    exact ⟨rfl, rfl⟩
  | op e _ ih =>
    cases hp' with
    | op e' hk =>
      cases e.symm.trans e'
      exact ih hk
  | loop _ ih =>
    cases hp' with
    | loop hk => exact ih hk

theorem of_bind {p : Proc S α} {f : α → Proc S β} (hr : Runs h (p >>= f) s b u) :
    ∃ a t, Runs h p s a t ∧ Runs h (f a) t b u := by
  -- The induction is on the run of the whole, and `p` is taken apart along it.
  generalize e : p >>= f = q at hr
  induction hr generalizing p with
  | ret b s =>
    cases p with
    | ret a =>
      change f a = _ at e
      exact ⟨a, s, .ret a s, e ▸ .ret b s⟩
    | op o k => cases e
    | loop c body k => cases e
  | op ho hk ih =>
    cases p with
    | ret a =>
      change f a = _ at e
      exact ⟨a, _, .ret a _, e ▸ .op ho hk⟩
    | op o k =>
      cases e
      obtain ⟨a, t, hp, hf⟩ := ih rfl
      exact ⟨a, t, .op ho hp, hf⟩
    | loop c body k => cases e
  | loop hk ih =>
    cases p with
    | ret a =>
      change f a = _ at e
      exact ⟨a, _, .ret a _, e ▸ .loop hk⟩
    | op o k => cases e
    | loop c body k =>
      cases e
      obtain ⟨a, t, hp, hf⟩ := ih (unroll_bind _ _ _ _)
      exact ⟨a, t, .loop hp, hf⟩

/-- A run of one call and what goes on with its answer. -/
theorem of_call_bind {o : S.Op} {f : S.Ans o → Proc S β}
    (hr : Runs h (Proc.call o >>= f) s b u) : ∃ x t, h o s = some (x, t) ∧ Runs h (f x) t b u := by
  cases hr with
  | op e hk => exact ⟨_, _, e, hk⟩

theorem of_pure (hr : Runs h (Pure.pure a : Proc S α) s a' t) : a' = a ∧ t = s := by
  cases hr
  exact ⟨rfl, rfl⟩

/-- The rule for an invariant of the rounds of a loop that ends. -/
theorem iterate_induct {I : β → σ → Prop} {Q : γ → σ → Prop} {body : β → Proc S (β ⊕ γ)}
    (hI : ∀ b s x t, I b s → Runs h (body b) s x t → Sum.elim (I · t) (Q · t) x) {c : γ}
    (hr : Runs h (iterate b body) s c t) (hs : I b s) : Q c t := by
  -- By induction on the run, with the rest `p` of the current round in front of the loop.
  have key : ∀ {q : Proc S γ} {s t : σ} {c : γ}, Runs h q s c t → ∀ p : Proc S (β ⊕ γ),
      q = p >>= Sum.elim (fun b => iterate b body) .ret →
      (∀ x t, Runs h p s x t → Sum.elim (I · t) (Q · t) x) → Q c t := by
    intro q s t c hr
    induction hr with
    | ret a s =>
      intro p e hp
      cases p with
      | ret x =>
        cases x with
        | inl b => cases e
        | inr c =>
          cases e
          exact hp _ _ (.ret _ _)
      | op o k => cases e
      | loop b body k => cases e
    | op ho hk ih =>
      intro p e hp
      cases p with
      | ret x => cases x <;> cases e
      | op o k =>
        cases e
        exact ih _ rfl fun x t hx => hp x t (.op ho hx)
      | loop b body k => cases e
    | loop hk ih =>
      intro p e hp
      cases p with
      | ret x =>
        cases x with
        | inl b =>
          cases e
          -- The round has ended in a next one: the invariant starts it.
          exact ih _ rfl fun x t hx => hI _ _ x t (hp _ _ (.ret _ _)) hx
        | inr c => cases e
      | op o k => cases e
      | loop b body k =>
        cases e
        exact ih _ (unroll_bind _ _ _ _).symm fun x t hx => hp x t (.loop hx)
  exact key hr (.ret (.inl b)) rfl fun x u hx => by
    cases hx
    exact hs

/-- Where a program has no run after `m` times, it has none for more times. -/
theorem times_silent {p : Proc S α} {m n : Nat} {as bs : List α} (hp : Runs h (times m p) s as t)
    (ht : ∀ a v, ¬ Runs h p t a v) (hmn : m < n) : ¬ Runs h (times n p) s bs u := by
  intro hr
  obtain ⟨n, rfl⟩ := Nat.exists_eq_succ_of_ne_zero (Nat.ne_zero_of_lt hmn)
  induction m generalizing s u n as bs with
  | zero =>
    cases hp
    obtain ⟨a, v, ha, -⟩ := hr.of_bind
    exact ht a v ha
  | succ m ih =>
    obtain ⟨a, s₁, ha, hp⟩ := hp.of_bind
    obtain ⟨as', s₂, has, hlast⟩ := hp.of_bind
    cases hlast
    obtain ⟨b, v, hb, hr⟩ := hr.of_bind
    obtain ⟨rfl, rfl⟩ := ha.det hb
    obtain ⟨bs', v, hbs, -⟩ := hr.of_bind
    obtain ⟨n, rfl⟩ := Nat.exists_eq_succ_of_ne_zero (by omega : n ≠ 0)
    exact ih has n (by omega) hbs

section Except

variable {p : ExceptT ε (Proc S) α} {f : α → ExceptT ε (Proc S) β}

theorem lift {p : Proc S α} (hp : Runs h p s a t) :
    Runs h (ExceptT.run (ExceptT.lift p : ExceptT ε (Proc S) α)) s (.ok a) t :=
  hp.bind (.ret _ _)

theorem bind_ok {r : Except ε β} (hp : Runs h p.run s (.ok a) t) (hf : Runs h (f a).run t r u) :
    Runs h (p >>= f).run s r u :=
  Runs.bind (f := ExceptT.bindCont f) hp hf

theorem bind_error {e : ε} (hp : Runs h p.run s (.error e) t) :
    Runs h (p >>= f).run s (.error e) t :=
  Runs.bind (f := ExceptT.bindCont f) hp .pure

section Loop

variable {x y : α} {c : β} {e : ε} {body : α → ExceptT ε (Proc S) (α ⊕ β)} {r : Except ε β}

theorem iterateE_next (hb : Runs h (body x).run s (.ok (.inl y)) t)
    (hk : Runs h (iterateE y body).run t r u) : Runs h (iterateE x body).run s r u :=
  iterate_next (Runs.bind hb .pure) hk

theorem iterateE_exit (hb : Runs h (body x).run s (.ok (.inr c)) t) :
    Runs h (iterateE x body).run s (.ok c) t :=
  iterate_exit (Runs.bind hb .pure)

theorem iterateE_error (hb : Runs h (body x).run s (.error e) t) :
    Runs h (iterateE x body).run s (.error e) t :=
  iterate_exit (Runs.bind hb .pure)

end Loop

end Except

end Runs

namespace Waits

variable {h : Handler S σ} {s t u : σ} {a : α}

theorem call {o : S.Op} (e : h o s = none) : Waits h (call o) s s := .here e

theorem bind {p : Proc S α} {f : α → Proc S β} (hp : Waits h p s t) : Waits h (p >>= f) s t := by
  induction hp with
  | here e => exact .here e
  | op e _ ih => exact .op e ih
  | loop _ ih =>
    refine .loop ?_
    rwa [unroll_bind] at ih

/-- A program that ends, and one after it that waits. -/
theorem after {p : Proc S α} {f : α → Proc S β} (hp : Runs h p s a t) (hf : Waits h (f a) t u) :
    Waits h (p >>= f) s u := by
  induction hp with
  | ret => exact hf
  | op e _ ih => exact .op e (ih hf)
  | loop _ ih =>
    refine .loop ?_
    have := ih hf
    rwa [unroll_bind] at this

/-- A loop waits where its body does. -/
theorem of_body {b : β} {body : β → Proc S (β ⊕ γ)} (hb : Waits h (body b) s t) :
    Waits h (iterate b body) s t :=
  .loop hb.bind

theorem iterate_next {b b' : β} {body : β → Proc S (β ⊕ γ)} (hb : Runs h (body b) s (.inl b') t)
    (hk : Waits h (Proc.iterate b' body) t u) : Waits h (Proc.iterate b body) s u :=
  .loop (after hb hk)

/-- Where a program waits after `m` times, so it does for more times. -/
theorem times {p : Proc S α} {m n : Nat} {as : List α} (hp : Runs h (times m p) s as t)
    (hw : Waits h p t u) (hmn : m < n) : Waits h (Proc.times n p) s u := by
  obtain ⟨n, rfl⟩ := Nat.exists_eq_succ_of_ne_zero (Nat.ne_zero_of_lt hmn)
  induction m generalizing s n as with
  | zero =>
    cases hp
    exact hw.bind
  | succ m ih =>
    obtain ⟨a, s₁, ha, hp⟩ := hp.of_bind
    obtain ⟨as', s₂, has', hlast⟩ := hp.of_bind
    obtain ⟨n, rfl⟩ := Nat.exists_eq_succ_of_ne_zero (by omega : n ≠ 0)
    cases hlast
    exact .after ha (Waits.bind (ih has' n (by omega)))

section Except

variable {p : ExceptT ε (Proc S) α} {f : α → ExceptT ε (Proc S) β}
  {body : α → ExceptT ε (Proc S) (α ⊕ β)} {x y : α}

theorem bind_run (hp : Waits h p.run s t) : Waits h (p >>= f).run s t :=
  Waits.bind (f := ExceptT.bindCont f) hp

theorem after_ok (hp : Runs h p.run s (.ok a) t) (hf : Waits h (f a).run t u) :
    Waits h (p >>= f).run s u :=
  after (f := ExceptT.bindCont f) hp hf

theorem iterateE_body (hb : Waits h (body x).run s t) : Waits h (iterateE x body).run s t :=
  of_body hb.bind

theorem iterateE_next (hb : Runs h (body x).run s (.ok (.inl y)) t)
    (hk : Waits h (iterateE y body).run t u) : Waits h (iterateE x body).run s u :=
  iterate_next (Runs.bind hb .pure) hk

end Except

/-- A program that ends does not wait. -/
theorem not_runs {p : Proc S α} (hw : Waits h p s t) : ¬ Runs h p s a u := by
  intro hr
  induction hw with
  | here e =>
    cases hr with
    | op e' _ => cases e.symm.trans e'
  | op e _ ih =>
    cases hr with
    | op e' hk =>
      cases e.symm.trans e'
      exact ih hk
  | loop _ ih =>
    cases hr with
    | loop hk => exact ih hk

end Waits

end Runs
