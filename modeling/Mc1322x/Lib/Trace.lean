import Mc1322x.Lib.Proc

/-!
# The calls of a program

`Traces p l r`: with some answers to its operations, the program `p` makes the calls `l`, in this
order, and then returns `r`; or its last call is never answered (`none`). What holds of every trace
holds whatever there is around the program.

The rules take a trace apart: of a program that returns (`traces_pure`), of one call and what
depends on its answer (`traces_call_bind`, `traces_call_pure`), and of any sequence
(`Traces.of_bind`).

`Proc.Only C p`: the program `p` makes calls in `C` only, and so keeps what these keep
(`Proc.Only.keeps`).
-/

open Proc

/-- The calls that a program makes, with what it returns. -/
inductive Traces {S : Sig} {α : Type} : Proc S α → List S.Op → Option α → Prop
  | ret (a : α) : Traces (.ret a) [] (some a)
  | stop (o : S.Op) (k : S.Ans o → Proc S α) : Traces (.op o k) [o] none
  | op {o : S.Op} {k : S.Ans o → Proc S α} {x : S.Ans o} {l : List S.Op} {r : Option α} :
      Traces (k x) l r → Traces (.op o k) (o :: l) r
  | loop {β γ : Type} {b : β} {body : β → Proc S (β ⊕ γ)} {k : γ → Proc S α} {l : List S.Op}
      {r : Option α} : Traces (unroll b body k) l r → Traces (.loop b body k) l r

variable {S : Sig} {α β : Type} {p : Proc S α} {a : α} {l : List S.Op}

theorem traces_pure {r : Option α} : Traces (pure a : Proc S α) l r ↔ l = [] ∧ r = some a := by
  constructor
  · intro ht
    cases ht
    exact ⟨rfl, rfl⟩
  · rintro ⟨rfl, rfl⟩
    exact .ret a

/-- One call, and then what depends on its answer. -/
theorem traces_call_bind {o : S.Op} {f : S.Ans o → Proc S α} {r : Option α} :
    Traces (call o >>= f) l r ↔
      (l = [o] ∧ r = none) ∨ ∃ x l', l = o :: l' ∧ Traces (f x) l' r := by
  constructor
  · intro ht
    cases ht with
    | stop => exact .inl ⟨rfl, rfl⟩
    | op hk => exact .inr ⟨_, _, rfl, hk⟩
  · rintro (⟨rfl, rfl⟩ | ⟨x, l', rfl, hk⟩)
    · exact .stop o f
    · exact Traces.op (k := f) hk

/-- A call and a return make that one call. -/
theorem traces_call_pure {o : S.Op} {f : S.Ans o → α} {r : Option α}
    (ht : Traces (call o >>= fun x => pure (f x)) l r) : l = [o] := by
  rcases traces_call_bind.mp ht with ⟨rfl, -⟩ | ⟨x, l', rfl, hret⟩
  · rfl
  · obtain ⟨rfl, -⟩ := traces_pure.mp hret
    rfl

/-- A sequence of two programs: the first is not answered, or it returns and the second goes on. -/
theorem Traces.of_bind {f : α → Proc S β} {r : Option β} (ht : Traces (p >>= f) l r) :
    (Traces p l none ∧ r = none) ∨
      ∃ a l₁ l₂, l = l₁ ++ l₂ ∧ Traces p l₁ (some a) ∧ Traces (f a) l₂ r := by
  -- The induction is on the run of the whole, and `p` is taken apart along it.
  generalize e : p >>= f = q at ht
  induction ht generalizing p with
  | ret b =>
    cases p with
    | ret a =>
      change f a = _ at e
      exact .inr ⟨a, [], [], rfl, .ret a, e ▸ .ret b⟩
    | op o k => cases e
    | loop c body k => cases e
  | stop o k =>
    cases p with
    | ret a =>
      change f a = _ at e
      exact .inr ⟨a, [], [o], rfl, .ret a, e ▸ .stop o k⟩
    | op o' k' =>
      cases e
      exact .inl ⟨.stop _ _, rfl⟩
    | loop c body k => cases e
  | op hk ih =>
    cases p with
    | ret a =>
      change f a = _ at e
      exact .inr ⟨a, [], _, rfl, .ret a, e ▸ .op hk⟩
    | op o' k' =>
      cases e
      rcases ih rfl with ⟨hp, hr⟩ | ⟨a, l₁, l₂, rfl, hp, hf⟩
      · exact .inl ⟨.op hp, hr⟩
      · exact .inr ⟨a, _ :: l₁, l₂, rfl, .op hp, hf⟩
    | loop c body k => cases e
  | loop hk ih =>
    cases p with
    | ret a =>
      change f a = _ at e
      exact .inr ⟨a, [], _, rfl, .ret a, e ▸ .loop hk⟩
    | op o' k' => cases e
    | loop c body k =>
      cases e
      rcases ih (unroll_bind _ _ _ _) with ⟨hp, hr⟩ | ⟨a, l₁, l₂, rfl, hp, hf⟩
      · exact .inl ⟨.loop hp, hr⟩
      · exact .inr ⟨a, l₁, l₂, rfl, .loop hp, hf⟩

/-- The result of a sequence that returns is that of its second program. -/
theorem Traces.bind_some {f : α → Proc S β} {b : β} (ht : Traces (p >>= f) l (some b)) :
    ∃ a l₁ l₂, l = l₁ ++ l₂ ∧ Traces p l₁ (some a) ∧ Traces (f a) l₂ (some b) := by
  rcases ht.of_bind with ⟨-, hr⟩ | h
  · cases hr
  · exact h

/-! ## Programs that make some calls only -/

/-- Every call that the program may make is in `C`. -/
def Proc.Only {S : Sig} (C : S.Op → Prop) {α : Type} : Proc S α → Prop
  | .ret _ => True
  | .op o k => C o ∧ ∀ x, Only C (k x)
  | .loop _ body k => (∀ b, Only C (body b)) ∧ ∀ c, Only C (k c)

namespace Proc.Only

variable {C : S.Op → Prop}

theorem pure (a : α) : (Pure.pure a : Proc S α).Only C := trivial

theorem call {o : S.Op} (h : C o) : (call o).Only C := ⟨h, fun _ => trivial⟩

theorem bind {f : α → Proc S β} (hp : p.Only C) (hf : ∀ a, (f a).Only C) :
    (p >>= f).Only C := by
  induction p with
  | ret a => exact hf a
  | op o k ih => exact ⟨hp.1, fun x => ih x (hp.2 x) hf⟩
  | loop b body k _ ih => exact ⟨hp.1, fun c => ih c (hp.2 c) hf⟩

theorem iterate {γ : Type} {b : β} {body : β → Proc S (β ⊕ γ)} (h : ∀ b, (body b).Only C) :
    (Proc.iterate b body).Only C :=
  ⟨h, fun _ => trivial⟩

theorem times (n : Nat) (hp : p.Only C) : (Proc.times n p).Only C := by
  induction n with
  | zero => trivial
  | succ n ih => exact bind hp fun a => bind ih fun as => trivial

/-- What the calls in `C` keep, the program keeps. -/
theorem keeps {σ : Type} {h : Handler S σ} {I : σ → Prop} (hp : p.Only C)
    (hI : ∀ o s x t, C o → h o s = some (x, t) → I s → I t) {s t : σ} (hr : Runs h p s a t)
    (hs : I s) : I t := by
  induction hr with
  | ret => exact hs
  | op e _ ih => exact ih (hp.2 _) (hI _ _ _ _ hp.1 e hs)
  | @loop β γ b body k s t a _ ih =>
    refine ih ?_ hs
    refine bind (hp.1 b) fun x => ?_
    cases x with
    | inl b => exact hp
    | inr c => exact hp.2 c

end Proc.Only
