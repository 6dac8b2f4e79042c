/-!
# Programs over memory-mapped registers

A driver is a program (`Prog`) of register accesses and of points at which it waits for the
hardware. A device (`Device`) gives each of these a meaning as a function of its state, with a wait
that runs until the hardware answers (`Device.eval`).

* `Triple D P p Q`: from a state in `P`, the program `p` on the device `D` ends in a state and with
  a result in `Q`. Every program ends, so this is total correctness.
* `Device.Sim`: two devices that answer alike in related states. A program then gives the same
  result on both (`Sim.eval`).
-/

namespace Mmio

/-- What a program accesses: the registers that it reads with the values read, the writes that it
makes, and the kinds of wait with the answers. -/
structure Bus where
  In : Type
  Val : In → Type
  Out : Type
  Wait : Type
  Res : Wait → Type

/-- A program over a bus: reads, writes and waits, as a tree of what may come. -/
inductive Prog (B : Bus) (α : Type) : Type where
  | ret (a : α)
  | read (r : B.In) (k : B.Val r → Prog B α)
  | write (o : B.Out) (k : Prog B α)
  | wait (w : B.Wait) (k : B.Res w → Prog B α)

namespace Prog

variable {B : Bus} {α β γ : Type}

/-- One program, and then the next on its result. -/
protected def bind : Prog B α → (α → Prog B β) → Prog B β
  | .ret a, f => f a
  | .read r k, f => .read r fun v => (k v).bind f
  | .write o k, f => .write o (k.bind f)
  | .wait w k, f => .wait w fun x => (k x).bind f

instance : Monad (Prog B) where
  pure := .ret
  bind := Prog.bind

/-- Read a register. -/
def readReg (r : B.In) : Prog B (B.Val r) := .read r .ret

/-- Write a register. -/
def writeReg (o : B.Out) : Prog B Unit := .write o (.ret ())

/-- Wait for the hardware. -/
def await (w : B.Wait) : Prog B (B.Res w) := .wait w .ret

/-- On every path the program comes to a wait. -/
def Waits : Prog B α → Prop
  | .ret _ => False
  | .read _ k => ∀ v, Waits (k v)
  | .write _ k => Waits k
  | .wait _ _ => True

theorem Waits.bind_left {p : Prog B α} (h : p.Waits) (f : α → Prog B β) : (p >>= f).Waits := by
  induction p with
  | ret a => exact h.elim
  | read r k ih => exact fun v => ih v (h v)
  | write o k ih => exact ih h
  | wait w k => exact trivial

theorem Waits.bind_right (p : Prog B α) {f : α → Prog B β} (h : ∀ a, (f a).Waits) :
    (p >>= f).Waits := by
  induction p with
  | ret a => exact h a
  | read r k ih => exact fun v => ih v
  | write o k ih => exact ih
  | wait w k => exact trivial

end Prog

/-- The meaning of the accesses and waits on a state. -/
structure Device (B : Bus) (σ : Type) where
  read : (r : B.In) → σ → B.Val r × σ
  write : B.Out → σ → σ
  /-- A wait, until the hardware answers. -/
  wait : (w : B.Wait) → σ → B.Res w × σ

namespace Device

variable {B : Bus} {σ τ α β : Type}

/-- Run a program: its result and the state after it. -/
def eval (D : Device B σ) : Prog B α → σ → α × σ
  | .ret a, s => (a, s)
  | .read r k, s => D.eval (k (D.read r s).1) (D.read r s).2
  | .write o k, s => D.eval k (D.write o s)
  | .wait w k, s => D.eval (k (D.wait w s).1) (D.wait w s).2

variable (D : Device B σ)

@[simp] theorem eval_pure (a : α) (s : σ) : D.eval (pure a) s = (a, s) := rfl

@[simp] theorem eval_bind (p : Prog B α) (f : α → Prog B β) (s : σ) :
    D.eval (p >>= f) s = D.eval (f (D.eval p s).1) (D.eval p s).2 := by
  induction p generalizing s with
  | ret a => rfl
  | read r k ih => exact ih (D.read r s).1 (D.read r s).2
  | write o k ih => exact ih (D.write o s)
  | wait w k ih => exact ih (D.wait w s).1 (D.wait w s).2

/-- Two programs that a device runs alike. -/
def Alike (p q : Prog B α) : Prop := ∀ s, D.eval p s = D.eval q s

theorem Alike.refl (p : Prog B α) : D.Alike p p := fun _ => rfl

theorem Alike.bind {D : Device B σ} {p q : Prog B α} {f g : α → Prog B β} (h : D.Alike p q)
    (hf : ∀ a, D.Alike (f a) (g a)) : D.Alike (p >>= f) (q >>= g) := by
  intro s
  rw [eval_bind, eval_bind, h s]
  exact hf _ _

/-- Two devices that answer alike in related states. -/
structure Sim (D : Device B σ) (D' : Device B τ) (Rel : σ → τ → Prop) : Prop where
  read : ∀ r s t, Rel s t → (D.read r s).1 = (D'.read r t).1 ∧ Rel (D.read r s).2 (D'.read r t).2
  write : ∀ o s t, Rel s t → Rel (D.write o s) (D'.write o t)
  wait : ∀ w s t, Rel s t → (D.wait w s).1 = (D'.wait w t).1 ∧ Rel (D.wait w s).2 (D'.wait w t).2

/-- A program gives the same result on both. -/
theorem Sim.eval {D : Device B σ} {D' : Device B τ} {Rel : σ → τ → Prop} (h : Sim D D' Rel)
    (p : Prog B α) {s : σ} {t : τ} (hr : Rel s t) :
    (D.eval p s).1 = (D'.eval p t).1 ∧ Rel (D.eval p s).2 (D'.eval p t).2 := by
  induction p generalizing s t with
  | ret a => exact ⟨rfl, hr⟩
  | read r k ih =>
    obtain ⟨hv, hr'⟩ := h.read r s t hr
    simp only [Device.eval]
    rw [hv]
    exact ih _ hr'
  | write o k ih => exact ih (h.write o s t hr)
  | wait w k ih =>
    obtain ⟨hv, hr'⟩ := h.wait w s t hr
    simp only [Device.eval]
    rw [hv]
    exact ih _ hr'

end Device

/-! ## Triples -/

section Triple

variable {B : Bus} {σ α β : Type}

/-- From every state in `P`, the program ends with a result and a state in `Q`. -/
def Triple (D : Device B σ) (P : σ → Prop) (p : Prog B α) (Q : α → σ → Prop) : Prop :=
  ∀ s, P s → Q (D.eval p s).1 (D.eval p s).2

namespace Triple

variable {D : Device B σ} {P P' : σ → Prop} {Q Q' : α → σ → Prop}

theorem ret {a : α} (h : ∀ s, P s → Q a s) : Triple D P (pure a) Q := h

theorem bind {p : Prog B α} {f : α → Prog B β} {R : β → σ → Prop} (hp : Triple D P p Q)
    (hf : ∀ a, Triple D (Q a) (f a) R) : Triple D P (p >>= f) R := by
  intro s hs
  rw [Device.eval_bind]
  exact hf _ _ (hp s hs)

theorem conseq {p : Prog B α} (h : Triple D P p Q) (hpre : ∀ s, P' s → P s)
    (hpost : ∀ a s, Q a s → Q' a s) : Triple D P' p Q' :=
  fun s hs => hpost _ _ (h s (hpre s hs))

/-- A condition on no state. -/
theorem of_pure {p : Prog B α} {φ : Prop} (h : φ → Triple D P p Q) :
    Triple D (fun s => φ ∧ P s) p Q :=
  fun s hs => h hs.1 s hs.2

theorem of_exists {p : Prog B α} {ι : Sort u} {P : ι → σ → Prop}
    (h : ∀ i, Triple D (P i) p Q) : Triple D (fun s => ∃ i, P i s) p Q :=
  fun s ⟨i, hs⟩ => h i s hs

end Triple

end Triple

end Mmio
