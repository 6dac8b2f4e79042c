/-!
# What is known of a memory

`Known` is what is known of a memory from what has been done to it: a value, or nothing, for each
address. `Known.Of` says that it is right, at the addresses that the memory has. `Known.put` is what
an operation tells about the addresses in its range, whatever was known of them; it stays right
where the operation changes nothing outside (`Known.Of.put`).
-/

/-- What is known of the memory at an address. -/
def Known (α β : Type) := α → Option β

namespace Known

/-- The addresses from `start` on. -/
def span (start n : Nat) (a : Nat) : Bool := decide (start ≤ a ∧ a < start + n)

variable {α β : Type}

/-- Nothing is known. -/
def nothing : Known α β := fun _ => none

/-- What is known is right, at the addresses in `D`. -/
def Of (D : α → Prop) (k : Known α β) (m : α → β) : Prop :=
  ∀ a, D a → ∀ b, k a = some b → m a = b

/-- In the range, `f` is known, and outside of it what was. -/
def put (k : Known α β) (range : α → Bool) (f : α → Option β) : Known α β :=
  fun a => if range a then f a else k a

section

variable {D : α → Prop} {k : Known α β} {m m' : α → β} {range : α → Bool} {f : α → Option β}

theorem nothing_of : nothing.Of D m := fun _ _ _ h => by cases h

/-- An operation on a range. -/
theorem Of.put (h : k.Of D m) (hout : ∀ a, D a → range a = false → m' a = m a)
    (hin : ∀ a, D a → range a = true → ∀ b, f a = some b → m' a = b) : (k.put range f).Of D m' := by
  intro a ha b hb
  unfold Known.put at hb
  cases hr : range a with
  | true =>
    rw [hr, if_pos rfl] at hb
    exact hin a ha hr b hb
  | false =>
    rw [hr, if_neg Bool.false_ne_true] at hb
    rw [hout a ha hr]
    exact h a ha b hb

end

end Known
