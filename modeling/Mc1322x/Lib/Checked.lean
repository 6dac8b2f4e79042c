import Mathlib.Data.UInt

/-!
# Checked operations

The operations that fail at run time where their arguments are out of range: arithmetic of machine
words that overflows, and indices and slices beyond the end of a list. Each one has its value as a
lemma (`add_eq` and the others), under the condition that it needs.
-/

namespace Checked

/-- What a check that fails reports. -/
inductive Panic where
  | overflow
  | outOfRange
  deriving DecidableEq

section Words

/-- `a + b`, which must not overflow. -/
def add (a b : UInt32) : Except Panic UInt32 :=
  if a.toNat + b.toNat < 2 ^ 32 then .ok (a + b) else .error .overflow

/-- `a - b`, which must not be negative. -/
def sub (a b : UInt32) : Except Panic UInt32 :=
  if b ≤ a then .ok (a - b) else .error .overflow

/-- `a * b`, which must not overflow. -/
def mul (a b : UInt32) : Except Panic UInt32 :=
  if a.toNat * b.toNat < 2 ^ 32 then .ok (a * b) else .error .overflow

/-- `a << n`, by less than the width. -/
def shl (a : UInt32) (n : Nat) : Except Panic UInt32 :=
  if n < 32 then .ok (a <<< .ofNat n) else .error .overflow

variable {a b : UInt32} {n : Nat}

theorem add_eq (h : a.toNat + b.toNat < 2 ^ 32) : add a b = .ok (a + b) := if_pos h

theorem add_overflow (h : 2 ^ 32 ≤ a.toNat + b.toNat) : add a b = .error .overflow :=
  if_neg (Nat.not_lt.mpr h)

theorem sub_eq (h : b ≤ a) : sub a b = .ok (a - b) := if_pos h

theorem mul_eq (h : a.toNat * b.toNat < 2 ^ 32) : mul a b = .ok (a * b) := if_pos h

theorem mul_overflow (h : 2 ^ 32 ≤ a.toNat * b.toNat) : mul a b = .error .overflow :=
  if_neg (Nat.not_lt.mpr h)

theorem shl_eq (h : n < 32) : shl a n = .ok (a <<< .ofNat n) := if_pos h

end Words

section Lists

variable {α : Type} {l : List α} {i j : Nat}

/-- `l[i]`. -/
def index (l : List α) (i : Nat) : Except Panic α :=
  match l[i]? with
  | some a => .ok a
  | none => .error .outOfRange

/-- The elements from `i` on and before `j`. -/
def slice (l : List α) (i j : Nat) : Except Panic (List α) :=
  if i ≤ j ∧ j ≤ l.length then .ok ((l.take j).drop i) else .error .outOfRange

/-- `l[i] = a`. -/
def set (l : List α) (i : Nat) (a : α) : Except Panic (List α) :=
  if i < l.length then .ok (l.set i a) else .error .outOfRange

/-- A function on the elements from `i` on and before `j`, which it may write. -/
def onSlice {β : Type} (l : List α) (i j : Nat) (f : List α → β × List α) :
    Except Panic (β × List α) := do
  let s ← slice l i j
  .ok ((f s).1, l.take i ++ (f s).2 ++ l.drop j)

theorem index_eq (h : i < l.length) : index l i = .ok l[i] := by
  unfold index
  rw [List.getElem?_eq_getElem h]

theorem slice_eq (hi : i ≤ j) (hj : j ≤ l.length) : slice l i j = .ok ((l.take j).drop i) :=
  if_pos ⟨hi, hj⟩

theorem set_eq {a : α} (h : i < l.length) : set l i a = .ok (l.set i a) := if_pos h

theorem onSlice_eq {β : Type} {f : List α → β × List α} (hi : i ≤ j) (hj : j ≤ l.length) :
    onSlice l i j f =
      .ok ((f ((l.take j).drop i)).1, l.take i ++ (f ((l.take j).drop i)).2 ++ l.drop j) := by
  unfold onSlice
  rw [slice_eq hi hj]
  rfl

/-- The slice behind the first element. -/
theorem slice_cons {a : α} {n : Nat} (h : n ≤ l.length) :
    slice (a :: l) 1 (1 + n) = .ok (l.take n) := by
  rw [slice_eq (Nat.le_add_right 1 n) (by rw [List.length_cons]; omega), Nat.add_comm 1 n,
    List.take_succ_cons, List.drop_succ_cons, List.drop_zero]

theorem onSlice_cons {β : Type} {f : List α → β × List α} {a : α} {n : Nat} (h : n ≤ l.length) :
    onSlice (a :: l) 1 (1 + n) f =
      .ok ((f (l.take n)).1, a :: ((f (l.take n)).2 ++ l.drop n)) := by
  rw [onSlice_eq (Nat.le_add_right 1 n) (by rw [List.length_cons]; omega), Nat.add_comm 1 n,
    List.take_succ_cons, List.drop_succ_cons, List.drop_succ_cons, List.drop_zero]
  rfl

end Lists

end Checked
