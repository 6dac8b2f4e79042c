import Mathlib.Algebra.Order.Ring.Nat

/-!
# Byte blocks

Sixteen-byte blocks (`Block`), their big-endian words, and byte strings cut into pieces.

* `Block.ofList` pads a partial block with zeros.
* `toWords` and `ofWords` are the four big-endian words of a block and back (`ofWords_toWords`).
* `le n x` are the `n` little-endian bytes of a number, `ofLe` the number of such bytes (`ofLe_le`).
* `sum` is the sum of bytes modulo 256.
* `chunks n l` cuts a list into pieces of `n`, the last one shorter.
-/

namespace Bytes

/-- A block of 16 bytes. -/
abbrev Block := Vector UInt8 16

/-- A block as four words. -/
abbrev Words := Vector UInt32 4

/-- One word replaced. -/
abbrev Words.put (w : Words) (i : Fin 4) (v : UInt32) : Words := w.set i v

namespace Block

/-- The block of zeros. -/
def zero : Block := .replicate 16 0

/-- The first 16 bytes, padded with zeros. -/
def ofList (l : List UInt8) : Block := .ofFn fun i => l.getD i 0

/-- The exclusive or of two blocks. -/
def xor (a b : Block) : Block := .zipWith (· ^^^ ·) a b

/-- Copy `src` to the bytes from `pos` on. -/
def copyAt (b : Block) (pos : Nat) (src : List UInt8) : Block :=
  .ofFn fun i => if pos ≤ i then src.getD (i - pos) b[i] else b[i]

@[simp] theorem getElem_ofList {l : List UInt8} {i : Nat} (h : i < 16) :
    (ofList l)[i] = l.getD i 0 := by
  simp [ofList]

@[simp] theorem getElem_xor {a b : Block} {i : Nat} (h : i < 16) :
    (xor a b)[i] = a[i] ^^^ b[i] := by
  simp [xor]

theorem ofList_nil : ofList [] = zero := by
  apply Vector.ext
  intro i h
  simp [zero]

theorem xor_zero (a : Block) : xor zero a = a := by
  apply Vector.ext
  intro i h
  simp [zero]

/-- A copy behind the bytes that a padded block holds appends to them. -/
theorem copyAt_ofList {part src : List UInt8} {pos : Nat} (hp : pos = part.length) :
    (ofList part).copyAt pos src = ofList (part ++ src) := by
  subst hp
  apply Vector.ext
  intro i h
  simp only [copyAt, Vector.getElem_ofFn, getElem_ofList, List.getD_eq_getElem?_getD,
    Fin.getElem_fin]
  split
  · rename_i hle
    rw [List.getElem?_append_right hle, List.getElem?_eq_none hle]
    rfl
  · rename_i hlt
    rw [List.getElem?_append_left (by omega)]

end Block

/-! ## Big-endian words -/

/-- `u32::from_be_bytes`. -/
def fromBeBytes (a b c d : UInt8) : UInt32 :=
  .ofNat (a.toNat * 2 ^ 24 + b.toNat * 2 ^ 16 + c.toNat * 2 ^ 8 + d.toNat)

/-- Byte `i` of `u32::to_be_bytes`. -/
def toBeByte (w : UInt32) (i : Nat) : UInt8 := .ofNat (w.toNat / 2 ^ (24 - 8 * i))

/-- The words of a block. -/
def toWords (b : Block) : Words :=
  .ofFn fun i => fromBeBytes b[4 * i.val] b[4 * i.val + 1] b[4 * i.val + 2] b[4 * i.val + 3]

/-- The block of some words. -/
def ofWords (w : Words) : Block :=
  .ofFn fun i =>
    have : i.val / 4 < 4 := by omega
    toBeByte w[i.val / 4] (i.val % 4)

theorem toBeByte_fromBeBytes (a b c d : UInt8) {i : Nat} (hi : i < 4) :
    toBeByte (fromBeBytes a b c d) i = [a, b, c, d][i] := by
  have ha := a.toNat_lt
  have hb := b.toNat_lt
  have hc := c.toNat_lt
  have hd := d.toNat_lt
  apply UInt8.toNat_inj.mp
  unfold toBeByte fromBeBytes
  rw [UInt8.toNat_ofNat', UInt32.toNat_ofNat']
  rcases (by omega : i = 0 ∨ i = 1 ∨ i = 2 ∨ i = 3) with rfl | rfl | rfl | rfl
  · simp only [List.getElem_cons_zero]
    omega
  · simp only [List.getElem_cons_succ, List.getElem_cons_zero]
    omega
  · simp only [List.getElem_cons_succ, List.getElem_cons_zero]
    omega
  · simp only [List.getElem_cons_succ, List.getElem_cons_zero]
    omega

theorem ofWords_toWords (b : Block) : ofWords (toWords b) = b := by
  apply Vector.ext
  intro i h
  simp only [ofWords, toWords, Vector.getElem_ofFn]
  rw [toBeByte_fromBeBytes _ _ _ _ (Nat.mod_lt _ (by decide))]
  rcases (by omega : i % 4 = 0 ∨ i % 4 = 1 ∨ i % 4 = 2 ∨ i % 4 = 3) with hm | hm | hm | hm
  all_goals
    simp only [hm, List.getElem_cons_zero, List.getElem_cons_succ]
    congr 1
    omega

/-- The `n` big-endian bytes of a number. -/
def be (n x : Nat) : List UInt8 := (List.range n).map fun i => .ofNat (x / 256 ^ (n - 1 - i))

/-! ## Little-endian numbers and sums -/

/-- The `n` little-endian bytes of a number. -/
def le : Nat → Nat → List UInt8
  | 0, _ => []
  | n + 1, x => .ofNat x :: le n (x / 256)

/-- The number of some little-endian bytes. -/
def ofLe : List UInt8 → Nat
  | [] => 0
  | b :: l => b.toNat + 256 * ofLe l

@[simp] theorem length_le (n x : Nat) : (le n x).length = n := by
  induction n generalizing x with
  | zero => rfl
  | succ n ih => simp [le, ih]

theorem ofLe_le {n x : Nat} (h : x < 256 ^ n) : ofLe (le n x) = x := by
  induction n generalizing x with
  | zero =>
    have : x = 0 := by simpa using h
    rw [this]
    rfl
  | succ n ih =>
    have hd : x / 256 < 256 ^ n := Nat.div_lt_of_lt_mul (by rwa [Nat.pow_succ'] at h)
    simp only [le, ofLe, UInt8.toNat_ofNat', ih hd]
    omega

/-- The sum of the bytes, modulo 256. -/
def sum (l : List UInt8) : UInt8 := l.foldl (· + ·) 0

theorem toNat_foldl_add (l : List UInt8) (a : UInt8) :
    (l.foldl (· + ·) a).toNat = (a.toNat + (l.map UInt8.toNat).sum) % 256 := by
  induction l generalizing a with
  | nil =>
    have := a.toNat_lt
    simp
  | cons b l ih =>
    simp only [List.foldl_cons, List.map_cons, List.sum_cons, ih, UInt8.toNat_add]
    omega

theorem toNat_sum (l : List UInt8) : (sum l).toNat = (l.map UInt8.toNat).sum % 256 := by
  rw [sum, toNat_foldl_add]
  simp

/-! ## Pieces -/

/-- The list in pieces of `n`, the last one shorter. -/
def chunks {α : Type} (n : Nat) (l : List α) : List (List α) :=
  if _h : l = [] ∨ n = 0 then [] else l.take n :: chunks n (l.drop n)
termination_by l.length
decreasing_by
  have := List.length_pos_iff.mpr fun e => _h (.inl e)
  rw [List.length_drop]
  omega

section Chunks

variable {α : Type} {n : Nat} {l : List α}

theorem chunks_nil : chunks n ([] : List α) = [] := by
  rw [chunks, dif_pos (.inl rfl)]

theorem chunks_of_ne_nil (hn : 0 < n) (hl : l ≠ []) :
    chunks n l = l.take n :: chunks n (l.drop n) := by
  rw [chunks, dif_neg fun h => h.elim hl (Nat.ne_of_gt hn)]

/-- Induction on a list by pieces of `n`. -/
theorem chunks_induction {motive : List α → Prop} (hn : 0 < n) (nil : motive [])
    (step : ∀ l, l ≠ [] → motive (l.drop n) → motive l) (l : List α) : motive l := by
  by_cases hl : l = []
  · rw [hl]
    exact nil
  · exact step l hl (chunks_induction hn nil step (l.drop n))
termination_by l.length
decreasing_by
  have := List.length_pos_iff.mpr hl
  rw [List.length_drop]
  omega

end Chunks

end Bytes
