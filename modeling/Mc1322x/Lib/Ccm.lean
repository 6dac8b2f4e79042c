import Mc1322x.Lib.Bytes

/-!
# Counter with CBC-MAC (RFC 3610)

`E` is the block cipher under one key; `M` is the length of the tag, `L` that of the length field.

* `encrypt` and `decrypt` are the definitions of the RFC, on whole byte strings.
* CBC-MAC piece by piece: `absorb` takes in the whole blocks of a string and keeps the rest, so a
  string can be taken in by parts (`absorb_append`) and padded at its end (`foldl_blocks`).
* Counter mode piece by piece: `cryptPieces` (`crypt_eq_pieces`).
-/

namespace Ccm

open Bytes

variable (E : Block → Block) (M L : Nat)

/-! ## Definitions of the RFC -/

/-- A string in blocks, the last one padded with zeros. -/
def blocks (l : List UInt8) : List Block := (chunks 16 l).map Block.ofList

/-- The length of the additional data, encoded. -/
def aadPrefix (n : Nat) : List UInt8 :=
  if n < 2 ^ 16 - 2 ^ 8 then be 2 n
  else if n < 2 ^ 32 then 0xff :: 0xfe :: be 4 n
  else 0xff :: 0xff :: be 8 n

/-- The blocks that authenticate the additional data. -/
def aadBlocks (a : List UInt8) : List Block :=
  if a = [] then [] else blocks (aadPrefix a.length ++ a)

/-- The first block to authenticate. -/
def b0 (nonce : List UInt8) (mLen aLen : Nat) : Block :=
  .ofList (.ofNat ((if aLen = 0 then 0 else 64) + 8 * ((M - 2) / 2) + (L - 1)) ::
    (nonce ++ be L mLen))

/-- One step of CBC-MAC. -/
def macStep (x b : Block) : Block := E (x.xor b)

/-- The CBC-MAC of the authenticated blocks. -/
def mac (nonce a m : List UInt8) : Block :=
  (aadBlocks a ++ blocks m).foldl (macStep E) (E (b0 M L nonce m.length a.length))

/-- The counter block `A_i`. -/
def counterBlock (nonce : List UInt8) (i : Nat) : Block :=
  .ofList (.ofNat (L - 1) :: (nonce ++ be L i))

/-- The key stream block `S_i`. -/
def keyBlock (nonce : List UInt8) (i : Nat) : Block := E (counterBlock L nonce i)

/-- `n` key stream blocks after `S_i`. -/
def keyStream (nonce : List UInt8) (i n : Nat) : List UInt8 :=
  (List.range n).flatMap fun j => (keyBlock E L nonce (i + j + 1)).toList

/-- The exclusive or of the bytes, as far as both lists go. -/
def xorBytes (a b : List UInt8) : List UInt8 := List.zipWith (· ^^^ ·) a b

/-- The message under the key stream from `S_1` on. -/
def crypt (nonce m : List UInt8) : List UInt8 :=
  xorBytes m (keyStream E L nonce 0 ((m.length + 15) / 16))

/-- The encrypted authentication value `U`. -/
def tag (nonce a m : List UInt8) : List UInt8 :=
  xorBytes ((mac E M L nonce a m).toList.take M) ((keyBlock E L nonce 0).toList.take M)

/-- The message encrypted, and its tag. -/
def encrypt (nonce a m : List UInt8) : List UInt8 × List UInt8 :=
  (crypt E L nonce m, tag E M L nonce a m)

/-- The message, where the tag is right. -/
def decrypt (nonce a c t : List UInt8) : Option (List UInt8) :=
  if tag E M L nonce a (crypt E L nonce c) = t then some (crypt E L nonce c) else none

section

variable {E M L}

/-! ## Byte strings -/

theorem length_xorBytes (a b : List UInt8) : (xorBytes a b).length = min a.length b.length := by
  simp [xorBytes]

theorem xorBytes_xorBytes {a b : List UInt8} (h : a.length ≤ b.length) :
    xorBytes (xorBytes a b) b = a := by
  induction a generalizing b with
  | nil => rfl
  | cons x a ih =>
    cases b with
    | nil => exact absurd h (by simp)
    | cons y b =>
      have hrest := ih (Nat.le_of_succ_le_succ h)
      simp only [xorBytes, List.zipWith_cons_cons, UInt8.xor_assoc, UInt8.xor_self,
        UInt8.xor_zero] at hrest ⊢
      rw [hrest]

theorem xorBytes_append (l a b : List UInt8) :
    xorBytes l (a ++ b) = xorBytes (l.take a.length) a ++ xorBytes (l.drop a.length) b := by
  induction a generalizing l with
  | nil => simp [xorBytes]
  | cons x a ih =>
    cases l with
    | nil => simp [xorBytes]
    | cons y l =>
      have hrest := ih l
      simp only [xorBytes, List.cons_append, List.zipWith_cons_cons, List.length_cons,
        List.take_succ_cons, List.drop_succ_cons] at hrest ⊢
      rw [hrest]

/-- The first bytes of a padded piece under a block. -/
theorem take_xor_ofList (l : List UInt8) (k : Block) (hl : l.length ≤ 16) :
    ((Block.ofList l).xor k).toList.take l.length = xorBytes l k.toList := by
  apply List.ext_getElem
  · simp [xorBytes]
  · intro i h₁ h₂
    simp only [xorBytes, List.length_zipWith, Vector.length_toList] at h₂
    simp [xorBytes, List.getD_eq_getElem?_getD, show i < l.length by omega]

/-! ## Counter mode -/

theorem length_keyStream (nonce : List UInt8) (i n : Nat) :
    (keyStream E L nonce i n).length = n * 16 := by
  induction n with
  | zero => rfl
  | succ n ih =>
    unfold keyStream at ih ⊢
    rw [List.range_succ, List.flatMap_append, List.length_append, ih]
    simp
    omega

theorem length_crypt (nonce m : List UInt8) : (crypt E L nonce m).length = m.length := by
  unfold crypt
  rw [length_xorBytes, length_keyStream]
  omega

theorem crypt_crypt (nonce m : List UInt8) : crypt E L nonce (crypt E L nonce m) = m := by
  unfold crypt
  have hlen : (xorBytes m (keyStream E L nonce 0 ((m.length + 15) / 16))).length = m.length :=
    length_crypt nonce m
  rw [hlen]
  apply xorBytes_xorBytes
  rw [length_keyStream]
  omega

theorem decrypt_encrypt (nonce a m : List UInt8) :
    decrypt E M L nonce a (encrypt E M L nonce a m).1 (encrypt E M L nonce a m).2 = some m := by
  unfold decrypt encrypt
  rw [crypt_crypt, if_pos rfl]

/-- Counter mode on the pieces of a message, the first one under `S_{i+1}`. -/
def cryptPieces (E : Block → Block) (L : Nat) (nonce : List UInt8) : Nat → List (List UInt8) →
    List UInt8
  | _, [] => []
  | i, p :: ps => xorBytes p (keyBlock E L nonce (i + 1)).toList ++ cryptPieces E L nonce (i + 1) ps

theorem xorBytes_keyStream (nonce m : List UInt8) (i : Nat) :
    xorBytes m (keyStream E L nonce i ((m.length + 15) / 16)) =
      cryptPieces E L nonce i (chunks 16 m) := by
  induction m using chunks_induction (n := 16) (by decide) generalizing i with
  | nil => rw [chunks_nil]; rfl
  | step l hl ih =>
    have hpos := List.length_pos_iff.mpr hl
    have hn : (l.length + 15) / 16 = ((l.drop 16).length + 15) / 16 + 1 := by
      rw [List.length_drop]
      omega
    have hstream : keyStream E L nonce i (((l.drop 16).length + 15) / 16 + 1) =
        (keyBlock E L nonce (i + 1)).toList ++
          keyStream E L nonce (i + 1) (((l.drop 16).length + 15) / 16) := by
      unfold keyStream
      have hj : ∀ j, i + j.succ + 1 = i + 1 + j + 1 := fun j => by omega
      rw [List.range_succ_eq_map, List.flatMap_cons, List.flatMap_map]
      simp only [hj, Nat.add_zero]
    rw [hn, hstream, xorBytes_append, Vector.length_toList, ih, chunks_of_ne_nil (by decide) hl]
    rfl

theorem crypt_eq_pieces (nonce m : List UInt8) :
    crypt E L nonce m = cryptPieces E L nonce 0 (chunks 16 m) :=
  xorBytes_keyStream nonce m 0

/-! ## CBC-MAC by parts -/

/-- Take in the whole blocks of a string: the MAC after them, and the rest. -/
def absorb (E : Block → Block) (x : Block) (l : List UInt8) : Block × List UInt8 :=
  if l.length < 16 then (x, l) else absorb E (macStep E x (.ofList (l.take 16))) (l.drop 16)
termination_by l.length
decreasing_by
  rw [List.length_drop]
  omega

/-- Pad what is left to a block. -/
def finish (E : Block → Block) (s : Block × List UInt8) : Block :=
  if s.2 = [] then s.1 else macStep E s.1 (.ofList s.2)

theorem absorb_of_lt {x : Block} {l : List UInt8} (h : l.length < 16) : absorb E x l = (x, l) := by
  rw [absorb, if_pos h]

theorem absorb_of_le {x : Block} {l : List UInt8} (h : 16 ≤ l.length) :
    absorb E x l = absorb E (macStep E x (.ofList (l.take 16))) (l.drop 16) := by
  rw [absorb, if_neg (Nat.not_lt.mpr h)]

theorem absorb_block {x : Block} {b l : List UInt8} (h : b.length = 16) :
    absorb E x (b ++ l) = absorb E (macStep E x (.ofList b)) l := by
  rw [absorb_of_le (by rw [List.length_append]; omega), List.take_left' h, List.drop_left' h]

theorem absorb_append (x : Block) (l m : List UInt8) :
    absorb E x (l ++ m) = absorb E (absorb E x l).1 ((absorb E x l).2 ++ m) := by
  induction l using chunks_induction (n := 16) (by decide) generalizing x with
  | nil => rw [absorb_of_lt (l := []) (by decide)]
  | step l hl ih =>
    by_cases h : l.length < 16
    · rw [absorb_of_lt h]
    · have hsplit : l = l.take 16 ++ l.drop 16 := (List.take_append_drop 16 l).symm
      have hlen : (l.take 16).length = 16 := by
        rw [List.length_take]
        omega
      rw [hsplit, List.append_assoc, absorb_block hlen, absorb_block hlen]
      exact ih _

/-- The blocks of a string, taken in one after the other. -/
theorem foldl_blocks (x : Block) (l : List UInt8) :
    (blocks l).foldl (macStep E) x = finish E (absorb E x l) := by
  induction l using chunks_induction (n := 16) (by decide) generalizing x with
  | nil =>
    rw [absorb_of_lt (by decide)]
    unfold blocks
    rw [chunks_nil]
    rfl
  | step l hl ih =>
    have hb : blocks l = Block.ofList (l.take 16) :: blocks (l.drop 16) := by
      unfold blocks
      rw [chunks_of_ne_nil (by decide) hl]
      rfl
    rw [hb, List.foldl_cons, ih]
    by_cases h : l.length < 16
    · rw [List.drop_of_length_le (by omega), List.take_of_length_le (by omega), absorb_of_lt h,
        absorb_of_lt (by decide)]
      unfold finish
      rw [if_pos rfl, if_neg hl]
    · rw [← absorb_of_le (Nat.not_lt.mp h)]

end

end Ccm
