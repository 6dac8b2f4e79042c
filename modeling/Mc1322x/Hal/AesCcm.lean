import Mc1322x.Hal.Engine
import Mc1322x.Lib.Ccm

/-!
# AES-CCM on the ASM

The driver's functions on the engine, as triples: a block operation computes with the key `K` and
the accumulator `x` that the engine holds (`Has K x`). `feedPadded_triple` is the streaming of the
additional data: the buffer and its fill level are what `Ccm.absorb` has left over, however the data
are cut. So `encrypt_in_place` computes CCM as the RFC defines it (`encryptInPlace_ccm`), and
`decrypt_in_place` inverts it and rejects every other tag (`decryptInPlace_inverts`).
-/

namespace Mc1322x.Aes

open Bytes Mmio

/-- The resting states of `CONTROL1`. -/
def Resting (idle : UInt32) : Prop := idle = control1Idle ∨ idle = control1IdleAsync

/-- The engine holds the key `K` and the accumulator `x`. -/
def Has (K x : Block) (t : Engine) : Prop := ofWords t.key = K ∧ ofWords t.acc = x

section Engine

variable (ch : Chip) {idle : UInt32} {K x : Block}

/-! ## Words -/

theorem set_words (d w : Words) :
    (((d.put 0 (w.get 0)).put 1 (w.get 1)).put 2 (w.get 2)).put 3 (w.get 3) = w := by
  apply Vector.ext
  intro i h
  simp only [Vector.getElem_set]
  rcases (by omega : i = 0 ∨ i = 1 ∨ i = 2 ∨ i = 3) with rfl | rfl | rfl | rfl <;> rfl

theorem vec_words (w : Words) : #v[w.get 0, w.get 1, w.get 2, w.get 3] = w := by
  apply Vector.ext
  intro i h
  rcases (by omega : i = 0 ∨ i = 1 ∨ i = 2 ∨ i = 3) with rfl | rfl | rfl | rfl <;> rfl

theorem eval_control1 (v : UInt32) (t : Engine) :
    ch.ideal.eval (.writeReg (.control1 v)) t = ((), { t with
      ctrMode := v &&& control1Ctr ≠ 0
      cbcMode := v &&& control1Cbc ≠ 0 }) := rfl

theorem eval_clear (t : Engine) :
    ch.ideal.eval (.writeReg .clear) t = ((), { t with acc := toWords .zero }) := rfl

theorem eval_wait (t : Engine) :
    ch.ideal.eval startAndWait t = ((), t.operate ch.cipher) := rfl

theorem eval_writeKey (w : Words) (t : Engine) :
    ch.ideal.eval (writeWords .key w) t = ((), { t with key := w }) :=
  congrArg (fun k => ((), { t with key := k })) (set_words t.key w)

theorem eval_writeData (w : Words) (t : Engine) :
    ch.ideal.eval (writeWords .data w) t = ((), { t with data := w }) :=
  congrArg (fun k => ((), { t with data := k })) (set_words t.data w)

theorem eval_writeCtr (w : Words) (t : Engine) :
    ch.ideal.eval (writeWords .ctr w) t = ((), { t with ctr := w }) :=
  congrArg (fun k => ((), { t with ctr := k })) (set_words t.ctr w)

theorem eval_readCtrResult (t : Engine) :
    ch.ideal.eval (readWords .ctrResult) t = (t.ctrResult, t) :=
  congrArg (·, t) (vec_words t.ctrResult)

theorem eval_readCbcResult (t : Engine) :
    ch.ideal.eval (readWords .cbcResult) t = (t.acc, t) :=
  congrArg (·, t) (vec_words t.acc)

/-! ## Block operations -/

theorem Resting.ctr (h : Resting idle) : (idle ||| control1Ctr) &&& control1Ctr ≠ 0 ∧
    (idle ||| control1Ctr) &&& control1Cbc = 0 := by
  rcases h with rfl | rfl <;> decide

theorem Resting.cbc (h : Resting idle) : (idle ||| control1Cbc) &&& control1Cbc ≠ 0 ∧
    (idle ||| control1Cbc) &&& control1Ctr = 0 := by
  rcases h with rfl | rfl <;> decide

theorem loadKey_triple (K' : Block) :
    Triple ch.ideal (Has K x) (loadKey K') (fun _ => Has K' x) := by
  rintro t ⟨-, hx⟩
  unfold loadKey
  rw [eval_writeKey]
  exact ⟨ofWords_toWords K', hx⟩

/-- `ctr_block` returns the data under the encrypted counter. -/
theorem ctrBlock_triple (hi : Resting idle) (counter data : Block) :
    Triple ch.ideal (Has K x) (ctrBlockWith idle counter data)
      (fun r t => r = data.xor (ch.cipher K counter) ∧ Has K x t) := by
  rintro t ⟨rfl, rfl⟩
  obtain ⟨h₁, h₂⟩ := hi.ctr
  simp only [ctrBlockWith, Device.eval_bind, eval_control1, eval_writeData, eval_writeCtr,
    eval_wait, eval_readCtrResult, Device.eval_pure, Engine.operate, h₁, h₂, ne_eq,
    not_false_eq_true, decide_true, not_true_eq_false, decide_false, ↓reduceIte,
    Bool.false_eq_true, ofWords_toWords, Has, and_self]

/-- `cbc_mac_block` replaces the accumulator. -/
theorem cbcMacBlock_triple (hi : Resting idle) (block : Block) (first : Bool) :
    Triple ch.ideal (Has K x) (cbcMacBlockWith idle block first)
      (fun _ => Has K (Ccm.macStep (ch.cipher K) (if first then .zero else x) block)) := by
  rintro t ⟨rfl, rfl⟩
  obtain ⟨h₁, h₂⟩ := hi.cbc
  cases first <;>
  simp only [cbcMacBlockWith, Device.eval_bind, eval_control1, eval_writeData, eval_clear,
    eval_wait, Engine.operate, h₁, h₂, ne_eq, not_false_eq_true, decide_true, not_true_eq_false,
    decide_false, ↓reduceIte, Bool.false_eq_true, ofWords_toWords, Has, Ccm.macStep, and_self]

theorem cbcMacResult_triple :
    Triple ch.ideal (Has K x) cbcMacResult (fun r t => r = x ∧ Has K x t) := by
  rintro t ⟨rfl, rfl⟩
  unfold cbcMacResult
  rw [Device.eval_bind, eval_readCbcResult]
  exact ⟨rfl, rfl, rfl⟩

/-! ## The additional data -/

/-- What is left over after the whole blocks of a string, as the buffer and its fill level. -/
def Buffered (K : Block) (s : Block × List UInt8) (r : Block × Fin 16) (t : Engine) : Prop :=
  r.1 = .ofList s.2 ∧ r.2.val = s.2.length ∧ Has K s.1 t

section Steps

variable {buf : Block} {filled : Fin 16} {bytes : List UInt8}

theorem feedPadded_nil : feedPaddedWith idle buf filled [] = pure (buf, filled) := by
  rw [feedPaddedWith, dif_pos rfl]

/-- The step that fills the buffer. -/
theorem feedPadded_full (hb : bytes ≠ []) (h : 16 ≤ filled.val + bytes.length) :
    feedPaddedWith idle buf filled bytes = (do
      cbcMacBlockWith idle (buf.copyAt filled (bytes.take (16 - filled.val))) false
      feedPaddedWith idle .zero 0 (bytes.drop (16 - filled.val))) := by
  have hlt := filled.isLt
  have hmin : min (16 - filled.val) bytes.length = 16 - filled.val := by omega
  rw [feedPaddedWith, dif_neg hb]
  simp only [hmin]
  rw [dif_pos (by omega)]

/-- The step that takes all bytes and leaves room in the buffer. -/
theorem feedPadded_part (hb : bytes ≠ []) (h : filled.val + bytes.length < 16) :
    feedPaddedWith idle buf filled bytes =
      pure (buf.copyAt filled bytes, ⟨filled.val + bytes.length, h⟩) := by
  have hmin : min (16 - filled.val) bytes.length = bytes.length := by omega
  rw [feedPaddedWith, dif_neg hb]
  simp only [hmin]
  rw [dif_neg (by omega), List.take_length, List.drop_length, feedPadded_nil]

end Steps

/-- `feed_padded` takes in the bytes behind those that the buffer holds. -/
theorem feedPadded_triple (hi : Resting idle) (bytes part : List UInt8) {filled : Fin 16}
    (hf : filled.val = part.length) :
    Triple ch.ideal (Has K x) (feedPaddedWith idle (.ofList part) filled bytes)
      (Buffered K (Ccm.absorb (ch.cipher K) x (part ++ bytes))) := by
  induction hn : bytes.length using Nat.strongRecOn generalizing bytes part filled x with
  | ind n ih =>
    have hlt := filled.isLt
    by_cases hb : bytes = []
    · rw [hb, List.append_nil, Ccm.absorb_of_lt (by omega), feedPadded_nil]
      exact Triple.ret fun t ht => ⟨rfl, hf, ht⟩
    have hpos := List.length_pos_iff.mpr hb
    -- The bytes fill the block, which is fed, or stay in the buffer.
    by_cases hfull : 16 ≤ filled.val + bytes.length
    · have hlen : (part ++ bytes.take (16 - filled.val)).length = 16 := by
        rw [List.length_append, List.length_take]
        omega
      have hsplit : part ++ bytes =
          (part ++ bytes.take (16 - filled.val)) ++ bytes.drop (16 - filled.val) := by
        rw [List.append_assoc, List.take_append_drop]
      have hblock := cbcMacBlock_triple ch hi (K := K) (x := x)
        (.ofList (part ++ bytes.take (16 - filled.val))) false
      rw [feedPadded_full hb hfull, hsplit, Ccm.absorb_block hlen, Block.copyAt_ofList hf]
      refine Triple.bind hblock fun _ => ?_
      have hempty : (0 : Fin 16).val = ([] : List UInt8).length := rfl
      have hrest := ih (bytes.drop (16 - filled.val)).length
        (by rw [List.length_drop]; omega) (bytes.drop (16 - filled.val)) [] hempty
        (x := Ccm.macStep (ch.cipher K) x (.ofList (part ++ bytes.take (16 - filled.val)))) rfl
      rwa [Block.ofList_nil] at hrest
    · rw [feedPadded_part hb (by omega), Block.copyAt_ofList hf,
        Ccm.absorb_of_lt (by rw [List.length_append]; omega)]
      refine Triple.ret fun t ht => ⟨rfl, ?_, ht⟩
      rw [List.length_append, ← hf]

theorem feedChunks_triple (hi : Resting idle) (aad : List (List UInt8)) (part : List UInt8)
    {filled : Fin 16} (hf : filled.val = part.length) :
    Triple ch.ideal (Has K x) (feedChunks idle (.ofList part) filled aad)
      (Buffered K (Ccm.absorb (ch.cipher K) x (part ++ aad.flatten))) := by
  induction aad generalizing part filled x with
  | nil =>
    have hlt := filled.isLt
    rw [List.flatten_nil, List.append_nil, Ccm.absorb_of_lt (by omega)]
    exact Triple.ret fun t ht => ⟨rfl, hf, ht⟩
  | cons chunk aad ih =>
    rw [List.flatten_cons, ← List.append_assoc, Ccm.absorb_append]
    refine (feedPadded_triple ch hi chunk part hf).bind ?_
    rintro ⟨buf, filled'⟩ t ⟨rfl, hf', ht⟩
    exact ih _ hf' t ht

/-- What the buffer holds is padded to a block. -/
theorem finish_triple (hi : Resting idle) (s : Block × List UInt8) (r : Block × Fin 16) :
    Triple ch.ideal (Buffered K s r)
      (if r.2 > 0 then cbcMacBlockWith idle r.1 false else pure ())
      (fun _ => Has K (Ccm.finish (ch.cipher K) s)) := by
  rintro t ⟨hb, hf, ht⟩
  unfold Ccm.finish
  by_cases hs : s.2 = []
  · rw [hs, List.length_nil] at hf
    have hzero : ¬ r.2 > 0 := by simp [Fin.lt_def, hf]
    rw [if_neg hzero, if_pos hs]
    exact ht
  · have hpos := List.length_pos_iff.mpr hs
    have hfill : r.2 > 0 := by simp [Fin.lt_def, hf, hpos]
    rw [if_pos hfill, if_neg hs, hb]
    exact cbcMacBlock_triple ch hi _ false t ht

theorem length_flatten_pos {aad : List (List UInt8)} :
    0 < (aad.map List.length).sum ↔ aad.flatten ≠ [] := by
  rw [← List.length_flatten, List.length_pos_iff]

/-- The additional data, encoded and padded at the end. -/
theorem macAad_triple (hi : Resting idle) (aad : List (List UInt8))
    (ha : (aad.map List.length).sum < 0xff00) :
    Triple ch.ideal (Has K x) (macAad idle aad)
      (fun _ => Has K ((Ccm.aadBlocks aad.flatten).foldl (Ccm.macStep (ch.cipher K)) x)) := by
  unfold macAad Ccm.aadBlocks
  by_cases hpos : (aad.map List.length).sum > 0
  · have hlen : aad.flatten.length = (aad.map List.length).sum := List.length_flatten
    have hprefix : be 2 (UInt16.ofNat (aad.map List.length).sum).toNat =
        Ccm.aadPrefix aad.flatten.length := by
      unfold Ccm.aadPrefix
      rw [if_pos (by omega), hlen, UInt16.toNat_ofNat', Nat.mod_eq_of_lt (by omega)]
    simp only [hpos, ↓reduceIte, hprefix, length_flatten_pos.mp hpos]
    rw [Ccm.foldl_blocks, Ccm.absorb_append, ← Block.ofList_nil]
    refine (feedPadded_triple ch hi (Ccm.aadPrefix aad.flatten.length) [] rfl).bind ?_
    rintro ⟨buf, filled⟩ t ⟨rfl, hf, ht⟩
    rw [List.nil_append] at hf ht
    exact Triple.bind (feedChunks_triple ch hi aad _ hf) (finish_triple ch hi _) t ht
  · have hnil : aad.flatten = [] :=
      Decidable.byContradiction fun h => hpos (length_flatten_pos.mpr h)
    simp only [hpos, ↓reduceIte, hnil]
    exact Triple.ret fun t ht => ht

theorem macChunks_triple (hi : Resting idle) (m : List UInt8) :
    Triple ch.ideal (Has K x) (macChunks idle (chunks 16 m))
      (fun _ => Has K ((Ccm.blocks m).foldl (Ccm.macStep (ch.cipher K)) x)) := by
  unfold Ccm.blocks
  induction chunks 16 m generalizing x with
  | nil => exact Triple.ret fun t ht => ht
  | cons chunk rest ih =>
    rw [List.map_cons, List.foldl_cons]
    exact Triple.bind (cbcMacBlock_triple ch hi (K := K) (x := x) (.ofList chunk) false) fun _ => ih

/-- `build_b0` builds the first block of the RFC, for a tag of 8 bytes. -/
def IsB0 (buildB0 : BuildB0) : Prop :=
  ∀ nonce mLen aLen, mLen < 65536 → aLen < 0xff00 →
    buildB0 nonce mLen aLen 8 = Ccm.b0 8 2 nonce.toList mLen aLen

/-- `ccm_mac` is the CBC-MAC of the RFC. -/
theorem ccmMac_triple (hi : Resting idle) {buildB0 : BuildB0} (hb : IsB0 buildB0)
    (nonce : Vector UInt8 13) (aad : List (List UInt8)) (m : List UInt8)
    (ha : (aad.map List.length).sum < 0xff00) (hm : m.length < 65536) :
    Triple ch.ideal (Has K x) (ccmMacWith idle buildB0 nonce aad m)
      (fun r t => r = Ccm.mac (ch.cipher K) 8 2 nonce.toList aad.flatten m ∧ ∃ x', Has K x' t) := by
  unfold ccmMacWith Ccm.mac
  simp only [hb _ _ _ hm ha, List.foldl_append, List.length_flatten]
  refine Triple.bind (cbcMacBlock_triple ch hi (K := K) (x := x) _ true) fun _ => ?_
  refine Triple.bind (macAad_triple ch hi aad ha) fun _ => ?_
  refine Triple.bind (macChunks_triple ch hi m) fun _ => ?_
  refine (cbcMacResult_triple ch).conseq (fun _ h => h) ?_
  rintro r t ⟨rfl, ht⟩
  exact ⟨by rw [if_pos rfl, Ccm.macStep, Block.xor_zero], _, ht⟩

/-! ## Counter mode -/

/-- `build_a` builds the counter block of the RFC. -/
theorem buildA_eq (nonce : Vector UInt8 13) {i : Nat} (hi : i < 65536) :
    buildA nonce (.ofNat i) = Ccm.counterBlock 2 nonce.toList i := by
  unfold buildA Ccm.counterBlock
  rw [UInt16.toNat_ofNat', Nat.mod_eq_of_lt hi]
  rfl

theorem ctrChunks_triple (hi : Resting idle) (nonce : Vector UInt8 13) (m : List UInt8) (i : Nat)
    (hn : i + (m.length + 15) / 16 < 65536) :
    Triple ch.ideal (Has K x) (ctrChunks idle nonce i (chunks 16 m))
      (fun r t =>
        r = Ccm.cryptPieces (ch.cipher K) 2 nonce.toList i (chunks 16 m) ∧ Has K x t) := by
  induction m using chunks_induction (n := 16) (by decide) generalizing i with
  | nil =>
    rw [chunks_nil]
    exact Triple.ret fun t ht => ⟨rfl, ht⟩
  | step l hl ih =>
    have hpos := List.length_pos_iff.mpr hl
    rw [chunks_of_ne_nil (by decide) hl]
    refine Triple.bind (ctrBlock_triple ch hi _ _) fun out => ?_
    refine Triple.of_pure fun hout => ?_
    refine Triple.bind (ih (i + 1) (by rw [List.length_drop]; omega)) fun rest => ?_
    refine Triple.ret ?_
    rintro t ⟨rfl, ht⟩
    refine ⟨?_, ht⟩
    have htake : (l.take 16).length ≤ 16 := by
      rw [List.length_take]
      omega
    rw [hout, buildA_eq nonce (by omega), Ccm.take_xor_ofList _ _ htake]
    rfl

/-- `ccm_ctr_crypt` is counter mode as the RFC defines it. -/
theorem ccmCtrCrypt_triple (hi : Resting idle) (nonce : Vector UInt8 13) (m : List UInt8)
    (hm : m.length < 65536) :
    Triple ch.ideal (Has K x) (ccmCtrCryptWith idle nonce m)
      (fun r t => r = Ccm.crypt (ch.cipher K) 2 nonce.toList m ∧ Has K x t) := by
  rw [Ccm.crypt_eq_pieces]
  exact ctrChunks_triple ch hi nonce m 0 (by omega)

/-! ## Encryption and decryption -/

theorem toList_maskTag (mac s0 : Block) :
    (maskTag mac s0).toList = Ccm.xorBytes (mac.toList.take 8) (s0.toList.take 8) := by
  apply List.ext_getElem
  · simp [Ccm.xorBytes]
  · intro i h₁ h₂
    simp [maskTag, Ccm.xorBytes]

/-- The MAC and the first key stream block give the tag. -/
theorem maskTag_eq (nonce : Vector UInt8 13) (a m : List UInt8) (K : Block) :
    (maskTag (Ccm.mac (ch.cipher K) 8 2 nonce.toList a m)
      (Block.zero.xor (ch.cipher K (buildA nonce 0)))).toList =
      Ccm.tag (ch.cipher K) 8 2 nonce.toList a m := by
  rw [toList_maskTag, Block.xor_zero]
  unfold Ccm.tag Ccm.keyBlock
  rw [← buildA_eq nonce (by decide)]
  rfl

theorem encrypt_triple (hi : Resting idle) {buildB0 : BuildB0} (hb : IsB0 buildB0) (key : Block)
    (nonce : Vector UInt8 13) (aad : List (List UInt8)) (m : List UInt8)
    (ha : (aad.map List.length).sum < 0xff00) (hm : m.length < 65536) :
    Triple ch.ideal (Has K x) (encryptWith idle buildB0 key nonce m aad)
      (fun r _ =>
        (r.1, r.2.toList) = Ccm.encrypt (ch.cipher key) 8 2 nonce.toList aad.flatten m) := by
  unfold encryptWith Ccm.encrypt
  refine Triple.bind (loadKey_triple ch key) fun _ => ?_
  refine Triple.bind (ccmMac_triple ch hi hb nonce aad m ha hm) fun mac => ?_
  refine Triple.of_pure fun hmac => ?_
  refine Triple.of_exists fun x' => ?_
  refine Triple.bind (ctrBlock_triple ch hi _ _) fun s0 => ?_
  refine Triple.of_pure fun hs0 => ?_
  refine Triple.bind (ccmCtrCrypt_triple ch hi nonce m hm) fun c => ?_
  refine Triple.ret ?_
  rintro t ⟨rfl, -⟩
  rw [hmac, hs0, maskTag_eq]

/-- What `decrypt_in_place` leaves in the buffer and returns. -/
def decrypted (key : Block) (nonce a c tag : List UInt8) :
    List UInt8 × Except DecryptionFailed Unit :=
  match Ccm.decrypt (ch.cipher key) 8 2 nonce a c tag with
  | some m => (m, .ok ())
  | none => (.replicate c.length 0, .error .decryptionFailed)

theorem decrypt_triple (hi : Resting idle) {buildB0 : BuildB0} (hb : IsB0 buildB0) (key : Block)
    (nonce : Vector UInt8 13) (aad : List (List UInt8)) (c tag : List UInt8)
    (ha : (aad.map List.length).sum < 0xff00) (hc : c.length < 65536) :
    Triple ch.ideal (Has K x) (decryptWith idle buildB0 key nonce c tag aad)
      (fun r _ => r = decrypted ch key nonce.toList aad.flatten c tag) := by
  have hlen := Ccm.length_crypt (E := ch.cipher key) (L := 2) nonce.toList c
  unfold decryptWith decrypted Ccm.decrypt
  refine Triple.bind (loadKey_triple ch key) fun _ => ?_
  refine Triple.bind (ccmCtrCrypt_triple ch hi nonce c hc) fun m => ?_
  refine Triple.of_pure ?_
  rintro rfl
  refine Triple.bind (ccmMac_triple ch hi hb nonce aad _ ha (by rw [hlen]; exact hc)) fun mac => ?_
  refine Triple.of_pure fun hmac => Triple.of_exists fun x' => ?_
  refine Triple.bind (ctrBlock_triple ch hi _ _) fun s0 => ?_
  refine Triple.of_pure fun hs0 => ?_
  rw [hmac, hs0, maskTag_eq, hlen]
  by_cases htag : Ccm.tag (ch.cipher key) 8 2 nonce.toList aad.flatten
      (Ccm.crypt (ch.cipher key) 2 nonce.toList c) = tag
  · rw [if_neg (not_not_intro htag), if_pos htag]
    exact Triple.ret fun _ _ => rfl
  · rw [if_pos htag, if_neg htag]
    exact Triple.ret fun _ _ => rfl

end Engine

/-! ## The blocking driver -/

/-- No operation runs and `DONE` is clear, as after `Aes::new` and after every blocking call. -/
def Asm.Rest (s : Asm) : Prop := s.job = none ∧ s.done = false

section Blocking

variable (ch : Chip) {s : Asm} {α : Type}

/-- A triple on the engine speaks about the blocking driver. -/
theorem blocking_triple {K : Block} {p : Prog bus α} {Q : α → Prop}
    (h : ∀ x, Triple ch.ideal (Has K x) p (fun r _ => Q r)) (hk : ofWords s.key = K) (hs : s.Rest) :
    Q (ch.blocking.eval p s).1 ∧ (ch.blocking.eval p s).2.Rest := by
  obtain ⟨hv, hj, hd, -⟩ := (blocking_sim ch).eval p (s := s) (t := s.engine) ⟨hs.1, hs.2, rfl⟩
  rw [hv]
  exact ⟨h (ofWords s.cbcResult) s.engine ⟨hk, rfl⟩, hj, hd⟩

theorem toNonce_of_length {nonce : List UInt8} (h : nonce.length = 13) :
    ∃ v, toNonce nonce = some v ∧ v.toList = nonce :=
  ⟨_, dif_pos h, rfl⟩

theorem encryptInPlace_eq {buildB0 : BuildB0} (hb : IsB0 buildB0) (key : Block)
    {nonce message : List UInt8} {aad : List (List UInt8)} (hn : nonce.length = 13)
    (hm : message.length < 65536) (ha : (aad.map List.length).sum < 0xff00) (hs : s.Rest) :
    ∃ p, encryptInPlace buildB0 key nonce message aad = some p ∧
      (ch.blocking.eval p s).1.1 = Ccm.crypt (ch.cipher key) 2 nonce message ∧
      (ch.blocking.eval p s).1.2.toList =
        Ccm.tag (ch.cipher key) 8 2 nonce aad.flatten message := by
  obtain ⟨v, hv, rfl⟩ := toNonce_of_length hn
  refine ⟨_, by rw [encryptInPlace, hv]; rfl, ?_⟩
  have henc := blocking_triple ch
    (fun _ => encrypt_triple ch (.inl rfl) hb key v aad message ha hm) rfl hs
  exact Prod.mk.inj henc.1

/-- **AES-CCM.** `encrypt_in_place` leaves the ciphertext of RFC 3610 (`M = 8`, `L = 2`) in the
buffer and returns its tag, for the additional data put together. -/
theorem encryptInPlace_ccm {buildB0 : BuildB0} (hb : IsB0 buildB0) (key : Block)
    {nonce message : List UInt8} {aad : List (List UInt8)} (hn : nonce.length = 13)
    (hm : message.length < 65536) (ha : (aad.map List.length).sum < 0xff00) (hs : s.Rest) :
    ∃ p, encryptInPlace buildB0 key nonce message aad = some p ∧
      ((ch.blocking.eval p s).1.1, (ch.blocking.eval p s).1.2.toList) =
        Ccm.encrypt (ch.cipher key) 8 2 nonce aad.flatten message := by
  obtain ⟨p, hp, hc, ht⟩ := encryptInPlace_eq ch hb key hn hm ha hs
  refine ⟨p, hp, ?_⟩
  rw [hc, ht]
  rfl

/-- A chip with a toy cipher, whose operations take five checks. -/
def Chip.toy : Chip where
  cipher k b := k.xor b
  latency _ := 5
  junk _ _ := 0

/-- All registers are zero, and `CONTROL1` is at rest. -/
def Asm.zero : Asm where
  key := .replicate 4 0
  data := .replicate 4 0
  ctr := .replicate 4 0
  ctrResult := .replicate 4 0
  cbcResult := .replicate 4 0
  control1 := control1Idle
  done := false
  job := none
  starts := 0

/-- Three bytes, with the additional data in three pieces, one of them empty. -/
theorem encryptInPlace_ccm_toy :
    ∃ p, encryptInPlace (fun nonce m a t => Ccm.b0 t 2 nonce.toList m a) .zero (.replicate 13 7)
        [1, 2, 3] [[4], [], [5, 6]] = some p ∧
      ((Chip.toy.blocking.eval p Asm.zero).1.1, (Chip.toy.blocking.eval p Asm.zero).1.2.toList) =
        Ccm.encrypt (Chip.toy.cipher .zero) 8 2 (.replicate 13 7) [4, 5, 6] [1, 2, 3] :=
  encryptInPlace_ccm Chip.toy (fun _ _ _ _ _ => rfl) .zero rfl (by decide) (by decide) ⟨rfl, rfl⟩

/-- `decrypt_in_place` is the decryption of RFC 3610, with the buffer zeroed where it fails. -/
theorem decryptInPlace_ccm {buildB0 : BuildB0} (hb : IsB0 buildB0) (key : Block)
    {nonce c tag : List UInt8} {aad : List (List UInt8)} (hn : nonce.length = 13)
    (ht : tag.length = 8) (hc : c.length < 65536) (ha : (aad.map List.length).sum < 0xff00)
    (hs : s.Rest) :
    ∃ q, decryptInPlace buildB0 key nonce c tag aad = some q ∧
      (ch.blocking.eval q s).1 = decrypted ch key nonce aad.flatten c tag := by
  obtain ⟨v, hv, rfl⟩ := toNonce_of_length hn
  refine ⟨decryptWith control1Idle buildB0 key v c tag aad, ?_, ?_⟩
  · unfold decryptInPlace
    rw [hv]
    simp only [Option.bind_eq_bind, Option.bind_some, ht, ne_eq, not_true_eq_false, ↓reduceIte]
    rfl
  · exact (blocking_triple ch (fun _ => decrypt_triple ch (.inl rfl) hb key v aad c tag ha hc) rfl
      hs).1

/-- **Decryption.** `decrypt_in_place` gives back the message that `encrypt_in_place` encrypted,
also with the additional data cut in another way. For every ciphertext there is a message that
`encrypt_in_place` encrypts to it: with the tag of that message `decrypt_in_place` leaves it in
the buffer and returns `Ok`, with every other tag it zeroes the buffer and fails. -/
theorem decryptInPlace_inverts {buildB0 : BuildB0} (hb : IsB0 buildB0) (key : Block)
    {nonce : List UInt8} {aad aad' : List (List UInt8)} (hn : nonce.length = 13)
    (ha : (aad.map List.length).sum < 0xff00) (haad : aad'.flatten = aad.flatten)
    {s s' : Asm} (hs : s.Rest) (hs' : s'.Rest) :
    (∀ message, message.length < 65536 →
      ∃ p q, encryptInPlace buildB0 key nonce message aad = some p ∧
        decryptInPlace buildB0 key nonce (ch.blocking.eval p s).1.1
          (ch.blocking.eval p s).1.2.toList aad' = some q ∧
        (ch.blocking.eval q s').1 = (message, .ok ())) ∧
    ∀ c tag, c.length < 65536 → tag.length = 8 →
      ∃ message p q, encryptInPlace buildB0 key nonce message aad = some p ∧
        (ch.blocking.eval p s).1.1 = c ∧
        decryptInPlace buildB0 key nonce c tag aad' = some q ∧
        (ch.blocking.eval q s').1 =
          if tag = (ch.blocking.eval p s).1.2.toList then (message, .ok ())
          else (.replicate c.length 0, .error .decryptionFailed) := by
  have ha' : (aad'.map List.length).sum < 0xff00 := by
    rw [← List.length_flatten, haad, List.length_flatten]
    exact ha
  constructor
  · intro m hm
    obtain ⟨p, hp, hc, ht⟩ := encryptInPlace_eq ch hb key hn hm ha hs
    have hlen : (ch.blocking.eval p s).1.1.length = m.length := by
      rw [hc]
      exact Ccm.length_crypt nonce m
    have htl : (ch.blocking.eval p s).1.2.toList.length = 8 := Vector.length_toList
    obtain ⟨q, hq, hdec⟩ := decryptInPlace_ccm ch hb key (c := (ch.blocking.eval p s).1.1) hn htl
      (by omega) ha' hs'
    refine ⟨p, q, hp, hq, ?_⟩
    have hinv : Ccm.decrypt (ch.cipher key) 8 2 nonce aad.flatten
        (Ccm.crypt (ch.cipher key) 2 nonce m) (Ccm.tag (ch.cipher key) 8 2 nonce aad.flatten m) =
          some m :=
      Ccm.decrypt_encrypt nonce aad.flatten m
    rw [hdec, haad, hc, ht]
    unfold decrypted
    rw [hinv]
  · intro c tag hc ht
    have hlen := Ccm.length_crypt (E := ch.cipher key) (L := 2) nonce c
    have hcl : (Ccm.crypt (ch.cipher key) 2 nonce c).length < 65536 := by omega
    -- The message is the decrypted ciphertext: encryption is its own inverse.
    obtain ⟨p, hp, hcr, htag⟩ := encryptInPlace_eq ch hb key hn hcl ha hs
    obtain ⟨q, hq, hdec⟩ := decryptInPlace_ccm ch hb key (c := c) hn ht hc ha' hs'
    refine ⟨Ccm.crypt (ch.cipher key) 2 nonce c, p, q, hp, ?_, hq, ?_⟩
    · rw [hcr]
      exact Ccm.crypt_crypt nonce c
    · rw [hdec, haad, htag]
      unfold decrypted Ccm.decrypt
      by_cases h : Ccm.tag (ch.cipher key) 8 2 nonce aad.flatten
          (Ccm.crypt (ch.cipher key) 2 nonce c) = tag
      · rw [if_pos h, if_pos h.symm]
      · rw [if_neg h, if_neg fun e => h e.symm]

/-- Three bytes that were authenticated with two more, cut in two ways. -/
theorem decryptInPlace_inverts_toy :
    (∀ message, message.length < 65536 →
      ∃ p q, encryptInPlace (fun nonce m a t => Ccm.b0 t 2 nonce.toList m a) .zero
          (.replicate 13 7) message [[4, 5]] = some p ∧
        decryptInPlace (fun nonce m a t => Ccm.b0 t 2 nonce.toList m a) .zero (.replicate 13 7)
          (Chip.toy.blocking.eval p Asm.zero).1.1
          (Chip.toy.blocking.eval p Asm.zero).1.2.toList [[4], [], [5]] = some q ∧
        (Chip.toy.blocking.eval q Asm.zero).1 = (message, .ok ())) ∧
    ∀ c tag, c.length < 65536 → tag.length = 8 →
      ∃ message p q, encryptInPlace (fun nonce m a t => Ccm.b0 t 2 nonce.toList m a) .zero
          (.replicate 13 7) message [[4, 5]] = some p ∧
        (Chip.toy.blocking.eval p Asm.zero).1.1 = c ∧
        decryptInPlace (fun nonce m a t => Ccm.b0 t 2 nonce.toList m a) .zero (.replicate 13 7)
          c tag [[4], [], [5]] = some q ∧
        (Chip.toy.blocking.eval q Asm.zero).1 =
          if tag = (Chip.toy.blocking.eval p Asm.zero).1.2.toList then (message, .ok ())
          else (.replicate c.length 0, .error .decryptionFailed) := by
  have hsum : (([[4, 5]] : List (List UInt8)).map List.length).sum < 0xff00 := by decide
  have hnonce : (List.replicate 13 (7 : UInt8)).length = 13 := rfl
  have hcut : ([[4], [], [5]] : List (List UInt8)).flatten = [[4, 5]].flatten := rfl
  have hrest : Asm.zero.Rest := ⟨rfl, rfl⟩
  exact decryptInPlace_inverts Chip.toy (fun _ _ _ _ _ => rfl) .zero hnonce hsum hcut hrest hrest

end Blocking

end Mc1322x.Aes
