import Mc1322x.Hal.AesWait

/-!
# The rest state of the ASM

After an operation the ASM should be at rest (`Asm.AtRest`): the IRQ masked, `DONE` clear.

* A program of the driver is a sequence of blocks (`Blocks`): it sets `CONTROL1` before each wait,
  and after the last one it only reads.
* A blocking operation leaves the ASM at rest (`blocking_rests`).
* An async wait masks the IRQ where its first poll finds `DONE` set, and not where a later poll
  resolves it. How the last wait of a run has ended (`lastEnding`) decides in which state the ASM
  is left (`async_left`).
* `sessions`: operations one after the other, blocking and async.
-/

namespace Mc1322x.Aes

open Bytes Mmio

/-- The IRQ is masked. -/
def Asm.Masked (s : Asm) : Prop := s.control1 &&& control1MaskIrq ≠ 0

/-- The state that an operation is to leave. -/
def Asm.AtRest (s : Asm) : Prop := s.Masked ∧ s.done = false

/-! ## Blocks -/

/-- Each wait comes after a write of `CONTROL1`, with the mask of `idle`; `opened` tells that
`CONTROL1` has been written for the next wait. -/
def Blocks (idle : UInt32) {α : Type} : Bool → Prog bus α → Prop
  | opened, .ret _ => opened = false
  | opened, .read _ k => ∀ v, Blocks idle opened (k v)
  | opened, .write o k => match o with
    | .control1 v => v &&& control1MaskIrq = idle &&& control1MaskIrq ∧ Blocks idle true k
    | _ => Blocks idle opened k
  | opened, .wait _ k => opened = true ∧ ∀ r, Blocks idle false (k r)

section Programs

variable {idle : UInt32} {α β : Type}

theorem Blocks.bind {opened : Bool} {p : Prog bus α} {f : α → Prog bus β}
    (hp : Blocks idle opened p) (hf : ∀ a, Blocks idle false (f a)) :
    Blocks idle opened (p >>= f) := by
  induction p generalizing opened with
  | ret a =>
    cases hp
    exact hf a
  | read r k ih => exact fun v => ih v (hp v)
  | write o k ih =>
    cases o with
    | control1 v => exact ⟨hp.1, ih hp.2⟩
    | _ => exact ih hp
  | wait w k ih => exact ⟨hp.1, fun r => ih r (hp.2 r)⟩

theorem blocks_pure (a : α) : Blocks idle false (pure a : Prog bus α) := rfl

/-- The mode bits leave the mask. -/
theorem Resting.mask (h : Resting idle) {mode : UInt32}
    (hm : mode = control1Ctr ∨ mode = control1Cbc) :
    (idle ||| mode) &&& control1MaskIrq = idle &&& control1MaskIrq := by
  rcases h with rfl | rfl <;> rcases hm with rfl | rfl <;> rfl

theorem loadKey_blocks (key : Block) : Blocks idle false (loadKey key) := rfl

theorem ctrBlock_blocks (h : Resting idle) (counter data : Block) :
    Blocks idle false (ctrBlockWith idle counter data) :=
  ⟨h.mask (.inl rfl), rfl, fun _ _ _ _ _ => rfl⟩

theorem ctrBlock_waits (counter data : Block) : (ctrBlockWith idle counter data).Waits := trivial

theorem cbcMacBlock_blocks (h : Resting idle) (block : Block) (first : Bool) :
    Blocks idle false (cbcMacBlockWith idle block first) := by
  cases first <;> exact ⟨h.mask (.inr rfl), rfl, fun _ => rfl⟩

theorem feedPadded_blocks (h : Resting idle) (bytes : List UInt8) (buf : Block)
    (filled : Fin 16) : Blocks idle false (feedPaddedWith idle buf filled bytes) := by
  induction hn : bytes.length using Nat.strongRecOn generalizing bytes buf filled with
  | ind n ih =>
    have hlt := filled.isLt
    by_cases hb : bytes = []
    · rw [hb, feedPadded_nil]
      exact blocks_pure _
    have hpos := List.length_pos_iff.mpr hb
    by_cases hfull : 16 ≤ filled.val + bytes.length
    · rw [feedPadded_full hb hfull]
      refine (cbcMacBlock_blocks h _ _).bind fun _ => ?_
      exact ih (bytes.drop (16 - filled.val)).length (by rw [List.length_drop]; omega) _ _ _ rfl
    · rw [feedPadded_part hb (by omega)]
      exact blocks_pure _

theorem feedChunks_blocks (h : Resting idle) (aad : List (List UInt8)) (buf : Block)
    (filled : Fin 16) : Blocks idle false (feedChunks idle buf filled aad) := by
  induction aad generalizing buf filled with
  | nil => exact blocks_pure _
  | cons chunk aad ih => exact (feedPadded_blocks h chunk buf filled).bind fun r => ih r.1 r.2

theorem macAad_blocks (h : Resting idle) (aad : List (List UInt8)) :
    Blocks idle false (macAad idle aad) := by
  unfold macAad
  by_cases hpos : (aad.map List.length).sum > 0
  · simp only [hpos, ↓reduceIte]
    refine (feedPadded_blocks h _ _ _).bind fun r => (feedChunks_blocks h aad _ _).bind fun s => ?_
    by_cases hs : s.2 > 0
    · simp only [hs, ↓reduceIte]
      exact cbcMacBlock_blocks h s.1 false
    · simp only [hs, ↓reduceIte]
      exact blocks_pure _
  · simp only [hpos, ↓reduceIte]
    exact blocks_pure _

theorem macChunks_blocks (h : Resting idle) (pieces : List (List UInt8)) :
    Blocks idle false (macChunks idle pieces) := by
  induction pieces with
  | nil => exact blocks_pure _
  | cons chunk rest ih => exact (cbcMacBlock_blocks h _ false).bind fun _ => ih

theorem ccmMac_blocks (h : Resting idle) (buildB0 : BuildB0) (nonce : Vector UInt8 13)
    (aad : List (List UInt8)) (m : List UInt8) :
    Blocks idle false (ccmMacWith idle buildB0 nonce aad m) :=
  (cbcMacBlock_blocks h _ true).bind fun _ =>
    (macAad_blocks h aad).bind fun _ => (macChunks_blocks h _).bind fun _ _ _ _ _ => rfl

theorem ctrChunks_blocks (h : Resting idle) (nonce : Vector UInt8 13)
    (pieces : List (List UInt8)) (i : Nat) : Blocks idle false (ctrChunks idle nonce i pieces) := by
  induction pieces generalizing i with
  | nil => exact blocks_pure _
  | cons chunk rest ih =>
    exact (ctrBlock_blocks h _ _).bind fun _ => (ih (i + 1)).bind fun _ => blocks_pure _

/-- A sequence of blocks with at least one wait. -/
def Operates (idle : UInt32) (p : Prog bus α) : Prop := Blocks idle false p ∧ p.Waits

theorem ecbEncryptBlock_operates (h : Resting idle) (key block : Block) :
    Operates idle (ecbEncryptBlockWith idle key block) :=
  ⟨(loadKey_blocks key).bind fun _ => ctrBlock_blocks h _ _,
    .bind_right _ fun _ => ctrBlock_waits _ _⟩

theorem encrypt_operates (h : Resting idle) (buildB0 : BuildB0) (key : Block)
    (nonce : Vector UInt8 13) (m : List UInt8) (aad : List (List UInt8)) :
    Operates idle (encryptWith idle buildB0 key nonce m aad) := by
  constructor
  · exact (loadKey_blocks key).bind fun _ => (ccmMac_blocks h _ _ _ _).bind fun _ =>
      (ctrBlock_blocks h _ _).bind fun _ => (ctrChunks_blocks h _ _ _).bind fun _ => blocks_pure _
  · exact .bind_right _ fun _ => .bind_right _ fun _ => .bind_left (ctrBlock_waits _ _) _

theorem decrypt_operates (h : Resting idle) (buildB0 : BuildB0) (key : Block)
    (nonce : Vector UInt8 13) (m tag : List UInt8) (aad : List (List UInt8)) :
    Operates idle (decryptWith idle buildB0 key nonce m tag aad) := by
  constructor
  · refine (loadKey_blocks key).bind fun _ => (ctrChunks_blocks h _ _ _).bind fun _ =>
      (ccmMac_blocks h _ _ _ _).bind fun mac => (ctrBlock_blocks h _ _).bind fun s0 => ?_
    by_cases ht : (maskTag mac s0).toList ≠ tag
    · rw [if_pos ht]
      exact blocks_pure _
    · rw [if_neg ht]
      exact blocks_pure _
  · exact .bind_right _ fun _ => .bind_right _ fun _ => .bind_right _ fun _ =>
      .bind_left (ctrBlock_waits _ _) _

end Programs

/-! ## Blocking operations -/

section Blocking

variable (ch : Chip)

theorem masked_mask (s : Asm) : (s.writeControl1 (s.control1 ||| control1MaskIrq)).Masked := by
  have h : (s.control1 ||| control1MaskIrq) &&& control1MaskIrq = control1MaskIrq := by
    apply UInt32.toBitVec_inj.mp
    ext i
    simp [Bool.and_or_distrib_right]
  simp only [Asm.Masked, Asm.writeControl1, h]
  decide

theorem masked_pollDoneStatus {s : Asm} (h : s.done = true) : (pollDoneStatus ch s).2.Masked := by
  rw [pollDoneStatus_of_done ch h]
  exact masked_mask { s with done := false }

/-- Of the writes of a program, only the one of `CONTROL1` changes it. -/
theorem control1_write (o : Out) (s : Asm) :
    (∃ v, o = .control1 v) ∨ (ch.write o s).control1 = s.control1 := by
  cases o with
  | control1 v => exact .inl ⟨v, rfl⟩
  | clear =>
    right
    simp only [Chip.write]
    rw [writeControl0_clear]
  | _ => exact .inr rfl

/-- The loop ends with the IRQ masked. -/
theorem spin_masked {s : Asm} (hj : s.job ≠ none) (hd : s.done = false) (n : Nat) :
    (spin ch n s).Masked := by
  induction n with
  | zero => exact masked_pollDoneStatus ch (Wait.done_complete hj)
  | succ n ih =>
    unfold spin
    rw [pollDoneStatus_of_not_done ch hd, if_neg Bool.false_ne_true]
    exact ih

theorem startAndWait_masked {s : Asm} (hd : s.done = false) : (s.startAndWait ch).Masked := by
  unfold Asm.startAndWait
  rw [writeControl0_start]
  exact spin_masked ch (s := { s with job := some (ch.job s), starts := s.starts + 1 })
    (Option.some_ne_none _) hd _

variable {ch}

/-- A blocking program with a wait ends at rest. -/
theorem blocking_rests {α : Type} {p : Prog bus α} {opened : Bool}
    (hp : Blocks control1Idle opened p) {s : Asm} (hs : s.Rest) (hm : s.Masked ∨ p.Waits) :
    (ch.blocking.eval p s).2.Masked ∧ (ch.blocking.eval p s).2.Rest := by
  induction p generalizing opened s with
  | ret a => exact ⟨hm.resolve_right id, hs⟩
  | read r k ih => exact ih _ (hp _) hs (hm.imp_right fun h => h _)
  | write o k ih =>
    obtain ⟨-, hj, hd⟩ := engine_write ch o s
    have hs' : (ch.write o s).Rest := ⟨hj.trans hs.1, hd.trans hs.2⟩
    have hc := control1_write ch o s
    cases o with
    | control1 v =>
      refine ih hp.2 hs' (.inl ?_)
      show v &&& control1MaskIrq ≠ 0
      rw [hp.1]
      decide
    | _ =>
      refine ih hp hs' (hm.imp_left fun h => ?_)
      have hc := hc.resolve_left (by rintro ⟨_, ⟨⟩⟩)
      simp only [Asm.Masked, Chip.blocking, hc]
      exact h
  -- The wait masks the IRQ and clears `DONE`, whatever was before it.
  | wait w k ih =>
    obtain ⟨hj, hd, -⟩ := startAndWait_spec ch hs.2
    exact ih _ (hp.2 _) ⟨hj, hd⟩ (.inl (startAndWait_masked ch hs.2))

end Blocking

/-! ## Async operations -/

/-- The poll that has resolved a wait. -/
structure Ending where
  /-- It was not the first poll of the wait. -/
  armed : Bool
  /-- The operation still ran. -/
  running : Bool
  deriving DecidableEq

variable {Waker : Type} (ch : Chip)

/-- The end of a wait, if the step is one. -/
def ending {α : Type} : (Shared Waker × Fiber bus α) × (ch.async Waker).Act → Option Ending
  | ((s, .wait armed _ _), .step) =>
    if (pollWait ch armed s).1 = none then none else some ⟨armed, s.asm.job.isSome⟩
  | _ => none

/-- How the last wait of a run has ended. -/
def lastEnding {α : Type} (tr : List ((Shared Waker × Fiber bus α) × (ch.async Waker).Act)) :
    Option Ending :=
  (tr.filterMap (ending ch)).getLast?

/-- What a wait leaves: the IRQ masked unless it was armed; and the operation over, `DONE` clear,
where its first poll has seen the completion. -/
def Left (s : Asm) (e : Ending) : Prop :=
  (s.Masked ↔ e.armed = false) ∧ (e.armed = false → e.running = false → s.Rest)

section Async

variable {ch} {α : Type} {tr : List ((Shared Waker × Fiber bus α) × (ch.async Waker).Act)}

theorem lastEnding_snoc (x : Shared Waker × Fiber bus α) (a : (ch.async Waker).Act) :
    lastEnding ch (tr ++ [(x, a)]) = (ending ch (x, a)).or (lastEnding ch tr) := by
  unfold lastEnding
  rw [List.filterMap_append, List.getLast?_append]
  cases h : ending ch (x, a) with
  | none => simp [h]
  | some e => simp [h]

/-- Where the task is: `CONTROL1` is unmasked for the next wait, or left by the last one. -/
def Progress (tr : List ((Shared Waker × Fiber bus α) × (ch.async Waker).Act))
    (x : Shared Waker × Fiber bus α) : Prop :=
  match x.2 with
  | .run q => ∃ opened, Blocks control1IdleAsync opened q ∧
      (q.Waits ∨ lastEnding ch tr ≠ none) ∧
      match opened with
      | true => ¬ x.1.asm.Masked
      | false => ∀ e, lastEnding ch tr = some e → Left x.1.asm e
  | .wait _ _ k => ¬ x.1.asm.Masked ∧ ∀ r, Blocks control1IdleAsync false (k r)
  | .done _ => ∃ e, lastEnding ch tr = some e ∧ Left x.1.asm e

theorem Left.of_eq {s s' : Asm} {e : Ending} (h : Left s e) (hc : s'.control1 = s.control1)
    (hr : s.Rest → s'.Rest) : Left s' e := by
  unfold Left Asm.Masked at *
  rw [hc]
  exact ⟨h.1, fun ha hn => hr (h.2 ha hn)⟩

/-- The hardware and the handler leave `CONTROL1`, and an ASM where no operation runs. -/
theorem env_keeps {s s' : Shared Waker} {e : (ch.async Waker).Env}
    (h : (ch.async Waker).env e s = some s') :
    s'.asm.control1 = s.asm.control1 ∧ (s.asm.Rest → s'.asm.Rest) := by
  cases e with
  | complete =>
    cases h
    refine ⟨Wait.complete_keeps s.asm, fun hr => ?_⟩
    simp only [complete_of_none hr.1]
    exact hr
  | isr =>
    cases h
    simp only [asmIsr]
    rw [writeControl0_clearIrq]
    exact ⟨rfl, fun hr => ⟨hr.1, rfl⟩⟩
  | context w =>
    cases h
    exact ⟨rfl, id⟩

theorem Progress.env {s s' : Shared Waker} {t : Fiber bus α} {e : (ch.async Waker).Env}
    (hx : Progress tr (s, t)) (h : (ch.async Waker).env e s = some s') :
    Progress (tr ++ [((s, t), .env e)]) (s', t) := by
  obtain ⟨hc, hr⟩ := env_keeps h
  have hl : lastEnding ch (tr ++ [((s, t), .env e)]) = lastEnding ch tr := by
    rw [lastEnding_snoc]
    cases t <;> rfl
  cases t with
  | run q =>
    obtain ⟨opened, hq, hw, hm⟩ := hx
    refine ⟨opened, hq, by rw [hl]; exact hw, ?_⟩
    cases opened with
    | true =>
      simp only [Asm.Masked, hc]
      exact hm
    | false =>
      rw [hl]
      exact fun e he => (hm e he).of_eq hc hr
  | wait armed w k =>
    refine ⟨?_, hx.2⟩
    simp only [Asm.Masked, hc]
    exact hx.1
  | done a =>
    obtain ⟨e, he, hleft⟩ := hx
    exact ⟨e, hl.trans he, hleft.of_eq hc hr⟩

/-- A poll of a wait. -/
theorem Progress.poll {s : Shared Waker} {armed : Bool} {w : bus.Wait} {k : bus.Res w → Prog bus α}
    (hx : Progress tr (s, .wait armed w k)) {x' : Shared Waker × Fiber bus α}
    (h : (ch.async Waker).step (s, .wait armed w k) .step = some x') :
    Progress (tr ++ [((s, .wait armed w k), .step)]) x' := by
  obtain ⟨hm, hk⟩ := hx
  have hl : lastEnding ch (tr ++ [((s, .wait armed w k), .step)]) =
      (ending ch ((s, .wait armed w k), .step)).or (lastEnding ch tr) := lastEnding_snoc _ _
  cases armed with
  | true =>
    cases h
    -- An armed wait resolves without a look at the ASM, and leaves the IRQ unmasked.
    refine ⟨false, hk _, .inr ?_, fun e he => ?_⟩
    · rw [hl]
      exact Option.some_ne_none _
    · rw [hl] at he
      cases he
      exact ⟨iff_of_false hm nofun, nofun⟩
  | false =>
    cases hd : s.asm.done with
    | false =>
      have hp : (ch.async Waker).poll false w s =
          (none, { s with waker := s.waker.set s.cx }) := by
        simp only [Chip.async, pollWait, pollDoneStatus_of_not_done ch hd, Bool.false_eq_true,
          ↓reduceIte]
      simp only [AsyncDevice.step, hp] at h
      cases h
      exact ⟨hm, hk⟩
    | true =>
      have hp : (ch.async Waker).poll false w s =
          (some (), { s with asm := (pollDoneStatus ch s.asm).2 }) := by
        simp only [Chip.async, pollWait, pollDoneStatus_of_done ch hd, Bool.false_eq_true,
          ↓reduceIte]
      have he : ending ch ((s, .wait false w k), .step) = some ⟨false, s.asm.job.isSome⟩ := by
        change (pollWait ch false s) = _ at hp
        simp only [ending, hp]
        rfl
      simp only [AsyncDevice.step, hp] at h
      cases h
      rw [he] at hl
      refine ⟨false, hk _, .inr (by rw [hl]; exact Option.some_ne_none _), fun e he => ?_⟩
      rw [hl] at he
      cases he
      refine ⟨iff_of_true (masked_pollDoneStatus ch hd) rfl, fun _ hn => ⟨?_, ?_⟩⟩
      · rw [(pollDoneStatus_keeps ch s.asm).2]
        exact Option.isNone_iff_eq_none.mp (by simpa using hn)
      · rw [pollDoneStatus_of_done ch hd]

/-- A write: `CONTROL1` unmasks the IRQ for the next wait, and no other register masks it. -/
theorem Progress.write {s : Shared Waker} {o : bus.Out} {k : Prog bus α}
    (hx : Progress tr (s, .run (.write o k))) {x' : Shared Waker × Fiber bus α}
    (h : (ch.async Waker).step (s, .run (.write o k)) .step = some x') :
    Progress (tr ++ [((s, .run (.write o k)), .step)]) x' := by
  have hl : lastEnding ch (tr ++ [((s, .run (.write o k)), .step)]) = lastEnding ch tr :=
    lastEnding_snoc _ _
  obtain ⟨opened, hq, hw, hm⟩ := hx
  obtain ⟨-, hj, hd⟩ := engine_write ch o s.asm
  have hc := control1_write ch o s.asm
  cases h
  cases o with
  | control1 v =>
    refine ⟨true, hq.2, hw.imp id fun h => by rw [hl]; exact h, ?_⟩
    show ¬ v &&& control1MaskIrq ≠ 0
    rw [hq.1]
    decide
  | _ =>
    have hc := hc.resolve_left (by rintro ⟨_, ⟨⟩⟩)
    refine ⟨opened, hq, hw.imp id fun h => by rw [hl]; exact h, ?_⟩
    rw [hl]
    cases opened with
    | true =>
      simp only [Asm.Masked, Chip.async, hc]
      exact hm
    | false =>
      exact fun e he => (hm e he).of_eq hc fun hr => ⟨hj.trans hr.1, hd.trans hr.2⟩

theorem Progress.step {x x' : Shared Waker × Fiber bus α} {a : (ch.async Waker).Act}
    (hx : Progress tr x) (h : (ch.async Waker).step x a = some x') :
    Progress (tr ++ [(x, a)]) x' := by
  obtain ⟨s, t⟩ := x
  cases a with
  | env e =>
    rw [AsyncDevice.step_env, Option.map_eq_some_iff] at h
    obtain ⟨s', he, rfl⟩ := h
    exact hx.env he
  | step =>
    cases t with
    | wait armed w k => exact hx.poll h
    | done a => cases h
    | run q =>
      have hl : lastEnding ch (tr ++ [((s, .run q), .step)]) = lastEnding ch tr :=
        lastEnding_snoc _ _
      obtain ⟨opened, hq, hw, hm⟩ := hx
      cases q with
      | ret a =>
        cases h
        cases hq
        obtain ⟨e, he⟩ := Option.ne_none_iff_exists'.mp (hw.resolve_left id)
        exact ⟨e, hl.trans he, hm e he⟩
      | read r k =>
        cases h
        refine ⟨opened, hq _, hw.imp (fun h => h _) fun h => by rw [hl]; exact h, ?_⟩
        rw [hl]
        exact hm
      | wait w k =>
        cases h
        obtain ⟨rfl, hk⟩ := hq
        refine ⟨?_, hk⟩
        simp only [Chip.async, writeControl0_start]
        exact hm
      | write o k => exact Progress.write ⟨opened, hq, hw, hm⟩ h

/-- How the last wait has ended decides what an async operation leaves. -/
theorem async_left {p : Prog bus α} (hp : Operates control1IdleAsync p) {s s' : Shared Waker}
    {a : α} (h : ((ch.async Waker).runs p (· = s)).Run (s, .run p) tr (s', .done a)) :
    ∃ e, lastEnding ch tr = some e ∧ Left s'.asm e := by
  change Progress tr (s', .done a)
  refine Lts.Run.induct (I := Progress) ?_ ?_ h
  · exact ⟨false, hp.1, .inl hp.2, nofun⟩
  · intro tr x a x' _ hx hst
    exact hx.step hst

end Async

/-! ## Sessions -/

/-- An operation and its arguments. -/
inductive Op where
  | ecbEncryptBlock (key block : Block)
  | encryptInPlace (key : Block) (nonce message : List UInt8) (aad : List (List UInt8))
  | decryptInPlace (key : Block) (nonce message tag : List UInt8) (aad : List (List UInt8))

namespace Op

/-- What an operation returns. -/
abbrev Res : Op → Type
  | .ecbEncryptBlock .. => Block
  | .encryptInPlace .. => List UInt8 × Vector UInt8 8
  | .decryptInPlace .. => List UInt8 × Except DecryptionFailed Unit

/-- The blocking function; `none` is a panic on the length of an argument. -/
def blocking (buildB0 : BuildB0) : (op : Op) → Option (Prog bus op.Res)
  | .ecbEncryptBlock key block => some (Aes.ecbEncryptBlock key block)
  | .encryptInPlace key nonce message aad => Aes.encryptInPlace buildB0 key nonce message aad
  | .decryptInPlace key nonce message tag aad =>
    Aes.decryptInPlace buildB0 key nonce message tag aad

/-- Its async equivalent. -/
def async (buildB0 : BuildB0) : (op : Op) → Option (Prog bus op.Res)
  | .ecbEncryptBlock key block => some (Aes.ecbEncryptBlockAsync key block)
  | .encryptInPlace key nonce message aad => Aes.encryptInPlaceAsync buildB0 key nonce message aad
  | .decryptInPlace key nonce message tag aad =>
    Aes.decryptInPlaceAsync buildB0 key nonce message tag aad

theorem operates_decrypt {idle : UInt32} (hi : Resting idle) {buildB0 : BuildB0} {key : Block}
    {nonce message tag : List UInt8} {aad : List (List UInt8)}
    {p : Prog bus (List UInt8 × Except DecryptionFailed Unit)}
    (h : (do
      let nonce ← toNonce nonce
      if tag.length ≠ 8 then none
      return decryptWith idle buildB0 key nonce message tag aad) = some p) : Operates idle p := by
  obtain ⟨nonce', -, h⟩ := Option.bind_eq_some_iff.mp h
  by_cases ht : tag.length = 8
  · simp only [ht, ne_eq, not_true_eq_false, ↓reduceIte] at h
    cases h
    exact decrypt_operates hi _ _ _ _ _ _
  · simp only [ht, ne_eq, not_false_eq_true, ↓reduceIte, Option.bind_eq_bind] at h
    cases h

theorem blocking_operates {buildB0 : BuildB0} {op : Op} {p : Prog bus op.Res}
    (h : op.blocking buildB0 = some p) : Operates control1Idle p := by
  cases op with
  | ecbEncryptBlock key block =>
    cases h
    exact ecbEncryptBlock_operates (.inl rfl) key block
  | encryptInPlace key nonce message aad =>
    obtain ⟨nonce, -, rfl⟩ := Option.map_eq_some_iff.mp h
    exact encrypt_operates (.inl rfl) _ _ _ _ _
  | decryptInPlace key nonce message tag aad => exact operates_decrypt (.inl rfl) h

theorem async_operates {buildB0 : BuildB0} {op : Op} {p : Prog bus op.Res}
    (h : op.async buildB0 = some p) : Operates control1IdleAsync p := by
  cases op with
  | ecbEncryptBlock key block =>
    cases h
    exact ecbEncryptBlock_operates (.inr rfl) key block
  | encryptInPlace key nonce message aad =>
    obtain ⟨nonce, -, rfl⟩ := Option.map_eq_some_iff.mp h
    exact encrypt_operates (.inr rfl) _ _ _ _ _
  | decryptInPlace key nonce message tag aad => exact operates_decrypt (.inr rfl) h

end Op

/-- A step of a session. -/
inductive Call (Waker : Type) where
  /-- A blocking operation. -/
  | blocking (op : Op)
  /-- An async operation that completes, by the run `tr`. -/
  | async (op : Op) (tr : List ((Shared Waker × Fiber bus op.Res) × (ch.async Waker).Act))
  /-- Between two operations. -/
  | env (e : Event Waker)

/-- Operations one after the other, from the state that `Aes::new` leaves. -/
def sessions (buildB0 : BuildB0) (Waker : Type) : Lts where
  St := Shared Waker
  Act := Call ch Waker
  init s := s.asm.control1 = control1Idle ∧ s.asm.Rest
  step s c s' := match c with
    | .blocking op => ∃ p, op.blocking buildB0 = some p ∧
        s' = { s with asm := (ch.blocking.eval p s.asm).2 }
    | .async op tr => ∃ p a, op.async buildB0 = some p ∧
        ((ch.async Waker).runs p (· = s)).Run (s, .run p) tr (s', .done a)
    | .env e => (ch.async Waker).env e s = some s'

/-- The last wait of an async operation ends in its first poll, which finds the operation completed.
-/
def SeesLast : Shared Waker → Call ch Waker → Prop
  | _, .async _ tr => lastEnding ch tr = some ⟨false, false⟩
  | _, _ => True

section Sessions

variable {ch} {buildB0 : BuildB0}

theorem session_rests {s : Shared Waker}
    (h : (sessions ch buildB0 Waker).Reach (SeesLast ch) s) : s.asm.Masked ∧ s.asm.Rest := by
  refine Lts.Reach.induct (I := fun s : Shared Waker => s.asm.Masked ∧ s.asm.Rest) ?_ ?_ h
  · rintro s ⟨hc, hr⟩
    refine ⟨?_, hr⟩
    rw [Asm.Masked, hc]
    decide
  · rintro s c s' ⟨hm, hr⟩ hc hst
    cases c with
    | blocking op =>
      obtain ⟨p, hp, rfl⟩ := hst
      exact blocking_rests (Op.blocking_operates hp).1 hr (.inl hm)
    | async op tr =>
      obtain ⟨p, a, hp, hrun⟩ := hst
      -- The last wait of an operation decides how it leaves the ASM.
      obtain ⟨e, he, hleft⟩ := async_left (Op.async_operates hp) hrun
      cases (show lastEnding ch tr = _ from hc).symm.trans he
      exact ⟨hleft.1.mpr rfl, hleft.2 rfl rfl⟩
    | env e =>
      obtain ⟨hk, hrest⟩ := env_keeps hst
      refine ⟨?_, hrest hr⟩
      rw [Asm.Masked, hk]
      exact hm

variable (ch) (buildB0) (Waker)

/-- **The rest state is restored** in the sessions whose async operations end in the first poll of
their last wait: no interrupt is raised between two operations, and a blocking operation returns
what the engine computes. Where the interrupt has ended the last wait, the IRQ is left unmasked. -/
theorem rest_restored_iff :
    (∀ s, (sessions ch buildB0 Waker).Reach (SeesLast ch) s →
      s.asm.AtRest ∧ s.asm.irq = false ∧
      ∀ (op : Op) (p : Prog bus op.Res), op.blocking buildB0 = some p →
        (ch.blocking.eval p s.asm).1 = (ch.ideal.eval p s.asm.engine).1) ∧
    ∀ s op tr s', (sessions ch buildB0 Waker).step s (.async op tr) s' →
      ∃ e, lastEnding ch tr = some e ∧ (s'.asm.Masked ↔ e.armed = false) ∧
        (e.running = false → (s'.asm.AtRest ↔ e.armed = false)) := by
  constructor
  · intro s hs
    obtain ⟨hm, hr⟩ := session_rests hs
    refine ⟨⟨hm, hr.2⟩, ?_, fun op p _ => ?_⟩
    · rw [Asm.irq, hr.2, Bool.false_and]
    · exact ((blocking_sim ch).eval p ⟨hr.1, hr.2, rfl⟩).1
  · rintro s op tr s' ⟨p, a, hp, hrun⟩
    obtain ⟨e, he, hleft⟩ := async_left (Op.async_operates hp) hrun
    refine ⟨e, he, hleft.1, fun hn => ⟨fun h => hleft.1.mp h.1, fun h => ?_⟩⟩
    exact ⟨hleft.1.mpr h, (hleft.2 h hn).2⟩

end Sessions

/-! ## Concrete runs -/

/-- `build_b0` on the toy chip. -/
def toyB0 : BuildB0 := fun nonce m a t => Ccm.b0 t 2 nonce.toList m a

/-- A run of `ecb_encrypt_block_async`, as a call. -/
theorem ecbRun_step (as : List (Chip.toy.async Nat).Act) {r : Block}
    (h : (ecbRun as).2.2 = .done r) :
    (sessions Chip.toy toyB0 Nat).step Shared.zero
      (.async (.ecbEncryptBlock .zero (.replicate 16 7)) (ecbRun as).1) (ecbRun as).2.1 := by
  have hrun : ecbRuns.Run (.zero, .run (ecbEncryptBlockAsync .zero (.replicate 16 7)))
      (ecbRun as).1 ((ecbRun as).2.1, (ecbRun as).2.2) := .exec _ _ _ as
  rw [h] at hrun
  exact ⟨_, r, rfl, hrun⟩

/-- The operation completes before the task is first polled. -/
def ecbSeen : List (Chip.toy.async Nat).Act :=
  .replicate 14 .step ++ [.env .complete] ++ .replicate 6 .step

theorem ecbSeen_atRest : (ecbRun ecbSeen).2.1.asm.AtRest := by
  have hlast : lastEnding Chip.toy (ecbRun ecbSeen).1 = some ⟨false, false⟩ := by decide +kernel
  have hstep := ecbRun_step ecbSeen rfl
  refine ((rest_restored_iff Nat Chip.toy toyB0).1 _ ?_).1
  refine .step (.init ⟨rfl, rfl, rfl⟩) ?_ hstep
  exact hlast

/-- The interrupt ends the wait, and the IRQ is left unmasked. -/
theorem ecbPrompt_unmasked :
    ∃ s, (sessions Chip.toy toyB0 Nat).Reach (Lts.Any _) s ∧ ¬ s.asm.AtRest := by
  have hstep := ecbRun_step ecbPrompt rfl
  refine ⟨_, .step (.init ⟨rfl, rfl, rfl⟩) trivial hstep, fun h => ?_⟩
  exact h.1 (by decide +kernel)

end Mc1322x.Aes
