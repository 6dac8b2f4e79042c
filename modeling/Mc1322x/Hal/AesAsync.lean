import Mc1322x.Hal.AesCcm
import Mc1322x.Hal.Util
import Mc1322x.Lib.Async

/-!
# The async AES driver

`pollWait` is the closure that `start_and_wait_async` polls, `asmIsr` the interrupt handler. On
`Chip.async` an operation completes at any time, the handler runs at any time, and the task is
polled at any time, by its own waker or another branch of its task.

`async_agrees`: where no poll resolves a wait while the operation still runs (`Prompt`), an async
function returns what the blocking one returns. Once armed, a wait resolves at its next poll without
a look at the hardware, so a poll that comes too early reads a result register before its result is
there (`async_reads_early`).
-/

namespace Mc1322x.Aes

open Bytes Mmio

/-- The ASM, the driver's static `WAKER`, and the waker of the task's context. -/
structure Shared (Waker : Type) where
  asm : Asm
  waker : WakerCell Waker
  cx : Waker

variable {Waker : Type} (ch : Chip)

/-- One poll of `start_and_wait_async`. -/
def pollWait (armed : Bool) (s : Shared Waker) : Option Unit × Shared Waker :=
  if armed then (some (), s)
  else if (pollDoneStatus ch s.asm).1 then (some (), { s with asm := (pollDoneStatus ch s.asm).2 })
  else (none, { s with asm := (pollDoneStatus ch s.asm).2, waker := s.waker.set s.cx })

/-- `asm_isr`: the waker woken, and the state after it. -/
def asmIsr (s : Shared Waker) : Option Waker × Shared Waker :=
  (s.waker.wake.1, { s with
    asm := ch.writeControl0 control0ClearIrq s.asm
    waker := s.waker.wake.2 })

/-- What happens beside the task. -/
inductive Event (Waker : Type) where
  /-- The operation completes. -/
  | complete
  | isr
  /-- The task is next polled with another waker. -/
  | context (w : Waker)

/-- The ASM with the async driver. -/
def Chip.async (Waker : Type) : AsyncDevice bus (Shared Waker) where
  read r s := (ch.read r s.asm, s)
  write o s := { s with asm := ch.write o s.asm }
  start _ s := { s with asm := ch.writeControl0 control0Start s.asm }
  poll armed _ s := pollWait ch armed s
  Env := Event Waker
  env e s := match e with
    | .complete => some { s with asm := s.asm.complete }
    | .isr => some (asmIsr ch s).2
    | .context w => some { s with cx := w }

/-- No poll resolves a wait while the operation runs: a wait that is armed is not polled before the
end of the operation, and `DONE` is not left from another one. -/
def Prompt {α : Type} : Shared Waker × Fiber bus α → (ch.async Waker).Act → Prop
  | (s, .wait armed _ _), .step => armed = true ∨ s.asm.done = true → s.asm.job = none
  | _, _ => True

instance {α : Type} : (x : Shared Waker × Fiber bus α) → (a : (ch.async Waker).Act) →
    Decidable (Prompt ch x a)
  | (s, .wait armed _ _), .step =>
    inferInstanceAs (Decidable (armed = true ∨ s.asm.done = true → s.asm.job = none))
  | (_, .run _), .step => .isTrue trivial
  | (_, .done _), .step => .isTrue trivial
  | (_, .run _), .env _ => .isTrue trivial
  | (_, .wait ..), .env _ => .isTrue trivial
  | (_, .done _), .env _ => .isTrue trivial

/-! ## The async driver and the engine -/

/-- Between two waits: no operation runs. -/
def Settled (s : Shared Waker) (t : Engine) : Prop := s.asm.job = none ∧ s.asm.engine = t

/-- In a wait: once the operation has completed, the ASM shows the engine after it. -/
def InFlight (s : Shared Waker) (t : Engine) : Prop :=
  s.asm.complete.engine = t.operate ch.cipher

section

variable {ch}

theorem engine_clearIrq (ch : Chip) (s : Asm) :
    (ch.writeControl0 control0ClearIrq s).engine = s.engine ∧
      (ch.writeControl0 control0ClearIrq s).job = s.job := by
  rw [writeControl0_clearIrq]
  exact ⟨rfl, rfl⟩

theorem complete_complete (s : Asm) : s.complete.complete = s.complete := by
  cases h : s.job with
  | none => rw [complete_of_none h, complete_of_none h]
  | some j =>
    apply complete_of_none
    unfold Asm.complete
    rw [h]

theorem complete_clearIrq (ch : Chip) (s : Asm) :
    (ch.writeControl0 control0ClearIrq s).complete.engine = s.complete.engine := by
  rw [writeControl0_clearIrq]
  unfold Asm.complete
  cases s.job <;> rfl

/-- A poll only clears `DONE` and masks the IRQ. -/
theorem complete_pollDoneStatus (s : Asm) :
    (pollDoneStatus ch s).2.complete.engine = s.complete.engine := by
  cases h : s.done with
  | false => rw [pollDoneStatus_of_not_done ch h]
  | true =>
    rw [pollDoneStatus_of_done ch h]
    unfold Asm.complete
    cases s.job with
    | none => exact engine_mask s
    | some j => exact engine_mask { s with ctrResult := j.ctrResult, cbcResult := j.cbcResult }

/-- The async driver refines the engine, as long as a wait resolves only when no operation runs. -/
theorem async_refines : (ch.async Waker).Refines ch.ideal Settled (fun _ => InFlight ch)
    (fun _ s => s.asm.job = none) where
  read r s t h := by
    obtain ⟨hj, rfl⟩ := h
    exact ⟨engine_read ch hj r, hj, rfl⟩
  write o s t h := by
    obtain ⟨hj, rfl⟩ := h
    obtain ⟨he, hj', -⟩ := engine_write ch o s.asm
    exact ⟨hj'.trans hj, he⟩
  start w s t h := by
    obtain ⟨hj, rfl⟩ := h
    exact engine_complete ch
  pending armed w s s' t h hp := by
    have hasm : s'.asm.complete.engine = s.asm.complete.engine := by
      simp only [Chip.async, pollWait] at hp
      split at hp
      · cases hp
      · split at hp <;> cases hp
        exact complete_pollDoneStatus s.asm
    exact hasm.trans h
  resolved armed w s s' t r h hok hp := by
    have hasm : s'.asm.engine = s.asm.engine ∧ s'.asm.job = s.asm.job := by
      simp only [Chip.async, pollWait] at hp
      split at hp
      · cases hp
        exact ⟨rfl, rfl⟩
      · split at hp <;> cases hp
        exact pollDoneStatus_keeps ch s.asm
    -- With no job left, the operation has come to its end in the engine.
    have hmid : s.asm.engine = t.operate ch.cipher := by
      rw [← complete_of_none hok]
      exact h
    exact ⟨rfl, hasm.2.trans hok, hasm.1.trans hmid⟩
  env e s s' t h he := by
    obtain ⟨hj, rfl⟩ := h
    cases e with
    | complete =>
      cases he
      simp only [Settled, complete_of_none hj]
      exact ⟨hj, trivial⟩
    | isr =>
      cases he
      obtain ⟨heng, hjob⟩ := engine_clearIrq ch s.asm
      exact ⟨hjob.trans hj, heng⟩
    | context w =>
      cases he
      exact ⟨hj, rfl⟩
  env_mid e w s s' t h he := by
    cases e with
    | complete =>
      cases he
      simp only [InFlight, complete_complete]
      exact h
    | isr =>
      cases he
      exact (complete_clearIrq ch s.asm).trans h
    | context w =>
      cases he
      exact h

end

/-! ## The two resting states -/

section

variable {idle : UInt32}

/-- On the engine the IRQ mask makes no difference. -/
theorem control1_alike (hi : Resting idle) {mode : UInt32}
    (hm : mode = control1Ctr ∨ mode = control1Cbc) :
    ch.ideal.Alike (.writeReg (.control1 (idle ||| mode)))
      (.writeReg (.control1 (control1Idle ||| mode))) := by
  intro t
  rw [eval_control1, eval_control1]
  rcases hi with rfl | rfl
  · rfl
  · rcases hm with rfl | rfl <;> rfl

theorem ctrBlock_alike (hi : Resting idle) (counter data : Block) :
    ch.ideal.Alike (ctrBlockWith idle counter data) (ctrBlockWith control1Idle counter data) :=
  (control1_alike ch hi (.inl rfl)).bind fun _ => .refl _ _

theorem cbcMacBlock_alike (hi : Resting idle) (block : Block) (first : Bool) :
    ch.ideal.Alike (cbcMacBlockWith idle block first) (cbcMacBlockWith control1Idle block first) :=
  (control1_alike ch hi (.inr rfl)).bind fun _ => .refl _ _

theorem feedPadded_alike (hi : Resting idle) (bytes : List UInt8) (buf : Block) (filled : Fin 16) :
    ch.ideal.Alike (feedPaddedWith idle buf filled bytes)
      (feedPaddedWith control1Idle buf filled bytes) := by
  induction hn : bytes.length using Nat.strongRecOn generalizing bytes buf filled with
  | ind n ih =>
    have hlt := filled.isLt
    by_cases hb : bytes = []
    · rw [hb, feedPadded_nil, feedPadded_nil]
      exact .refl _ _
    have hpos := List.length_pos_iff.mpr hb
    by_cases hfull : 16 ≤ filled.val + bytes.length
    · rw [feedPadded_full hb hfull, feedPadded_full hb hfull]
      refine (cbcMacBlock_alike ch hi _ _).bind fun _ => ?_
      exact ih (bytes.drop (16 - filled.val)).length (by rw [List.length_drop]; omega) _ _ _ rfl
    · rw [feedPadded_part hb (by omega), feedPadded_part hb (by omega)]
      exact .refl _ _

theorem feedChunks_alike (hi : Resting idle) (aad : List (List UInt8)) (buf : Block)
    (filled : Fin 16) :
    ch.ideal.Alike (feedChunks idle buf filled aad) (feedChunks control1Idle buf filled aad) := by
  induction aad generalizing buf filled with
  | nil => exact .refl _ _
  | cons chunk aad ih =>
    exact (feedPadded_alike ch hi chunk buf filled).bind fun r => ih r.1 r.2

theorem macAad_alike (hi : Resting idle) (aad : List (List UInt8)) :
    ch.ideal.Alike (macAad idle aad) (macAad control1Idle aad) := by
  unfold macAad
  by_cases hpos : (aad.map List.length).sum > 0
  · simp only [hpos, ↓reduceIte]
    refine (feedPadded_alike ch hi _ _ _).bind fun r => ?_
    refine (feedChunks_alike ch hi aad _ _).bind fun s => ?_
    by_cases hs : s.2 > 0
    · simp only [hs, ↓reduceIte]
      exact cbcMacBlock_alike ch hi s.1 false
    · simp only [hs, ↓reduceIte]
      exact .refl _ _
  · simp only [hpos, ↓reduceIte]
    exact .refl _ _

theorem macChunks_alike (hi : Resting idle) (pieces : List (List UInt8)) :
    ch.ideal.Alike (macChunks idle pieces) (macChunks control1Idle pieces) := by
  induction pieces with
  | nil => exact .refl _ _
  | cons chunk rest ih => exact (cbcMacBlock_alike ch hi _ false).bind fun _ => ih

theorem ccmMac_alike (hi : Resting idle) (buildB0 : BuildB0) (nonce : Vector UInt8 13)
    (aad : List (List UInt8)) (m : List UInt8) :
    ch.ideal.Alike (ccmMacWith idle buildB0 nonce aad m)
      (ccmMacWith control1Idle buildB0 nonce aad m) :=
  (cbcMacBlock_alike ch hi _ true).bind fun _ =>
    (macAad_alike ch hi aad).bind fun _ => (macChunks_alike ch hi _).bind fun _ => .refl _ _

theorem ctrChunks_alike (hi : Resting idle) (nonce : Vector UInt8 13) (pieces : List (List UInt8))
    (i : Nat) :
    ch.ideal.Alike (ctrChunks idle nonce i pieces) (ctrChunks control1Idle nonce i pieces) := by
  induction pieces generalizing i with
  | nil => exact .refl _ _
  | cons chunk rest ih =>
    exact (ctrBlock_alike ch hi _ _).bind fun _ => (ih (i + 1)).bind fun _ => .refl _ _

theorem encrypt_alike (hi : Resting idle) (buildB0 : BuildB0) (key : Block)
    (nonce : Vector UInt8 13) (m : List UInt8) (aad : List (List UInt8)) :
    ch.ideal.Alike (encryptWith idle buildB0 key nonce m aad)
      (encryptWith control1Idle buildB0 key nonce m aad) :=
  (Device.Alike.refl _ _).bind fun _ => (ccmMac_alike ch hi buildB0 nonce aad m).bind fun _ =>
    (ctrBlock_alike ch hi _ _).bind fun _ => (ctrChunks_alike ch hi nonce _ 0).bind fun _ =>
      .refl _ _

theorem decrypt_alike (hi : Resting idle) (buildB0 : BuildB0) (key : Block)
    (nonce : Vector UInt8 13) (m tag : List UInt8) (aad : List (List UInt8)) :
    ch.ideal.Alike (decryptWith idle buildB0 key nonce m tag aad)
      (decryptWith control1Idle buildB0 key nonce m tag aad) :=
  (Device.Alike.refl _ _).bind fun _ => (ctrChunks_alike ch hi nonce _ 0).bind fun m =>
    (ccmMac_alike ch hi buildB0 nonce aad m).bind fun _ =>
      (ctrBlock_alike ch hi _ _).bind fun _ => .refl _ _

end

/-! ## Prompt polls -/

section

variable {ch} {α : Type}

/-- A prompt poll resolves a wait only when no operation runs. -/
theorem resolves_of_prompt {x : Shared Waker × Fiber bus α} {a : (ch.async Waker).Act}
    (h : Prompt ch x a) : (ch.async Waker).Resolves (fun _ s => s.asm.job = none) x a := by
  obtain ⟨s, task⟩ := x
  cases a with
  | env e => exact trivial
  | step =>
    cases task with
    | run q => exact trivial
    | done a => exact trivial
    | wait armed w k =>
      intro hready
      cases armed with
      | true => exact h (.inl rfl)
      | false =>
        refine h (.inr (Decidable.byContradiction fun hd => hready ?_))
        have hpoll := pollDoneStatus_of_not_done ch (Bool.eq_false_iff.mpr hd)
        simp only [Chip.async, pollWait, hpoll, Bool.false_eq_true, ↓reduceIte]

/-- A task that is done has the result that the blocking driver gives. -/
theorem done_of_prompt {p q : Prog bus α} (hpq : ch.ideal.Alike p q) {s₀ s : Shared Waker}
    (h0 : s₀.asm.Rest) {a : α}
    (hs : ((ch.async Waker).runs p (· = s₀)).Reach (Prompt ch) (s, .done a)) :
    a = (ch.blocking.eval q s₀.asm).1 := by
  have hreach := hs.mono fun _ _ => resolves_of_prompt
  have hsettled : ∀ s, s = s₀ → Settled s s₀.asm.engine := by
    rintro _ rfl
    exact ⟨h0.1, rfl⟩
  have hdone := async_refines.done hsettled hreach
  have hsim := (blocking_sim ch).eval q (s := s₀.asm) (t := s₀.asm.engine) ⟨h0.1, h0.2, rfl⟩
  rw [hdone.1, hpq, hsim.1]

end

/-! ## Async and blocking -/

section

variable (s₀ : Shared Waker)

/-- **The async driver agrees with the blocking one** in every run of prompt polls: what
`ecb_encrypt_block_async`, `encrypt_in_place_async` and `decrypt_in_place_async` resolve to, with
the message buffer, is what their blocking siblings return. -/
theorem async_agrees (buildB0 : BuildB0) (h0 : s₀.asm.Rest) :
    (∀ key block s r,
      ((ch.async Waker).runs (ecbEncryptBlockAsync key block) (· = s₀)).Reach (Prompt ch)
        (s, .done r) →
      r = (ch.blocking.eval (ecbEncryptBlock key block) s₀.asm).1) ∧
    (∀ key nonce message aad p s r,
      encryptInPlaceAsync buildB0 key nonce message aad = some p →
      ((ch.async Waker).runs p (· = s₀)).Reach (Prompt ch) (s, .done r) →
      ∃ q, encryptInPlace buildB0 key nonce message aad = some q ∧
        r = (ch.blocking.eval q s₀.asm).1) ∧
    ∀ key nonce message tag aad p s r,
      decryptInPlaceAsync buildB0 key nonce message tag aad = some p →
      ((ch.async Waker).runs p (· = s₀)).Reach (Prompt ch) (s, .done r) →
      ∃ q, decryptInPlace buildB0 key nonce message tag aad = some q ∧
        r = (ch.blocking.eval q s₀.asm).1 := by
  have hi : Resting control1IdleAsync := .inr rfl
  refine ⟨?_, ?_, ?_⟩
  · intro key block s r hs
    exact done_of_prompt ((Device.Alike.refl _ _).bind fun _ => ctrBlock_alike ch hi _ _) h0 hs
  · intro key nonce message aad p s r hp hs
    obtain ⟨nonce, hn, rfl⟩ := Option.map_eq_some_iff.mp hp
    refine ⟨encryptWith control1Idle buildB0 key nonce message aad, ?_, ?_⟩
    · rw [encryptInPlace, hn]
      rfl
    · exact done_of_prompt (encrypt_alike ch hi buildB0 key nonce message aad) h0 hs
  · intro key nonce message tag aad p s r hp hs
    obtain ⟨nonce', hn, hp⟩ := Option.bind_eq_some_iff.mp hp
    by_cases ht : tag.length = 8
    · simp only [ht, ne_eq, not_true_eq_false, ↓reduceIte] at hp
      cases hp
      refine ⟨decryptWith control1Idle buildB0 key nonce' message tag aad, ?_, ?_⟩
      · simp only [decryptInPlace, hn, ht, ne_eq, not_true_eq_false, ↓reduceIte,
          Option.bind_eq_bind]
        rfl
      · exact done_of_prompt (decrypt_alike ch hi buildB0 key nonce' message tag aad) h0 hs
    · simp only [ht, ne_eq, not_false_eq_true, ↓reduceIte, Option.bind_eq_bind] at hp
      cases hp

end

/-! ## Concrete runs -/

/-- The driver at rest, on the toy chip. -/
def Shared.zero : Shared Nat := ⟨.zero, ⟨none⟩, 0⟩

/-- The tasks that encrypt one block with the zero key. -/
def ecbRuns : Lts :=
  (Chip.toy.async Nat).runs (ecbEncryptBlockAsync .zero (.replicate 16 7)) (· = Shared.zero)

/-- The run along a list of steps. -/
def ecbRun (as : List (Chip.toy.async Nat).Act) :
    List ((Shared Nat × Fiber bus Block) × (Chip.toy.async Nat).Act) ×
      (Shared Nat × Fiber bus Block) :=
  Lts.exec (Chip.toy.async Nat).step
    (.zero, .run (ecbEncryptBlockAsync .zero (.replicate 16 7))) as

theorem ecbRun_reach {C : Shared Nat × Fiber bus Block → (Chip.toy.async Nat).Act → Prop}
    {as : List (Chip.toy.async Nat).Act} (hc : ∀ x ∈ (ecbRun as).1, C x.1 x.2) :
    ecbRuns.Reach C (ecbRun as).2 := by
  have hrun : ecbRuns.Run (.zero, .run (ecbEncryptBlockAsync .zero (.replicate 16 7)))
      (ecbRun as).1 (ecbRun as).2 := .exec _ _ _ as
  exact hrun.reach (.init ⟨rfl, rfl⟩) hc

/-- The task is polled, the operation completes, and the interrupt wakes the task. -/
def ecbPrompt : List (Chip.toy.async Nat).Act :=
  .replicate 15 .step ++ [.env .complete, .env .isr] ++ .replicate 6 .step

theorem async_agrees_one_block :
    ∃ s r, (ecbRun ecbPrompt).2 = (s, .done r) ∧
      r = (Chip.toy.blocking.eval (ecbEncryptBlock .zero (.replicate 16 7)) .zero).1 := by
  have hprompt : ∀ x ∈ (ecbRun ecbPrompt).1, Prompt Chip.toy x.1 x.2 := by decide +kernel
  refine ⟨_, _, rfl, ?_⟩
  exact (async_agrees Chip.toy Shared.zero (fun nonce m a t => Ccm.b0 t 2 nonce.toList m a)
    ⟨rfl, rfl⟩).1 _ _ _ _ (ecbRun_reach hprompt)

/-- The task is polled again for another branch of it, while the operation runs. -/
def ecbEarly : List (Chip.toy.async Nat).Act := .replicate 21 .step

/-- The second poll resolves the wait, and the result registers are read before the operation has
completed. -/
theorem async_reads_early :
    ∃ s r, ecbRuns.Reach (Lts.Any _) (s, .done r) ∧
      r ≠ (Chip.toy.blocking.eval (ecbEncryptBlock .zero (.replicate 16 7)) .zero).1 := by
  refine ⟨(ecbRun ecbEarly).2.1, .zero, ecbRun_reach fun _ _ => trivial, ?_⟩
  decide +kernel

end Mc1322x.Aes
