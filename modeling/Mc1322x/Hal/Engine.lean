import Mc1322x.Hal.Aes

/-!
# The AES engine without its timing

`Engine` is what the ASM computes: the data registers and the modes. On `Chip.ideal` an operation is
one step. The ASM shows an engine at any time (`Asm.engine`), and once the operation that runs has
completed, the engine after the operation (`engine_complete`).

`blocking_sim`: with the busy-waiting driver the ASM answers as the engine, whatever the latency of
its operations and whatever it shows while they run.
-/

namespace Mc1322x.Aes

open Bytes Mmio

/-- What the ASM computes from, of its registers. -/
structure Engine where
  key : Words
  data : Words
  ctr : Words
  ctrResult : Words
  acc : Words
  ctrMode : Bool
  cbcMode : Bool

/-- One operation. -/
def Engine.operate (cipher : Block → Block → Block) (t : Engine) : Engine :=
  { t with
    ctrResult :=
      if t.ctrMode then
        toWords ((ofWords t.data).xor (cipher (ofWords t.key) (ofWords t.ctr)))
      else t.ctrResult
    acc :=
      if t.cbcMode then
        toWords (cipher (ofWords t.key) ((ofWords t.acc).xor (ofWords t.data)))
      else t.acc }

/-- The engine on the bus. -/
def Chip.ideal (ch : Chip) : Device bus Engine where
  read r t := (match r with
    | .ctrResult i => t.ctrResult.get i
    | .cbcResult i => t.acc.get i, t)
  write o t := match o with
    | .key i v => { t with key := t.key.put i v }
    | .data i v => { t with data := t.data.put i v }
    | .ctr i v => { t with ctr := t.ctr.put i v }
    | .clear => { t with acc := toWords .zero }
    | .control1 v =>
      { t with ctrMode := v &&& control1Ctr ≠ 0, cbcMode := v &&& control1Cbc ≠ 0 }
  wait _ t := ((), t.operate ch.cipher)

/-- The engine that the ASM's registers show. -/
def Asm.engine (s : Asm) : Engine where
  key := s.key
  data := s.data
  ctr := s.ctr
  ctrResult := s.ctrResult
  acc := s.cbcResult
  ctrMode := s.control1 &&& control1Ctr ≠ 0
  cbcMode := s.control1 &&& control1Cbc ≠ 0

variable (ch : Chip)

/-! ## The control register -/

theorem writeControl0_start (s : Asm) :
    ch.writeControl0 control0Start s =
      { s with job := some (ch.job s), starts := s.starts + 1 } := by
  unfold Chip.writeControl0
  rw [if_pos (by decide), if_neg (by decide), if_neg (by decide)]

theorem writeControl0_clear (s : Asm) :
    ch.writeControl0 control0Clear s = { s with cbcResult := toWords .zero } := by
  unfold Chip.writeControl0
  rw [if_neg (by decide), if_neg (by decide), if_pos (by decide)]

theorem writeControl0_clearIrq (s : Asm) :
    ch.writeControl0 control0ClearIrq s = { s with done := false } := by
  unfold Chip.writeControl0
  rw [if_neg (by decide), if_pos (by decide), if_neg (by decide)]

/-- Masking the IRQ leaves the modes. -/
theorem engine_mask (s : Asm) :
    (s.writeControl1 (s.control1 ||| control1MaskIrq)).engine = s.engine := by
  have hbit : ∀ k : UInt32, control1MaskIrq &&& k = 0 →
      (s.control1 ||| control1MaskIrq) &&& k = s.control1 &&& k := by
    intro k hk
    have hd : (s.control1 ||| control1MaskIrq) &&& k =
        s.control1 &&& k ||| control1MaskIrq &&& k := by
      apply UInt32.toBitVec_inj.mp
      ext i
      simp [Bool.and_or_distrib_right]
    rw [hd, hk, UInt32.or_zero]
  unfold Asm.writeControl1 Asm.engine
  simp only [hbit control1Ctr (by decide), hbit control1Cbc (by decide)]

theorem pollDoneStatus_of_not_done {s : Asm} (h : s.done = false) :
    pollDoneStatus ch s = (false, s) := by
  unfold pollDoneStatus Asm.status
  rw [h]
  rfl

theorem pollDoneStatus_of_done {s : Asm} (h : s.done = true) :
    pollDoneStatus ch s =
      (true, { s with done := false, control1 := s.control1 ||| control1MaskIrq }) := by
  unfold pollDoneStatus Asm.status
  rw [h, if_neg (by decide), writeControl0_clearIrq]
  rfl

/-- `poll_done_status` leaves the engine and the operation that runs. -/
theorem pollDoneStatus_keeps (s : Asm) :
    (pollDoneStatus ch s).2.engine = s.engine ∧ (pollDoneStatus ch s).2.job = s.job := by
  cases h : s.done with
  | false => rw [pollDoneStatus_of_not_done ch h]; exact ⟨rfl, rfl⟩
  | true => rw [pollDoneStatus_of_done ch h]; exact ⟨engine_mask s, rfl⟩

/-! ## The end of an operation -/

theorem complete_of_none {s : Asm} (h : s.job = none) : s.complete = s := by
  unfold Asm.complete
  rw [h]

/-- Once the operation has completed, the ASM shows the engine after it. -/
theorem engine_complete {s : Asm} :
    (ch.writeControl0 control0Start s).complete.engine = s.engine.operate ch.cipher := by
  rw [writeControl0_start]
  simp [Asm.complete, Asm.engine, Engine.operate, Chip.job]

/-- The loop ends with the operation completed, and `DONE` cleared. -/
theorem spin_spec {s : Asm} {j : Job} (hj : s.job = some j) (hd : s.done = false) (n : Nat) :
    (spin ch n s).job = none ∧ (spin ch n s).done = false ∧
      (spin ch n s).engine = s.complete.engine := by
  induction n with
  | zero =>
    have hc : s.complete.done = true := by
      unfold Asm.complete
      rw [hj]
    have hn : s.complete.job = none := by
      unfold Asm.complete
      rw [hj]
    obtain ⟨he, hjob⟩ := pollDoneStatus_keeps ch s.complete
    unfold spin
    refine ⟨hjob.trans hn, ?_, he⟩
    rw [pollDoneStatus_of_done ch hc]
  | succ n ih =>
    unfold spin
    rw [pollDoneStatus_of_not_done ch hd, if_neg Bool.false_ne_true]
    exact ih

/-! ## The busy-waiting driver -/

/-- No operation runs, `DONE` is clear, and the ASM shows the engine. -/
def Idle (s : Asm) (t : Engine) : Prop := s.job = none ∧ s.done = false ∧ s.engine = t

theorem engine_read {s : Asm} (hj : s.job = none) (r : In) :
    ch.read r s = (ch.ideal.read r s.engine).1 := by
  unfold Chip.read
  rw [hj]
  cases r <;> rfl

theorem engine_write (o : Out) (s : Asm) :
    (ch.write o s).engine = ch.ideal.write o s.engine ∧ (ch.write o s).job = s.job ∧
      (ch.write o s).done = s.done := by
  cases o with
  | clear =>
    simp only [Chip.write]
    rw [writeControl0_clear]
    exact ⟨rfl, rfl, rfl⟩
  | _ => exact ⟨rfl, rfl, rfl⟩

theorem startAndWait_spec {s : Asm} (hd : s.done = false) :
    Idle (s.startAndWait ch) (s.engine.operate ch.cipher) := by
  have hs := writeControl0_start ch s
  obtain ⟨hj, hd', he⟩ := spin_spec ch (s := ch.writeControl0 control0Start s) (j := ch.job s)
    (by rw [hs]) (by rw [hs]; exact hd) (ch.latency s.starts)
  exact ⟨hj, hd', by rw [← engine_complete]; exact he⟩

/-- With the busy-waiting driver the ASM answers as the engine. -/
theorem blocking_sim : Device.Sim ch.blocking ch.ideal Idle where
  read r s t h := by
    obtain ⟨hj, hd, rfl⟩ := h
    exact ⟨engine_read ch hj r, hj, hd, rfl⟩
  write o s t h := by
    obtain ⟨hj, hd, rfl⟩ := h
    obtain ⟨he, hj', hd'⟩ := engine_write ch o s
    exact ⟨hj'.trans hj, hd'.trans hd, he⟩
  wait w s t h := by
    obtain ⟨hj, hd, rfl⟩ := h
    exact ⟨rfl, startAndWait_spec ch hd⟩

end Mc1322x.Aes
