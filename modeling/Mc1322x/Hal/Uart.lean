import Mc1322x.Lib.Proc

/-!
# UART (`mc1322x-hal/src/uart.rs`)

The blocking `Read` and `Write` of the driver, as programs of accesses to the FIFO registers. The
bytes on the wire come to the RX FIFO at any time (`arrive`), as long as it has room, and the TX
FIFO has room at any time (`room`).

`Uart` is what a program uses of the driver. `read_piece`: a `read` takes some of the bytes next on
the wire, at least one, and leaves the rest; it never returns where there is none.
-/

namespace Mc1322x

/-- The `Read` and `Write` of a UART, for a program with the operations `S`. Neither can fail
(`Infallible`). -/
structure Uart (S : Sig) where
  /-- `Read::read` into a buffer of that length: the bytes read. -/
  read : Nat → Proc S (List UInt8)
  /-- `Write::write_all`. -/
  writeAll : List UInt8 → Proc S Unit

namespace Uart

/-- The bytes read are pieces of a stream: a read of up to `n` bytes takes between one and `n` of
them, and only `Kept` holds of the rest of the state. -/
structure Reads {S : Sig} {σ : Type} (u : Uart S) (h : Handler S σ) (stream : σ → List UInt8)
    (Kept : σ → σ → Prop) : Prop where
  refl : ∀ s, Kept s s
  trans : ∀ {s t v}, Kept s t → Kept t v → Kept s v
  piece : ∀ {n s}, 0 < n → n ≤ (stream s).length → ∃ k t, 0 < k ∧ k ≤ n ∧
    Runs h (u.read n) s ((stream s).take k) t ∧ stream t = (stream s).drop k ∧ Kept s t
  silent : ∀ {n s a t}, 0 < n → stream s = [] → ¬ Runs h (u.read n) s a t

/-- The FIFO registers. -/
inductive Access where
  | rxCount
  | readByte
  | txFree
  | writeByte (byte : UInt8)

/-- The accesses of the driver, with what they give. -/
abbrev sig : Sig where
  Op := Access
  Ans
    | .rxCount => Nat
    | .readByte => UInt8
    | .txFree => Nat
    | .writeByte _ => Unit

/-- `rx_count`. -/
def rxCount : Proc sig Nat := Proc.call (S := sig) .rxCount

/-- `read_byte`. -/
def readByte : Proc sig UInt8 := Proc.call (S := sig) .readByte

/-- `tx_free`. -/
def txFree : Proc sig Nat := Proc.call (S := sig) .txFree

/-- `write_byte`. -/
def writeByte (byte : UInt8) : Proc sig Unit := Proc.call (S := sig) (.writeByte byte)

/-- `while self.rx_count() == 0 {}`. -/
def waitRx : Proc sig Unit := Proc.iterate () fun _ => do
  if (← rxCount) = 0 then return .inl () else return .inr ()

/-- The loop of `Read::read` over a buffer of length `n`, of which `buf` is filled. -/
def fill (n : Nat) (buf : List UInt8) : Proc sig (List UInt8) := Proc.iterate buf fun buf => do
  if buf.length < n then
    if 0 < (← rxCount) then
      let byte ← readByte
      return .inl (buf ++ [byte])
    else return .inr buf
  else return .inr buf

/-- `Read::read`. -/
def readFifo (n : Nat) : Proc sig (List UInt8) :=
  if n = 0 then return [] else do
    waitRx
    fill n []

/-- `Write::write`, which always writes the whole buffer. -/
def writeFifo : List UInt8 → Proc sig Unit
  | [] => return ()
  | byte :: rest => do
    Proc.iterate () fun _ => do
      if (← txFree) = 0 then return .inl () else return .inr ()
    writeByte byte
    writeFifo rest

/-- The driver on the registers. -/
def fifo : Uart sig where
  read := readFifo
  writeAll := writeFifo

/-! ## The hardware -/

/-- The RX FIFO is as deep as the TX FIFO (`TX_FIFO_DEPTH`). -/
def rxFifoDepth : Nat := 32

/-- The UART and what is on the wire to it. -/
structure Hw where
  rx : List UInt8
  /-- The bytes sent to the UART that are not in the RX FIFO yet. -/
  wire : List UInt8
  /-- The bytes written to the TX FIFO. -/
  sent : List UInt8
  /-- The register accesses so far. -/
  time : Nat

/-- The bytes yet to be read. -/
def Hw.stream (w : Hw) : List UInt8 := w.rx ++ w.wire

section Hardware

variable (arrive room : Nat → Nat)

/-- The bytes that arrive before an access: at most `arrive`, and only as the FIFO has room. -/
def Hw.tick (w : Hw) : Hw :=
  let n := min (arrive w.time) (rxFifoDepth - w.rx.length)
  { w with rx := w.rx ++ w.wire.take n, wire := w.wire.drop n, time := w.time + 1 }

/-- The registers. -/
def registers : Handler sig Hw
  | .rxCount, w => let w := w.tick arrive; some (w.rx.length, w)
  | .readByte, w => let w := w.tick arrive; some (w.rx.headD 0, { w with rx := w.rx.tail })
  | .txFree, w => let w := w.tick arrive; some (room w.time, w)
  | .writeByte byte, w => let w := w.tick arrive; some ((), { w with sent := w.sent ++ [byte] })

/-- Bytes on the wire arrive in the end. -/
def Fair : Prop := ∀ t, ∃ u, t ≤ u ∧ 0 < arrive u

variable {arrive room} {w : Hw}

@[simp] theorem stream_tick : (w.tick arrive).stream = w.stream := by
  simp [Hw.tick, Hw.stream]

theorem rxCount_runs : Runs (registers arrive room) rxCount w (w.tick arrive).rx.length
    (w.tick arrive) :=
  .call rfl

variable (arrive room) in
/-- A byte is read from a FIFO that holds one. -/
theorem readByte_runs {b : UInt8} {l : List UInt8} (hw : w.rx = b :: l) :
    ∃ w', Runs (registers arrive room) readByte w b w' ∧ w'.stream = l ++ w.wire ∧
      w'.sent = w.sent := by
  refine ⟨_, .call (t := { w.tick arrive with rx := (w.tick arrive).rx.tail }) ?_, ?_, rfl⟩
  · simp [registers, Hw.tick, hw]
  · simp [Hw.stream, Hw.tick, hw]

theorem rx_tick_ne_nil (h : w.rx ≠ []) : (w.tick arrive).rx ≠ [] := fun e =>
  h (List.append_eq_nil_iff.mp e).1

variable (room) in
/-- The wait for a byte ends once one has arrived. -/
theorem waitRx_runs (hf : Fair arrive) (hw : w.stream ≠ []) :
    ∃ w', Runs (registers arrive room) waitRx w () w' ∧ w'.rx ≠ [] ∧ w'.stream = w.stream ∧
      w'.sent = w.sent := by
  obtain ⟨u, hu, ha⟩ := hf w.time
  -- The next access at which a byte arrives comes closer with each round.
  induction hd : u - w.time generalizing w with
  | zero =>
    have hr : (w.tick arrive).rx ≠ [] := by
      have he : u = w.time := by omega
      subst he
      by_cases hrx : w.rx = []
      · have hwire : w.wire ≠ [] := by simpa [Hw.stream, hrx] using hw
        have hpos : min (arrive w.time) rxFifoDepth ≠ 0 := by
          unfold rxFifoDepth
          omega
        simp only [Hw.tick, hrx, List.nil_append]
        exact fun e => (List.take_eq_nil_iff.mp e).elim hpos hwire
      · exact rx_tick_ne_nil hrx
    refine ⟨w.tick arrive, .iterate_exit (rxCount_runs.bind ?_), hr, stream_tick, rfl⟩
    rw [if_neg (by simpa using hr)]
    exact .pure
  | succ d ih =>
    by_cases hr : (w.tick arrive).rx = []
    · obtain ⟨w', hrun, hrx, hst, hsent⟩ := ih (w := w.tick arrive) (by rwa [stream_tick])
        (by change w.time + 1 ≤ u; omega) (by change u - (w.time + 1) = d; omega)
      refine ⟨w', .iterate_next (rxCount_runs.bind ?_) hrun, hrx, by rw [hst, stream_tick], hsent⟩
      rw [if_pos (by simpa using hr)]
      exact .pure
    · refine ⟨w.tick arrive, .iterate_exit (rxCount_runs.bind ?_), hr, stream_tick, rfl⟩
      rw [if_neg (by simpa using hr)]
      exact .pure

variable (arrive room w) in
/-- The loop of a read takes the bytes that are in the FIFO, up to the length of the buffer. -/
theorem fill_runs (n : Nat) (buf : List UInt8) :
    ∃ k w', Runs (registers arrive room) (fill n buf) w (buf ++ w.stream.take k) w' ∧
      w'.stream = w.stream.drop k ∧ w'.sent = w.sent ∧ k ≤ n - buf.length ∧
      (buf.length < n → w.rx ≠ [] → 0 < k) := by
  induction hd : n - buf.length generalizing buf w with
  | zero =>
    refine ⟨0, w, .iterate_exit ?_, by simp, rfl, by omega, by omega⟩
    rw [if_neg (by omega)]
    simpa using Runs.pure
  | succ d ih =>
    have hlt : buf.length < n := by omega
    -- The FIFO is looked at before each byte: empty, it ends the loop.
    by_cases hr : (w.tick arrive).rx = []
    · refine ⟨0, w.tick arrive, .iterate_exit ?_, by simp, rfl, by omega,
        fun _ hw => absurd hr (rx_tick_ne_nil hw)⟩
      rw [if_pos hlt]
      refine rxCount_runs.bind ?_
      rw [if_neg (by simp [hr])]
      simpa using Runs.pure
    · obtain ⟨b, l, hbl⟩ := List.exists_cons_of_ne_nil hr
      obtain ⟨w₁, hrun₁, hst₁, hsent₁⟩ := readByte_runs arrive room hbl
      obtain ⟨k, w', hrun, hst, hsent, hk, -⟩ := ih w₁ (buf ++ [b])
        (by rw [List.length_append, List.length_singleton]; omega)
      have hs : w.stream = b :: w₁.stream := calc
        w.stream = (w.tick arrive).rx ++ (w.tick arrive).wire := stream_tick.symm
        _ = b :: w₁.stream := by rw [hst₁, hbl]; rfl
      refine ⟨k + 1, w', .iterate_next (y := buf ++ [b]) (t := w₁) ?_ ?_, ?_, hsent.trans hsent₁,
        by omega, fun _ _ => Nat.succ_pos k⟩
      · rw [if_pos hlt]
        refine rxCount_runs.bind ?_
        rw [if_pos (List.length_pos_iff.mpr hr)]
        exact hrun₁.bind .pure
      · rw [hs, List.take_succ_cons, List.append_cons buf b (w₁.stream.take k)]
        exact hrun
      · rw [hst, hs, List.drop_succ_cons]

/-- Without a byte, the wait does not end. -/
theorem waitRx_silent {w' : Hw} (hw : w.stream = []) :
    ¬ Runs (registers arrive room) waitRx w () w' := by
  refine fun hr => Runs.iterate_induct (I := fun _ w => w.stream = []) (Q := fun _ _ => False) ?_
    hr hw
  intro _ w x t hw hb
  obtain ⟨n, w₁, hn, hb⟩ := hb.of_bind
  obtain ⟨rfl, rfl⟩ := hn.det rxCount_runs
  have hnil : (w.tick arrive).stream = [] := by rw [stream_tick, hw]
  rw [if_pos (by rw [(List.append_eq_nil_iff.mp hnil).1]; rfl)] at hb
  obtain ⟨rfl, rfl⟩ := hb.det .pure
  exact hnil

variable (room) in
/-- A read takes a piece of what is on the wire, for every way in which it arrives. -/
theorem read_piece (hf : Fair arrive) :
    Reads fifo (registers arrive room) Hw.stream fun w w' => w'.sent = w.sent where
  refl _ := rfl
  trans h h' := h'.trans h
  piece := by
    intro n w hn hlen
    obtain ⟨w₁, hrun₁, hrx, hst₁, hsent₁⟩ :=
      waitRx_runs room (w := w) hf (by rintro e; rw [e] at hlen; simp at hlen; omega)
    obtain ⟨k, w', hrun, hst, hsent, hk, hpos⟩ := fill_runs arrive room w₁ n []
    refine ⟨k, w', hpos hn hrx, hk, ?_, by rw [hst, hst₁], hsent.trans hsent₁⟩
    change Runs _ (readFifo n) _ _ _
    rw [readFifo, if_neg (by omega), ← hst₁]
    exact hrun₁.bind hrun
  silent := by
    intro n w a w' hn hw hr
    change Runs _ (readFifo n) _ _ _ at hr
    rw [readFifo, if_neg (by omega)] at hr
    obtain ⟨_, _, hwait, -⟩ := hr.of_bind
    exact waitRx_silent hw hwait

end Hardware

end Uart

end Mc1322x
