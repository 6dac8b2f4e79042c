import Mc1322x.Hal.UartAsync
import Mc1322x.Lib.Poll

/-!
# One poll of the async UART (`mc1322x-hal/src/uart.rs`)

Whether a single poll of `Read::read`, `Write::write` or `Write::flush` comes to an end. The steps
are those of the futures alone (`readStep`, `writeStep`, `flushStep`).

* `read_poll_returns`, `write_poll_returns`: whatever happens to the UART during the poll.
* `flush_poll_returns_iff`: `flush` waits for an empty FIFO with a wait for one free slot, so that
  its poll does not end while the FIFO is partly full.
-/

namespace Mc1322x.UartAsync

open Poll

variable {Waker : Type}

/-- Where a `Write::flush` is. -/
inductive Flusher (Waker : Type) where
  | idle
  /-- At the head of the loop. -/
  | loop (cx : Waker)
  | waiting (w : Wait Waker)

/-- A step of `Write::flush`. -/
def flushStep (c : Core Waker) : Flusher Waker → Option (Flusher Waker × Core Waker)
  | .idle => none
  | .loop cx =>
    if c.txFree ≠ fifoDepth then some (.waiting (.poll cx), c) else some (.idle, c)
  | .waiting w =>
    match waitStep .tx c w, w.context with
    | some (some w', c'), _ => some (.waiting w', c')
    | some (none, c'), some cx => some (.loop cx, c')
    | _, _ => none

/-- The steps of a read, without its result. -/
def readSteps (c : Core Waker) (r : Reader Waker) : Option (Reader Waker × Core Waker) :=
  (readStep c r).map fun x => (x.1, x.2.1)

/-- The steps of a write, without its result. -/
def writeSteps (c : Core Waker) (r : Writer Waker) : Option (Writer Waker × Core Waker) :=
  (writeStep c r).map fun x => (x.1, x.2.1)

/-- A wait that is polled with `cx`. -/
def Wait.Polled (d : Dir) (cx : Waker) (c : Core Waker) : Wait Waker → Prop
  | .poll cx' | .checked cx' => cx' = cx
  | .pending => (c.wakers.get d).slot = some cx

/-- A wait is pending, with `cx` in its slot. -/
def Wait.Pending (d : Dir) (cx : Waker) (c : Core Waker) (w : Wait Waker) : Prop :=
  w = .pending ∧ (c.wakers.get d).slot = some cx

/-- The end of a poll of a read: it has resolved, or it is pending with the waker registered. -/
def Reader.Over (cx : Waker) (x : Reader Waker × Core Waker) : Prop :=
  x.1 = .idle ∨ ∃ w n, x.1 = .waiting w n ∧ w.Pending .rx cx x.2

/-- The poll is over: the write is done, or waits with an armed wait. -/
def Writer.Over (cx : Waker) (x : Writer Waker × Core Waker) : Prop :=
  x.1 = .idle ∨ ∃ w buf n, x.1 = .waiting w buf n ∧ w.Pending .tx cx x.2

/-- The poll is over: the flush is done, or waits with an armed wait. -/
def Flusher.Over (cx : Waker) (x : Flusher Waker × Core Waker) : Prop :=
  x.1 = .idle ∨ ∃ w, x.1 = .waiting w ∧ w.Pending .tx cx x.2

/-! ## The wait -/

/-- How far a wait is from the end of the poll. -/
def Wait.rank : Wait Waker → Nat
  | .poll _ => 2
  | .checked _ => 1
  | .pending => 0

/-- A step of a wait that is not over yet. -/
theorem waitStep_polled {d : Dir} {cx : Waker} {c₀ c c' : Core Waker} {w w' : Wait Waker}
    (hw : w.Polled d cx c₀) (h : waitStep d c w = some (some w', c')) :
    w'.Polled d cx c' ∧ w'.rank < w.rank := by
  cases w with
  | poll cx' =>
    cases hr : c.ready d with
    | true =>
      simp only [waitStep, hr, if_true] at h
      cases h
    | false =>
      simp only [waitStep, hr] at h
      cases h
      exact ⟨hw, Nat.lt_succ_self 1⟩
  | checked cx' =>
    cases h
    refine ⟨?_, Nat.lt_succ_self 0⟩
    simp only [Wait.Polled, Core.arm, Both.get_set_self, WakerCell.set]
    exact congrArg some hw
  | pending => cases h

theorem waitStep_eq_none {d : Dir} {c : Core Waker} {w : Wait Waker} (h : waitStep d c w = none) :
    w = .pending := by
  cases w with
  | poll cx =>
    simp only [waitStep] at h
    split at h <;> cases h
  | checked cx => cases h
  | pending => rfl

/-- The wait is over in its first step only. -/
theorem waitStep_over {d : Dir} {c c' : Core Waker} {w : Wait Waker}
    (h : waitStep d c w = some (none, c')) : ∃ cx, w = .poll cx := by
  cases w with
  | poll cx => exact ⟨cx, rfl⟩
  | checked cx => cases h
  | pending => cases h

theorem Wait.Polled.pending {d : Dir} {cx : Waker} {c : Core Waker} {w : Wait Waker}
    (h : w.Polled d cx c) (hw : w = .pending) : w.Pending d cx c := by
  subst hw
  exact ⟨rfl, h⟩

/-! ## Reads -/

/-- The bytes that the buffer still takes, with the steps for each. -/
def Reader.rank : Reader Waker → Nat
  | .idle | .called _ => 0
  | .begin _ n => 2 * n + 5
  | .waiting w n => 2 * n + 2 + w.rank
  | .drain n buf => 2 * (n - buf.length) + 1
  | .take n buf => max 2 (2 * (n - buf.length))

/-- A poll with `cx`. -/
def Reader.Polled (cx : Waker) (x : Reader Waker × Core Waker) : Prop :=
  match x.1 with
  | .called _ => False
  | .begin cx' _ => cx' = cx
  | .waiting w _ => w.Polled .rx cx x.2
  | .idle | .drain _ _ | .take _ _ => True

theorem readSteps_polled {cx : Waker} {c₀ c : Core Waker} {r : Reader Waker}
    {y : Reader Waker × Core Waker} (hr : Reader.Polled cx (r, c₀)) (h : readSteps c r = some y) :
    Reader.Polled cx y ∧ y.1.rank < r.rank := by
  obtain ⟨⟨r', c', res⟩, hs, rfl⟩ := Option.map_eq_some_iff.mp h
  cases r with
  | idle | called n => cases hs
  | begin cx' n =>
    simp only [readStep] at hs
    by_cases hn : n = 0
    · rw [if_pos hn] at hs
      cases hs
      exact ⟨trivial, by simp only [Reader.rank]; omega⟩
    · rw [if_neg hn] at hs
      by_cases hc : c.rxCount = 0
      · rw [if_pos hc] at hs
        cases hs
        exact ⟨hr, by simp only [Reader.rank, Wait.rank]; omega⟩
      · rw [if_neg hc] at hs
        cases hs
        exact ⟨trivial, by simp only [Reader.rank]; omega⟩
  | waiting w n =>
    obtain ⟨-, ⟨w', hw, rfl⟩ | ⟨hw, rfl⟩⟩ := readStep_waiting hs
    · obtain ⟨hp, hlt⟩ := waitStep_polled hr hw
      exact ⟨hp, by simp only [Reader.rank]; omega⟩
    · exact ⟨trivial, by simp only [Reader.rank, List.length_nil]; omega⟩
  | drain n buf =>
    simp only [readStep] at hs
    by_cases hn : buf.length < n ∧ 0 < c.rxCount
    · rw [if_pos hn] at hs
      cases hs
      exact ⟨trivial, by simp only [Reader.rank]; omega⟩
    · rw [if_neg hn] at hs
      cases hs
      exact ⟨trivial, by simp only [Reader.rank]; omega⟩
  | take n buf =>
    cases hs
    refine ⟨trivial, ?_⟩
    simp only [Reader.rank, List.length_append, List.length_singleton]
    omega

theorem readSteps_end {cx : Waker} {x : Reader Waker × Core Waker} (hx : Reader.Polled cx x)
    (h : readSteps x.2 x.1 = none) : Reader.Over cx x := by
  obtain ⟨r, c⟩ := x
  have hs : readStep c r = none := Option.map_eq_none_iff.mp h
  cases r with
  | idle => exact .inl rfl
  | called n => exact hx.elim
  | begin cx' n =>
    simp only [readStep] at hs
    split at hs
    · cases hs
    · split at hs <;> cases hs
  | waiting w n =>
    -- A wait has no next step only where it is pending.
    refine .inr ⟨w, n, rfl, ?_⟩
    have hw : waitStep .rx c w = none := by
      simp only [readStep] at hs
      split at hs
      · assumption
      · cases hs
      · cases hs
    exact hx.pending (waitStep_eq_none hw)
  | drain n buf =>
    simp only [readStep] at hs
    split at hs <;> cases hs
  | take n buf => cases hs

theorem read_poll_returns {cx : Waker} {x : Reader Waker × Core Waker} (hx : Reader.Polled cx x)
    (other : Core Waker → Core Waker → Prop) :
    Returns readSteps other (Reader.Over cx) x := by
  refine .of_measure Reader.rank (Reader.Polled cx) ?_ (fun y => readSteps_end) hx
  rintro y z hy ⟨s, -, hs⟩
  exact readSteps_polled hy hs

/-! ## Writes -/

/-- The bytes of the buffer that are still to be pushed, with the steps for each. -/
def Writer.rank : Writer Waker → Nat
  | .idle | .called _ => 0
  | .loop _ buf n => 5 * (buf.length - n) + 1
  | .waiting w buf n => max 1 (5 * (buf.length - n) - 2) + w.rank
  | .push _ buf n => max 2 (5 * (buf.length - n) - 2)

/-- The write is in a poll with the waker `cx`. -/
def Writer.Polled (cx : Waker) (x : Writer Waker × Core Waker) : Prop :=
  match x.1 with
  | .called _ => False
  | .loop cx' _ _ | .push cx' _ _ => cx' = cx
  | .waiting w _ _ => w.Polled .tx cx x.2
  | .idle => True

theorem writeSteps_polled {cx : Waker} {c₀ c : Core Waker} {r : Writer Waker}
    {y : Writer Waker × Core Waker} (hr : Writer.Polled cx (r, c₀)) (h : writeSteps c r = some y) :
    Writer.Polled cx y ∧ y.1.rank < r.rank := by
  obtain ⟨⟨r', c', res⟩, hs, rfl⟩ := Option.map_eq_some_iff.mp h
  cases r with
  | idle | called buf => cases hs
  | loop cx' buf n =>
    simp only [writeStep] at hs
    by_cases hn : n < buf.length
    · rw [if_pos hn] at hs
      by_cases hc : c.txFree = 0
      · rw [if_pos hc] at hs
        cases hs
        exact ⟨hr, by simp only [Writer.rank, Wait.rank]; omega⟩
      · rw [if_neg hc] at hs
        cases hs
        exact ⟨hr, by simp only [Writer.rank]; omega⟩
    · rw [if_neg hn] at hs
      cases hs
      exact ⟨trivial, by simp only [Writer.rank]; omega⟩
  | waiting w buf n =>
    obtain ⟨-, ⟨w', hw, rfl⟩ | ⟨hw, cx', rfl⟩⟩ := writeStep_waiting hs
    · obtain ⟨hp, hlt⟩ := waitStep_polled hr hw
      exact ⟨hp, by simp only [Writer.rank]; omega⟩
    · obtain ⟨cx'', rfl⟩ := waitStep_over hw
      simp only [writeStep, Wait.context, hw] at hs
      cases hs
      exact ⟨hr, by simp only [Writer.rank, Wait.rank]; omega⟩
  | push cx' buf n =>
    cases hs
    exact ⟨hr, by simp only [Writer.rank]; omega⟩

theorem writeSteps_end {cx : Waker} {x : Writer Waker × Core Waker} (hx : Writer.Polled cx x)
    (h : writeSteps x.2 x.1 = none) : Writer.Over cx x := by
  obtain ⟨r, c⟩ := x
  have hs : writeStep c r = none := Option.map_eq_none_iff.mp h
  cases r with
  | idle => exact .inl rfl
  | called buf => exact hx.elim
  | loop cx' buf n =>
    simp only [writeStep] at hs
    split at hs
    · split at hs <;> cases hs
    · cases hs
  | waiting w buf n =>
    refine .inr ⟨w, buf, n, rfl, hx.pending ?_⟩
    cases w with
    | pending => rfl
    | poll cx' =>
      cases hready : c.ready .tx <;> simp [writeStep, waitStep, Wait.context, hready] at hs
    | checked cx' => cases hs
  | push cx' buf n => cases hs

theorem write_poll_returns {cx : Waker} {x : Writer Waker × Core Waker} (hx : Writer.Polled cx x)
    (other : Core Waker → Core Waker → Prop) :
    Returns writeSteps other (Writer.Over cx) x := by
  refine .of_measure Writer.rank (Writer.Polled cx) ?_ (fun y => writeSteps_end) hx
  rintro y z hy ⟨s, -, hs⟩
  exact writeSteps_polled hy hs

/-! ## The flush -/

/-- A poll of a flush, from its beginning or from its wait. -/
inductive Flusher.Begins (cx : Waker) : Flusher Waker → Prop
  | first : Begins cx (.loop cx)
  | again : Begins cx (.waiting (.poll cx))

section

variable {cx : Waker} {c : Core Waker}

/-- With an empty FIFO. -/
theorem flush_empty (h : c.txFree = fifoDepth) :
    Returns flushStep Eq (Flusher.Over cx) (.loop cx, c) := by
  have hstep : flushStep c (.loop cx) = some (.idle, c) := if_neg (not_not_intro h)
  refine .of_step hstep (.of_end ?_ (.inl rfl))
  rintro _ rfl
  rfl

/-- With a full FIFO, the wait is pending. -/
theorem flush_wait_full (h : c.txFree = 0) :
    Returns flushStep Eq (Flusher.Over cx) (.waiting (.poll cx), c) := by
  have hready : c.ready .tx = false := by simp [Core.ready, h]
  have hcheck : flushStep c (.waiting (.poll cx)) = some (.waiting (.checked cx), c) := by
    simp only [flushStep, waitStep, hready, Bool.false_eq_true, if_false]
  have harm : flushStep c (.waiting (.checked cx)) = some (.waiting .pending, c.arm .tx cx) := rfl
  refine .of_step hcheck (.of_step harm (.of_end ?_ (.inr ⟨_, rfl, rfl, rfl⟩)))
  rintro _ rfl
  rfl

/-- The head of the loop, where there is something to wait for. -/
theorem flush_loop (h : c.txFree ≠ fifoDepth) :
    flushStep c (.loop cx) = some (.waiting (.poll cx), c) :=
  if_pos h

/-- The wait, where there is a free slot. -/
theorem flush_wait (h : 0 < c.txFree) :
    flushStep c (.waiting (.poll cx)) = some (.loop cx, c) := by
  have hready : c.ready .tx = true := decide_eq_true h
  simp only [flushStep, waitStep, hready, if_true, Wait.context]

/-- With a FIFO that is partly full, the loop comes back to its head. -/
theorem flush_spins (h0 : 0 < c.txFree) (h : c.txFree ≠ fifoDepth) :
    ¬ Returns flushStep Eq (Flusher.Over cx) (.loop cx, c) :=
  Returns.not_of_cycle (.head ⟨c, rfl, flush_loop h⟩ (.single ⟨c, rfl, flush_wait h0⟩))

theorem flush_poll_returns_iff {r : Flusher Waker} (hr : r.Begins cx) :
    Returns flushStep Eq (Flusher.Over cx) (r, c) ↔ c.txFree = 0 ∨ c.txFree = fifoDepth := by
  have hloop : Returns flushStep Eq (Flusher.Over cx) (.loop cx, c) ↔
      c.txFree = 0 ∨ c.txFree = fifoDepth := by
    by_cases hfull : c.txFree = fifoDepth
    · exact iff_of_true (flush_empty hfull) (.inr hfull)
    · by_cases h0 : c.txFree = 0
      · exact iff_of_true (.of_step (flush_loop hfull) (flush_wait_full h0)) (.inl h0)
      · exact iff_of_false (flush_spins (Nat.pos_of_ne_zero h0) hfull) fun h => h.elim h0 hfull
  cases hr with
  | first => exact hloop
  | again =>
    by_cases h0 : c.txFree = 0
    · exact iff_of_true (flush_wait_full h0) (.inl h0)
    · rw [Returns.step_iff (flush_wait (Nat.pos_of_ne_zero h0))]
      exact hloop

end

/-- A poll of a read or of a write, from its beginning or from its wait. -/
inductive Reader.Begins (cx : Waker) : Reader Waker → Prop
  | first (n : Nat) : Begins cx (.begin cx n)
  | again (n : Nat) : Begins cx (.waiting (.poll cx) n)

/-- Where a poll of a write begins. -/
inductive Writer.Begins (cx : Waker) : Writer Waker → Prop
  | first (buf : List UInt8) : Begins cx (.loop cx buf 0)
  | again (buf : List UInt8) (n : Nat) : Begins cx (.waiting (.poll cx) buf n)

/-- **One poll.** A poll of `read` or `write` comes to an end whatever happens to the UART during
it: it resolves, or it is pending with its waker registered. A poll of `flush` on a UART whose FIFO
levels don't change comes to such an end if and only if the TX FIFO is full or empty. -/
theorem poll_returns_iff (cx : Waker) (c : Core Waker) :
    (∀ (other : Core Waker → Core Waker → Prop) (r : Reader Waker), r.Begins cx →
      Returns readSteps other (Reader.Over cx) (r, c)) ∧
    (∀ (other : Core Waker → Core Waker → Prop) (r : Writer Waker), r.Begins cx →
      Returns writeSteps other (Writer.Over cx) (r, c)) ∧
    ∀ r : Flusher Waker, r.Begins cx →
      (Returns flushStep Eq (Flusher.Over cx) (r, c) ↔ c.txFree = 0 ∨ c.txFree = fifoDepth) := by
  refine ⟨fun other r hr => read_poll_returns ?_ other,
    fun other r hr => write_poll_returns ?_ other, fun r hr => flush_poll_returns_iff hr⟩
  · cases hr <;> exact rfl
  · cases hr <;> exact rfl

/-- The UART with one byte in the TX FIFO. -/
def oneByte : Core Nat := ⟨⟨true, true⟩, [], [7], ⟨⟨none⟩, ⟨none⟩⟩, ⟨.idle, .idle⟩, [], [7], []⟩

theorem poll_returns_iff_empty :
    Returns readSteps Eq (Reader.Over 5) (.begin 5 4, oneByte) ∧
      Returns flushStep Eq (Flusher.Over 5) (.loop 5, { oneByte with txFifo := [] }) :=
  ⟨(poll_returns_iff 5 oneByte).1 Eq _ (.first 4),
    ((poll_returns_iff 5 { oneByte with txFifo := [] }).2.2 _ .first).mpr (.inr rfl)⟩

/-- A flush after a write of one byte. -/
theorem flush_poll_spins : ¬ ∀ (cx : Nat) (c : Core Nat) (r : Flusher Nat), r.Begins cx →
    Returns flushStep Eq (Flusher.Over cx) (r, c) := by
  intro h
  exact flush_spins (by decide) (by decide) (h 5 oneByte (.loop 5) .first)

end Mc1322x.UartAsync
