import Mc1322x.Lib.Future
import Mc1322x.Radio.Layout

/-!
# One future or two (`prepare_and_transmit` of `mc1322x-radio/src/radio.rs`)

`prepare_and_transmit` is one future with a flag (`queued`), and has the code of `prepare_transmit`
and of `transmit` once more. `PrepareAndTransmit.poll` is its own text; `prepareThenTransmit` is the
task that awaits the two futures.

`prepare_and_transmit_refines`: nobody can tell them apart. The `Maca` holds the packets and the
queues, so the same frame is queued at the same poll.
-/

namespace Mc1322x.Radio

variable {Waker : Type}

/-- A poll of the future of `prepare_and_transmit`: its result, and `queued` and the driver after
it. `none` is a panic. -/
def PrepareAndTransmit.poll (r : Driver Waker) (w : Waker) (index : UInt8) (bytes : List UInt8)
    (queued : Bool) : Option (Option Bool × Bool × Driver Waker) :=
  if queued then some (finish r queued)
  else
    let r := { r with state := { r.state with cancelled := false } }
    match claimFreePacket r.maca with
    | none => some (none, queued, { r with state := { r.state with waker := some w } })
    | some (p, m) =>
      let r := setChannelIndex { r with maca := m } index
      let phr := (bytes.head?.getD 0).toNat
      let len := min (min (phr - 2) (maxPhr - 2)) (bytes.length - 1)
      if 1 + len ≤ bytes.length then
        let r := { r with maca := queueTransmit r.maca p ((bytes.drop 1).take len) }
        some (finish r true)
      else none
where
  /-- The check for completion, after the frame has been queued. -/
  finish (r : Driver Waker) (queued : Bool) : Option Bool × Bool × Driver Waker :=
    match r.state.txStatus with
    | some status => (some (status = success), queued,
        { r with state := { r.state with txStatus := none, waker := none } })
    | none =>
      if r.state.cancelled then
        (some false, queued, { r with state := { r.state with cancelled := false } })
      else (none, queued, { r with state := { r.state with waker := some w } })

/-- `prepare_and_transmit`. -/
def prepareAndTransmit (Waker : Type) (channel : UInt8) (bytes : List UInt8) :
    Future (Driver Waker) Waker Bool where
  Phase := Bool
  start := false
  poll r w queued := (PrepareAndTransmit.poll r w (channelIndex channel) bytes queued).map
    fun (result, queued, r) => (result.elim (.inr queued) .inl, r)

/-- `prepare_transmit`. -/
def prepareTransmit (Waker : Type) (channel : UInt8) (bytes : List UInt8) :
    Future (Driver Waker) Waker Unit where
  Phase := Unit
  start := ()
  poll r w _ := (pollPrepareTransmit r w (channelIndex channel) bytes).map
    fun (ready, r) => (if ready then .inl () else .inr (), r)

/-- `transmit`. -/
def transmit (Waker : Type) : Future (Driver Waker) Waker Bool where
  Phase := Unit
  start := ()
  poll r w _ := some ((pollTransmit r w).1.result.elim (.inr ()) .inl, (pollTransmit r w).2)

/-- A task that awaits `prepare_transmit` and then `transmit`. -/
def prepareThenTransmit (Waker : Type) (channel : UInt8) (bytes : List UInt8) :
    Future (Driver Waker) Waker Bool :=
  (prepareTransmit Waker channel bytes).andThen (transmit Waker)

/-! ## The polls -/

/-- The end of the combined poll is a poll of `transmit`. -/
theorem finish_eq (r : Driver Waker) (w : Waker) (queued : Bool) :
    PrepareAndTransmit.poll.finish w r queued =
      ((pollTransmit r w).1.result, queued, (pollTransmit r w).2) := by
  unfold PrepareAndTransmit.poll.finish pollTransmit
  cases r.state.txStatus with
  | some status => rfl
  | none =>
    by_cases hc : r.state.cancelled = true
    · simp only [hc, if_true]
      rfl
    · simp only [hc]
      rfl

/-- The part before it is a poll of `prepare_transmit`. -/
theorem poll_queued_false (r : Driver Waker) (w : Waker) (index : UInt8) (bytes : List UInt8) :
    PrepareAndTransmit.poll r w index bytes false =
      (pollPrepareTransmit r w index bytes).map fun x =>
        if x.1 then PrepareAndTransmit.poll.finish w x.2 true else (none, false, x.2) := by
  unfold PrepareAndTransmit.poll pollPrepareTransmit
  rw [if_neg Bool.false_ne_true]
  dsimp only
  cases claimFreePacket r.maca with
  | none => rfl
  | some x =>
    dsimp only [queueFrame, txPsdu]
    by_cases hlen : 1 + min (min ((bytes.head?.getD 0).toNat - 2) (maxPhr - 2)) (bytes.length - 1) ≤
        bytes.length
    · rw [if_pos hlen, if_pos hlen]
      rfl
    · rw [if_neg hlen, if_neg hlen]
      rfl

/-- What the combined poll does, in the words of the two futures. -/
theorem poll_eq (r : Driver Waker) (w : Waker) (index : UInt8) (bytes : List UInt8)
    (queued : Bool) : PrepareAndTransmit.poll r w index bytes queued =
      (pollPrepareAndTransmit r w index bytes queued).map fun x => (x.1.result, x.2) := by
  cases queued with
  | true => exact congrArg some (finish_eq r w true)
  | false =>
    rw [poll_queued_false]
    unfold pollPrepareTransmit pollPrepareAndTransmit
    rw [if_neg Bool.false_ne_true]
    dsimp only
    cases claimFreePacket r.maca with
    | none => rfl
    | some x =>
      dsimp only
      rw [Option.map_map, Option.map_map]
      refine congrArg (Option.map · _) (funext fun r => ?_)
      exact finish_eq r w true

/-! ## The refinement -/

/-- The task waits for a packet while the flag is not set, and for the transmission after it. -/
def SamePhase {channel : UInt8} {bytes : List UInt8} :
    Bool → (prepareThenTransmit Waker channel bytes).Phase → Prop
  | false, .inl _ => True
  | true, .inr _ => True
  | _, _ => False

/-- A poll of each. -/
theorem samePhase_poll {channel : UInt8} {bytes : List UInt8} (r : Driver Waker) (w : Waker)
    (queued : Bool) (q : (prepareThenTransmit Waker channel bytes).Phase)
    (h : SamePhase queued q) :
    Future.Polls SamePhase ((prepareAndTransmit Waker channel bytes).poll r w queued)
      ((prepareThenTransmit Waker channel bytes).poll r w q) := by
  -- Once the frame is queued, both tasks poll `transmit`.
  have hfinish : ∀ r : Driver Waker, Future.Polls
      (SamePhase : Bool → (prepareThenTransmit Waker channel bytes).Phase → Prop)
      (some ((PrepareAndTransmit.poll.finish w r true).1.elim
          (.inr (PrepareAndTransmit.poll.finish w r true).2.1) .inl,
        (PrepareAndTransmit.poll.finish w r true).2.2))
      (((transmit Waker).poll r w ()).map fun x => (x.1.map id .inr, x.2)) := by
    intro r
    rw [finish_eq]
    refine ⟨rfl, ?_⟩
    cases (pollTransmit r w).1.result with
    | none => exact .inr trivial
    | some b => exact .inl rfl
  match queued, q, h with
  | true, .inr (), _ =>
    exact hfinish r
  | false, .inl (), _ =>
    dsimp only [prepareAndTransmit, prepareThenTransmit, Future.andThen, prepareTransmit]
    rw [poll_queued_false, Option.map_map]
    cases pollPrepareTransmit r w (channelIndex channel) bytes with
    | none => trivial
    | some x =>
      obtain ⟨ready, r'⟩ := x
      cases ready with
      | false => exact ⟨rfl, .inr trivial⟩
      | true => exact hfinish r'

/-- **Refinement.** `prepare_and_transmit` and the task that awaits `prepare_transmit` and then
`transmit`, polled at the same moments: in every run they leave the same driver and the same packets
after each event, and resolve or panic at the same poll, with one result. -/
theorem prepare_and_transmit_refines (channel : UInt8) (bytes : List UInt8) :
    (prepareAndTransmit Waker channel bytes).Equivalent (prepareThenTransmit Waker channel bytes) :=
  .of_bisim SamePhase trivial samePhase_poll

end Mc1322x.Radio
