import Mc1322x.Radio.RadioHal

/-!
# Cancellation

What the next poll of a future finds after `cancel_current_operation`, with any receive and transmit
interrupts before the cancel and between the cancel and the poll. `receive` looks at the flag first
and always resolves with `false`. `transmit` looks at `tx_status` first, so a completion in between
wins and leaves the flag set; `prepare_and_transmit` that still waits for a packet clears the flag
before it looks. `cancel_aborts_iff` says exactly when the cancel takes effect.
-/

namespace Mc1322x.Radio

variable {Waker : Type}

/-- The result of a poll; `none` is pending, or a future that has none. -/
def Fut.result (r : Driver Waker) (w : Waker) : Fut → Option Bool
  | .receive => (pollReceive r w).1
  | .transmit => (pollTransmit r w).1.result
  | .prepareAndTransmit index bytes queued =>
    (pollPrepareAndTransmit r w index bytes queued).bind fun p => p.1.result
  | _ => none

/-- A poll of the future `i` resolves with `false` and leaves the flag clear. -/
def Sys.Aborts (s : Sys Waker) (i : Nat) (w : Waker) : Prop :=
  s.futures[i]?.join.bind (·.result s.radio w) = some false ∧
    ∃ s', s.step (.poll i w) = some s' ∧ s'.radio.state.cancelled = false

/-- The future waits for a reception or a transmission. -/
def Fut.Waits : Fut → Prop
  | .receive | .transmit | .prepareAndTransmit .. => True
  | _ => False

/-- A step of the MACA: a reception begins or ends, or a transmission ends. -/
def Act.Irq : Act Waker → Prop
  | .listen | .received _ | .sent _ => True
  | _ => False

/-- The status of the last transmission that ends in the steps `tr`. -/
def lastSent (tr : List (Sys Waker × Act Waker)) : Option UInt8 :=
  (tr.filterMap fun x => match x.2 with | .sent status => some status | _ => none).getLast?

/-- When a cancel aborts the future `f`: `tr` are the steps between the cancel and the poll, `m` the
packets at the poll. -/
def Fut.Abortable (tr : List (Sys Waker × Act Waker)) (m : Maca) : Fut → Prop
  | .receive => True
  | .transmit | .prepareAndTransmit _ _ true => lastSent tr = none
  | .prepareAndTransmit _ bytes false =>
    m.free ≠ [] ∧ txPsdu bytes ≠ none ∧ ∃ status, lastSent tr = some status ∧ status ≠ 0
  | _ => False

section Interrupts

variable {s s' : Sys Waker}

theorem Sys.step_irq {a : Act Waker} (ha : a.Irq) (hs : s.step a = some s') :
    s'.futures = s.futures ∧ s'.radio.state.cancelled = s.radio.state.cancelled ∧
      s'.radio.state.txStatus = match (motive := Act Waker → Option UInt32) a with
        | .sent status => some status.toUInt32
        | _ => s.radio.state.txStatus := by
  have h := Sys.step_spec hs
  cases a with
  | listen =>
    obtain ⟨p, free, -, -, rfl⟩ := h
    exact ⟨rfl, rfl, rfl⟩
  | received k =>
    obtain ⟨p, -, rfl⟩ := h
    exact ⟨rfl, rfl, rfl⟩
  | sent status =>
    obtain ⟨q, rest, -, rfl⟩ := h
    exact ⟨rfl, rfl, by simp [macaTxCallback, Maca.setPacket]⟩
  | _ => cases ha

theorem lastSent_append (tr : List (Sys Waker × Act Waker)) (x : Sys Waker × Act Waker) :
    lastSent (tr ++ [x]) = match x.2 with | .sent status => some status | _ => lastSent tr := by
  obtain ⟨s, a⟩ := x
  cases a <;> simp [lastSent]

/-- Interrupts leave the futures and the flag; `tx_status` is that of the last completion. -/
theorem run_irq {init : Sys Waker → Prop} {tr : List (Sys Waker × Act Waker)}
    (hr : (radio Waker init).Run s tr s') (hirq : ∀ x ∈ tr, x.2.Irq) :
    s'.futures = s.futures ∧ s'.radio.state.cancelled = s.radio.state.cancelled ∧
      s'.radio.state.txStatus =
        ((lastSent tr).map UInt8.toUInt32).or s.radio.state.txStatus := by
  refine Lts.Run.induct (I := fun (tr : List (Sys Waker × Act Waker)) (s' : Sys Waker) =>
    (∀ x ∈ tr, x.2.Irq) → s'.futures = s.futures ∧
      s'.radio.state.cancelled = s.radio.state.cancelled ∧
      s'.radio.state.txStatus = ((lastSent tr).map UInt8.toUInt32).or s.radio.state.txStatus)
    (fun _ => ⟨rfl, rfl, rfl⟩) ?_ hr hirq
  intro tr t a u _ ih hst hirq
  obtain ⟨h₁, h₂, h₃⟩ := ih fun x hx => hirq x (List.mem_append_left _ hx)
  have ha : a.Irq := hirq (t, a) (by simp)
  obtain ⟨e₁, e₂, e₃⟩ := Sys.step_irq ha hst
  refine ⟨e₁.trans h₁, e₂.trans h₂, ?_⟩
  rw [e₃, lastSent_append]
  cases a with
  | sent status => rfl
  | _ => exact h₃

end Interrupts

/-! ## The poll after a cancel -/

section Polls

variable {r : Driver Waker}

/-- `receive` looks at the flag first. -/
theorem pollReceive_cancelled (w : Waker) (h : r.state.cancelled = true) :
    (pollReceive r w).1 = some false ∧ (pollReceive r w).2.2.state.cancelled = false := by
  unfold pollReceive
  rw [if_pos h]
  exact ⟨rfl, rfl⟩

/-- `transmit` looks at `tx_status` first. -/
theorem pollTransmit_cancelled (w : Waker) (h : r.state.cancelled = true) :
    (pollTransmit r w).1.result = some false ∧ (pollTransmit r w).2.state.cancelled = false ↔
      r.state.txStatus = none := by
  unfold pollTransmit
  cases ht : r.state.txStatus with
  | none => simp [h, TxPoll.result]
  | some status => simp [h]

/-- With the flag clear, `transmit` resolves with `false` only for a failed transmission. -/
theorem pollTransmit_clear (w : Waker) (h : r.state.cancelled = false) :
    (pollTransmit r w).1.result = some false ∧ (pollTransmit r w).2.state.cancelled = false ↔
      ∃ status, r.state.txStatus = some status ∧ status ≠ success := by
  unfold pollTransmit
  cases ht : r.state.txStatus with
  | none => simp [h, TxPoll.result]
  | some status => simp [h, TxPoll.result]

/-- `prepare_and_transmit` that still waits for a packet clears the flag first; with a packet and a
frame it then looks at `tx_status`. -/
theorem pollPrepareAndTransmit_result (w : Waker) (index : UInt8) (bytes : List UInt8) :
    (∃ found q r', pollPrepareAndTransmit r w index bytes false = some (found, q, r') ∧
        found.result = some false ∧ r'.state.cancelled = false) ↔
      r.maca.free ≠ [] ∧ txPsdu bytes ≠ none ∧
        ∃ status, r.state.txStatus = some status ∧ status ≠ success := by
  unfold pollPrepareAndTransmit claimFreePacket
  cases hf : r.maca.free with
  | nil => simp [TxPoll.result]
  | cons p free =>
    cases hp : txPsdu bytes with
    | none => simp [queueFrame, hp]
    | some psdu =>
      let r₀ : Driver Waker :=
        { state := { r.state with cancelled := false }, maca := { r.maca with free := free } }
      have hc : (setChannelIndex r₀ index).state.cancelled = false := by
        unfold setChannelIndex
        split <;> rfl
      have ht : (setChannelIndex r₀ index).state.txStatus = r.state.txStatus := by
        unfold setChannelIndex
        split <;> rfl
      simp only [Bool.false_eq_true, ↓reduceIte, queueFrame, hp, Option.map_some,
        Option.some.injEq, Prod.mk.injEq, ne_eq, reduceCtorEq, not_false_eq_true, true_and]
      -- The flag was cleared with the packet, so only a status of before can resolve the poll.
      have key := pollTransmit_clear (r := { setChannelIndex r₀ index with
        maca := queueTransmit (setChannelIndex r₀ index).maca p psdu }) w hc
      rw [ht] at key
      refine Iff.trans ?_ key
      constructor
      · rintro ⟨_, _, _, ⟨rfl, rfl, rfl⟩, h⟩
        exact h
      · exact fun h => ⟨_, _, _, ⟨rfl, rfl, rfl⟩, h⟩

end Polls

/-- A failed transmission, by the status of the MACA and by that in `tx_status`. -/
theorem status_map_iff {o : Option UInt8} :
    (∃ status, o.map UInt8.toUInt32 = some status ∧ status ≠ success) ↔
      ∃ status, o = some status ∧ status ≠ 0 := by
  constructor
  · rintro ⟨_, h, hne⟩
    obtain ⟨status, ho, rfl⟩ := Option.map_eq_some_iff.mp h
    exact ⟨status, ho, fun e => hne (by rw [e]; rfl)⟩
  · rintro ⟨status, rfl, hne⟩
    refine ⟨_, rfl, fun e => hne (UInt8.toNat_inj.mp ?_)⟩
    simpa [success] using congrArg UInt32.toNat e

/-- A poll aborts, by the poll of the future. -/
theorem Sys.aborts_iff {s : Sys Waker} {i : Nat} {w : Waker} {f : Fut}
    (hf : s.futures[i]?.join = some f) : s.Aborts i w ↔
      f.result s.radio w = some false ∧
        ∃ r f' write, f.poll s.radio w = some (r, f', write) ∧ r.state.cancelled = false := by
  simp only [Sys.Aborts, Sys.step, hf, Option.bind_some, Option.bind_eq_bind]
  refine and_congr_right fun _ => ?_
  constructor
  · rintro ⟨s', h, hc⟩
    obtain ⟨⟨r, f', write⟩, hp, e⟩ := Option.bind_eq_some_iff.mp h
    cases e
    exact ⟨r, f', write, hp, hc⟩
  · rintro ⟨r, f', write, hp, hc⟩
    rw [hp]
    exact ⟨_, rfl, hc⟩

/-- **Cancellation.** A future waits for a reception or a transmission, and `cancel_current_operation`
is called, with any interrupts of the MACA before it and between it and the next poll of the future.
That poll resolves with `false` and leaves the flag clear exactly where the future is `Abortable`. -/
theorem cancel_aborts_iff {init : Sys Waker → Prop} {s t u v : Sys Waker}
    {tr₁ tr₂ : List (Sys Waker × Act Waker)} {i : Nat} {f : Fut} (w : Waker)
    (hf : s.futures[i]?.join = some f) (hw : f.Waits)
    (h₁ : (radio Waker init).Run s tr₁ t) (hirq₁ : ∀ x ∈ tr₁, x.2.Irq)
    (hc : t.step .cancel = some u)
    (h₂ : (radio Waker init).Run u tr₂ v) (hirq₂ : ∀ x ∈ tr₂, x.2.Irq) :
    v.Aborts i w ↔ f.Abortable tr₂ v.radio.maca := by
  obtain ⟨ht, -, -⟩ := run_irq h₁ hirq₁
  cases hc
  obtain ⟨hv, hcan, hst⟩ := run_irq h₂ hirq₂
  -- The interrupts leave the flag; of the statuses they bring, the last one is found.
  have hcan : v.radio.state.cancelled = true := hcan
  have hst : v.radio.state.txStatus = (lastSent tr₂).map UInt8.toUInt32 := by
    rw [hst]
    exact Option.or_none
  have hnone : v.radio.state.txStatus = none ↔ lastSent tr₂ = none := by
    rw [hst, Option.map_eq_none_iff]
  have hfv : v.futures[i]?.join = some f := by
    rw [hv]
    exact (congrArg (fun l => l[i]?.join) ht).trans hf
  rw [Sys.aborts_iff hfv]
  cases f with
  | receive =>
    obtain ⟨h, h'⟩ := pollReceive_cancelled w hcan
    exact iff_of_true ⟨h, _, _, _, rfl, h'⟩ trivial
  | transmit =>
    refine Iff.trans ?_ ((pollTransmit_cancelled w hcan).trans hnone)
    exact and_congr_right fun _ => ⟨by rintro ⟨_, _, _, e, h⟩; cases e; exact h,
      fun h => ⟨_, _, _, rfl, h⟩⟩
  | prepareAndTransmit index bytes queued =>
    cases queued with
    | true =>
      refine Iff.trans ?_ ((pollTransmit_cancelled w hcan).trans hnone)
      exact and_congr_right fun _ => ⟨by rintro ⟨_, _, _, e, h⟩; cases e; exact h,
        fun h => ⟨_, _, _, rfl, h⟩⟩
    | false =>
      have key := pollPrepareAndTransmit_result (r := v.radio) w index bytes
      have hstatus : (∃ status, v.radio.state.txStatus = some status ∧ status ≠ success) ↔
          ∃ status, lastSent tr₂ = some status ∧ status ≠ 0 := by
        rw [hst]
        exact status_map_iff
      rw [hstatus] at key
      refine Iff.trans ?_ key
      cases hp : pollPrepareAndTransmit v.radio w index bytes false with
      | none => simp [Fut.result, hp]
      | some p =>
        obtain ⟨found, q, r⟩ := p
        simp only [Fut.result, Fut.poll, hp, Option.bind_eq_bind, Option.bind_some,
          Option.some.injEq, Prod.mk.injEq]
        constructor
        · rintro ⟨h, _, _, _, ⟨rfl, -, -⟩, hc⟩
          exact ⟨_, _, _, ⟨rfl, rfl, rfl⟩, h, hc⟩
        · rintro ⟨_, _, _, ⟨rfl, rfl, rfl⟩, h, hc⟩
          exact ⟨h, _, _, _, ⟨rfl, rfl, rfl⟩, hc⟩
  | _ => cases hw

/-- `transmit` is pending when it is cancelled. -/
def Sys.cancelled : List (Sys Nat × Act Nat) × Sys Nat :=
  Lts.exec Sys.step Sys.zero [.call (.prepareTransmit 11 [3, 170]), .poll 0 0, .call .transmit,
    .poll 1 0, .cancel]

theorem cancel_aborts_transmit : Sys.cancelled.2.Aborts 1 0 := by
  have hc : (Lts.exec Sys.step Sys.zero [.call (.prepareTransmit 11 [3, 170]), .poll 0 0,
      .call .transmit, .poll 1 0]).2.step .cancel = some Sys.cancelled.2 := rfl
  have hr (s : Sys Nat) : (radio Nat Sys.Started).Run s [] s :=
    Lts.Run.nil (S := radio Nat Sys.Started) s
  refine (cancel_aborts_iff (f := .transmit) 0 rfl trivial (hr _) (fun _ h => ?_) hc (hr _)
    fun _ h => ?_).mpr rfl
  · cases h
  · cases h

/-- The frame is sent between the cancel and the poll. -/
def Sys.sentAfterCancel : List (Sys Nat × Act Nat) × Sys Nat :=
  Lts.exec Sys.step Sys.cancelled.2 [.sent 0]

/-- `transmit` resolves with `true`, and the flag stays set. -/
theorem cancel_lost_to_completion :
    (radio Nat Sys.Started).Reach (Lts.Any _) Sys.sentAfterCancel.2 ∧
      Sys.sentAfterCancel.2.futures[1]?.join.bind (·.result Sys.sentAfterCancel.2.radio 0) =
        some true ∧
      Sys.sentAfterCancel.2.radio.state.cancelled = true ∧ ¬ Sys.sentAfterCancel.2.Aborts 1 0 := by
  have h₁ : (radio Nat Sys.Started).Run Sys.zero Sys.cancelled.1 Sys.cancelled.2 :=
    .exec Sys.Started Sys.step Sys.zero _
  have h₂ : (radio Nat Sys.Started).Run Sys.cancelled.2 Sys.sentAfterCancel.1
    Sys.sentAfterCancel.2 := .exec Sys.Started Sys.step Sys.cancelled.2 _
  have hres : Sys.sentAfterCancel.2.futures[1]?.join.bind
      (·.result Sys.sentAfterCancel.2.radio 0) = some true := rfl
  refine ⟨(h₁.trans h₂).reach (.init Sys.zero_started) fun _ _ => trivial, hres, rfl, ?_⟩
  rintro ⟨h, -⟩
  rw [hres] at h
  cases h

end Mc1322x.Radio
