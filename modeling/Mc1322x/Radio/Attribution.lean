import Mc1322x.Radio.Futures

/-!
# Which frame a transmit status belongs to

`Ledger` is the invariant of the radio: the frames sent and the frames in the transmit queue are all
frames in order, and a status in `txStatus` is that of the frame sent last. So a status that a poll
takes is that of the frame queued last exactly when no frame is in the queue
(`attributed_iff_clean`): queuing a frame does not empty `txStatus`, and does not wait for the
frames before it (`stale_status`). One frame at a time is enough (`attributed_of_settled`).
-/

namespace Mc1322x.Radio

variable {Waker : Type}

/-- The MACA status of a poll that is ready with one. -/
def TxPoll.status : TxPoll → Option UInt32
  | .sent status => some status
  | _ => none

/-- The MACA status with which a poll of a future resolves. -/
def Fut.status (r : Driver Waker) (w : Waker) : Fut → Option UInt32
  | .transmit => (pollTransmit r w).1.status
  | .prepareAndTransmit index bytes queued =>
    (pollPrepareAndTransmit r w index bytes queued).bind fun p => p.1.status
  | _ => none

/-- The MACA status with which a step resolves a future. -/
def Sys.status (s : Sys Waker) : Act Waker → Option UInt32
  | .poll i w => s.futures[i]?.join.bind (·.status s.radio w)
  | _ => none

/-- The frame queued last has been sent, with this status. -/
def Maca.LastStatus (m : Maca) (status : UInt32) : Prop :=
  ∃ k st, m.frames = k + 1 ∧ (k, st) ∈ m.sent ∧ st.toUInt32 = status

/-- A status with which the step resolves a future is that of the frame queued last. -/
def Sys.Attributed (s : Sys Waker) (a : Act Waker) : Prop :=
  ∀ s' status, s.step a = some s' → s.status a = some status → s'.radio.maca.LastStatus status

/-- No stale status: where the step polls a future that waits for a transmission, a status is there
only if the frame has been queued before and no frame is in the transmit queue. -/
def Sys.Clean (s : Sys Waker) : Act Waker → Prop
  | .poll i _ =>
    match s.futures[i]?.join with
    | some .transmit => s.radio.state.txStatus ≠ none → s.radio.maca.txQueue = []
    | some (.prepareAndTransmit _ _ true) =>
      s.radio.state.txStatus ≠ none → s.radio.maca.txQueue = []
    | some (.prepareAndTransmit _ bytes false) =>
      s.radio.maca.free ≠ [] → txPsdu bytes ≠ none → s.radio.state.txStatus = none
    | _ => True
  | _ => True

/-! ## The invariant -/

/-- The frames sent and the frames in the transmit queue are all frames in order, and the status
found is that of the frame sent last. -/
structure Ledger (r : Driver Waker) : Prop where
  frames : r.maca.sent.map (·.1) ++ r.maca.txQueue.map (·.frame) = List.range r.maca.frames
  status : ∀ status, r.state.txStatus = some status →
    ∃ k st, r.maca.sent.getLast? = some (k, st) ∧ st.toUInt32 = status

/-- A change of the radio that queues and sends no frame, and finds no status. -/
structure Quiet (r r' : Driver Waker) : Prop where
  txQueue : r'.maca.txQueue = r.maca.txQueue
  frames : r'.maca.frames = r.maca.frames
  sent : r'.maca.sent = r.maca.sent
  txStatus : r'.state.txStatus = r.state.txStatus ∨ r'.state.txStatus = none

section Invariant

variable {r r' : Driver Waker} {s s' : Sys Waker}

theorem Quiet.refl (r : Driver Waker) : Quiet r r := ⟨rfl, rfl, rfl, .inl rfl⟩

theorem Quiet.ledger (h : Quiet r r') (hl : Ledger r) : Ledger r' := by
  refine ⟨?_, ?_⟩
  · rw [h.txQueue, h.frames, h.sent]
    exact hl.frames
  · intro status hs
    rw [h.sent]
    rcases h.txStatus with ht | ht
    · exact hl.status status (ht ▸ hs)
    · rw [ht] at hs
      cases hs

/-! ### What each call does to the ledger -/

theorem setChannelIndex_quiet (r : Driver Waker) (index : UInt8) :
    Quiet r (setChannelIndex r index) := by
  unfold setChannelIndex
  split <;> exact ⟨rfl, rfl, rfl, .inl rfl⟩

theorem pollTransmit_quiet (r : Driver Waker) (w : Waker) : Quiet r (pollTransmit r w).2 := by
  unfold pollTransmit
  split
  · exact ⟨rfl, rfl, rfl, .inr rfl⟩
  · split <;> exact ⟨rfl, rfl, rfl, .inl rfl⟩

/-- The status is that in `txStatus`. -/
@[simp] theorem pollTransmit_status (r : Driver Waker) (w : Waker) :
    (pollTransmit r w).1.status = r.state.txStatus := by
  unfold pollTransmit
  split
  · rename_i h
    exact h.symm
  · rename_i h
    rw [h]
    split <;> rfl

theorem popReceivePacket_quiet {p : Ptr} (h : popReceivePacket r = some (p, r')) : Quiet r r' := by
  unfold popReceivePacket at h
  split at h
  · cases h
  · split at h
    · cases h
    · cases h
      exact ⟨rfl, rfl, rfl, .inl rfl⟩

theorem pollReceive_quiet (r : Driver Waker) (w : Waker) : Quiet r (pollReceive r w).2.2 := by
  unfold pollReceive
  split
  · exact ⟨rfl, rfl, rfl, .inl rfl⟩
  · split
    · exact ⟨rfl, rfl, rfl, .inl rfl⟩
    · rename_i p r₁ h
      obtain ⟨h₁, h₂, h₃, h₄⟩ := popReceivePacket_quiet h
      dsimp only
      split <;> exact ⟨h₁, h₂, h₃, h₄⟩

theorem Fut.drop_quiet (r : Driver Waker) (f : Fut) : Quiet r (f.drop r) := by
  cases f <;> exact ⟨rfl, rfl, rfl, .inl rfl⟩

/-- A frame is added to the transmit queue. -/
structure Queues (r r' : Driver Waker) : Prop where
  txQueue : ∃ p, r'.maca.txQueue = r.maca.txQueue ++ [⟨r.maca.frames, p⟩]
  frames : r'.maca.frames = r.maca.frames + 1
  sent : r'.maca.sent = r.maca.sent
  txStatus : r'.state.txStatus = r.state.txStatus ∨ r'.state.txStatus = none

theorem queueFrame_queues {p : Ptr} {index : UInt8} {bytes : List UInt8}
    (h : queueFrame r p index bytes = some r') :
    Queues r r' ∧ r'.state.txStatus = r.state.txStatus := by
  obtain ⟨psdu, -, rfl⟩ := Option.map_eq_some_iff.mp h
  have hst : (setChannelIndex r index).state.txStatus = r.state.txStatus := by
    unfold setChannelIndex
    split <;> rfl
  obtain ⟨hq, hf, hs, -⟩ := setChannelIndex_quiet r index
  refine ⟨⟨⟨p, ?_⟩, ?_, hs, .inl hst⟩, hst⟩
  · simp only [queueTransmit, txPacket, Maca.setPacket, hq, hf]
  · simp only [queueTransmit, txPacket, Maca.setPacket, hf]

theorem Queues.ledger (h : Queues r r') (hl : Ledger r) : Ledger r' := by
  obtain ⟨⟨p, hq⟩, hf, hs, ht⟩ := h
  refine ⟨?_, ?_⟩
  · rw [hq, hf, hs, List.map_append, ← List.append_assoc, hl.frames]
    exact List.range_succ.symm
  · intro status hst
    rw [hs]
    rcases ht with ht | ht
    · exact hl.status status (ht ▸ hst)
    · rw [ht] at hst
      cases hst

theorem Queues.quiet {r'' : Driver Waker} (h : Queues r r') (h' : Quiet r' r'') :
    Queues r r'' := by
  obtain ⟨⟨p, hq⟩, hf, hs, ht⟩ := h
  refine ⟨⟨p, h'.txQueue.trans hq⟩, h'.frames.trans hf, h'.sent.trans hs, ?_⟩
  rcases h'.txStatus with e | e
  · exact ht.imp e.trans e.trans
  · exact .inr e

/-- The poll that queues: the packet is claimed and the frame is in the transmit queue. -/
theorem claim_queues {free : List Ptr} {p : Ptr} {index : UInt8} {bytes : List UInt8} {c : Bool}
    (h : queueFrame
      { state := { r.state with cancelled := c }, maca := { r.maca with free := free } } p index
      bytes = some r') : Queues r r' ∧ r'.state.txStatus = r.state.txStatus := by
  obtain ⟨⟨hq, hf, hs, ht⟩, hst⟩ := queueFrame_queues h
  exact ⟨⟨hq, hf, hs, ht⟩, hst⟩

/-- A poll queues a frame or leaves the ledger. -/
theorem Fut.poll_cases {f : Fut} {w : Waker} {f' : Option Fut} {write : Option (Ptr × List UInt8)}
    (h : f.poll r w = some (r', f', write)) : Quiet r r' ∨ Queues r r' := by
  have hs := Fut.poll_spec h
  cases f with
  | disable | enable | prepareReceive buffer =>
    obtain ⟨rfl, -⟩ := hs
    exact .inl ⟨rfl, rfl, rfl, .inl rfl⟩
  | receive =>
    obtain ⟨rfl, -⟩ := hs
    exact .inl (pollReceive_quiet r w)
  | receiveResolved => exact hs.elim
  | transmit =>
    obtain ⟨rfl, -⟩ := hs
    exact .inl (pollTransmit_quiet r w)
  | prepareTransmit index bytes =>
    obtain ⟨⟨-, rfl⟩ | ⟨p, free, r₁, -, hq, rfl⟩, -⟩ := hs
    · exact .inl ⟨rfl, rfl, rfl, .inl rfl⟩
    · exact .inr (claim_queues hq).1
  | prepareAndTransmit index bytes queued =>
    cases queued with
    | true =>
      obtain ⟨rfl, -⟩ := hs
      exact .inl (pollTransmit_quiet r w)
    | false =>
      obtain ⟨⟨-, rfl⟩ | ⟨p, free, r₁, -, hq, rfl⟩, -⟩ := hs
      · exact .inl ⟨rfl, rfl, rfl, .inl rfl⟩
      · -- The first look at `tx_status` is in the same poll, after the frame was queued.
        exact .inr ((claim_queues hq).1.quiet (pollTransmit_quiet _ w))

/-- The oldest frame in the transmit queue is sent. -/
theorem Ledger.sent {q : Queued} {rest : List Queued} {status : UInt8} (hl : Ledger r)
    (hq : r.maca.txQueue = q :: rest) (hq' : r'.maca.txQueue = rest)
    (hf : r'.maca.frames = r.maca.frames) (hs : r'.maca.sent = r.maca.sent ++ [(q.frame, status)])
    (ht : r'.state.txStatus = some status.toUInt32) : Ledger r' := by
  refine ⟨?_, ?_⟩
  · rw [hq', hf, hs, ← hl.frames, hq]
    simp
  · intro st h
    rw [ht] at h
    cases h
    exact ⟨q.frame, status, by rw [hs]; simp, rfl⟩

/-- A step that sends no frame and polls no future leaves the ledger. -/
theorem Sys.step_quiet {a : Act Waker} (hs : s.step a = some s') (hp : ∀ i w, a ≠ .poll i w)
    (hn : ∀ status, a ≠ .sent status) : Quiet s.radio s'.radio := by
  have h := Sys.step_spec hs
  cases a with
  | call c =>
    cases h
    exact .refl s.radio
  | poll i w => exact absurd rfl (hp i w)
  | drop i =>
    obtain ⟨f, -, rfl⟩ := h
    exact f.drop_quiet s.radio
  | cancel =>
    cases h
    exact ⟨rfl, rfl, rfl, .inr rfl⟩
  | setChannel index =>
    cases h
    exact setChannelIndex_quiet s.radio index
  | listen =>
    obtain ⟨p, free, -, -, rfl⟩ := h
    exact ⟨rfl, rfl, rfl, .inl rfl⟩
  | received k =>
    obtain ⟨p, -, rfl⟩ := h
    exact ⟨rfl, rfl, rfl, .inl rfl⟩
  | sent status => exact absurd rfl (hn status)

theorem Ledger.step (hl : Ledger s.radio) {a : Act Waker} (hs : s.step a = some s') :
    Ledger s'.radio := by
  cases a with
  | poll i w =>
    obtain ⟨f, r, f', write, -, hp, rfl⟩ := Sys.step_spec hs
    exact (Fut.poll_cases hp).elim (·.ledger hl) (·.ledger hl)
  | sent status =>
    obtain ⟨q, rest, hq, rfl⟩ := Sys.step_spec hs
    exact hl.sent hq rfl rfl rfl (by simp [macaTxCallback, Maca.setPacket])
  | _ => exact (Sys.step_quiet hs (by simp) (by simp)).ledger hl

theorem Sys.Started.ledger (h : s.Started) : Ledger s.radio := by
  obtain ⟨-, hst, hq, hf, hs⟩ := h
  refine ⟨by rw [hq, hf, hs]; rfl, ?_⟩
  intro status ht
  rw [hst] at ht
  cases ht

theorem Ledger.reach {C : Sys Waker → Act Waker → Prop}
    (h : (radio Waker Sys.Started).Reach C s) : Ledger s.radio :=
  Lts.Reach.induct (I := fun s : Sys Waker => Ledger s.radio) (fun _ h => Sys.Started.ledger h)
    (fun _ _ _ hi _ hs => hi.step hs) h

/-- The frame queued last has been sent with the status found exactly when no frame is in the
transmit queue. -/
theorem Ledger.last_iff (hl : Ledger r) {status : UInt32} (ht : r.state.txStatus = some status) :
    r.maca.LastStatus status ↔ r.maca.txQueue = [] := by
  obtain ⟨k, st, hlast, hst⟩ := hl.status status ht
  have hfr := hl.frames
  constructor
  · rintro ⟨j, st', hj, hmem, -⟩
    cases hq : r.maca.txQueue.getLast? with
    | none => exact List.getLast?_eq_none_iff.mp hq
    | some q =>
      -- The last frame of the queue would be the one sent.
      obtain ⟨init, hinit⟩ := List.getLast?_eq_some_iff.mp hq
      rw [hinit, List.map_append, ← List.append_assoc, hj, List.range_succ] at hfr
      obtain ⟨hpre, hlst⟩ := List.append_inj' hfr rfl
      have hjm : j ∈ List.range j := by
        rw [← hpre]
        exact List.mem_append_left _ (List.mem_map.mpr ⟨_, hmem, rfl⟩)
      exact absurd (List.mem_range.mp hjm) (Nat.lt_irrefl _)
  · intro hq
    obtain ⟨init, hinit⟩ := List.getLast?_eq_some_iff.mp hlast
    rw [hq, List.map_nil, List.append_nil, hinit, List.map_append] at hfr
    cases hn : r.maca.frames with
    | zero =>
      rw [hn] at hfr
      simp at hfr
    | succ n =>
      rw [hn, List.range_succ] at hfr
      obtain ⟨-, hlst⟩ := List.append_inj' hfr rfl
      refine ⟨k, st, ?_, by rw [hinit]; simp, hst⟩
      simp only [List.map_cons, List.map_nil, List.cons.injEq, and_true] at hlst
      rw [hlst]
      exact hn

end Invariant

/-! ## Attribution -/

section

variable {s : Sys Waker}

/-- A poll of a future attributes its status to the right frame. -/
theorem attributed_poll {i : Nat} {w : Waker} {f : Fut} (hf : s.futures[i]?.join = some f) :
    s.Attributed (.poll i w) ↔ ∀ r f' write status, f.poll s.radio w = some (r, f', write) →
      f.status s.radio w = some status → r.maca.LastStatus status := by
  simp only [Sys.Attributed, Sys.step, Sys.status, hf, Option.bind_eq_bind, Option.bind_some]
  constructor
  · intro h r f' write status hp hs
    exact h _ status (by rw [hp]; rfl) hs
  · intro h s' status hp hs
    obtain ⟨⟨r, f', write⟩, hp', e⟩ := Option.bind_eq_some_iff.mp hp
    cases e
    exact h r f' write status hp' hs

/-- The status in `txStatus` is the one to report exactly when no frame is in the queue. -/
theorem lastStatus_iff (hl : Ledger s.radio) :
    (∀ status, s.radio.state.txStatus = some status → s.radio.maca.LastStatus status) ↔
      (s.radio.state.txStatus ≠ none → s.radio.maca.txQueue = []) := by
  cases ht : s.radio.state.txStatus with
  | none => simp
  | some status =>
    simp only [Option.some.injEq, forall_eq', ne_eq, reduceCtorEq, not_false_eq_true, forall_const]
    exact hl.last_iff ht

/-- A poll that waits for a frame queued before. -/
theorem attributed_wait (hl : Ledger s.radio) {w : Waker} {f : Fut} {f' : Option Fut}
    (hp : f.poll s.radio w = some ((pollTransmit s.radio w).2, f', none))
    (hst : f.status s.radio w = s.radio.state.txStatus) :
    (∀ r f' write status, f.poll s.radio w = some (r, f', write) →
      f.status s.radio w = some status → r.maca.LastStatus status) ↔
      (s.radio.state.txStatus ≠ none → s.radio.maca.txQueue = []) := by
  rw [← lastStatus_iff hl, hst]
  constructor
  · intro h status ht
    have hlast := h _ _ _ status hp ht
    rwa [pollTransmit_maca] at hlast
  · intro h r f' write status hp' ht
    rw [hp] at hp'
    cases hp'
    rw [pollTransmit_maca]
    exact h status ht

/-- The poll that queues a frame finds the status of an earlier one, if any. -/
theorem lastStatus_queued {r : Driver Waker} (hl : Ledger s.radio) (hq : Queues s.radio r)
    (ht : r.state.txStatus = s.radio.state.txStatus) :
    (∀ status, r.state.txStatus = some status → r.maca.LastStatus status) ↔
      s.radio.state.txStatus = none := by
  rw [← ht]
  constructor
  · intro h
    cases hst : r.state.txStatus with
    | none => rfl
    | some status =>
      obtain ⟨p, hp⟩ := hq.txQueue
      have he := ((hq.ledger hl).last_iff hst).mp (h status hst)
      rw [hp] at he
      exact absurd he (by simp)
  · intro h status hst
    rw [h] at hst
    cases hst

/-- A poll of the future of `prepare_and_transmit` before it has queued its frame. -/
theorem attributed_prepareAndTransmit (hl : Ledger s.radio) {w : Waker} {index : UInt8}
    {bytes : List UInt8} :
    (∀ r f' write status,
      (Fut.prepareAndTransmit index bytes false).poll s.radio w = some (r, f', write) →
      (Fut.prepareAndTransmit index bytes false).status s.radio w = some status →
      r.maca.LastStatus status) ↔
    (s.radio.maca.free ≠ [] → txPsdu bytes ≠ none → s.radio.state.txStatus = none) := by
  cases hc : claimFreePacket s.radio.maca with
  | none =>
    have hfree : s.radio.maca.free = [] := by
      unfold claimFreePacket at hc
      split at hc
      · assumption
      · cases hc
    simp [Fut.status, pollPrepareAndTransmit, hc, TxPoll.status, hfree]
  | some x =>
    obtain ⟨p, m⟩ := x
    obtain ⟨free, hf, rfl⟩ := claimFreePacket_eq_some hc
    have hfree : s.radio.maca.free ≠ [] := by
      rw [hf]
      exact List.cons_ne_nil _ _
    cases hq : queueFrame
        { state := { s.radio.state with cancelled := false }
          maca := { s.radio.maca with free := free } } p index bytes with
    | none =>
      have hpsdu : txPsdu bytes = none := Option.map_eq_none_iff.mp hq
      simp [Fut.poll, pollPrepareAndTransmit, hc, hq, hpsdu]
    | some r₁ =>
      obtain ⟨hqs, hst⟩ := claim_queues hq
      have hpsdu : txPsdu bytes ≠ none := by
        obtain ⟨psdu, h, -⟩ := Option.map_eq_some_iff.mp hq
        rw [h]
        exact Option.some_ne_none _
      simp only [Fut.poll, Fut.status, pollPrepareAndTransmit, Bool.false_eq_true, ↓reduceIte, hc,
        hq, Option.map_some, Option.bind_eq_bind, Option.bind_some, pollTransmit_status, hfree,
        hpsdu, ne_eq, not_false_eq_true, forall_const]
      -- Queueing leaves `tx_status`: what the poll finds there is of a frame before this one.
      rw [← lastStatus_queued hl hqs hst]
      constructor
      · intro h status ht
        have := h _ _ _ status rfl ht
        rwa [pollTransmit_maca] at this
      · intro h r f' write status e ht
        cases e
        rw [pollTransmit_maca]
        exact h status ht

/-- One step attributes a status to the right frame exactly when it is clean. -/
theorem attributed_step_iff (hl : Ledger s.radio) (a : Act Waker) :
    s.Attributed a ↔ s.Clean a := by
  cases a with
  | poll i w =>
    cases hf : s.futures[i]?.join with
    | none =>
      simp [Sys.Attributed, Sys.Clean, Sys.status, hf]
    | some f =>
      rw [attributed_poll hf]
      cases f with
      | transmit =>
        simp only [Sys.Clean, hf]
        exact attributed_wait hl rfl (pollTransmit_status s.radio w)
      | prepareAndTransmit index bytes queued =>
        simp only [Sys.Clean, hf]
        cases queued with
        | false => exact attributed_prepareAndTransmit hl
        | true => exact attributed_wait hl rfl (pollTransmit_status s.radio w)
      | _ => simp [Sys.Clean, hf, Fut.status]
  | _ => exact ⟨fun _ => trivial, fun _ _ _ _ h => by cases h⟩

end

/-- **Attribution.** In every run of the radio, every status with which a future resolves is that of
the frame queued last exactly when every step is clean. -/
theorem attributed_iff_clean {s s' : Sys Waker} {tr : List (Sys Waker × Act Waker)}
    (hs : s.Started) (hr : (radio Waker Sys.Started).Run s tr s') :
    (∀ x ∈ tr, x.1.Attributed x.2) ↔ ∀ x ∈ tr, x.1.Clean x.2 :=
  Lts.Run.forall_iff (fun _ a h => attributed_step_iff (Ledger.reach h) a) (.init hs) hr

/-! ## One frame at a time -/

/-- A frame is queued only while no frame is in the transmit queue and no status is to be taken. -/
def Sys.Settled (s : Sys Waker) : Act Waker → Prop
  | .poll i _ =>
    match s.futures[i]?.join with
    | some (.prepareTransmit _ _) | some (.prepareAndTransmit _ _ false) =>
      s.radio.maca.txQueue = [] ∧ s.radio.state.txStatus = none
    | _ => True
  | _ => True

/-- At most one frame is in the transmit queue, and none while there is a status to be taken. -/
def OneFrame (r : Driver Waker) : Prop :=
  r.maca.txQueue.length ≤ 1 ∧ (r.state.txStatus ≠ none → r.maca.txQueue = [])

section

variable {r r' : Driver Waker} {s s' : Sys Waker}

theorem OneFrame.quiet (h : OneFrame r) (hq : Quiet r r') : OneFrame r' := by
  refine ⟨hq.txQueue ▸ h.1, ?_⟩
  intro ht
  rw [hq.txQueue]
  rcases hq.txStatus with e | e
  · exact h.2 (e ▸ ht)
  · exact absurd e ht

theorem OneFrame.queues (hq : Queues r r') (he : r.maca.txQueue = [])
    (ht : r.state.txStatus = none) : OneFrame r' := by
  obtain ⟨p, hp⟩ := hq.txQueue
  have hn : r'.state.txStatus = none := hq.txStatus.elim (·.trans ht) id
  rw [he] at hp
  exact ⟨by rw [hp]; exact Nat.le_refl _, fun hne => absurd hn hne⟩

/-- The poll of a future that is not to queue a frame leaves the ledger. -/
theorem Fut.poll_quiet {f : Fut} {w : Waker} {f' : Option Fut} {write : Option (Ptr × List UInt8)}
    (h : f.poll r w = some (r', f', write)) (hp : ∀ index bytes, f ≠ .prepareTransmit index bytes)
    (hpt : ∀ index bytes, f ≠ .prepareAndTransmit index bytes false) : Quiet r r' := by
  cases f with
  | disable | enable | prepareReceive buffer =>
    cases h
    exact ⟨rfl, rfl, rfl, .inl rfl⟩
  | receive =>
    cases h
    exact pollReceive_quiet r w
  | receiveResolved => cases h
  | transmit =>
    cases h
    exact pollTransmit_quiet r w
  | prepareTransmit index bytes => exact absurd rfl (hp index bytes)
  | prepareAndTransmit index bytes queued =>
    cases queued with
    | false => exact absurd rfl (hpt index bytes)
    | true =>
      cases h
      exact pollTransmit_quiet r w

theorem OneFrame.poll (h : OneFrame s.radio) {i : Nat} {w : Waker} {f : Fut} {f' : Option Fut}
    {write : Option (Ptr × List UInt8)} (hf : s.futures[i]?.join = some f)
    (hc : s.Settled (.poll i w)) (hp : f.poll s.radio w = some (r', f', write)) :
    OneFrame r' := by
  simp only [Sys.Settled, hf] at hc
  cases f with
  | prepareTransmit index bytes =>
    exact (Fut.poll_cases hp).elim h.quiet (OneFrame.queues · hc.1 hc.2)
  | prepareAndTransmit index bytes queued =>
    cases queued with
    | false => exact (Fut.poll_cases hp).elim h.quiet (OneFrame.queues · hc.1 hc.2)
    | true => exact h.quiet (Fut.poll_quiet hp (by simp) (by simp))
  | _ => exact h.quiet (Fut.poll_quiet hp (by simp) (by simp))

theorem OneFrame.step (h : OneFrame s.radio) {a : Act Waker} (hc : s.Settled a)
    (hs : s.step a = some s') : OneFrame s'.radio := by
  cases a with
  | poll i w =>
    obtain ⟨f, r, f', write, hf, hp, rfl⟩ := Sys.step_spec hs
    exact h.poll hf hc hp
  | sent status =>
    obtain ⟨q, rest, hq, rfl⟩ := Sys.step_spec hs
    have hlen := h.1
    rw [hq, List.length_cons] at hlen
    have hrest : rest = [] := List.eq_nil_of_length_eq_zero (by omega)
    exact ⟨by rw [hrest]; exact Nat.zero_le _, fun _ => hrest⟩
  | _ => exact h.quiet (Sys.step_quiet hs (by simp) (by simp))

end

/-- One frame at a time: where a frame is queued only after the status of the one before has been
taken or discarded, every status is that of the frame queued last. -/
theorem attributed_of_settled {s : Sys Waker} {a : Act Waker}
    (hs : (radio Waker Sys.Started).Reach Sys.Settled s) (hc : s.Settled a) : s.Attributed a := by
  have hone : OneFrame s.radio :=
    Lts.Reach.induct (I := fun s : Sys Waker => OneFrame s.radio)
      (by rintro s ⟨-, hst, hq, -, -⟩; exact ⟨by rw [hq]; exact Nat.zero_le _, fun _ => hq⟩)
      (fun _ _ _ hi hc hs => hi.step hc hs) hs
  refine (attributed_step_iff (Ledger.reach hs) a).mpr ?_
  cases a with
  | poll i w =>
    simp only [Sys.Clean, Sys.Settled] at hc ⊢
    split
    · exact hone.2
    · exact hone.2
    · rename_i hf
      rw [hf] at hc
      exact fun _ _ => hc.2
    · trivial
  | _ => trivial

/-! ## Concrete runs -/

/-- A frame is queued, sent without an acknowledgement (5), and waited for. -/
def Sys.oneFrame : List (Sys Nat × Act Nat) × Sys Nat :=
  Lts.exec Sys.step Sys.zero [.call (.prepareTransmit 11 [3, 170]), .poll 0 0, .sent 5,
    .call .transmit, .poll 1 0]

theorem attributed_one_frame :
    Sys.oneFrame.2.radio.maca.sent = [(0, 5)] ∧ ∀ x ∈ Sys.oneFrame.1, x.1.Attributed x.2 := by
  refine ⟨rfl, ?_⟩
  refine (attributed_iff_clean Sys.zero_started (Lts.Run.exec _ Sys.step Sys.zero _)).mpr ?_
  refine List.forall_mem_cons.mpr ⟨trivial, List.forall_mem_cons.mpr ⟨trivial, ?_⟩⟩
  refine List.forall_mem_cons.mpr ⟨trivial, List.forall_mem_cons.mpr ⟨trivial, ?_⟩⟩
  exact List.forall_mem_cons.mpr ⟨fun _ => rfl, fun _ h => by cases h⟩

/-- A frame is sent without an acknowledgement (5) and nobody takes the status; the next frame is
queued, and `transmit` is to wait for it. -/
def Sys.twoFrames : List (Sys Nat × Act Nat) × Sys Nat :=
  Lts.exec Sys.step Sys.zero [.call (.prepareTransmit 11 [3, 170]), .poll 0 0, .sent 5,
    .call (.prepareTransmit 11 [3, 187]), .poll 1 0, .call .transmit]

/-- `transmit` resolves with the status of the earlier frame, while the frame queued last is still
in the transmit queue. -/
theorem stale_status :
    (radio Nat Sys.Started).Reach (Lts.Any _) Sys.twoFrames.2 ∧
      Sys.twoFrames.2.status (.poll 2 0) = some 5 ∧ Sys.twoFrames.2.radio.maca.frames = 2 ∧
      Sys.twoFrames.2.radio.maca.sent = [(0, 5)] ∧ ¬ Sys.twoFrames.2.Attributed (.poll 2 0) := by
  have hr : (radio Nat Sys.Started).Run Sys.zero Sys.twoFrames.1 Sys.twoFrames.2 :=
    .exec Sys.Started Sys.step Sys.zero _
  refine ⟨hr.reach (.init Sys.zero_started) fun _ _ => trivial, rfl, rfl, rfl, ?_⟩
  intro h
  obtain ⟨k, st, hk, hm, -⟩ := h _ 5 rfl rfl
  have hk : 2 = k + 1 := hk
  have hm : (k, st) ∈ [(0, (5 : UInt8))] := hm
  cases List.mem_singleton.mp hm
  omega

end Mc1322x.Radio
