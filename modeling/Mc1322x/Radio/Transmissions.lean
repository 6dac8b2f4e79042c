import Mc1322x.Radio.TransmitQueue

/-!
# The reports of `check_transmit`

`Books` lists the frames that `start_transmit` accepts, the completions of these frames, and what
`check_transmit` reports. There is one `tx_status` and one `tx_in_flight` for all frames, so the
reports are those of the accepted frames only with one frame at a time (`Full.OneAtATime`,
`transmissions_accounted`).
-/

namespace Mc1322x.Radio

variable {Waker : Type}

/-- What `check_transmit` returns for a completion with `status`. -/
def report (status : UInt32) : Except Error Bool :=
  if status = success then .ok true else .error (.transmit status)

/-- The books of a run. -/
structure Books where
  /-- The frames that `start_transmit` has accepted. -/
  accepted : List Nat
  /-- The accepted frames that have been sent, with their MACA status. -/
  completed : List (Nat × UInt8)
  /-- What `check_transmit` has returned other than `Ok(false)`. -/
  reports : List (Except Error Bool)

/-- What an action adds to the books. -/
def Books.step (b : Books) (x : Full Waker × FullAct Waker) : Books :=
  match x.2 with
  | .startTransmit data =>
    match (startTransmit x.1.sys.radio x.1.txInFlight data).1 with
    | .ok _ => { b with accepted := b.accepted ++ [x.1.sys.radio.maca.frames] }
    | .error _ => b
  | .checkTransmit =>
    match (checkTransmit x.1.sys.radio x.1.txInFlight).1 with
    | .ok false => b
    | result => { b with reports := b.reports ++ [result] }
  | .base (.sent status) =>
    match x.1.sys.radio.maca.txQueue with
    | [] => b
    | q :: _ =>
      if q.frame ∈ b.accepted then { b with completed := b.completed ++ [(q.frame, status)] } else b
  | _ => b

/-- The books of a run. -/
def books (tr : List (Full Waker × FullAct Waker)) : Books := tr.foldl Books.step ⟨[], [], []⟩

/-- The reports are those of the completed frames, in order and none too many; `is_busy` is true
while one is missing; and none is missing once all frames are completed and `check_transmit` has
nothing to report. -/
structure Books.Accounted (b : Books) (s : Full Waker) : Prop where
  completed : b.completed.map (·.1) <+: b.accepted
  reports : b.reports <+: b.completed.map (report ·.2.toUInt32)
  busy : s.txInFlight = true ↔ b.reports.length < b.accepted.length
  all : b.completed.map (·.1) = b.accepted →
    (checkTransmit s.sys.radio s.txInFlight).1 = .ok false →
    b.reports = b.completed.map (report ·.2.toUInt32)

/-- A transmission's call or the end of one. -/
def FullAct.Transmits : FullAct Waker → Prop
  | .startTransmit _ | .checkTransmit | .isBusy | .base .cancel | .base (.sent _) => True
  | _ => False

/-- One frame at a time: `start_transmit` is not called while a frame is in flight, `check_transmit`
finds no status but that of the frame in flight, and no such status is cancelled. -/
def Full.OneAtATime (s : Full Waker) : FullAct Waker → Prop
  | .startTransmit _ => s.sys.radio.maca.free ≠ [] → s.txInFlight = false
  | .checkTransmit => s.sys.radio.state.txStatus ≠ none →
    s.txInFlight = true ∧ s.sys.radio.maca.txQueue = []
  | .base .cancel => s.txInFlight = true → s.sys.radio.maca.txQueue = [] →
    s.sys.radio.state.txStatus = none
  | _ => True

/-! ## The invariant -/

/-- Where the accepted frames are, by `tx_in_flight`. -/
inductive Phase (b : Books) (r : Driver Waker) : Bool → Prop
  /-- All are reported. -/
  | idle (reports : b.reports = b.completed.map (report ·.2.toUInt32))
      (accepted : b.accepted = b.completed.map (·.1))
      (queue : ∀ q ∈ r.maca.txQueue, q.frame ∉ b.accepted) : Phase b r false
  /-- The last one is the last one in the transmit queue. -/
  | flying (a : Queued) (before : List Queued)
      (reports : b.reports = b.completed.map (report ·.2.toUInt32))
      (accepted : b.accepted = b.completed.map (·.1) ++ [a.frame])
      (queue : r.maca.txQueue = before ++ [a])
      (before : ∀ q ∈ before, q.frame ∉ b.accepted) : Phase b r true
  /-- The last one is sent, and its status is in `tx_status`. -/
  | landed (done : List (Nat × UInt8)) (a : Nat) (status : UInt8)
      (completed : b.completed = done ++ [(a, status)])
      (reports : b.reports = done.map (report ·.2.toUInt32))
      (accepted : b.accepted = b.completed.map (·.1)) (queue : r.maca.txQueue = [])
      (found : r.state.txStatus = some status.toUInt32) : Phase b r true

/-- The books agree with the state. -/
structure Agrees (b : Books) (s : Full Waker) : Prop where
  phase : Phase b s.sys.radio s.txInFlight
  accepted : ∀ k ∈ b.accepted, k < s.sys.radio.maca.frames
  queue : ∀ q ∈ s.sys.radio.maca.txQueue, q.frame < s.sys.radio.maca.frames

section Invariant

variable {b : Books} {s s' : Full Waker}

theorem Agrees.accounted (h : Agrees b s) : b.Accounted s := by
  generalize hf : s.txInFlight = f
  cases hf ▸ h.phase with
  | idle reports accepted queue =>
    refine ⟨⟨[], by rw [List.append_nil, accepted]⟩, ⟨[], by rw [List.append_nil, reports]⟩, ?_,
      fun _ _ => reports⟩
    rw [reports, accepted]
    simp [hf]
  | flying a before reports accepted queue hb =>
    refine ⟨⟨[a.frame], accepted.symm⟩, ⟨[], by rw [List.append_nil, reports]⟩, ?_,
      fun _ _ => reports⟩
    rw [reports, accepted]
    simp [hf]
  | landed done a status completed reports accepted queue found =>
    refine ⟨⟨[], by rw [List.append_nil, accepted]⟩, ?_, ?_, ?_⟩
    · rw [reports, completed, List.map_append]
      exact List.prefix_append _ _
    · rw [reports, accepted, completed]
      simp [hf]
    · intro _ hc
      unfold checkTransmit at hc
      rw [found] at hc
      dsimp only at hc
      split at hc <;> cases hc

theorem Agrees.startTransmit (h : Agrees b s) {data : List UInt8}
    (hc : s.OneAtATime (.startTransmit data)) (hs : s.step (.startTransmit data) = some s') :
    Agrees (b.step (s, .startTransmit data)) s' := by
  cases hs
  cases hf : s.sys.radio.maca.free with
  | nil =>
    simp only [Books.step, Radio.startTransmit, claimFreePacket, hf, Full.withRadio]
    obtain ⟨hp, ha, hq⟩ := h
    refine ⟨?_, ha, hq⟩
    generalize s.txInFlight = f at hp ⊢
    -- No packet: the call fails, and the books are as before.
    cases hp with
    | idle reports accepted queue => exact .idle reports accepted queue
    | flying a before reports accepted queue hb => exact .flying a before reports accepted queue hb
    | landed done a status completed reports accepted queue found =>
      exact .landed done a status completed reports accepted queue found
  | cons p free =>
    -- A call while a frame is in flight is what `OneAtATime` excludes.
    have hidle : s.txInFlight = false := hc (by rw [hf]; exact List.cons_ne_nil _ _)
    simp only [Books.step, Radio.startTransmit, claimFreePacket, hf, Full.withRadio]
    obtain ⟨hp, ha, hq⟩ := h
    rw [hidle] at hp
    cases hp with
    | idle reports accepted queue =>
      refine ⟨.flying ⟨s.sys.radio.maca.frames, p⟩ s.sys.radio.maca.txQueue reports ?_ rfl ?_, ?_,
        ?_⟩
      · rw [accepted]
      · intro q hm hmem
        rcases List.mem_append.mp hmem with hmem | hmem
        · exact queue q hm hmem
        · rw [List.mem_singleton] at hmem
          have := hq q hm
          omega
      · intro k hk
        rcases List.mem_append.mp hk with hk | hk
        · exact Nat.lt_succ_of_lt (ha k hk)
        · rw [List.mem_singleton.mp hk]
          exact Nat.lt_succ_self _
      · intro q hm
        rcases List.mem_append.mp hm with hm | hm
        · exact Nat.lt_succ_of_lt (hq q hm)
        · rw [List.mem_singleton.mp hm]
          exact Nat.lt_succ_self _

theorem Agrees.checkTransmit (h : Agrees b s) (hc : s.OneAtATime .checkTransmit)
    (hs : s.step .checkTransmit = some s') : Agrees (b.step (s, .checkTransmit)) s' := by
  cases hs
  cases ht : s.sys.radio.state.txStatus with
  | none =>
    simp only [Books.step, Radio.checkTransmit, ht, Full.withRadio]
    exact h
  | some status =>
    -- A frame is in flight, and it is not in the queue: its status has been found.
    obtain ⟨hbusy, hempty⟩ := hc (by rw [ht]; exact Option.some_ne_none _)
    obtain ⟨hp, ha, hq⟩ := h
    rw [hbusy] at hp
    cases hp with
    | flying a before reports accepted queue hb =>
      rw [hempty] at queue
      exact absurd queue.symm (by simp)
    | landed done a st completed reports accepted queue found =>
      cases found.symm.trans ht
      have hb : b.step (s, .checkTransmit) =
          { b with reports := b.reports ++ [report st.toUInt32] } := by
        unfold Books.step report
        by_cases hst : st.toUInt32 = success
        · simp only [Radio.checkTransmit, ht, if_pos hst]
        · simp only [Radio.checkTransmit, ht, if_neg hst]
      rw [hb]
      refine ⟨.idle ?_ accepted ?_, ha, hq⟩
      · rw [reports, completed, List.map_append]
        rfl
      · intro q hm
        have hm : q ∈ s.sys.radio.maca.txQueue := hm
        rw [queue] at hm
        cases hm

theorem Agrees.cancel (h : Agrees b s) (hc : s.OneAtATime (.base .cancel))
    (hs : s.step (.base .cancel) = some s') : Agrees (b.step (s, .base .cancel)) s' := by
  cases hs
  obtain ⟨hp, ha, hq⟩ := h
  refine ⟨?_, ha, hq⟩
  have hc : s.txInFlight = true → s.sys.radio.maca.txQueue = [] →
    s.sys.radio.state.txStatus = none := hc
  show Phase b _ s.txInFlight
  generalize s.txInFlight = f at hp hc ⊢
  cases hp with
  | idle reports accepted queue => exact .idle reports accepted queue
  | flying a before reports accepted queue hb => exact .flying a before reports accepted queue hb
  | landed done a status completed reports accepted queue found =>
    rw [hc rfl queue] at found
    cases found

theorem Agrees.sent (h : Agrees b s) {status : UInt8}
    (hs : s.step (.base (.sent status)) = some s') :
    Agrees (b.step (s, .base (.sent status))) s' := by
  obtain ⟨sys, hst, rfl⟩ := Full.step_base hs
  obtain ⟨q, rest, hq, rfl⟩ := Sys.step_spec hst
  obtain ⟨hp, ha, hlt⟩ := h
  rw [hq] at hlt
  refine ⟨?_, ?_, fun q hm => hlt q (List.mem_cons_of_mem _ hm)⟩
  · simp only [Books.step, hq]
    generalize s.txInFlight = f at hp ⊢
    cases hp with
    | idle reports accepted queue =>
      rw [hq] at queue
      rw [if_neg (queue q (List.mem_cons_self ..))]
      exact .idle reports accepted fun q hm => queue q (List.mem_cons_of_mem _ hm)
    -- The frame in flight is the last one accepted: it lands when nothing is queued before it.
    | flying a before reports accepted queue hb =>
      rw [hq] at queue
      cases before with
      | nil =>
        cases queue
        rw [if_pos (by rw [accepted]; simp)]
        refine .landed b.completed q.frame status rfl reports ?_ rfl ?_
        · rw [accepted, List.map_append]
          rfl
        · simp [macaTxCallback, Maca.setPacket]
      | cons q' before =>
        cases queue
        rw [if_neg (hb q (List.mem_cons_self ..))]
        exact .flying a before reports accepted rfl fun q hm => hb q (List.mem_cons_of_mem _ hm)
    | landed done a st completed reports accepted queue found =>
      rw [queue] at hq
      cases hq
  · simp only [Books.step, hq]
    split <;> exact ha

theorem Agrees.step (h : Agrees b s) {a : FullAct Waker} (ht : a.Transmits)
    (hc : s.OneAtATime a) (hs : s.step a = some s') : Agrees (b.step (s, a)) s' := by
  match a, ht with
  | .startTransmit _, _ => exact h.startTransmit hc hs
  | .checkTransmit, _ => exact h.checkTransmit hc hs
  | .isBusy, _ =>
    cases hs
    exact h
  | .base .cancel, _ => exact h.cancel hc hs
  | .base (.sent _), _ => exact h.sent hs

theorem books_append (tr : List (Full Waker × FullAct Waker)) (x : Full Waker × FullAct Waker) :
    books (tr ++ [x]) = (books tr).step x := by
  simp [books]

/-- **Transmit accounting.** In every run of `start_transmit`, `check_transmit`, `is_busy` and
`cancel_current_operation` and ends of transmissions, with one frame at a time, the books are right
in every state: whatever is in the transmit queue and in `tx_status` before, if no accepted frame
is. -/
theorem transmissions_accounted {pool : List Ptr} {tr : List (Full Waker × FullAct Waker)}
    (h0 : (full Waker (Full.Started pool)).Reach (Lts.Any _) s) (hidle : s.txInFlight = false)
    (hr : (full Waker (Full.Started pool)).Run s tr s') (ht : ∀ x ∈ tr, x.2.Transmits)
    (hc : ∀ x ∈ tr, x.1.OneAtATime x.2) : (books tr).Accounted s' := by
  refine Agrees.accounted ?_
  refine Lts.Run.induct (I := fun (tr : List (Full Waker × FullAct Waker)) (t : Full Waker) =>
    (∀ x ∈ tr, x.2.Transmits) → (∀ x ∈ tr, x.1.OneAtATime x.2) → Agrees (books tr) t)
    ?_ ?_ hr ht hc
  · intro _ _
    refine ⟨?_, nofun, Full.frame_lt h0⟩
    rw [hidle]
    exact .idle rfl rfl fun _ _ => nofun
  · intro tr t a u _ ih hst ht hc
    rw [books_append]
    have hlast : (t, a) ∈ tr ++ [(t, a)] := by simp
    exact (ih (fun x hx => ht x (List.mem_append_left _ hx))
      fun x hx => hc x (List.mem_append_left _ hx)).step (ht _ hlast) (hc _ hlast) hst

end Invariant

/-! ## Concrete runs -/

/-- A frame is accepted, sent without an acknowledgement (5) and reported. -/
def Full.oneTransmitted : List (Full Nat × FullAct Nat) × Full Nat :=
  Lts.exec Full.step Full.zero [.startTransmit [1, 170], .checkTransmit, .base (.sent 5),
    .checkTransmit]

theorem transmissions_accounted_one : (books Full.oneTransmitted.1).Accounted
    Full.oneTransmitted.2 := by
  have hr : (full Nat (Full.Started [0, 1])).Run Full.zero Full.oneTransmitted.1
      Full.oneTransmitted.2 := .exec _ Full.step Full.zero _
  refine transmissions_accounted (.init Full.zero_started) rfl hr ?_ ?_
  · refine List.forall_mem_cons.mpr ⟨trivial, List.forall_mem_cons.mpr ⟨trivial, ?_⟩⟩
    refine List.forall_mem_cons.mpr ⟨trivial, List.forall_mem_cons.mpr ⟨trivial, ?_⟩⟩
    exact fun _ h => by cases h
  · refine List.forall_mem_cons.mpr ⟨fun _ => rfl, List.forall_mem_cons.mpr ⟨?_, ?_⟩⟩
    · exact fun h => absurd rfl h
    refine List.forall_mem_cons.mpr ⟨trivial, List.forall_mem_cons.mpr ⟨fun _ => ⟨rfl, rfl⟩, ?_⟩⟩
    exact fun _ h => by cases h

/-- Two frames are accepted and sent before `check_transmit` is called. -/
def Full.twoTransmitted : List (Full Nat × FullAct Nat) × Full Nat :=
  Lts.exec Full.step Full.zero [.startTransmit [1, 170], .startTransmit [1, 187], .base (.sent 0),
    .base (.sent 5), .checkTransmit, .checkTransmit]

/-- The first frame is never reported, and the radio is not busy. -/
theorem transmission_unreported :
    (books Full.twoTransmitted.1).accepted = [0, 1] ∧
      (books Full.twoTransmitted.1).completed = [(0, 0), (1, 5)] ∧
      (books Full.twoTransmitted.1).reports = [.error (.transmit 5)] ∧
      Full.twoTransmitted.2.txInFlight = false ∧
      (∀ x ∈ Full.twoTransmitted.1, x.2.Transmits) ∧
      ¬ (books Full.twoTransmitted.1).Accounted Full.twoTransmitted.2 := by
  refine ⟨rfl, rfl, rfl, rfl, ?_, ?_⟩
  · refine List.forall_mem_cons.mpr ⟨trivial, List.forall_mem_cons.mpr ⟨trivial, ?_⟩⟩
    refine List.forall_mem_cons.mpr ⟨trivial, List.forall_mem_cons.mpr ⟨trivial, ?_⟩⟩
    refine List.forall_mem_cons.mpr ⟨trivial, List.forall_mem_cons.mpr ⟨trivial, ?_⟩⟩
    exact fun _ h => by cases h
  · intro h
    have hbusy : (books Full.twoTransmitted.1).reports.length <
        (books Full.twoTransmitted.1).accepted.length := by decide
    cases h.busy.mpr hbusy

end Mc1322x.Radio
