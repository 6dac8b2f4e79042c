import Mc1322x.Radio.Pool

/-!
# The receive buffer

`prepare_receive` asks its caller to keep the buffer valid until `receive` resolves or is dropped,
or the radio is enabled or disabled. `Windows` keeps the books of this promise along a run: the
buffers that are still promised, and the frames written. `receive_in_window`: the driver holds a
buffer, and writes into it, only while it is promised, and writes at most one frame for each
`prepare_receive`.
-/

namespace Mc1322x.Radio

variable {Waker : Type}

/-! ## The contract -/

/-- The buffer that a step hands over: `prepare_receive` takes it at its poll. -/
def Full.opens (s : Full Waker) : FullAct Waker → Option Ptr
  | .base (.poll i _) =>
    match s.sys.futures[i]?.join with
    | some (.prepareReceive buffer) => some buffer
    | _ => none
  | _ => none

/-- The step ends the promises: `receive` resolves or is dropped, or the radio is enabled or
disabled. -/
def Full.closes (s : Full Waker) : FullAct Waker → Bool
  | .base (.poll i w) =>
    match s.sys.futures[i]?.join with
    | some .receive => (pollReceive s.sys.radio w).1.isSome
    | some .enable | some .disable => true
    | _ => false
  | .base (.drop i) =>
    match s.sys.futures[i]?.join with
    | some .receive | some .receiveResolved => true
    | _ => false
  | .setState _ => true
  | _ => false

/-- The buffer that a step writes a frame into. -/
def Full.writes (s : Full Waker) : FullAct Waker → Option Ptr
  | .base (.poll i w) => do
    let f ← s.sys.futures[i]?.join
    let (_, _, write) ← f.poll s.sys.radio w
    write.map (·.1)
  | _ => none

/-- The books of a run. -/
structure Windows where
  /-- The `prepare_receive` calls so far. -/
  count : Nat
  /-- The promised buffers, each with the number of its call. -/
  current : List (Nat × Ptr)
  /-- The number of the last call before each frame written. -/
  written : List Nat

/-- One step more. -/
def Windows.step (v : Windows) (x : Full Waker × FullAct Waker) : Windows where
  count := if (x.1.opens x.2).isSome then v.count + 1 else v.count
  current := (if x.1.closes x.2 then [] else v.current) ++
    ((x.1.opens x.2).map fun p => (v.count, p)).toList
  written := if (x.1.writes x.2).isSome then v.written ++ [v.count - 1] else v.written

/-- The books after the steps `tr`. -/
def windows (tr : List (Full Waker × FullAct Waker)) : Windows := tr.foldl Windows.step ⟨0, [], []⟩

/-! ## What a step does to the buffer -/

section Steps

variable {r r' : Driver Waker} {s s' : Full Waker}

theorem setChannelIndex_rxBuffer (r : Driver Waker) (index : UInt8) :
    (setChannelIndex r index).state.rxBuffer = r.state.rxBuffer := by
  unfold setChannelIndex
  split <;> rfl

theorem pollTransmit_rxBuffer (r : Driver Waker) (w : Waker) :
    (pollTransmit r w).2.state.rxBuffer = r.state.rxBuffer := by
  unfold pollTransmit
  split
  · rfl
  · split <;> rfl

theorem queueFrame_rxBuffer {p : Ptr} {index : UInt8} {bytes : List UInt8}
    (h : queueFrame r p index bytes = some r') : r'.state.rxBuffer = r.state.rxBuffer := by
  obtain ⟨psdu, -, rfl⟩ := Option.map_eq_some_iff.mp h
  exact setChannelIndex_rxBuffer r index

theorem popReceivePacket_rxBuffer {p : Ptr} (h : popReceivePacket r = some (p, r')) :
    r'.state.rxBuffer = r.state.rxBuffer := by
  unfold popReceivePacket at h
  split at h
  · cases h
  · split at h <;> cases h
    rfl

/-- A poll of `receive` leaves the buffer while it is pending, and the driver without one when it
resolves; it writes only into the buffer of the driver. -/
theorem pollReceive_rxBuffer (r : Driver Waker) (w : Waker) :
    ((pollReceive r w).1 = none → (pollReceive r w).2.2.state.rxBuffer = r.state.rxBuffer ∧
        (pollReceive r w).2.1 = none) ∧
      ((pollReceive r w).1 ≠ none → (pollReceive r w).2.2.state.rxBuffer = none) ∧
      ∀ x, (pollReceive r w).2.1 = some x → r.state.rxBuffer = some x.1 := by
  unfold pollReceive
  split
  · exact ⟨nofun, fun _ => rfl, nofun⟩
  · split
    · exact ⟨fun _ => ⟨rfl, rfl⟩, fun h => absurd rfl h, nofun⟩
    · rename_i p r' hp
      have hb := popReceivePacket_rxBuffer hp
      dsimp only
      split
      · rename_i hn
        exact ⟨nofun, fun _ => hn, nofun⟩
      · rename_i buffer hsome
        refine ⟨nofun, fun _ => rfl, ?_⟩
        intro x hx
        cases hx
        rw [← hb]
        exact hsome

theorem Prepares.rxBuffer {w : Waker} {index : UInt8} {bytes : List UInt8}
    {Queued : Driver Waker → Prop} (h : Prepares r w index bytes Queued r')
    (hq : ∀ r₁, Queued r₁ → r'.state.rxBuffer = r₁.state.rxBuffer) :
    r'.state.rxBuffer = r.state.rxBuffer := by
  obtain ⟨-, rfl⟩ | ⟨p, free, r₁, -, hf, h₁⟩ := h
  · rfl
  · rw [hq r₁ h₁]
    have := queueFrame_rxBuffer hf
    exact this

theorem Sys.step_rxBuffer {s s' : Sys Waker} {a : Act Waker} (hs : s.step a = some s')
    (hp : ∀ i w, a ≠ .poll i w) (hd : ∀ i, a ≠ .drop i) (hc : ∀ index, a ≠ .setChannel index) :
    s'.radio.state.rxBuffer = s.radio.state.rxBuffer := by
  have h := Sys.step_spec hs
  cases a with
  | poll i w => exact absurd rfl (hp i w)
  | drop i => exact absurd rfl (hd i)
  | setChannel index => exact absurd rfl (hc index)
  | call c | cancel =>
    cases h
    rfl
  | listen =>
    obtain ⟨p, free, -, -, rfl⟩ := h
    rfl
  | received k =>
    obtain ⟨p, -, rfl⟩ := h
    rfl
  | sent status =>
    obtain ⟨q, rest, -, rfl⟩ := h
    rfl

/-- A buffer that the driver has after a poll was handed over by it, or was there before and the
poll does not end the promise. -/
theorem Full.poll_rxBuffer {i : Nat} {w : Waker} {p : Ptr}
    (hs : s.sys.step (.poll i w) = some s'.sys) (hp : s'.sys.radio.state.rxBuffer = some p) :
    s.writes (.base (.poll i w)) = none ∧ (s.opens (.base (.poll i w)) = some p ∨
      s.opens (.base (.poll i w)) = none ∧ s.closes (.base (.poll i w)) = false ∧
        s.sys.radio.state.rxBuffer = some p) := by
  obtain ⟨f, r, f', write, hf, hpoll, h⟩ := Sys.step_spec hs
  have hr : r = s'.sys.radio := (congrArg Sys.radio h).symm
  have hw : s.writes (.base (.poll i w)) = write.map (·.1) := by
    simp only [Full.writes, hf, Option.bind_eq_bind, Option.bind_some, hpoll]
  have hspec := Fut.poll_spec hpoll
  rw [← hr] at hp
  simp only [hw, Full.opens, Full.closes, hf]
  cases f with
  | disable | enable =>
    obtain ⟨rfl, -⟩ := hspec
    cases hp
  | prepareReceive buffer =>
    obtain ⟨rfl, rfl⟩ := hspec
    exact ⟨rfl, .inl hp⟩
  | receive =>
    obtain ⟨rfl, rfl⟩ := hspec
    obtain ⟨hnone, hsome, -⟩ := pollReceive_rxBuffer s.sys.radio w
    -- A resolved `receive` has taken the buffer out.
    cases hres : (pollReceive s.sys.radio w).1 with
    | none =>
      obtain ⟨hb, hwrite⟩ := hnone hres
      rw [hwrite]
      exact ⟨rfl, .inr ⟨rfl, rfl, hb ▸ hp⟩⟩
    | some b =>
      rw [hsome (by rw [hres]; exact Option.some_ne_none b)] at hp
      cases hp
  | receiveResolved => exact hspec.elim
  | transmit =>
    obtain ⟨rfl, rfl⟩ := hspec
    exact ⟨rfl, .inr ⟨rfl, rfl, (pollTransmit_rxBuffer _ w) ▸ hp⟩⟩
  | prepareTransmit index bytes =>
    obtain ⟨hprep, rfl⟩ := hspec
    exact ⟨rfl, .inr ⟨rfl, rfl, (hprep.rxBuffer fun _ h => by rw [h]) ▸ hp⟩⟩
  | prepareAndTransmit index bytes queued =>
    cases queued with
    | true =>
      obtain ⟨rfl, rfl⟩ := hspec
      exact ⟨rfl, .inr ⟨rfl, rfl, (pollTransmit_rxBuffer _ w) ▸ hp⟩⟩
    | false =>
      obtain ⟨hprep, rfl⟩ := hspec
      refine ⟨rfl, .inr ⟨rfl, rfl, ?_⟩⟩
      rw [← hp]
      exact (hprep.rxBuffer fun r₁ h => by rw [h]; exact pollTransmit_rxBuffer r₁ w).symm

/-- The same for every step. -/
theorem Full.step_rxBuffer {a : FullAct Waker} {p : Ptr} (hs : s.step a = some s')
    (hp : s'.sys.radio.state.rxBuffer = some p) :
    s.writes a = none ∧ (s.opens a = some p ∨
      s.opens a = none ∧ s.closes a = false ∧ s.sys.radio.state.rxBuffer = some p) := by
  cases a with
  | base a =>
    obtain ⟨sys, h, rfl⟩ := Full.step_base hs
    cases a with
    | poll i w => exact Full.poll_rxBuffer h hp
    | call c | cancel =>
      cases h
      exact ⟨rfl, .inr ⟨rfl, rfl, hp⟩⟩
    | drop i =>
      obtain ⟨f, hf, rfl⟩ := Sys.step_spec h
      cases f with
      -- The drop of a receive future takes the buffer away, so that `hp` cannot be.
      | receive | receiveResolved => cases hp
      | _ => exact ⟨rfl, .inr ⟨rfl, by simp only [Full.closes, hf], hp⟩⟩
    | setChannel index => cases hs
    | listen | received k | sent status =>
      refine ⟨rfl, .inr ⟨rfl, rfl, ?_⟩⟩
      rw [← hp]
      exact (Sys.step_rxBuffer h (by simp) (by simp) (by simp)).symm
  | setChannel channel =>
    obtain ⟨-, rfl⟩ := Full.step_setChannel hs
    exact ⟨rfl, .inr ⟨rfl, rfl, (setChannelIndex_rxBuffer _ _) ▸ hp⟩⟩
  | halSetChannel channel =>
    cases hs
    refine ⟨rfl, .inr ⟨rfl, rfl, ?_⟩⟩
    rw [← hp]
    simp only [Full.withRadio, Radio.halSetChannel]
    split
    · rfl
    · exact (setChannelIndex_rxBuffer _ _).symm
  | setState idle =>
    cases hs
    cases idle <;> cases hp
  | startTransmit data =>
    cases hs
    refine ⟨rfl, .inr ⟨rfl, rfl, ?_⟩⟩
    rw [← hp]
    simp only [Full.withRadio]
    split <;> rfl
  | checkTransmit =>
    cases hs
    refine ⟨rfl, .inr ⟨rfl, rfl, ?_⟩⟩
    rw [← hp]
    simp only [Full.withRadio]
    split <;> rfl
  | isBusy | checkReceive | startReceive =>
    cases hs
    exact ⟨rfl, .inr ⟨rfl, rfl, hp⟩⟩
  | getReceived room =>
    cases hs
    refine ⟨rfl, .inr ⟨rfl, rfl, ?_⟩⟩
    rw [← hp]
    simp only [Full.withRadio, Radio.getReceived]
    split
    · rfl
    · rename_i h
      exact (popReceivePacket_rxBuffer h).symm

/-- A frame is written only into the driver's buffer. -/
theorem Full.rxBuffer_of_writes {a : FullAct Waker} {p : Ptr} (h : s.writes a = some p) :
    s.sys.radio.state.rxBuffer = some p ∧ s.opens a = none := by
  unfold Full.writes at h
  split at h
  · rename_i i w
    simp only [Option.bind_eq_bind, Option.bind_eq_some_iff] at h
    obtain ⟨f, hf, ⟨r, f', write⟩, hpoll, h⟩ := h
    obtain ⟨x, rfl, rfl⟩ := Option.map_eq_some_iff.mp h
    have hspec := Fut.poll_spec hpoll
    simp only [Full.opens, hf]
    cases f with
    | receive => exact ⟨(pollReceive_rxBuffer s.sys.radio w).2.2 x hspec.2.symm, rfl⟩
    | receiveResolved => exact hspec.elim
    | prepareAndTransmit index bytes queued =>
      cases queued <;> cases hspec.2
    | _ => cases hspec.2
  · cases h

end Steps

/-! ## The invariant -/

/-- The books are in order: each number of a frame written is that of an earlier call and stands
there once, and the driver's buffer is promised by the last call, for which no frame is written. -/
structure Promised (v : Windows) (r : Driver Waker) : Prop where
  written_lt : ∀ n ∈ v.written, n < v.count
  nodup : v.written.Nodup
  rxBuffer : ∀ p, r.state.rxBuffer = some p →
    ∃ n, v.count = n + 1 ∧ (n, p) ∈ v.current ∧ n ∉ v.written

section Invariant

variable {s s' : Full Waker} {v : Windows}

theorem Promised.step {a : FullAct Waker} (h : Promised v s.sys.radio) (hs : s.step a = some s') :
    Promised (v.step (s, a)) s'.sys.radio := by
  -- The window of the buffer that the driver has now: opened by this step, or still open.
  have hbuf : ∀ p, s'.sys.radio.state.rxBuffer = some p → ∃ n, (v.step (s, a)).count = n + 1 ∧
      (n, p) ∈ (v.step (s, a)).current ∧ n ∉ (v.step (s, a)).written := by
    intro p hp
    obtain ⟨hw, ho | ⟨ho, hc, hb⟩⟩ := Full.step_rxBuffer hs hp
    · refine ⟨v.count, ?_, ?_, ?_⟩
      · simp [Windows.step, ho]
      · simp [Windows.step, ho]
      · simp only [Windows.step, hw]
        exact fun hm => Nat.lt_irrefl _ (h.written_lt _ hm)
    · obtain ⟨n, hn, hm, hnw⟩ := h.rxBuffer p hb
      refine ⟨n, ?_, ?_, ?_⟩
      · simpa [Windows.step, ho] using hn
      · simpa [Windows.step, ho, hc] using hm
      · simpa [Windows.step, hw] using hnw
  cases hw : s.writes a with
  | none =>
    refine ⟨?_, ?_, hbuf⟩
    · intro n hn
      simp only [Windows.step, hw] at hn ⊢
      have := h.written_lt n hn
      split
      · exact Nat.lt_succ_of_lt this
      · exact this
    · simpa [Windows.step, hw] using h.nodup
  | some p =>
    obtain ⟨hb, ho⟩ := Full.rxBuffer_of_writes hw
    -- A write is into the newest window, and takes the buffer: no second one can follow.
    obtain ⟨n, hn, -, hnw⟩ := h.rxBuffer p hb
    refine ⟨?_, ?_, hbuf⟩
    · intro m hm
      simp only [Windows.step, hw, ho, Option.isSome_some, Option.isSome_none, ↓reduceIte,
        Bool.false_eq_true, List.mem_append, List.mem_singleton] at hm ⊢
      rcases hm with hm | rfl
      · exact h.written_lt m hm
      · omega
    · simp only [Windows.step, hw, Option.isSome_some, ↓reduceIte, hn, Nat.add_sub_cancel]
      exact List.nodup_append.mpr ⟨h.nodup, by simp, by
        intro m hm k hk
        rintro rfl
        rw [List.mem_singleton.mp hk] at hm
        exact hnw hm⟩

theorem windows_append (tr : List (Full Waker × FullAct Waker)) (x : Full Waker × FullAct Waker) :
    windows (tr ++ [x]) = (windows tr).step x := by
  simp [windows]

/-- **The receive buffer.** In every run of the radio, the buffer that the driver has is promised,
every frame that the next step writes goes into a promised buffer, and at most one frame is written
for each `prepare_receive`. -/
theorem receive_in_window {pool : List Ptr} {tr : List (Full Waker × FullAct Waker)}
    (h0 : s.Started pool) (hr : (full Waker (Full.Started pool)).Run s tr s') :
    (∀ p, s'.sys.radio.state.rxBuffer = some p → ∃ n, (n, p) ∈ (windows tr).current) ∧
      (∀ a p, s'.writes a = some p →
        ∃ n, (windows tr).count = n + 1 ∧ (n, p) ∈ (windows tr).current) ∧
      (windows tr).written.Nodup := by
  have hp : Promised (windows tr) s'.sys.radio := by
    refine Lts.Run.induct (I := fun tr (s : Full Waker) => Promised (windows tr) s.sys.radio)
      ?_ ?_ hr
    · obtain ⟨⟨-, hst, -⟩, -⟩ := h0
      refine ⟨nofun, .nil, ?_⟩
      intro p hb
      rw [hst] at hb
      cases hb
    · intro tr t a u _ ih hst
      rw [windows_append]
      exact ih.step hst
  refine ⟨?_, ?_, hp.nodup⟩
  · intro p hb
    obtain ⟨n, -, hm, -⟩ := hp.rxBuffer p hb
    exact ⟨n, hm⟩
  · intro a p hw
    obtain ⟨n, hn, hm, -⟩ := hp.rxBuffer p (Full.rxBuffer_of_writes hw).1
    exact ⟨n, hn, hm⟩

end Invariant

/-- A buffer is prepared, and a frame received into it. -/
def Full.intoBuffer : List (Full Nat × FullAct Nat) × Full Nat :=
  Lts.exec Full.step Full.zero [.base .listen, .base (.received .ofThree),
    .base (.call (.prepareReceive 7)), .base (.poll 0 0), .base (.call .receive),
    .base (.poll 1 0)]

theorem receive_in_window_once :
    (windows Full.intoBuffer.1).written = [0] ∧ (windows Full.intoBuffer.1).written.Nodup := by
  have hr : (full Nat (Full.Started [0, 1])).Run Full.zero Full.intoBuffer.1
      Full.intoBuffer.2 := .exec _ Full.step Full.zero _
  exact ⟨rfl, (receive_in_window Full.zero_started hr).2.2⟩

end Mc1322x.Radio
