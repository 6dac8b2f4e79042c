import Mc1322x.Radio.TransmitQueue

/-!
# The channel of a frame

The MACA has one channel register for all frames, and a queued frame goes out on the channel that is
programmed when the MACA starts it (`AirAct.start`). `Air` is the radio with the channel for which
each frame was queued.

`queueFrame` programs a channel that nobody has checked, and neither it nor `set_channel` and
`enable` wait for the frames queued before. `frames_on_channel` has the condition under which every
frame starts on its own channel.
-/

namespace Mc1322x.Radio

variable {Waker : Type}

/-! ## What a step programs -/

/-- The channel as the driver caches it, and as it is programmed. -/
def Driver.tuning (r : Driver Waker) : Option UInt8 × Option UInt8 :=
  (r.state.txChannel, r.maca.channel)

/-- A step changes the tuning from `x` to `x'`: it programs nothing, it resets the MACA, or it
programs an index unless that is cached. -/
def Tunes (x x' : Option UInt8 × Option UInt8) : Option (Option UInt8) → Prop
  | none => x' = x ∨ x' = (none, x.2)
  | some none => x' = (none, none)
  | some (some index) => x' = if x.1 = some index then x else (some index, some index)

/-- The index for which a poll queues a frame. -/
def Fut.index : Fut → Option UInt8
  | .prepareTransmit index _ | .prepareAndTransmit index _ false => some index
  | _ => none

/-- The index for which a step queues a frame, if it queues one. -/
def Full.asked (s : Full Waker) : FullAct Waker → Option UInt8
  | .base (.poll i _) => s.sys.futures[i]?.join.bind Fut.index
  | _ => none

/-- What a poll programs. -/
def Fut.target (m : Maca) (f : Fut) : Option (Option UInt8) :=
  match f with
  | .enable => some none
  | _ => if m.free = [] then none else f.index.map some

/-- What a step programs: `some none` is a reset of the MACA. -/
def Full.target (s : Full Waker) : FullAct Waker → Option (Option UInt8)
  | .base (.poll i _) => s.sys.futures[i]?.join.bind (·.target s.sys.radio.maca)
  | .setState true => some none
  | .setChannel channel | .halSetChannel channel =>
    if 11 ≤ channel ∧ channel ≤ 26 then some (some (channelIndex channel)) else none
  | _ => none

section Steps

variable {r r' : Driver Waker} {s s' : Full Waker}

theorem setChannelIndex_tuning (r : Driver Waker) (index : UInt8) :
    (setChannelIndex r index).tuning =
      if r.tuning.1 = some index then r.tuning else (some index, some index) := by
  unfold setChannelIndex Driver.tuning
  by_cases h : r.state.txChannel = some index
  · simp [h]
  · simp [h]

@[simp] theorem pollTransmit_tuning (r : Driver Waker) (w : Waker) :
    (pollTransmit r w).2.tuning = r.tuning := by
  unfold pollTransmit
  split
  · rfl
  · split <;> rfl

theorem pollReceive_tuning (r : Driver Waker) (w : Waker) :
    (pollReceive r w).2.2.tuning = r.tuning := by
  unfold pollReceive popReceivePacket
  by_cases hc : r.state.cancelled = true
  · simp [hc, Driver.tuning]
  · by_cases hp : r.state.rxPending = 0
    · simp [hc, hp, Driver.tuning]
    · cases hq : r.maca.rxQueue with
      | nil => simp [hc, hp, Driver.tuning]
      | cons p rest =>
        cases hb : r.state.rxBuffer <;>
          simp [hc, hp, hb, Driver.tuning, freePacket, copyReceivedPsdu]

theorem startTransmit_tuning (r : Driver Waker) (txInFlight : Bool) (data : List UInt8) :
    (startTransmit r txInFlight data).2.2.tuning = r.tuning := by
  unfold startTransmit
  cases hc : claimFreePacket r.maca with
  | none => rfl
  | some x =>
    obtain ⟨free, -, e⟩ := claimFreePacket_eq_some hc
    simp only [e]
    rfl

theorem checkTransmit_tuning (r : Driver Waker) (txInFlight : Bool) :
    (checkTransmit r txInFlight).2.2.tuning = r.tuning := by
  unfold checkTransmit
  split <;> rfl

theorem getReceived_tuning (r : Driver Waker) (room : Nat) :
    (Radio.getReceived r room).2.tuning = r.tuning := by
  unfold Radio.getReceived popReceivePacket
  by_cases hp : r.state.rxPending = 0
  · rw [if_pos hp]
  · rw [if_neg hp]
    cases hq : r.maca.rxQueue <;> rfl

theorem queueFrame_tuning {p : Ptr} {index : UInt8} {bytes : List UInt8}
    (h : queueFrame r p index bytes = some r') : r'.tuning = (setChannelIndex r index).tuning := by
  obtain ⟨psdu, -, rfl⟩ := Option.map_eq_some_iff.mp h
  rfl

/-- A poll that waits for a packet programs nothing; one that gets a packet programs its index. -/
theorem Prepares.tunes {w : Waker} {index : UInt8} {bytes : List UInt8}
    {Queued : Driver Waker → Prop} (h : Prepares r w index bytes Queued r')
    (hq : ∀ r₁, Queued r₁ → r'.tuning = r₁.tuning) :
    Tunes r.tuning r'.tuning (if r.maca.free = [] then none else some (some index)) := by
  rcases h with ⟨hf, rfl⟩ | ⟨p, free, r₁, hf, he, hr⟩
  · rw [if_pos hf]
    exact .inl rfl
  · rw [if_neg (by rw [hf]; exact List.cons_ne_nil _ _), hq r₁ hr, queueFrame_tuning he]
    exact setChannelIndex_tuning _ index

theorem Fut.poll_tunes {w : Waker} {f : Fut} {f' : Option Fut}
    {write : Option (Ptr × List UInt8)} (h : f.poll r w = some (r', f', write)) :
    Tunes r.tuning r'.tuning (f.target r.maca) := by
  have hs := Fut.poll_spec h
  cases f with
  | disable =>
    obtain ⟨rfl, -⟩ := hs
    simp only [Fut.target, Fut.index, Option.map_none, ite_self]
    exact .inr rfl
  | enable =>
    obtain ⟨rfl, -⟩ := hs
    exact rfl
  | prepareReceive buffer =>
    obtain ⟨rfl, -⟩ := hs
    simp only [Fut.target, Fut.index, Option.map_none, ite_self]
    exact .inl rfl
  | receive =>
    obtain ⟨rfl, -⟩ := hs
    simp only [Fut.target, Fut.index, Option.map_none, ite_self]
    exact .inl (pollReceive_tuning r w)
  | receiveResolved => exact hs.elim
  | prepareTransmit index bytes => exact hs.1.tunes fun _ e => congrArg Driver.tuning e
  | transmit =>
    obtain ⟨rfl, -⟩ := hs
    simp only [Fut.target, Fut.index, Option.map_none, ite_self]
    exact .inl (pollTransmit_tuning r w)
  | prepareAndTransmit index bytes queued =>
    cases queued with
    | true =>
      obtain ⟨rfl, -⟩ := hs
      simp only [Fut.target, Fut.index, Option.map_none, ite_self]
      exact .inl (pollTransmit_tuning r w)
    | false =>
      -- The look at `tx_status` after the queueing does not touch the channel.
      refine hs.1.tunes ?_
      rintro r₁ rfl
      exact pollTransmit_tuning r₁ w

/-- What a step does to the channel. -/
theorem Full.step_tunes {a : FullAct Waker} (hs : s.step a = some s') :
    Tunes s.sys.radio.tuning s'.sys.radio.tuning (s.target a) := by
  cases a with
  | base a =>
    obtain ⟨sys, h, rfl⟩ := Full.step_base hs
    have h := Sys.step_spec h
    cases a with
    | poll i w =>
      obtain ⟨f, r, f', write, hf, hp, rfl⟩ := h
      simp only [Full.target, hf, Option.bind_some]
      exact Fut.poll_tunes hp
    | setChannel index => cases hs
    | call c | cancel =>
      cases h
      exact .inl rfl
    | drop i =>
      obtain ⟨f, -, rfl⟩ := h
      cases f <;> exact .inl rfl
    | listen =>
      obtain ⟨p, free, -, -, rfl⟩ := h
      exact .inl rfl
    | received k =>
      obtain ⟨p, -, rfl⟩ := h
      exact .inl rfl
    | sent status =>
      obtain ⟨q, rest, -, rfl⟩ := h
      exact .inl rfl
  | setChannel channel =>
    obtain ⟨hc, rfl⟩ := Full.step_setChannel hs
    simp only [Full.target, if_pos hc]
    exact setChannelIndex_tuning _ _
  | halSetChannel channel =>
    cases hs
    simp only [Full.target, Full.withRadio, Radio.halSetChannel]
    by_cases hc : 11 ≤ channel ∧ channel ≤ 26
    · rw [if_pos hc, if_neg (fun h => h hc)]
      exact setChannelIndex_tuning _ _
    · rw [if_neg hc, if_pos hc]
      exact .inl rfl
  | setState idle =>
    cases hs
    cases idle with
    | true => exact rfl
    | false => exact .inr rfl
  | startTransmit data =>
    cases hs
    exact .inl (startTransmit_tuning _ _ _)
  | checkTransmit =>
    cases hs
    exact .inl (checkTransmit_tuning _ _)
  | isBusy | checkReceive | startReceive =>
    cases hs
    exact .inl rfl
  | getReceived room =>
    cases hs
    exact .inl (getReceived_tuning _ _)

/-! ## The index of a queued frame -/

/-- A frame that a poll queues is queued for the index that the poll programs. -/
theorem Fut.target_of_queues {w : Waker} {f : Fut} {f' : Option Fut}
    {write : Option (Ptr × List UInt8)} {index : UInt8}
    (h : f.poll r w = some (r', f', write)) (hq : Queues r r') (hi : f.index = some index) :
    f.target r.maca = some (some index) := by
  have hfree : ∀ {index bytes} {Queued : Driver Waker → Prop},
      Prepares r w index bytes Queued r' → r.maca.free ≠ [] := by
    rintro index bytes Queued (⟨-, rfl⟩ | ⟨p, free, r₁, hf, -⟩)
    · exact absurd hq.frames (Nat.succ_ne_self _).symm
    · rw [hf]
      exact List.cons_ne_nil _ _
  have hs := Fut.poll_spec h
  cases f with
  | prepareTransmit index bytes =>
    cases hi
    simp only [Fut.target, if_neg (hfree hs.1), Fut.index, Option.map_some]
  | prepareAndTransmit index bytes queued =>
    cases queued with
    | true => cases hi
    | false =>
      cases hi
      simp only [Fut.target, if_neg (hfree hs.1), Fut.index, Option.map_some]
  | _ => cases hi

/-- A frame that a step queues for an index is queued with that index programmed. -/
theorem Full.target_of_queues {a : FullAct Waker} {index : UInt8} (hs : s.step a = some s')
    (hq : Queues s.sys.radio s'.sys.radio) (hi : s.asked a = some index) :
    s.target a = some (some index) := by
  unfold Full.asked at hi
  split at hi
  · rename_i i w
    obtain ⟨sys, h, rfl⟩ := Full.step_base hs
    obtain ⟨f, r, f', write, hf, hp, rfl⟩ := Sys.step_spec h
    simp only [Full.target, hf, Option.bind_some] at hi ⊢
    exact Fut.target_of_queues hp hq hi
  · cases hi

end Steps

/-! ## The frames on the air -/

/-- The radio, and the frames as they were queued. -/
structure Air (Waker : Type) where
  full : Full Waker
  /-- By the number of the frame, the index for which it was queued; `none`: `start_transmit`. -/
  wanted : List (Option UInt8)
  /-- The MACA has started the oldest frame in the transmit queue. -/
  started : Bool

/-- A step of the driver, or the MACA starts to send. -/
inductive AirAct (Waker : Type) where
  | act (a : FullAct Waker)
  /-- The MACA starts to send the oldest frame in the transmit queue, on the programmed channel. -/
  | start

/-- One step; a frame is sent only once it has been started. -/
def Air.step (s : Air Waker) : AirAct Waker → Option (Air Waker)
  | .start =>
    if s.started = false ∧ s.full.sys.radio.maca.txQueue ≠ [] then some { s with started := true }
    else none
  | .act a =>
    if a.sends ∧ s.started = false then none
    else (s.full.step a).map fun t => {
      full := t
      wanted :=
        if t.sys.radio.maca.frames = s.full.sys.radio.maca.frames then s.wanted
        else s.wanted ++ [s.full.asked a]
      started := if a.sends then false else s.started }

/-- The runs from the states `init`. -/
def air (Waker : Type) (init : Air Waker → Prop) : Lts := .ofStep init Air.step

/-- The radio after `init`, on a channel that the MACA has. -/
def Air.Started (pool : List Ptr) (s : Air Waker) : Prop :=
  s.full.Started pool ∧ (∀ index, s.full.sys.radio.maca.channel = some index → index ≤ 15) ∧
    s.wanted = [] ∧ s.started = false

/-- The frames that are queued and not started. -/
def Air.waiting (s : Air Waker) : List Queued :=
  if s.started then s.full.sys.radio.maca.txQueue.tail else s.full.sys.radio.maca.txQueue

/-- A step programs only a channel that the MACA has, and programs or resets it only while no
frame for another channel waits to be started. -/
def Air.Undisturbed (s : Air Waker) : AirAct Waker → Prop
  | .act a => ∀ target, s.full.target a = some target → (∀ index, target = some index → index ≤ 15) ∧
      ∀ q ∈ s.waiting, ∀ index, s.wanted[q.frame]?.join = some index → target = some index
  | .start => True

/-- If the MACA starts a frame now, it goes out on its channel. -/
def Air.OnChannel (s : Air Waker) : Prop :=
  ∀ t, s.step .start = some t → ∀ q ∈ s.full.sys.radio.maca.txQueue.head?,
    ∀ index, s.wanted[q.frame]?.join = some index → s.full.sys.radio.maca.channel = some index

/-- The cached index is programmed, the programmed one is one of the MACA's, and every frame that
waits to be started is for it. -/
structure Tuned (s : Air Waker) : Prop where
  cached : ∀ index, s.full.sys.radio.state.txChannel = some index →
    s.full.sys.radio.maca.channel = some index
  index : ∀ index, s.full.sys.radio.maca.channel = some index → index ≤ 15
  wanted : ∀ q ∈ s.waiting, ∀ index, s.wanted[q.frame]?.join = some index →
    s.full.sys.radio.maca.channel = some index
  length : s.wanted.length = s.full.sys.radio.maca.frames
  frames : ∀ q ∈ s.full.sys.radio.maca.txQueue, q.frame < s.full.sys.radio.maca.frames

section Invariant

variable {s s' : Air Waker}

theorem Tunes.channel {x x' : Option UInt8 × Option UInt8} {target : Option (Option UInt8)}
    (h : Tunes x x' target) (hc : ∀ index, x.1 = some index → x.2 = some index) :
    (∀ index, x'.1 = some index → x'.2 = some index) ∧ x'.2 = target.getD x.2 := by
  match target with
  | none =>
    rcases h with rfl | rfl
    · exact ⟨hc, rfl⟩
    · exact ⟨nofun, rfl⟩
  | some none =>
    cases h
    exact ⟨nofun, rfl⟩
  | some (some index) =>
    simp only [Tunes] at h
    split at h
    · rename_i hi
      rw [h]
      exact ⟨hc, hc index hi⟩
    · rw [h]
      exact ⟨fun _ e => e, rfl⟩

theorem Air.mem_of_waiting {q : Queued} (h : q ∈ s.waiting) :
    q ∈ s.full.sys.radio.maca.txQueue := by
  unfold Air.waiting at h
  split at h
  · exact List.mem_of_mem_tail h
  · exact h

/-- A frame that waits after a frame was queued has waited before, or is that frame. -/
theorem Air.waiting_queues {q : Queued} {p : Ptr} (hst : s'.started = s.started)
    (hq : s'.full.sys.radio.maca.txQueue =
      s.full.sys.radio.maca.txQueue ++ [⟨s.full.sys.radio.maca.frames, p⟩])
    (h : q ∈ s'.waiting) : q ∈ s.waiting ∨ q.frame = s.full.sys.radio.maca.frames := by
  unfold Air.waiting at h ⊢
  rw [hst, hq] at h
  cases hs : s.started with
  | true =>
    rw [hs] at h
    -- The head is on the air, so only a frame behind it waits.
    cases hl : s.full.sys.radio.maca.txQueue with
    | nil =>
      rw [hl] at h
      cases h
    | cons q' rest =>
      rw [hl] at h
      rcases List.mem_append.mp h with h | h
      · exact .inl h
      · rw [List.mem_singleton.mp h]
        exact .inr rfl
  | false =>
    rw [hs] at h
    rcases List.mem_append.mp h with h | h
    · exact .inl h
    · rw [List.mem_singleton.mp h]
      exact .inr rfl

theorem Tuned.start (h : Tuned s) (hs : s.step .start = some s') : Tuned s' := by
  obtain ⟨⟨hst, -⟩, e⟩ := Option.ite_none_right_eq_some.mp hs
  cases e
  refine ⟨h.cached, h.index, ?_, h.length, h.frames⟩
  intro q hq
  refine h.wanted q ?_
  unfold Air.waiting
  rw [hst]
  exact List.mem_of_mem_tail hq

theorem Tuned.act (h : Tuned s) {a : FullAct Waker} (hc : s.Undisturbed (.act a))
    (hs : s.step (.act a) = some s') : Tuned s' := by
  obtain ⟨hsend, hs⟩ := Option.ite_none_left_eq_some.mp hs
  obtain ⟨t, ht, rfl⟩ := Option.map_eq_some_iff.mp hs
  obtain ⟨hcached, hch⟩ := (Full.step_tunes ht).channel h.cached
  have hch : t.sys.radio.maca.channel = (s.full.target a).getD s.full.sys.radio.maca.channel := hch
  have hindex : ∀ index, t.sys.radio.maca.channel = some index → index ≤ 15 := by
    rw [hch]
    cases htg : s.full.target a with
    | none => exact h.index
    | some target => exact (hc target htg).1
  -- The frames that have waited before the step are for the channel after it.
  have hold : ∀ q ∈ s.waiting, ∀ index, s.wanted[q.frame]?.join = some index →
      t.sys.radio.maca.channel = some index := by
    rw [hch]
    cases htg : s.full.target a with
    | none => exact h.wanted
    | some target => exact (hc target htg).2
  rcases Full.step_queue ht with ⟨hn, hq⟩ | ⟨hn, hq⟩ | ⟨hsent, hf, q, hq⟩
  · refine ⟨hcached, hindex, ?_, ?_, ?_⟩
    · simp only [hq.frames, ↓reduceIte, hn, Bool.false_eq_true, Air.waiting, hq.txQueue]
      exact hold
    · simp only [hq.frames, ↓reduceIte]
      exact h.length
    · simp only [hq.frames, hq.txQueue]
      exact h.frames
  · obtain ⟨p, htx⟩ := hq.txQueue
    have hne : t.sys.radio.maca.frames ≠ s.full.sys.radio.maca.frames := by
      rw [hq.frames]
      exact Nat.succ_ne_self _
    refine ⟨hcached, hindex, ?_, ?_, ?_⟩
    · intro q hw index hi
      simp only [if_neg hne] at hi
      rcases Air.waiting_queues (s := s) (by simp [hn]) htx hw with hw | hw
      · refine hold q hw index ?_
        rwa [List.getElem?_append_left (by
          rw [h.length]
          exact h.frames q (Air.mem_of_waiting hw))] at hi
      · rw [hw, ← h.length, List.getElem?_concat_length] at hi
        rw [hch, Full.target_of_queues ht hq hi]
        rfl
    · rw [if_neg hne, List.length_append, List.length_singleton, h.length, hq.frames]
    · intro q hm
      simp only [hq.frames]
      rw [htx] at hm
      rcases List.mem_append.mp hm with hm | hm
      · exact Nat.lt_succ_of_lt (h.frames q hm)
      · rw [List.mem_singleton.mp hm]
        exact Nat.lt_succ_self _
  · have hst : s.started = true := by
      simpa [hsent] using hsend
    have hwait : s.waiting = t.sys.radio.maca.txQueue := by
      simp only [Air.waiting, hst, ↓reduceIte, hq, List.tail_cons]
    refine ⟨hcached, hindex, ?_, ?_, ?_⟩
    · simp only [hf, ↓reduceIte, hsent, Bool.false_eq_true, Air.waiting]
      rw [← hwait]
      exact hold
    · simp only [hf, ↓reduceIte]
      exact h.length
    · intro q' hm
      simp only [hf]
      exact h.frames q' (by rw [hq]; exact List.mem_cons_of_mem _ hm)

theorem Air.Started.tuned {pool : List Ptr} (h : s.Started pool) : Tuned s := by
  obtain ⟨⟨⟨-, hst, hq, hf, -⟩, -⟩, hi, hw, hs⟩ := h
  refine ⟨?_, hi, ?_, ?_, ?_⟩
  · rw [hst]
    exact nofun
  · unfold Air.waiting
    rw [hs, hq]
    exact nofun
  · rw [hw, hf]
    rfl
  · rw [hq]
    exact nofun

/-- **The channel of a frame.** In every state that a run with `Undisturbed` steps reaches, the
cached index is programmed, the programmed index is one of the MACA's, and a frame that the MACA
starts goes out on the channel for which it was queued. -/
theorem frames_on_channel {pool : List Ptr}
    (hs : (air Waker (Air.Started pool)).Reach Air.Undisturbed s) :
    (∀ index, s.full.sys.radio.state.txChannel = some index →
      s.full.sys.radio.maca.channel = some index) ∧
    (∀ index, s.full.sys.radio.maca.channel = some index → index ≤ 15) ∧ s.OnChannel := by
  have ht : Tuned s := by
    refine Lts.Reach.induct (I := fun s : Air Waker => Tuned s) ?_ ?_ hs
    · exact fun _ h => Air.Started.tuned h
    · intro s a s' hi hc hst
      cases a with
      | start => exact hi.start hst
      | act a => exact hi.act hc hst
  refine ⟨ht.cached, ht.index, ?_⟩
  intro t hstart q hq index hi
  obtain ⟨⟨hst, -⟩, -⟩ := Option.ite_none_right_eq_some.mp hstart
  refine ht.wanted q ?_ index hi
  unfold Air.waiting
  rw [hst]
  exact List.mem_of_mem_head? hq

end Invariant

/-! ## Concrete runs -/

/-- The radio with two free packets, before any frame. -/
def Air.zero : Air Nat := ⟨Full.zero, [], false⟩

theorem Air.zero_started : Air.zero.Started [0, 1] := ⟨Full.zero_started, nofun, rfl, rfl⟩

/-- A frame for channel 12 is queued and started. -/
def Air.oneFrame : List (Air Nat × AirAct Nat) × Air Nat :=
  Lts.exec Air.step Air.zero [.act (.base (.call (.prepareTransmit 12 [3, 170]))),
    .act (.base (.poll 0 0))]

theorem frames_on_channel_one : Air.oneFrame.2.OnChannel := by
  have hr : (air Nat (Air.Started [0, 1])).Run Air.zero Air.oneFrame.1 Air.oneFrame.2 :=
    .exec _ Air.step Air.zero _
  refine (frames_on_channel (hr.reach (.init Air.zero_started) ?_)).2.2
  refine List.forall_mem_cons.mpr ⟨?_, List.forall_mem_cons.mpr ⟨?_, fun _ h => by cases h⟩⟩
  · intro target ht
    cases ht
  · intro target ht
    cases ht
    refine ⟨?_, fun _ h => by cases h⟩
    rintro index ⟨⟩
    decide

/-- Frames for two channels are queued before the MACA starts the first. -/
def Air.twoChannels : List (Air Nat × AirAct Nat) × Air Nat :=
  Lts.exec Air.step Air.zero [.act (.base (.call (.prepareTransmit 11 [3, 170]))),
    .act (.base (.poll 0 0)), .act (.base (.call (.prepareTransmit 12 [3, 187]))),
    .act (.base (.poll 1 0))]

/-- A frame for channel 27 is queued. -/
def Air.channel27 : List (Air Nat × AirAct Nat) × Air Nat :=
  Lts.exec Air.step Air.zero [.act (.base (.call (.prepareTransmit 27 [3, 170]))),
    .act (.base (.poll 0 0))]

/-- The MACA sends the frame for channel 11 on channel 12, and is programmed to index 16. -/
theorem frame_on_wrong_channel :
    (air Nat (Air.Started [0, 1])).Reach (Lts.Any _) Air.twoChannels.2 ∧
      ¬ Air.twoChannels.2.OnChannel ∧
      (air Nat (Air.Started [0, 1])).Reach (Lts.Any _) Air.channel27.2 ∧
      Air.channel27.2.full.sys.radio.maca.channel = some 16 := by
  have h₁ : (air Nat (Air.Started [0, 1])).Run Air.zero Air.twoChannels.1 Air.twoChannels.2 :=
    .exec _ Air.step Air.zero _
  have h₂ : (air Nat (Air.Started [0, 1])).Run Air.zero Air.channel27.1 Air.channel27.2 :=
    .exec _ Air.step Air.zero _
  refine ⟨h₁.reach (.init Air.zero_started) fun _ _ => trivial, ?_,
    h₂.reach (.init Air.zero_started) fun _ _ => trivial, rfl⟩
  intro h
  have h : Air.twoChannels.2.full.sys.radio.maca.channel = some 0 :=
    h { Air.twoChannels.2 with started := true } rfl ⟨0, 0⟩ rfl 0 rfl
  have hch : Air.twoChannels.2.full.sys.radio.maca.channel = some 1 := rfl
  rw [hch] at h
  cases h

end Mc1322x.Radio
