import Mathlib.Data.List.Forall2
import Mc1322x.Radio.Attribution
import Mc1322x.Radio.RadioHal

/-!
# The packets of the radio

Every packet is in the free pool, in the transmit queue, in the receive queue or in the MACA
(`Maca.held`). A step of the radio keeps the receive queue (`Keeps`), takes its oldest packet
(`Takes`) or adds a received one (`Arrives`), and each of these keeps `Maca.held` up to the order
(`Full.step_packets`).

* `receive_accounts`: `rx_pending` is the length of the receive queue, no packet is lost or freed
  twice, and the frames taken are the frames received, in order.
* `starved_iff_unread`: a transmitter waits for a packet while none is being sent exactly when all
  packets hold unread frames or are to receive one.
-/

namespace Mc1322x.Radio

variable {Waker : Type}

/-- Where the packets are: the free pool, the transmit queue, the receive queue and the MACA. -/
def Maca.held (m : Maca) : List Ptr :=
  m.free ++ m.txQueue.map (·.packet) ++ m.rxQueue ++ m.receiving.toList

/-- The part of a received packet that is copied into a buffer of `room` bytes. -/
def Packet.psdu (k : Packet) (room : Nat) : List UInt8 :=
  (k.data.drop 1).take (min (min k.length.toNat (maxPhr - 2)) room)

/-- A frame that a call takes from the receive queue. -/
inductive Taken where
  /-- `receive` resolved with `false`: no buffer was prepared. -/
  | discarded
  /-- `receive` wrote the frame into its buffer. -/
  | received (bytes : List UInt8)
  /-- `get_received` copied it into a buffer of `room` bytes. -/
  | gotReceived (room : Nat) (bytes : List UInt8) (lqi : UInt8)

/-- What the caller has been given is the frame of the packet `k`. -/
def Taken.Carries : Taken → Packet → Prop
  | .discarded, _ => True
  | .received bytes, k => bytes = .ofNat ((k.psdu 127).length + 2) :: k.psdu 127
  | .gotReceived room bytes lqi, k => bytes = k.psdu room ∧ lqi = k.lqi

/-- The frame that a poll takes. -/
def Fut.taken (r : Driver Waker) (w : Waker) : Fut → Option Taken
  | .receive =>
    match pollReceive r w with
    | (some true, some (_, bytes), _) => some (.received bytes)
    | (some false, _, _) => if r.state.cancelled then none else some .discarded
    | _ => none
  | _ => none

/-- The frame that a step takes. -/
def Full.taken (s : Full Waker) : FullAct Waker → Option Taken
  | .base (.poll i w) => s.sys.futures[i]?.join.bind (·.taken s.sys.radio w)
  | .getReceived room =>
    match (Radio.getReceived s.sys.radio room).1 with
    | .ok (bytes, lqi) => some (.gotReceived room bytes lqi)
    | .error _ => none
  | _ => none

/-- The packet that a step receives. -/
def FullAct.arrived : FullAct Waker → Option Packet
  | .base (.received k) => some k
  | _ => none

/-! ## What a step does to the packets -/

/-- No frame is received or taken. -/
structure Keeps (r r' : Driver Waker) : Prop where
  rxQueue : r'.maca.rxQueue = r.maca.rxQueue
  rxPending : r'.state.rxPending = r.state.rxPending
  held : r'.maca.held.Perm r.maca.held
  packets : ∀ p ∈ r.maca.rxQueue, r'.maca.packets p = r.maca.packets p

/-- The oldest received packet `p` is taken and freed. -/
structure Takes (p : Ptr) (r r' : Driver Waker) : Prop where
  rxQueue : r.maca.rxQueue = p :: r'.maca.rxQueue
  rxPending : r'.state.rxPending = r.state.rxPending - 1
  held : r'.maca.held.Perm r.maca.held
  packets : ∀ q ∈ r'.maca.rxQueue, r'.maca.packets q = r.maca.packets q

/-- The frame `k` is received. -/
structure Arrives (k : Packet) (r r' : Driver Waker) : Prop where
  rxQueue : ∃ p, r'.maca.rxQueue = r.maca.rxQueue ++ [p] ∧ r'.maca.packets p = k
  rxPending : r'.state.rxPending = r.state.rxPending + 1
  held : r'.maca.held.Perm r.maca.held
  packets : ∀ q ∈ r.maca.rxQueue, r'.maca.packets q = r.maca.packets q

section Calls

variable {r r' r'' : Driver Waker}

theorem Keeps.refl (r : Driver Waker) : Keeps r r := ⟨rfl, rfl, .refl _, fun _ _ => rfl⟩

theorem Keeps.trans (h : Keeps r r') (h' : Keeps r' r'') : Keeps r r'' :=
  ⟨h'.rxQueue.trans h.rxQueue, h'.rxPending.trans h.rxPending, h'.held.trans h.held,
    fun p hp => (h'.packets p (h.rxQueue ▸ hp)).trans (h.packets p hp)⟩

/-- A change of the driver's state but not of `rx_pending` keeps the packets. -/
theorem Keeps.of_state (hm : r'.maca = r.maca) (hp : r'.state.rxPending = r.state.rxPending) :
    Keeps r r' := by
  refine ⟨by rw [hm], hp, by rw [hm], fun p _ => by rw [hm]⟩

theorem setChannelIndex_keeps (r : Driver Waker) (index : UInt8) :
    Keeps r (setChannelIndex r index) := by
  unfold setChannelIndex
  split
  · exact ⟨rfl, rfl, .refl _, fun _ _ => rfl⟩
  · exact .refl r

/-- A packet is written only while it is neither received nor queued. -/
theorem setPacket_of_notMem {m : Maca} {p : Ptr} {k : Packet} {l : List Ptr} (h : p ∉ l) :
    ∀ q ∈ l, (m.setPacket p k).packets q = m.packets q := by
  intro q hq
  simp only [Maca.setPacket]
  rw [if_neg]
  rintro rfl
  exact h hq

/-- A claimed packet is filled and queued. -/
theorem queueTransmit_keeps (hn : r.maca.held.Nodup) {p : Ptr} {free : List Ptr}
    {psdu : List UInt8} {channel : Option UInt8} (hf : r.maca.free = p :: free)
    (hm : r'.maca = queueTransmit { r.maca with free := free, channel := channel } p psdu)
    (hp : r'.state.rxPending = r.state.rxPending) : Keeps r r' := by
  have hrx : p ∉ r.maca.rxQueue := by
    unfold Maca.held at hn
    rw [hf] at hn
    simp only [List.cons_append, List.nodup_cons, List.mem_append, not_or] at hn
    exact hn.1.1.2
  refine ⟨by rw [hm]; rfl, hp, ?_, ?_⟩
  · rw [List.perm_iff_count, hm]
    intro q
    simp only [Maca.held, queueTransmit, txPacket, Maca.setPacket, hf, List.map_append,
      List.map_cons, List.map_nil, List.count_append, List.count_cons, List.count_nil]
    omega
  · rw [hm]
    exact setPacket_of_notMem hrx

theorem popReceivePacket_eq_some {p : Ptr} (h : popReceivePacket r = some (p, r')) :
    ∃ rest, r.maca.rxQueue = p :: rest ∧ r' = {
      state := { r.state with rxPending := r.state.rxPending - 1 }
      maca := { r.maca with rxQueue := rest } } := by
  unfold popReceivePacket at h
  split at h
  · cases h
  · split at h
    · cases h
    · rename_i rest hq
      cases h
      exact ⟨rest, hq, rfl⟩

/-- A popped packet is freed. -/
theorem Takes.of_pop {p : Ptr} (h : popReceivePacket r = some (p, r')) {s : State Waker}
    (hs : s.rxPending = r'.state.rxPending) :
    Takes p r { state := s, maca := freePacket r'.maca p } := by
  obtain ⟨rest, hq, rfl⟩ := popReceivePacket_eq_some h
  refine ⟨hq, hs, ?_, fun _ _ => rfl⟩
  rw [List.perm_iff_count]
  intro q
  simp only [Maca.held, freePacket, hq, List.count_append, List.count_cons]
  omega

/-- A poll of `receive` takes no frame, or the oldest one. -/
theorem pollReceive_cases (r : Driver Waker) (w : Waker) :
    (Keeps r (pollReceive r w).2.2 ∧ Fut.receive.taken r w = none) ∨
      ∃ p t, Takes p r (pollReceive r w).2.2 ∧ Fut.receive.taken r w = some t ∧
        t.Carries (r.maca.packets p) := by
  unfold Fut.taken pollReceive
  by_cases hc : r.state.cancelled = true
  · simp only [hc, ↓reduceIte]
    exact .inl ⟨.of_state rfl rfl, trivial⟩
  · simp only [hc]
    cases hp : popReceivePacket r with
    | none => exact .inl ⟨.of_state rfl rfl, rfl⟩
    | some x =>
      obtain ⟨p, r'⟩ := x
      obtain ⟨rest, -, hr⟩ := popReceivePacket_eq_some hp
      refine .inr ⟨p, ?_⟩
      -- The packet leaves the queue also where there is no buffer: then its frame is discarded.
      cases hb : r'.state.rxBuffer with
      | none =>
        simp only [hb]
        exact ⟨.discarded, .of_pop hp rfl, rfl, trivial⟩
      | some buffer =>
        simp only [hb]
        refine ⟨_, .of_pop hp rfl, rfl, ?_⟩
        rw [hr]
        rfl

theorem pollReceive_discards {w : Waker} (h : Fut.receive.taken r w = some .discarded) :
    r.state.rxBuffer = none := by
  unfold Fut.taken pollReceive at h
  by_cases hc : r.state.cancelled = true
  · simp [hc] at h
  · cases hp : popReceivePacket r with
    | none => simp [hc, hp] at h
    | some x =>
      obtain ⟨rest, -, hr⟩ := popReceivePacket_eq_some hp
      cases hb : r.state.rxBuffer with
      | none => rfl
      | some buffer => simp [hc, hp, hr, hb] at h

theorem getReceived_cases (r : Driver Waker) (room : Nat) :
    (Radio.getReceived r room = (.error .busy, r) ∧ popReceivePacket r = none) ∨
      ∃ p, Takes p r (Radio.getReceived r room).2 ∧
        (Radio.getReceived r room).1 =
          .ok ((r.maca.packets p).psdu room, (r.maca.packets p).lqi) := by
  unfold Radio.getReceived
  cases hp : popReceivePacket r with
  | none => exact .inl ⟨rfl, rfl⟩
  | some x =>
    obtain ⟨p, r'⟩ := x
    obtain ⟨rest, -, hr⟩ := popReceivePacket_eq_some hp
    refine .inr ⟨p, .of_pop hp rfl, ?_⟩
    rw [hr]
    rfl

/-- The packet that the MACA receives into is queued. -/
theorem Arrives.of_received {k : Packet} {p : Ptr} (hn : r.maca.held.Nodup)
    (hp : r.maca.receiving = some p) {s : State Waker}
    (hs : s.rxPending = r.state.rxPending + 1) :
    Arrives k r { state := s, maca := { r.maca.setPacket p k with
      rxQueue := r.maca.rxQueue ++ [p], receiving := none } } := by
  have hrx : p ∉ r.maca.rxQueue := by
    unfold Maca.held at hn
    rw [hp] at hn
    intro hm
    exact (List.nodup_append.mp hn).2.2 p (List.mem_append_right _ hm) p (by simp) rfl
  refine ⟨⟨p, rfl, ?_⟩, hs, ?_, setPacket_of_notMem hrx⟩
  · simp [Maca.setPacket]
  · simp [Maca.held, Maca.setPacket, hp]

theorem listen_keeps {p : Ptr} {free : List Ptr} (hr : r.maca.receiving = none)
    (hf : r.maca.free = p :: free) :
    Keeps r { r with maca := { r.maca with free := free, receiving := some p } } := by
  refine ⟨rfl, rfl, ?_, fun _ _ => rfl⟩
  rw [List.perm_iff_count]
  intro q
  simp only [Maca.held, hf, hr, Option.toList_some, Option.toList_none, List.count_append,
    List.count_cons, List.count_nil]
  omega

/-- The oldest packet in the transmit queue is sent and freed. -/
theorem sent_keeps (hn : r.maca.held.Nodup) {q : Queued} {rest : List Queued} {k : Packet}
    {sent : List (Nat × UInt8)} (hq : r.maca.txQueue = q :: rest) {s : State Waker}
    (hs : s.rxPending = r.state.rxPending) :
    Keeps r { state := s, maca := freePacket { r.maca.setPacket q.packet k with
      txQueue := rest, sent := sent } q.packet } := by
  have hrx : q.packet ∉ r.maca.rxQueue := by
    unfold Maca.held at hn
    rw [hq] at hn
    intro hm
    exact (List.nodup_append.mp (List.nodup_append.mp hn).1).2.2 q.packet (by simp) q.packet hm rfl
  refine ⟨rfl, hs, ?_, setPacket_of_notMem hrx⟩
  rw [List.perm_iff_count]
  intro p
  simp only [Maca.held, freePacket, Maca.setPacket, hq, List.map_cons, List.count_append,
    List.count_cons]
  omega

theorem queueFrame_keeps {c : Bool} {p : Ptr} {free : List Ptr} {index : UInt8}
    {bytes : List UInt8} (hn : r.maca.held.Nodup) (hf : r.maca.free = p :: free)
    (h : queueFrame
      { state := { r.state with cancelled := c }, maca := { r.maca with free := free } } p index
      bytes = some r') : Keeps r r' := by
  obtain ⟨psdu, -, rfl⟩ := Option.map_eq_some_iff.mp h
  unfold setChannelIndex
  split <;> exact queueTransmit_keeps hn hf rfl rfl

theorem pollTransmit_keeps (r : Driver Waker) (w : Waker) : Keeps r (pollTransmit r w).2 := by
  unfold pollTransmit
  split
  · exact .of_state rfl rfl
  · split <;> exact .of_state rfl rfl

theorem Fut.drop_keeps (r : Driver Waker) (f : Fut) : Keeps r (f.drop r) := by
  cases f <;> exact .of_state rfl rfl

theorem halSetChannel_keeps (r : Driver Waker) (channel : UInt8) :
    Keeps r (halSetChannel r channel).2 := by
  unfold halSetChannel
  split
  · exact .refl r
  · exact setChannelIndex_keeps r _

theorem startTransmit_keeps (hn : r.maca.held.Nodup) (txInFlight : Bool) (data : List UInt8) :
    Keeps r (startTransmit r txInFlight data).2.2 := by
  unfold startTransmit
  cases hc : claimFreePacket r.maca with
  | none => exact .of_state rfl rfl
  | some x =>
    obtain ⟨p, m⟩ := x
    obtain ⟨free, hf, rfl⟩ := claimFreePacket_eq_some hc
    exact queueTransmit_keeps hn hf rfl rfl

theorem checkTransmit_keeps (r : Driver Waker) (txInFlight : Bool) :
    Keeps r (checkTransmit r txInFlight).2.2 := by
  unfold checkTransmit
  split <;> exact .of_state rfl rfl

end Calls

section Steps

variable {s s' : Full Waker}

/-- A poll takes a frame from the receive queue, or keeps the packets. -/
theorem Fut.poll_packets {r r' : Driver Waker} {w : Waker} {f : Fut} {f' : Option Fut}
    {write : Option (Ptr × List UInt8)} (hn : r.maca.held.Nodup)
    (h : f.poll r w = some (r', f', write)) :
    (Keeps r r' ∧ f.taken r w = none) ∨
      ∃ p t, Takes p r r' ∧ f.taken r w = some t ∧ t.Carries (r.maca.packets p) := by
  have hs := Fut.poll_spec h
  cases f with
  | disable | prepareReceive buffer =>
    obtain ⟨rfl, -⟩ := hs
    exact .inl ⟨.of_state rfl rfl, rfl⟩
  | enable =>
    obtain ⟨rfl, -⟩ := hs
    exact .inl ⟨⟨rfl, rfl, .refl _, fun _ _ => rfl⟩, rfl⟩
  | receive =>
    obtain ⟨rfl, -⟩ := hs
    exact pollReceive_cases r w
  | receiveResolved => exact hs.elim
  | transmit =>
    obtain ⟨rfl, -⟩ := hs
    exact .inl ⟨pollTransmit_keeps r w, rfl⟩
  | prepareTransmit index bytes =>
    obtain ⟨⟨-, rfl⟩ | ⟨p, free, r₁, hf, hq, rfl⟩, -⟩ := hs
    · exact .inl ⟨.of_state rfl rfl, rfl⟩
    · exact .inl ⟨queueFrame_keeps hn hf hq, rfl⟩
  | prepareAndTransmit index bytes queued =>
    cases queued with
    | true =>
      obtain ⟨rfl, -⟩ := hs
      exact .inl ⟨pollTransmit_keeps r w, rfl⟩
    | false =>
      obtain ⟨⟨-, rfl⟩ | ⟨p, free, r₁, hf, hq, rfl⟩, -⟩ := hs
      · exact .inl ⟨.of_state rfl rfl, rfl⟩
      · exact .inl ⟨(queueFrame_keeps hn hf hq).trans (pollTransmit_keeps _ w), rfl⟩

/-- What a step of the futures and the MACA does to the packets. -/
theorem Sys.step_packets {s s' : Sys Waker} {txInFlight : Bool} {a : Act Waker}
    (hn : s.radio.maca.held.Nodup) (hs : s.step a = some s') :
    (Keeps s.radio s'.radio ∧ Full.taken ⟨s, txInFlight⟩ (.base a) = none ∧
        FullAct.arrived (.base a) = none) ∨
      (∃ p t, Takes p s.radio s'.radio ∧ Full.taken ⟨s, txInFlight⟩ (.base a) = some t ∧
        t.Carries (s.radio.maca.packets p) ∧ FullAct.arrived (.base a) = none) ∨
      ∃ k, Arrives k s.radio s'.radio ∧ Full.taken ⟨s, txInFlight⟩ (.base a) = none ∧
        FullAct.arrived (.base a) = some k := by
  have h := Sys.step_spec hs
  cases a with
  | poll i w =>
    obtain ⟨f, r, f', write, hf, hp, rfl⟩ := h
    have ht : Full.taken ⟨s, txInFlight⟩ (.base (.poll i w)) = f.taken s.radio w := by
      simp only [Full.taken, hf, Option.bind_some]
    rw [ht]
    rcases Fut.poll_packets hn hp with ⟨hk, ht⟩ | ⟨p, t, hk, ht, hc⟩
    · exact .inl ⟨hk, ht, rfl⟩
    · exact .inr (.inl ⟨p, t, hk, ht, hc, rfl⟩)
  | call c =>
    cases h
    exact .inl ⟨.refl _, rfl, rfl⟩
  | drop i =>
    obtain ⟨f, -, rfl⟩ := h
    exact .inl ⟨f.drop_keeps _, rfl, rfl⟩
  | cancel =>
    cases h
    exact .inl ⟨.of_state rfl rfl, rfl, rfl⟩
  | setChannel index =>
    cases h
    exact .inl ⟨setChannelIndex_keeps _ _, rfl, rfl⟩
  | listen =>
    obtain ⟨p, free, hr, hf, rfl⟩ := h
    exact .inl ⟨listen_keeps hr hf, rfl, rfl⟩
  | received k =>
    obtain ⟨p, hp, rfl⟩ := h
    exact .inr (.inr ⟨k, .of_received hn hp rfl, rfl, rfl⟩)
  | sent status =>
    obtain ⟨q, rest, hq, rfl⟩ := h
    exact .inl ⟨sent_keeps hn hq rfl, rfl, rfl⟩

/-- What a step does to the packets. -/
theorem Full.step_packets {a : FullAct Waker} (hn : s.sys.radio.maca.held.Nodup)
    (hs : s.step a = some s') :
    (Keeps s.sys.radio s'.sys.radio ∧ s.taken a = none ∧ a.arrived = none) ∨
      (∃ p t, Takes p s.sys.radio s'.sys.radio ∧ s.taken a = some t ∧
        t.Carries (s.sys.radio.maca.packets p) ∧ a.arrived = none) ∨
      ∃ k, Arrives k s.sys.radio s'.sys.radio ∧ s.taken a = none ∧ a.arrived = some k := by
  cases a with
  | base a =>
    obtain ⟨sys, h, rfl⟩ := Full.step_base hs
    exact Sys.step_packets hn h
  | setChannel channel =>
    obtain ⟨-, rfl⟩ := Full.step_setChannel hs
    exact .inl ⟨setChannelIndex_keeps _ _, rfl, rfl⟩
  | halSetChannel channel =>
    cases hs
    exact .inl ⟨halSetChannel_keeps _ _, rfl, rfl⟩
  | setState idle =>
    cases hs
    cases idle <;> exact .inl ⟨⟨rfl, rfl, .refl _, fun _ _ => rfl⟩, rfl, rfl⟩
  | startTransmit data =>
    cases hs
    exact .inl ⟨startTransmit_keeps hn _ _, rfl, rfl⟩
  | checkTransmit =>
    cases hs
    exact .inl ⟨checkTransmit_keeps _ _, rfl, rfl⟩
  | isBusy | checkReceive =>
    cases hs
    exact .inl ⟨.refl _, rfl, rfl⟩
  | startReceive =>
    cases hs
    exact .inl ⟨.of_state rfl rfl, rfl, rfl⟩
  | getReceived room =>
    cases hs
    rcases getReceived_cases s.sys.radio room with ⟨h, -⟩ | ⟨p, hk, h⟩
    · simp only [Full.taken, Full.withRadio, h]
      exact .inl ⟨.refl _, trivial, rfl⟩
    · refine .inr (.inl ⟨p, .gotReceived room _ _, hk, ?_, ⟨rfl, rfl⟩, rfl⟩)
      simp only [Full.taken, h]

/-- A frame is discarded only where no buffer is prepared. -/
theorem Full.rxBuffer_of_discarded {a : FullAct Waker} (h : s.taken a = some .discarded) :
    s.sys.radio.state.rxBuffer = none := by
  unfold Full.taken at h
  split at h
  · obtain ⟨f, -, h⟩ := Option.bind_eq_some_iff.mp h
    unfold Fut.taken at h
    split at h
    · exact pollReceive_discards h
    · cases h
  · split at h <;> cases h
  · cases h

end Steps

/-! ## Receive accounting -/

/-- The packets are those of the pool, and `rx_pending` counts the received ones. -/
structure Accounts (pool : List Ptr) (r : Driver Waker) : Prop where
  held : r.maca.held.Perm pool
  pending : r.state.rxPending.toNat = r.maca.rxQueue.length

/-- The frames received in a run are the frames taken, in order, and those in the queue. -/
def Delivers (tr : List (Full Waker × FullAct Waker)) (r : Driver Waker) : Prop :=
  ∃ taken, tr.filterMap (·.2.arrived) = taken ++ r.maca.rxQueue.map r.maca.packets ∧
    (tr.filterMap fun x => x.1.taken x.2).Forall₂ Taken.Carries taken

section Accounting

variable {pool : List Ptr} {r r' : Driver Waker} {s s' : Full Waker}

theorem Accounts.length_le (h : Accounts pool r) : r.maca.rxQueue.length ≤ pool.length := by
  have hl := h.held.length_eq
  unfold Maca.held at hl
  simp only [List.length_append] at hl
  omega

theorem Accounts.step (hn : pool.Nodup) (hlt : pool.length < UInt32.size) {a : FullAct Waker}
    (h : Accounts pool s.sys.radio) (hs : s.step a = some s') : Accounts pool s'.sys.radio := by
  have hnodup := h.held.nodup_iff.mpr hn
  have hpend := h.pending
  have hle := h.length_le
  rcases Full.step_packets hnodup hs with ⟨hk, -⟩ | ⟨p, t, ht, -⟩ | ⟨k, ha, -⟩
  · exact ⟨hk.held.trans h.held, by rw [hk.rxPending, hk.rxQueue, hpend]⟩
  · refine ⟨ht.held.trans h.held, ?_⟩
    rw [ht.rxQueue, List.length_cons] at hpend hle
    rw [ht.rxPending, UInt32.toNat_sub_of_le _ _ (by
      rw [UInt32.le_iff_toNat_le, hpend, UInt32.toNat_one]
      omega), hpend, UInt32.toNat_one]
    omega
  · have hheld := ha.held.trans h.held
    obtain ⟨q, hq, -⟩ := ha.rxQueue
    refine ⟨hheld, ?_⟩
    -- The queue has at most the packets of the pool, so the counter does not overflow.
    have hle' : s'.sys.radio.maca.rxQueue.length ≤ pool.length := by
      have hl := hheld.length_eq
      unfold Maca.held at hl
      simp only [List.length_append] at hl
      omega
    rw [hq, List.length_append, List.length_singleton] at hle' ⊢
    have hfit : s.sys.radio.maca.rxQueue.length + 1 < UInt32.size := Nat.lt_of_le_of_lt hle' hlt
    rw [ha.rxPending, UInt32.toNat_add, UInt32.toNat_one, hpend, Nat.mod_eq_of_lt hfit]

theorem Full.Started.accounts (h : s.Started pool) : Accounts pool s.sys.radio := by
  obtain ⟨⟨-, hst, htx, -, -⟩, -, hrx, hpool⟩ := h
  refine ⟨?_, by rw [hst, hrx]; rfl⟩
  unfold Maca.held
  rw [htx, hrx, List.map_nil, List.append_nil, List.append_nil, hpool]

theorem Accounts.reach (hn : pool.Nodup) (hlt : pool.length < UInt32.size)
    {C : Full Waker → FullAct Waker → Prop} (h : (full Waker (Full.Started pool)).Reach C s) :
    Accounts pool s.sys.radio :=
  Lts.Reach.induct (I := fun s : Full Waker => Accounts pool s.sys.radio)
    (fun _ h => Full.Started.accounts h) (fun _ _ _ hi _ hs => hi.step hn hlt hs) h

/-- One step more. -/
theorem Delivers.step {tr : List (Full Waker × FullAct Waker)} {a : FullAct Waker}
    (h : Delivers tr s.sys.radio) (hn : s.sys.radio.maca.held.Nodup) (hs : s.step a = some s') :
    Delivers (tr ++ [(s, a)]) s'.sys.radio := by
  obtain ⟨taken, ha, ht⟩ := h
  unfold Delivers
  simp only [List.filterMap_append, List.filterMap_cons, List.filterMap_nil, ha]
  rcases Full.step_packets hn hs with ⟨hk, h₁, h₂⟩ | ⟨p, t, hk, h₁, hc, h₂⟩ | ⟨k, hk, h₁, h₂⟩
  · rw [h₁, h₂, List.append_nil, List.append_nil, hk.rxQueue]
    exact ⟨taken, by rw [List.map_congr_left hk.packets], ht⟩
  · rw [h₁, h₂, List.append_nil, hk.rxQueue]
    refine ⟨taken ++ [s.sys.radio.maca.packets p], ?_, List.rel_append ht (.cons hc .nil)⟩
    rw [List.map_cons, List.append_assoc, List.singleton_append,
      List.map_congr_left hk.packets]
  · rw [h₁, h₂, List.append_nil]
    obtain ⟨q, hq, hqk⟩ := hk.rxQueue
    refine ⟨taken, ?_, ht⟩
    rw [hq, List.map_append, List.append_assoc, List.map_congr_left hk.packets, List.map_singleton,
      hqk]

theorem Accounts.delivers (hn : pool.Nodup) (hlt : pool.length < UInt32.size)
    {tr : List (Full Waker × FullAct Waker)} (h0 : s.Started pool)
    (hr : (full Waker (Full.Started pool)).Run s tr s') : Delivers tr s'.sys.radio := by
  refine Lts.Run.induct (I := fun tr (s : Full Waker) => Delivers tr s.sys.radio) ?_ ?_ hr
  · obtain ⟨-, -, hrx, -⟩ := h0
    exact ⟨[], by rw [hrx]; rfl, .nil⟩
  · intro tr t a u hr ih hst
    have hacc := Accounts.reach hn hlt (hr.reach (C := Lts.Any _) (.init h0) fun _ _ => trivial)
    exact ih.step (hacc.held.nodup_iff.mpr hn) hst

/-- `check_receive` tells whether `get_received` would get a frame. -/
theorem Accounts.checkReceive_iff (h : Accounts pool r) (room : Nat) :
    checkReceive r = true ↔ ∃ x, (Radio.getReceived r room).1 = .ok x := by
  have hpend := h.pending
  rw [checkReceive, decide_eq_true_iff, UInt32.lt_iff_toNat_lt, hpend, UInt32.toNat_zero]
  rcases getReceived_cases r room with ⟨he, hp⟩ | ⟨p, hk, he⟩
  · rw [he]
    constructor
    · -- The counter is the length of the queue: positive, it is not empty.
      intro hpos
      unfold popReceivePacket at hp
      split at hp
      · rename_i hz
        rw [hz, UInt32.toNat_zero] at hpend
        omega
      · split at hp
        · rename_i hq
          rw [hq] at hpos
          cases hpos
        · cases hp
    · rintro ⟨x, hx⟩
      cases hx
  · rw [he, hk.rxQueue, List.length_cons]
    exact ⟨fun _ => ⟨_, rfl⟩, fun _ => Nat.succ_pos _⟩

/-- **Receive accounting.** In every run of the radio, `rx_pending` is the length of the receive
queue, every packet of the pool is in one place, and the frames received are the frames taken, in
order, with those still in the queue; a frame is discarded only where no buffer is prepared. -/
theorem receive_accounts (hn : pool.Nodup) (hlt : pool.length < UInt32.size)
    {tr : List (Full Waker × FullAct Waker)} (h0 : s.Started pool)
    (hr : (full Waker (Full.Started pool)).Run s tr s') :
    s'.sys.radio.state.rxPending.toNat = s'.sys.radio.maca.rxQueue.length ∧
      (∀ room, checkReceive s'.sys.radio = true ↔
        ∃ x, (Radio.getReceived s'.sys.radio room).1 = .ok x) ∧
      (∀ p, s'.sys.radio.maca.held.count p = if p ∈ pool then 1 else 0) ∧
      Delivers tr s'.sys.radio ∧
      ∀ x ∈ tr, x.1.taken x.2 = some .discarded → x.1.sys.radio.state.rxBuffer = none := by
  have hacc := Accounts.reach hn hlt (hr.reach (C := Lts.Any _) (.init h0) fun _ _ => trivial)
  refine ⟨hacc.pending, hacc.checkReceive_iff, ?_, Accounts.delivers hn hlt h0 hr, ?_⟩
  · intro p
    rw [hacc.held.count_eq, hn.count]
  · intro x _ hx
    exact Full.rxBuffer_of_discarded hx

end Accounting

/-! ## Waiting for a packet -/

/-- A poll of the future claims a packet. -/
def Fut.Claims : Fut → Prop
  | .prepareTransmit _ _ | .prepareAndTransmit _ _ false => True
  | _ => False

/-- The future `i` claims a packet, and there is none. -/
def Full.Starved (s : Full Waker) (i : Nat) : Prop :=
  (∃ f, s.sys.futures[i]?.join = some f ∧ f.Claims) ∧ s.sys.radio.maca.free = []

/-- The waker that a step wakes. -/
def Sys.woken (s : Sys Waker) : Act Waker → Option Waker
  | .cancel => (cancelCurrentOperation s.radio).1
  | .received _ => (macaRxCallback s.radio).1
  | .sent _ => s.radio.maca.txQueue.head?.bind fun q => (macaTxCallback s.radio q.packet).1
  | _ => none

/-- A frame is being sent; its completion frees a packet and wakes `w`. -/
def Full.Releases (s : Full Waker) (w : Waker) : Prop :=
  s.sys.radio.maca.txQueue ≠ [] ∧ ∀ status, ∃ s', s.step (.base (.sent status)) = some s' ∧
    s'.sys.radio.maca.free ≠ [] ∧ s.sys.woken (.sent status) = some w

/-- A poll that waits for a packet is released by a completion. -/
def Full.Released (s : Full Waker) : FullAct Waker → Prop
  | .base (.poll i w) =>
    s.Starved i → ∀ s', s.step (.base (.poll i w)) = some s' → s'.Releases w
  | _ => True

/-- A packet is claimed only while not all packets of the pool hold unread frames or are to receive
one. -/
def Full.Drained (pool : List Ptr) (s : Full Waker) : FullAct Waker → Prop
  | .base (.poll i _) => (∃ f, s.sys.futures[i]?.join = some f ∧ f.Claims) →
    s.sys.radio.state.rxPending.toNat + s.sys.radio.maca.receiving.toList.length < pool.length
  | _ => True

section Waiting

variable {pool : List Ptr} {s s' : Full Waker}

/-- With no free packet, the future is pending and the driver has its waker. -/
theorem Full.Starved.step {i : Nat} {w : Waker} (h : s.Starved i)
    (hs : s.step (.base (.poll i w)) = some s') :
    s'.sys.radio.maca = s.sys.radio.maca ∧ s'.sys.radio.state.waker = some w := by
  obtain ⟨⟨f, hf, hc⟩, hfree⟩ := h
  obtain ⟨sys, h, rfl⟩ := Full.step_base hs
  simp only [Sys.step, Option.bind_eq_bind, hf, Option.bind_some, Option.bind_eq_some_iff] at h
  obtain ⟨⟨r, f', write⟩, hp, h⟩ := h
  cases h
  have hclaim : claimFreePacket s.sys.radio.maca = none := by
    unfold claimFreePacket
    rw [hfree]
  cases f with
  | prepareTransmit index bytes =>
    simp only [Fut.poll, pollPrepareTransmit, hclaim] at hp
    cases hp
    exact ⟨rfl, rfl⟩
  | prepareAndTransmit index bytes queued =>
    cases queued with
    | true => cases hc
    | false =>
      simp only [Fut.poll, pollPrepareAndTransmit, hclaim] at hp
      cases hp
      exact ⟨rfl, rfl⟩
  | _ => cases hc

/-- There is always something to poll a future for. -/
theorem Full.Starved.exists_step {i : Nat} (h : s.Starved i) (w : Waker) :
    ∃ s', s.step (.base (.poll i w)) = some s' := by
  obtain ⟨⟨f, hf, hc⟩, hfree⟩ := h
  have hclaim : claimFreePacket s.sys.radio.maca = none := by
    unfold claimFreePacket
    rw [hfree]
  simp only [Full.step, Sys.step, hf, Option.bind_eq_bind, Option.bind_some]
  cases f with
  | prepareTransmit index bytes =>
    simp only [Fut.poll, pollPrepareTransmit, hclaim]
    exact ⟨_, rfl⟩
  | prepareAndTransmit index bytes queued =>
    cases queued with
    | true => cases hc
    | false =>
      simp only [Fut.poll, pollPrepareAndTransmit, hclaim]
      exact ⟨_, rfl⟩
  | _ => cases hc

/-- A completion frees a packet and wakes the waker that the driver has. -/
theorem Full.releases_iff {w : Waker} (hw : s.sys.radio.state.waker = some w) :
    s.Releases w ↔ s.sys.radio.maca.txQueue ≠ [] := by
  constructor
  · exact (·.1)
  · intro hne
    refine ⟨hne, fun status => ?_⟩
    cases hq : s.sys.radio.maca.txQueue with
    | nil => exact absurd hq hne
    | cons q rest =>
      simp only [Full.step, Sys.step, hq]
      refine ⟨_, rfl, ?_, ?_⟩
      · exact List.cons_ne_nil _ _
      · simp only [Sys.woken, hq, List.head?_cons, Option.bind_some, macaTxCallback, hw]

/-- With no free packet, a frame is being sent or all packets are with the receiver. -/
theorem Accounts.txQueue_iff {r : Driver Waker} (h : Accounts pool r) (hf : r.maca.free = []) :
    r.maca.txQueue ≠ [] ↔
      r.state.rxPending.toNat + r.maca.receiving.toList.length < pool.length := by
  have hl := h.held.length_eq
  unfold Maca.held at hl
  simp only [List.length_append, List.length_map, hf, List.length_nil] at hl
  rw [h.pending, ← List.length_pos_iff]
  omega

theorem Accounts.lt_of_free {r : Driver Waker} (h : Accounts pool r) (hf : r.maca.free ≠ []) :
    r.state.rxPending.toNat + r.maca.receiving.toList.length < pool.length := by
  have hl := h.held.length_eq
  have hpos := List.length_pos_iff.mpr hf
  unfold Maca.held at hl
  simp only [List.length_append, List.length_map] at hl
  rw [h.pending]
  omega

theorem released_iff_drained {r : Full Waker} (h : Accounts pool r.sys.radio)
    (a : FullAct Waker) : r.Released a ↔ r.Drained pool a := by
  unfold Full.Released Full.Drained
  split
  · rename_i i w
    by_cases hf : r.sys.radio.maca.free = []
    · rw [← h.txQueue_iff hf]
      constructor
      · intro hrel hc
        obtain ⟨s', hs⟩ := Full.Starved.exists_step ⟨hc, hf⟩ w
        obtain ⟨hm, hw⟩ := Full.Starved.step ⟨hc, hf⟩ hs
        rw [← hm]
        exact (Full.releases_iff hw).mp (hrel ⟨hc, hf⟩ s' hs)
      · intro hd hst s' hs
        obtain ⟨hm, hw⟩ := hst.step hs
        rw [Full.releases_iff hw, hm]
        exact hd hst.1
    · exact ⟨fun _ _ => h.lt_of_free hf, fun _ hst => absurd hst.2 hf⟩
  · exact .rfl

/-- **Waiting for a packet.** In every run of the radio, every poll that waits for a packet is
released by a completion exactly when packets are claimed only while the receiver does not have all
of them. -/
theorem starved_iff_unread (hn : pool.Nodup) (hlt : pool.length < UInt32.size)
    {tr : List (Full Waker × FullAct Waker)} (h0 : s.Started pool)
    (hr : (full Waker (Full.Started pool)).Run s tr s') :
    (∀ x ∈ tr, x.1.Released x.2) ↔ ∀ x ∈ tr, x.1.Drained pool x.2 :=
  Lts.Run.forall_iff (fun _ a h => released_iff_drained (Accounts.reach hn hlt h) a) (.init h0) hr

end Waiting

/-! ## Concrete runs -/

/-- A frame of three bytes. -/
def Packet.ofThree : Packet := ⟨3, 1, 200, 0, [5, 1, 2, 3]⟩

/-- A frame is received, and read into a buffer of two bytes. -/
def Full.oneReceived : List (Full Nat × FullAct Nat) × Full Nat :=
  Lts.exec Full.step Full.zero [.base .listen, .base (.received .ofThree), .checkReceive,
    .getReceived 2]

theorem receive_accounts_one_frame :
    (Full.oneReceived.1.filterMap fun x => x.1.taken x.2) = [.gotReceived 2 [1, 2] 200] ∧
      Delivers Full.oneReceived.1 Full.oneReceived.2.sys.radio := by
  refine ⟨rfl, ?_⟩
  have hr : (full Nat (Full.Started [0, 1])).Run Full.zero Full.oneReceived.1
      Full.oneReceived.2 := .exec _ Full.step Full.zero _
  exact (receive_accounts (by decide) (by decide) Full.zero_started hr).2.2.2.1

/-- The radio with one free packet. -/
def Full.single : Full Nat :=
  { Full.zero with sys := { Sys.zero with radio := { Sys.zero.radio with
      maca := { Sys.zero.radio.maca with free := [0] } } } }

theorem Full.single_started : Full.single.Started [0] :=
  ⟨⟨rfl, rfl, rfl, rfl, rfl⟩, rfl, rfl, rfl⟩

/-- A frame is queued for transmission, and the next one waits for its packet. -/
def Full.oneSending : List (Full Nat × FullAct Nat) × Full Nat :=
  Lts.exec Full.step Full.single [.base (.call (.prepareTransmit 11 [3, 170])), .base (.poll 0 0),
    .base (.call (.prepareTransmit 11 [3, 187])), .base (.poll 1 0)]

theorem released_one_sending : Full.oneSending.2.sys.radio.maca.free = [] ∧
    ∀ x ∈ Full.oneSending.1, x.1.Released x.2 := by
  refine ⟨rfl, ?_⟩
  have hr : (full Nat (Full.Started [0])).Run Full.single Full.oneSending.1
      Full.oneSending.2 := .exec _ Full.step Full.single _
  refine (starved_iff_unread (by decide) (by decide) Full.single_started hr).mpr ?_
  refine List.forall_mem_cons.mpr ⟨trivial, List.forall_mem_cons.mpr ⟨fun _ => ?_, ?_⟩⟩
  · exact Nat.zero_lt_one
  refine List.forall_mem_cons.mpr ⟨trivial, List.forall_mem_cons.mpr ⟨fun _ => ?_, ?_⟩⟩
  · exact Nat.zero_lt_one
  exact fun _ h => by cases h

/-- Both packets hold unread frames; `prepare_transmit` is to claim one. -/
def Full.allUnread : List (Full Nat × FullAct Nat) × Full Nat :=
  Lts.exec Full.step Full.zero [.base .listen, .base (.received .ofThree), .base .listen,
    .base (.received .ofThree), .base (.call (.prepareTransmit 11 [3, 170]))]

/-- `prepare_transmit` waits for a packet while every packet is in the receive queue. -/
theorem waits_for_unread :
    (full Nat (Full.Started [0, 1])).Reach (Lts.Any _) Full.allUnread.2 ∧
      Full.allUnread.2.sys.radio.maca.rxQueue = [0, 1] ∧ Full.allUnread.2.Starved 0 ∧
      ¬ Full.allUnread.2.Released (.base (.poll 0 0)) := by
  have hr : (full Nat (Full.Started [0, 1])).Run Full.zero Full.allUnread.1
      Full.allUnread.2 := .exec _ Full.step Full.zero _
  have hst : Full.allUnread.2.Starved 0 := ⟨⟨_, rfl, trivial⟩, rfl⟩
  refine ⟨hr.reach (.init Full.zero_started) fun _ _ => trivial, rfl, hst, ?_⟩
  intro h
  exact (h hst _ rfl).1 rfl

end Mc1322x.Radio
