import Mc1322x.Radio.Pool

/-!
# The frames that the radio sends

The frames in the transmit queue, as the MACA will send them (`Maca.outgoing`). A step that queues a
frame (`Full.queued`) adds it at the end, one that ends a transmission (`Full.sentFrame`) takes the
first one away, and no other step writes into a packet of the queue (`Full.step_outgoing`).

* `transmit_accounts`: the frames queued are the frames sent and those still in the queue, in order.
-/

namespace Mc1322x.Radio

variable {Waker : Type}

/-- The frame that the MACA sends: the packet's bytes from its offset on. -/
def Packet.frame (k : Packet) : List UInt8 := (k.data.drop k.offset.toNat).take k.length.toNat

/-- The frames in the transmit queue, oldest first. -/
def Maca.outgoing (m : Maca) : List (List UInt8) :=
  m.txQueue.map fun q => (m.packets q.packet).frame

/-- The frame that a poll queues: none while no packet is free. -/
def Fut.queued (m : Maca) : Fut → Option (List UInt8)
  | .prepareTransmit _ bytes | .prepareAndTransmit _ bytes false =>
    if m.free = [] then none else txPsdu bytes
  | _ => none

/-- The frame that a step queues. -/
def Full.queued (s : Full Waker) : FullAct Waker → Option (List UInt8)
  | .base (.poll i _) => s.sys.futures[i]?.join.bind (·.queued s.sys.radio.maca)
  | .startTransmit data =>
    if s.sys.radio.maca.free = [] then none else some (data.take (maxPhr - 2))
  | _ => none

/-- The frame whose transmission ends with a step. -/
def Full.sentFrame (s : Full Waker) : FullAct Waker → Option (List UInt8)
  | .base (.sent _) => s.sys.radio.maca.outgoing.head?
  | _ => none

/-! ## What a step does to the outgoing frames -/

section Calls

variable {r r' : Driver Waker} {m : Maca} {p : Ptr}

theorem length_of_txPsdu {bytes psdu : List UInt8} (h : txPsdu bytes = some psdu) :
    psdu.length ≤ maxPhr - 2 := by
  unfold txPsdu at h
  obtain ⟨-, h⟩ := Option.ite_none_right_eq_some.mp h
  cases h
  rw [List.length_take]
  omega

/-- A packet outside the queue is written. -/
theorem Maca.outgoing_setPacket {k : Packet} (h : p ∉ m.txQueue.map (·.packet)) :
    (m.setPacket p k).outgoing = m.outgoing := by
  refine List.map_congr_left fun q hq => ?_
  simp only [setPacket]
  rw [if_neg]
  rintro rfl
  exact h (List.mem_map_of_mem hq)

/-- The claimed packet is filled with at most the 125 bytes that fit, and queued. -/
theorem queueTransmit_frame (m : Maca) (p : Ptr) (psdu : List UInt8) :
    ∃ k, queueTransmit m p psdu = txPacket (m.setPacket p k) p ∧
      k.frame = psdu.take (maxPhr - 2) := by
  have hlen : min psdu.length (maxPhr - 2) < 256 := by
    simp only [maxPhr]
    omega
  refine ⟨_, rfl, ?_⟩
  unfold Packet.frame
  simp only [UInt8.toNat_zero, List.drop_zero]
  rw [UInt8.toNat_ofNat', Nat.mod_eq_of_lt hlen, List.take_append_of_le_length (by
    rw [List.length_take]
    omega), List.take_take, Nat.min_self, Nat.min_comm, ← List.take_eq_take_min]

theorem queueTransmit_outgoing {psdu : List UInt8} (h : p ∉ m.txQueue.map (·.packet)) :
    (queueTransmit m p psdu).outgoing = m.outgoing ++ [psdu.take (maxPhr - 2)] := by
  obtain ⟨k, hq, hk⟩ := queueTransmit_frame m p psdu
  have hold := Maca.outgoing_setPacket (k := k) h
  rw [hq, ← hold, ← hk]
  simp only [Maca.outgoing, txPacket, List.map_append, List.map_cons, List.map_nil]
  simp [Maca.setPacket]

/-- The packets in the transmit queue are neither free nor to be received into, and are there
once. -/
theorem Maca.notMem_of_free {free : List Ptr} (hn : m.held.Nodup) (hf : m.free = p :: free) :
    p ∉ m.txQueue.map (·.packet) := by
  unfold held at hn
  rw [hf] at hn
  intro hp
  exact (List.nodup_append.mp (List.nodup_append.mp (List.nodup_append.mp hn).1).1).2.2 p
    List.mem_cons_self p hp rfl

theorem Maca.notMem_of_receiving (hn : m.held.Nodup) (hr : m.receiving = some p) :
    p ∉ m.txQueue.map (·.packet) := by
  unfold held at hn
  rw [hr] at hn
  intro hp
  exact (List.nodup_append.mp hn).2.2 p
    (List.mem_append_left _ (List.mem_append_right _ hp)) p List.mem_cons_self rfl

theorem Maca.notMem_of_head {q : Queued} {rest : List Queued} (hn : m.held.Nodup)
    (hq : m.txQueue = q :: rest) : q.packet ∉ rest.map (·.packet) := by
  unfold held at hn
  rw [hq] at hn
  have htx := (List.nodup_append.mp (List.nodup_append.mp (List.nodup_append.mp hn).1).1).2.1
  exact (List.nodup_cons.mp htx).1

theorem setChannelIndex_outgoing (r : Driver Waker) (index : UInt8) :
    (setChannelIndex r index).maca.outgoing = r.maca.outgoing := by
  unfold setChannelIndex
  split <;> rfl

theorem popReceivePacket_outgoing (h : popReceivePacket r = some (p, r')) :
    r'.maca.outgoing = r.maca.outgoing := by
  obtain ⟨rest, -, rfl⟩ := popReceivePacket_eq_some h
  rfl

theorem pollReceive_outgoing (r : Driver Waker) (w : Waker) :
    (pollReceive r w).2.2.maca.outgoing = r.maca.outgoing := by
  unfold pollReceive
  split
  · rfl
  · split
    · rfl
    · rename_i p r' hp
      have hpop := popReceivePacket_outgoing hp
      dsimp only
      split <;> exact hpop

theorem getReceived_outgoing (r : Driver Waker) (room : Nat) :
    (Radio.getReceived r room).2.maca.outgoing = r.maca.outgoing := by
  unfold Radio.getReceived
  split
  · rfl
  · rename_i p r' hp
    have hpop := popReceivePacket_outgoing hp
    exact hpop

theorem checkTransmit_outgoing (r : Driver Waker) (txInFlight : Bool) :
    (checkTransmit r txInFlight).2.2.maca.outgoing = r.maca.outgoing := by
  unfold checkTransmit
  split <;> rfl

theorem startTransmit_outgoing (hn : r.maca.held.Nodup) (txInFlight : Bool) (data : List UInt8) :
    (startTransmit r txInFlight data).2.2.maca.outgoing = r.maca.outgoing ++
      (if r.maca.free = [] then none else some (data.take (maxPhr - 2))).toList := by
  unfold startTransmit claimFreePacket
  cases hf : r.maca.free with
  | nil =>
    rw [if_pos rfl]
    exact (List.append_nil _).symm
  | cons p free =>
    rw [if_neg (List.cons_ne_nil p free)]
    exact queueTransmit_outgoing (m := { r.maca with free := free }) (r.maca.notMem_of_free hn hf)

/-- A poll that waits for a packet queues nothing; one that gets a packet queues the frame. -/
theorem Prepares.outgoing {w : Waker} {index : UInt8} {bytes : List UInt8}
    {Queued : Driver Waker → Prop} (hn : r.maca.held.Nodup)
    (h : Prepares r w index bytes Queued r') (hq : ∀ r₁, Queued r₁ → r'.maca = r₁.maca) :
    r'.maca.outgoing = r.maca.outgoing ++
      (if r.maca.free = [] then none else txPsdu bytes).toList := by
  rcases h with ⟨hf, rfl⟩ | ⟨p, free, r₁, hf, he, hr⟩
  · rw [if_pos hf]
    exact (List.append_nil _).symm
  · rw [if_neg (by rw [hf]; exact List.cons_ne_nil _ _), hq r₁ hr]
    obtain ⟨psdu, hpsdu, rfl⟩ := Option.map_eq_some_iff.mp he
    have hp := r.maca.notMem_of_free hn hf
    have htx := setChannelIndex_outgoing
      { state := { r.state with cancelled := false }, maca := { r.maca with free := free } } index
    rw [hpsdu, queueTransmit_outgoing, htx, List.take_of_length_le (length_of_txPsdu hpsdu)]
    · rfl
    · unfold setChannelIndex
      split <;> exact hp

theorem Fut.poll_outgoing {w : Waker} {f : Fut} {f' : Option Fut}
    {write : Option (Ptr × List UInt8)} (hn : r.maca.held.Nodup)
    (h : f.poll r w = some (r', f', write)) :
    r'.maca.outgoing = r.maca.outgoing ++ (f.queued r.maca).toList := by
  have hs := Fut.poll_spec h
  have hnil := (List.append_nil r.maca.outgoing).symm
  cases f with
  | disable | enable | prepareReceive buffer =>
    obtain ⟨rfl, -⟩ := hs
    exact hnil
  | receive =>
    obtain ⟨rfl, -⟩ := hs
    exact (pollReceive_outgoing r w).trans hnil
  | receiveResolved => exact hs.elim
  | transmit =>
    obtain ⟨rfl, -⟩ := hs
    rw [pollTransmit_maca]
    exact hnil
  | prepareTransmit index bytes => exact hs.1.outgoing hn fun _ e => congrArg Driver.maca e
  | prepareAndTransmit index bytes queued =>
    cases queued with
    | true =>
      obtain ⟨rfl, -⟩ := hs
      rw [pollTransmit_maca]
      exact hnil
    | false =>
      refine hs.1.outgoing hn ?_
      rintro r₁ rfl
      exact pollTransmit_maca r₁ w

end Calls

section Steps

variable {pool : List Ptr} {s s' : Full Waker}

/-- What a step does to the outgoing frames: one that it queues is the last one then, and one whose
transmission ends was the first one. -/
theorem Full.step_outgoing {a : FullAct Waker} (hn : s.sys.radio.maca.held.Nodup)
    (hs : s.step a = some s') :
    s.sys.radio.maca.outgoing ++ (s.queued a).toList =
      (s.sentFrame a).toList ++ s'.sys.radio.maca.outgoing := by
  have hnil := List.append_nil s.sys.radio.maca.outgoing
  cases a with
  | base a =>
    obtain ⟨sys, h, rfl⟩ := Full.step_base hs
    have h := Sys.step_spec h
    cases a with
    | poll i w =>
      obtain ⟨f, r, f', write, hf, hp, rfl⟩ := h
      simp only [Full.queued, hf, Option.bind_some]
      exact (Fut.poll_outgoing hn hp).symm
    | setChannel index => cases hs
    | call c | cancel =>
      cases h
      exact hnil
    | drop i =>
      obtain ⟨f, -, rfl⟩ := h
      cases f <;> exact hnil
    | listen =>
      obtain ⟨p, free, -, -, rfl⟩ := h
      exact hnil
    | received k =>
      obtain ⟨p, hp, rfl⟩ := h
      -- The packet of the reception is not one of the transmit queue.
      exact hnil.trans
        (Maca.outgoing_setPacket (Maca.notMem_of_receiving hn hp)).symm
    | sent status =>
      obtain ⟨q, rest, hq, rfl⟩ := h
      -- The status goes to the packet of the head, and no packet is in the queue twice.
      have hrest := Maca.outgoing_setPacket
        (m := { s.sys.radio.maca with txQueue := rest })
        (k := { s.sys.radio.maca.packets q.packet with status := status })
        (Maca.notMem_of_head hn hq)
      have hout : s.sys.radio.maca.outgoing = (s.sys.radio.maca.packets q.packet).frame ::
          { s.sys.radio.maca with txQueue := rest }.outgoing := by
        unfold Maca.outgoing
        rw [hq]
        rfl
      simp only [Full.sentFrame, Full.queued, Option.toList_none, List.append_nil]
      rw [hout, ← hrest]
      rfl
  | setChannel channel =>
    obtain ⟨-, rfl⟩ := Full.step_setChannel hs
    exact hnil.trans (setChannelIndex_outgoing _ _).symm
  | halSetChannel channel =>
    cases hs
    refine hnil.trans ?_
    simp only [Full.sentFrame, Full.withRadio, Radio.halSetChannel]
    split
    · rfl
    · exact (setChannelIndex_outgoing _ _).symm
  | setState idle =>
    cases hs
    cases idle <;> exact hnil
  | startTransmit data =>
    cases hs
    exact (startTransmit_outgoing hn _ data).symm
  | checkTransmit =>
    cases hs
    exact hnil.trans (checkTransmit_outgoing _ _).symm
  | isBusy | checkReceive | startReceive =>
    cases hs
    exact hnil
  | getReceived room =>
    cases hs
    exact hnil.trans (getReceived_outgoing _ _).symm

theorem filterMap_single {α β : Type} (f : α → Option β) (a : α) :
    [a].filterMap f = (f a).toList := by
  cases h : f a <;> simp [h]

/-- Every packet is in one place at a time. -/
theorem Accounts.held_nodup (hn : pool.Nodup) (hlt : pool.length < UInt32.size)
    {C : Full Waker → FullAct Waker → Prop} (h : (full Waker (Full.Started pool)).Reach C s) :
    s.sys.radio.maca.held.Nodup :=
  (Accounts.reach hn hlt h).held.nodup_iff.mpr hn

/-- The frames queued in a run are the frames sent and those still in the queue. -/
def Sent (tr : List (Full Waker × FullAct Waker)) (m : Maca) : Prop :=
  tr.filterMap (fun x => x.1.queued x.2) =
    tr.filterMap (fun x => x.1.sentFrame x.2) ++ m.outgoing

/-- One step more. -/
theorem Sent.step {tr : List (Full Waker × FullAct Waker)} {a : FullAct Waker}
    (h : Sent tr s.sys.radio.maca) (hn : s.sys.radio.maca.held.Nodup) (hs : s.step a = some s') :
    Sent (tr ++ [(s, a)]) s'.sys.radio.maca := by
  have hstep := Full.step_outgoing hn hs
  unfold Sent at h ⊢
  rw [List.filterMap_append, List.filterMap_append, filterMap_single, filterMap_single, h,
    List.append_assoc, hstep, List.append_assoc]

theorem Accounts.sent (hn : pool.Nodup) (hlt : pool.length < UInt32.size)
    {tr : List (Full Waker × FullAct Waker)} (h0 : s.Started pool)
    (hr : (full Waker (Full.Started pool)).Run s tr s') : Sent tr s'.sys.radio.maca := by
  refine Lts.Run.induct (I := fun tr (s : Full Waker) => Sent tr s.sys.radio.maca) ?_ ?_ hr
  · obtain ⟨⟨-, -, htx, -⟩, -⟩ := h0
    unfold Sent Maca.outgoing
    rw [htx]
    rfl
  · intro tr t a u hr ih hst
    exact ih.step (Accounts.held_nodup hn hlt
      (hr.reach (C := Lts.Any _) (.init h0) fun _ _ => trivial)) hst

/-- A frame that is queued fits a packet. -/
theorem Fut.length_queued {m : Maca} {f : Fut} {psdu : List UInt8} (h : f.queued m = some psdu) :
    psdu.length ≤ 125 := by
  unfold Fut.queued at h
  split at h
  · exact length_of_txPsdu (Option.ite_none_left_eq_some.mp h).2
  · exact length_of_txPsdu (Option.ite_none_left_eq_some.mp h).2
  · cases h

theorem Full.length_queued {a : FullAct Waker} {psdu : List UInt8} (h : s.queued a = some psdu) :
    psdu.length ≤ 125 := by
  unfold Full.queued at h
  split at h
  · obtain ⟨f, -, hf⟩ := Option.bind_eq_some_iff.mp h
    exact Fut.length_queued hf
  · obtain ⟨-, h⟩ := Option.ite_none_left_eq_some.mp h
    cases h
    exact List.length_take_le _ _
  · cases h

/-- **Transmit accounting.** In every run of the radio, the frames that the calls queue are the
frames that the MACA sends, in order and unchanged, with those still in the queue. These are at most
as many as there are packets, and each of them fits one. -/
theorem transmit_accounts (hn : pool.Nodup) (hlt : pool.length < UInt32.size)
    {tr : List (Full Waker × FullAct Waker)} (h0 : s.Started pool)
    (hr : (full Waker (Full.Started pool)).Run s tr s') :
    Sent tr s'.sys.radio.maca ∧ s'.sys.radio.maca.outgoing.length ≤ pool.length ∧
      ∀ psdu ∈ tr.filterMap fun x => x.1.queued x.2, psdu.length ≤ 125 := by
  have hacc := Accounts.reach hn hlt (hr.reach (C := Lts.Any _) (.init h0) fun _ _ => trivial)
  refine ⟨Accounts.sent hn hlt h0 hr, ?_, ?_⟩
  · have hlen := hacc.held.length_eq
    unfold Maca.held at hlen
    unfold Maca.outgoing
    simp only [List.length_append, List.length_map] at hlen ⊢
    omega
  · intro psdu hp
    obtain ⟨x, -, hx⟩ := List.mem_filterMap.mp hp
    exact Full.length_queued hx

/-- Two frames are queued, and the first one is sent. -/
def Full.twoQueued : List (Full Nat × FullAct Nat) × Full Nat :=
  Lts.exec Full.step Full.zero [.base (.call (.prepareTransmit 11 [5, 1, 2, 3])),
    .base (.poll 0 0), .startTransmit [9], .base (.sent 0)]

theorem transmit_accounts_two :
    (Full.twoQueued.1.filterMap fun x => x.1.sentFrame x.2) = [[1, 2, 3]] ∧
      Full.twoQueued.2.sys.radio.maca.outgoing = [[9]] ∧
      Sent Full.twoQueued.1 Full.twoQueued.2.sys.radio.maca := by
  have hr : (full Nat (Full.Started [0, 1])).Run Full.zero Full.twoQueued.1
      Full.twoQueued.2 := .exec _ Full.step Full.zero _
  exact ⟨rfl, rfl, (transmit_accounts (by decide) (by decide) Full.zero_started hr).1⟩

end Steps

end Mc1322x.Radio
