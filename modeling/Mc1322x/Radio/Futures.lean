import Mc1322x.Lib.Lts
import Mc1322x.Radio.Driver

/-!
# The radio and its futures

The radio's system (`Sys`): calls create futures, which are polled and dropped in any order, and
the MACA receives and sends packets meanwhile. A future is polled by any task at any time, woken or
not. The library sends the queued packets first in first out and calls `maca_tx_callback` once for
each (`Act.sent`); it calls `maca_rx_callback` once for each received frame and then queues its
packet (`Act.received`).
-/

namespace Mc1322x.Radio

/-- A future of the radio. -/
inductive Fut where
  | disable
  | enable
  | prepareReceive (buffer : Ptr)
  | receive
  /-- A `ReceiveFuture` that has resolved; its drop is still to come. -/
  | receiveResolved
  | prepareTransmit (index : UInt8) (bytes : List UInt8)
  | transmit
  | prepareAndTransmit (index : UInt8) (bytes : List UInt8) (queued : Bool)

/-- The driver with the futures of its callers and their buffers. -/
structure Sys (Waker : Type) where
  radio : Driver Waker
  /-- By number; `none` once resolved (`receive`: dropped) or dropped. -/
  futures : List (Option Fut)
  /-- The memory behind the receive buffers. -/
  buffers : Ptr → List UInt8

/-- A call that makes a future. -/
inductive Call where
  | disable
  | enable
  | prepareReceive (buffer : Ptr)
  | receive
  | prepareTransmit (channel : UInt8) (bytes : List UInt8)
  | transmit
  | prepareAndTransmit (channel : UInt8) (bytes : List UInt8)

/-- The future that a call makes. -/
def Call.future : Call → Fut
  | .disable => .disable
  | .enable => .enable
  | .prepareReceive buffer => .prepareReceive buffer
  | .receive => .receive
  | .prepareTransmit channel bytes => .prepareTransmit (channelIndex channel) bytes
  | .transmit => .transmit
  | .prepareAndTransmit channel bytes => .prepareAndTransmit (channelIndex channel) bytes false

/-- What happens: calls, polls and drops of the futures, other calls of the driver, and what the
MACA does. -/
inductive Act (Waker : Type) where
  | call (c : Call)
  | poll (i : Nat) (w : Waker)
  | drop (i : Nat)
  | cancel
  | setChannel (index : UInt8)
  /-- The MACA takes a free packet to receive into. -/
  | listen
  /-- A frame is received: `maca_rx_callback`, then the packet is queued. -/
  | received (k : Packet)
  /-- The oldest packet in the transmit queue is sent: `maca_tx_callback`, then it is freed. -/
  | sent (status : UInt8)

variable {Waker : Type}

/-- A poll of a future: the radio after it, the future if it is pending, and the frame written into
a buffer. -/
def Fut.poll (r : Driver Waker) (w : Waker) :
    Fut → Option (Driver Waker × Option Fut × Option (Ptr × List UInt8))
  | .disable => some (Radio.disable r, none, none)
  | .enable => some (Radio.enable r, none, none)
  | .prepareReceive buffer => some (Radio.prepareReceive r buffer, none, none)
  | .receive =>
    let (result, write, r) := pollReceive r w
    some (r, some (if result.isSome then .receiveResolved else .receive), write)
  | .receiveResolved => none
  | .prepareTransmit index bytes => do
    let (ready, r) ← pollPrepareTransmit r w index bytes
    some (r, if ready then none else some (.prepareTransmit index bytes), none)
  | .transmit =>
    let (found, r) := pollTransmit r w
    some (r, if found = .pending then some .transmit else none, none)
  | .prepareAndTransmit index bytes queued => do
    let (found, queued, r) ← pollPrepareAndTransmit r w index bytes queued
    some (r, if found = .pending then some (.prepareAndTransmit index bytes queued) else none, none)

/-- The driver at the poll that claims a packet: no packet, or the frame is queued. -/
def Prepares (r : Driver Waker) (w : Waker) (index : UInt8) (bytes : List UInt8)
    (Queued : Driver Waker → Prop) (r' : Driver Waker) : Prop :=
  (r.maca.free = [] ∧
    r' = { r with state := { r.state with cancelled := false, waker := some w } }) ∨
  ∃ p free r₁, r.maca.free = p :: free ∧ queueFrame
    { state := { r.state with cancelled := false }, maca := { r.maca with free := free } } p index
    bytes = some r₁ ∧ Queued r₁

@[simp] theorem pollTransmit_maca (r : Driver Waker) (w : Waker) :
    (pollTransmit r w).2.maca = r.maca := by
  unfold pollTransmit
  split
  · rfl
  · split <;> rfl

/-- The driver after a poll of each future. -/
theorem Fut.poll_spec {r r' : Driver Waker} {w : Waker} {f : Fut} {f' : Option Fut}
    {write : Option (Ptr × List UInt8)} (h : f.poll r w = some (r', f', write)) :
    match f with
    | .disable => r' = Radio.disable r ∧ write = none
    | .enable => r' = Radio.enable r ∧ write = none
    | .prepareReceive buffer => r' = Radio.prepareReceive r buffer ∧ write = none
    | .receive => r' = (pollReceive r w).2.2 ∧ write = (pollReceive r w).2.1
    | .receiveResolved => False
    | .transmit | .prepareAndTransmit _ _ true => r' = (pollTransmit r w).2 ∧ write = none
    | .prepareTransmit index bytes => Prepares r w index bytes (r' = ·) r' ∧ write = none
    | .prepareAndTransmit index bytes false =>
      Prepares r w index bytes (fun r₁ => r' = (pollTransmit r₁ w).2) r' ∧ write = none := by
  cases f with
  | disable | enable | prepareReceive buffer | receive | transmit =>
    cases h
    exact ⟨rfl, rfl⟩
  | receiveResolved => cases h
  | prepareTransmit index bytes =>
    simp only [Fut.poll, Option.bind_eq_bind, Option.bind_eq_some_iff] at h
    obtain ⟨⟨ready, r₁⟩, hp, h⟩ := h
    cases h
    refine ⟨?_, rfl⟩
    -- Without a free packet the future is pending; with one it queues its frame.
    unfold pollPrepareTransmit claimFreePacket at hp
    cases hf : r.maca.free with
    | nil =>
      rw [hf] at hp
      cases hp
      exact .inl ⟨hf, rfl⟩
    | cons p free =>
      rw [hf] at hp
      obtain ⟨r₂, hq, e⟩ := Option.map_eq_some_iff.mp hp
      cases e
      exact .inr ⟨p, free, r₁, hf, hq, rfl⟩
  | prepareAndTransmit index bytes queued =>
    simp only [Fut.poll, Option.bind_eq_bind, Option.bind_eq_some_iff] at h
    obtain ⟨⟨found, queued', r₁⟩, hp, h⟩ := h
    cases h
    cases queued with
    | true =>
      cases hp
      exact ⟨rfl, rfl⟩
    | false =>
      refine ⟨?_, rfl⟩
      unfold pollPrepareAndTransmit claimFreePacket at hp
      cases hf : r.maca.free with
      | nil =>
        rw [hf] at hp
        cases hp
        exact .inl ⟨hf, rfl⟩
      | cons p free =>
        rw [hf] at hp
        obtain ⟨r₂, hq, e⟩ := Option.map_eq_some_iff.mp hp
        cases e
        exact .inr ⟨p, free, r₂, hf, hq, rfl⟩

/-- The drop of a future. -/
def Fut.drop (r : Driver Waker) : Fut → Driver Waker
  | .receive | .receiveResolved => dropReceive r
  | _ => r

/-- One step; `none`: the step is not possible, or it panics. -/
def Sys.step (s : Sys Waker) : Act Waker → Option (Sys Waker)
  | .call c => some { s with futures := s.futures ++ [some c.future] }
  | .poll i w => do
    let f ← s.futures[i]?.join
    let (r, f', write) ← f.poll s.radio w
    some {
      radio := r
      futures := s.futures.set i f'
      buffers := write.elim s.buffers fun x q =>
        if q = x.1 then overwrite (s.buffers q) x.2 else s.buffers q }
  | .drop i => do
    let f ← s.futures[i]?.join
    some { s with radio := f.drop s.radio, futures := s.futures.set i none }
  | .cancel => some { s with radio := (cancelCurrentOperation s.radio).2 }
  | .setChannel index => some { s with radio := setChannelIndex s.radio index }
  | .listen =>
    match s.radio.maca.receiving, claimFreePacket s.radio.maca with
    | none, some (p, m) => some { s with radio.maca := { m with receiving := some p } }
    | _, _ => none
  | .received k => do
    let p ← s.radio.maca.receiving
    let r := (macaRxCallback { s.radio with maca := s.radio.maca.setPacket p k }).2
    some { s with radio := { r with
      maca := { r.maca with rxQueue := r.maca.rxQueue ++ [p], receiving := none } } }
  | .sent status =>
    match s.radio.maca.txQueue with
    | [] => none
    | q :: rest =>
      let m := s.radio.maca.setPacket q.packet
        { s.radio.maca.packets q.packet with status := status }
      let r := (macaTxCallback { s.radio with maca := m } q.packet).2
      some { s with radio := { r with
        maca := freePacket { r.maca with
          txQueue := rest
          sent := r.maca.sent ++ [(q.frame, status)] } q.packet } }

theorem claimFreePacket_eq_some {m m' : Maca} {p : Ptr} (h : claimFreePacket m = some (p, m')) :
    ∃ free, m.free = p :: free ∧ m' = { m with free := free } := by
  unfold claimFreePacket at h
  split at h
  · cases h
  · rename_i hf
    cases h
    exact ⟨_, hf, rfl⟩

/-- What a step that is possible does. -/
theorem Sys.step_spec {s s' : Sys Waker} {a : Act Waker} (h : s.step a = some s') :
    match a with
    | .call c => s' = { s with futures := s.futures ++ [some c.future] }
    | .poll i w => ∃ f r f' write, s.futures[i]?.join = some f ∧
      f.poll s.radio w = some (r, f', write) ∧ s' = {
        radio := r
        futures := s.futures.set i f'
        buffers := write.elim s.buffers fun x q =>
          if q = x.1 then overwrite (s.buffers q) x.2 else s.buffers q }
    | .drop i => ∃ f, s.futures[i]?.join = some f ∧
      s' = { s with radio := f.drop s.radio, futures := s.futures.set i none }
    | .cancel => s' = { s with radio := (cancelCurrentOperation s.radio).2 }
    | .setChannel index => s' = { s with radio := setChannelIndex s.radio index }
    | .listen => ∃ p free, s.radio.maca.receiving = none ∧ s.radio.maca.free = p :: free ∧
      s' = { s with radio.maca := { s.radio.maca with free := free, receiving := some p } }
    | .received k => ∃ p, s.radio.maca.receiving = some p ∧
      let r := (macaRxCallback { s.radio with maca := s.radio.maca.setPacket p k }).2
      s' = { s with radio := { r with
        maca := { r.maca with rxQueue := r.maca.rxQueue ++ [p], receiving := none } } }
    | .sent status => ∃ q rest, s.radio.maca.txQueue = q :: rest ∧
      let m := s.radio.maca.setPacket q.packet
        { s.radio.maca.packets q.packet with status := status }
      let r := (macaTxCallback { s.radio with maca := m } q.packet).2
      s' = { s with radio := { r with
        maca := freePacket { r.maca with
          txQueue := rest
          sent := r.maca.sent ++ [(q.frame, status)] } q.packet } } := by
  cases a with
  | call c | cancel | setChannel index =>
    cases h
    rfl
  | poll i w =>
    simp only [Sys.step, Option.bind_eq_bind, Option.bind_eq_some_iff] at h
    obtain ⟨f, hf, ⟨r, f', write⟩, hp, h⟩ := h
    cases h
    exact ⟨f, r, f', write, hf, hp, rfl⟩
  | drop i =>
    simp only [Sys.step, Option.bind_eq_bind, Option.bind_eq_some_iff] at h
    obtain ⟨f, hf, h⟩ := h
    cases h
    exact ⟨f, hf, rfl⟩
  | listen =>
    simp only [Sys.step] at h
    split at h
    · rename_i p m hr hc
      obtain ⟨free, hf, rfl⟩ := claimFreePacket_eq_some hc
      cases h
      exact ⟨p, free, hr, hf, rfl⟩
    · cases h
  | received k =>
    simp only [Sys.step, Option.bind_eq_bind, Option.bind_eq_some_iff] at h
    obtain ⟨p, hp, h⟩ := h
    cases h
    exact ⟨p, hp, rfl⟩
  | sent status =>
    simp only [Sys.step] at h
    split at h
    · cases h
    · rename_i q rest hq
      cases h
      exact ⟨q, rest, hq, rfl⟩

/-- The runs of the radio from the states `init`. -/
def radio (Waker : Type) (init : Sys Waker → Prop) : Lts := .ofStep init Sys.step

/-- The radio after `init`: no future, and no frame queued so far. -/
def Sys.Started (s : Sys Waker) : Prop :=
  s.futures = [] ∧ s.radio.state = .new ∧ s.radio.maca.txQueue = [] ∧ s.radio.maca.frames = 0 ∧
    s.radio.maca.sent = []

/-- The radio with two free packets. -/
def Sys.zero : Sys Nat where
  radio := {
    state := .new
    maca := {
      packets := fun _ => ⟨0, 0, 0, 0, []⟩, free := [0, 1], txQueue := [], rxQueue := []
      receiving := none, channel := none, frames := 0, sent := [] } }
  futures := []
  buffers := fun _ => []

theorem Sys.zero_started : Sys.zero.Started := ⟨rfl, rfl, rfl, rfl, rfl⟩

end Mc1322x.Radio
