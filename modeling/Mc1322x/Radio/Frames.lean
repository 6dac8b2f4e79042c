import Mc1322x.Radio.Stations

/-!
# Frames of the `ieee802154` crate (`mc1322x-radio/src/layout.rs`, `mc1322x-radio/src/radio.rs`)

`send_frame` encodes a frame into a buffer of its own and hands that to `prepare_transmit`
(`sendFrameCall`); `receive_frame` decodes what `receive` has left in its buffer (`receiveFrame`).
The crate's encoding is a parameter (`Codec`): what it writes into a slice, it reads back
(`Codec.Lawful`).

* `frames_decode`: between stations that send with `send_frame`, the frames that are received are
  the frames that were sent, in order, each at most once.
-/

namespace Mc1322x.Radio

open Checked

/-- The crate's `Frame`s, with the footer mode `None`. -/
structure Codec (F E : Type) where
  /-- `try_write`: the length written or an error, and the slice after it. -/
  tryWrite : F → List UInt8 → Except E Nat × List UInt8
  /-- `try_read`: the frame and the length read. -/
  tryRead : List UInt8 → Except E (F × Nat)
  /-- The frame without the footer, which is neither written nor read. -/
  bare : F → F

namespace Codec

variable {F E : Type}

/-- A codec that keeps the buffer's length, writes no more than fits, and reads what it has written.
-/
structure Lawful (c : Codec F E) : Prop where
  length : ∀ f s, (c.tryWrite f s).2.length = s.length
  fits : ∀ f s n, (c.tryWrite f s).1 = .ok n → n ≤ s.length
  read : ∀ f s n, (c.tryWrite f s).1 = .ok n →
    c.tryRead ((c.tryWrite f s).2.take n) = .ok (c.bare f, n)

/-- `write_frame`: the length written, and the buffer after it. -/
def writeFrame (c : Codec F E) (buffer : Frame) (frame : F) :
    Except Panic (Except E Nat × List UInt8) := do
  let capacity := min (maxPhr - 2) (buffer.toList.length - 1)
  let (result, buffer) ← onSlice buffer.toList 1 (1 + capacity) (c.tryWrite frame)
  match result with
  | .error e => .ok (.error e, buffer)
  | .ok len =>
    let buffer ← setFrameLength buffer len
    .ok (.ok len, buffer)

/-- `read_frame`. -/
def readFrame (c : Codec F E) (buffer : Frame) : Except Panic (Except E (F × Nat)) := do
  let psdu ← psduView buffer
  .ok (c.tryRead psdu)

/-- `send_frame` up to its first `await`: the call that it awaits, or the error. -/
def sendFrameCall (c : Codec F E) (channel : UInt8) (frame : F) :
    Except Panic (Except E Call) := do
  let (result, buffer) ← c.writeFrame (.replicate 128 0) frame
  .ok (result.map fun _ => .prepareTransmit channel buffer)

/-- `receive_frame` after its last `await`, with the result of `receive` and the buffer. -/
def receiveFrame (c : Codec F E) (received : Bool) (buffer : Frame) :
    Except Panic (Except E (Option F)) := do
  if !received then return .ok none
  let result ← c.readFrame buffer
  .ok (result.map fun x => some x.1)

/-- The frame is sent as these bytes. -/
def Encodes (c : Codec F E) (f : F) (psdu : List UInt8) : Prop :=
  ∃ channel index bytes call, c.sendFrameCall channel f = .ok (.ok call) ∧
    call.future = .prepareTransmit index bytes ∧ txPsdu bytes = some psdu

section

variable {c : Codec F E} {f : F} {psdu : List UInt8}

/-- A frame that is written is in the buffer behind its PHR. -/
theorem txPsdu_writeFrame (hc : c.Lawful) {buffer : Frame} {n : Nat} {bytes : List UInt8}
    (h : c.writeFrame buffer f = .ok (.ok n, bytes)) :
    ∃ psdu, txPsdu bytes = some psdu ∧ c.tryRead psdu = .ok (c.bare f, n) := by
  have hlen := buffer.length_toList
  cases hb : buffer.toList with
  | nil =>
    rw [hb] at hlen
    cases hlen
  | cons x rest =>
    rw [hb, List.length_cons] at hlen
    -- The writer gets the 125 bytes behind the PHR.
    have hcap : min (maxPhr - 2) (buffer.toList.length - 1) = 125 := by
      rw [hb, List.length_cons, hlen]
      rfl
    have hrest : 125 ≤ rest.length := by omega
    have hslice : (rest.take 125).length = 125 := List.length_take_of_le hrest
    unfold writeFrame at h
    rw [hcap] at h
    dsimp only at h
    rw [hb, onSlice_cons hrest] at h
    dsimp only [bind, Except.bind] at h
    cases hw : (c.tryWrite f (rest.take 125)).1 with
    | error e =>
      rw [hw] at h
      cases h
    | ok len =>
      rw [hw] at h
      dsimp only at h
      rw [setFrameLength_cons] at h
      cases h
      have hn : n ≤ 125 := hslice ▸ hc.fits f _ n hw
      have hafter := (hc.length f (rest.take 125)).trans hslice
      refine ⟨_, txPsdu_cons (toNat_phr hn) hn (by rw [List.length_append]; omega), ?_⟩
      rw [List.take_append_of_le_length (by omega)]
      exact hc.read f _ n hw

/-- What is read from a buffer is what the PSDU in it decodes to. -/
theorem readFrame_of_reads {buffer : Frame} (h : Reads buffer psdu) :
    c.readFrame buffer = .ok (c.tryRead psdu) := by
  unfold readFrame
  rw [h.psduView]
  rfl

theorem Encodes.tryRead (hc : c.Lawful) (h : c.Encodes f psdu) :
    ∃ n, c.tryRead psdu = .ok (c.bare f, n) := by
  obtain ⟨channel, index, bytes, call, hcall, hfut, hp⟩ := h
  unfold sendFrameCall at hcall
  cases hw : c.writeFrame (.replicate 128 0) f with
  | error e =>
    rw [hw] at hcall
    cases hcall
  | ok r =>
    obtain ⟨result, buffer⟩ := r
    rw [hw] at hcall
    cases result with
    | error e => cases hcall
    | ok n =>
      cases hcall
      cases hfut
      obtain ⟨psdu', hp', hread⟩ := txPsdu_writeFrame hc hw
      cases hp.symm.trans hp'
      exact ⟨n, hread⟩

/-- A frame that arrives in a buffer is decoded from it, whatever it held before. -/
theorem Encodes.receiveFrame (hc : c.Lawful) (h : c.Encodes f psdu) (hl : psdu.length ≤ 125)
    (old : Frame) : ∃ new : Frame,
      new.toList = overwrite old.toList (.ofNat (psdu.length + 2) :: psdu) ∧
      c.receiveFrame true new = .ok (.ok (some (c.bare f))) := by
  obtain ⟨new, hnew, hreads⟩ := reads_overwrite hl old
  obtain ⟨n, hn⟩ := h.tryRead hc
  refine ⟨new, hnew, ?_⟩
  unfold Codec.receiveFrame
  rw [readFrame_of_reads hreads, hn]
  rfl

end

end Codec

/-! ## Stations that send frames -/

variable {ι Waker F E : Type} [DecidableEq ι]

/-- A future that transmits is one that `send_frame` awaits. -/
def Fut.Framed (c : Codec F E) : Fut → Prop
  | .prepareTransmit index bytes => ∃ channel f call,
    c.sendFrameCall channel f = .ok (.ok call) ∧ call.future = .prepareTransmit index bytes
  | .prepareAndTransmit .. => False
  | _ => True

/-- Nothing is transmitted but with `send_frame`. -/
def FullAct.Framed (c : Codec F E) : FullAct Waker → Prop
  | .base (.call k) => k.future.Framed c
  | .startTransmit _ => False
  | _ => True

/-- The frame comes out of what the caller has been given, where there is room for it. -/
def Taken.Decodes (c : Codec F E) : Taken → F → Prop
  | .discarded, _ => True
  | .received bytes, f => ∀ old : Frame, ∃ new : Frame,
    new.toList = overwrite old.toList bytes ∧
      c.receiveFrame true new = .ok (.ok (some (c.bare f)))
  | .gotReceived room bytes _, f => 125 ≤ room → ∃ n, c.tryRead bytes = .ok (c.bare f, n)

section Framed

variable {c : Codec F E} {s s' : Full Waker}

theorem Fut.Framed.poll {r r' : Driver Waker} {w : Waker} {f f' : Fut}
    {write : Option (Ptr × List UInt8)} (hf : f.Framed c)
    (h : f.poll r w = some (r', some f', write)) : f'.Framed c := by
  cases f with
  | disable | enable | prepareReceive buffer | receiveResolved => cases h
  | receive =>
    simp only [Fut.poll, Option.some.injEq, Prod.mk.injEq] at h
    obtain ⟨-, rfl, -⟩ := h
    by_cases hr : (pollReceive r w).1.isSome
    · rw [if_pos hr]
      trivial
    · rw [if_neg hr]
      trivial
  | transmit =>
    simp only [Fut.poll, Option.some.injEq, Prod.mk.injEq, Option.ite_none_right_eq_some] at h
    obtain ⟨-, ⟨-, rfl⟩, -⟩ := h
    trivial
  | prepareTransmit index bytes =>
    simp only [Fut.poll, Option.bind_eq_bind, Option.bind_eq_some_iff] at h
    obtain ⟨⟨ready, r₁⟩, -, h⟩ := h
    cases ready with
    | true => cases h
    | false =>
      cases h
      exact hf
  | prepareAndTransmit index bytes queued => exact hf.elim

/-- The futures of a station that sends with `send_frame` only. -/
theorem Full.step_framed {a : FullAct Waker} (h : ∀ f, some f ∈ s.sys.futures → f.Framed c)
    (ha : a.Framed c) (hs : s.step a = some s') :
    ∀ f, some f ∈ s'.sys.futures → f.Framed c := by
  cases a with
  | base a =>
    obtain ⟨sys, hst, rfl⟩ := Full.step_base hs
    have hst := Sys.step_spec hst
    cases a with
    | call k =>
      cases hst
      intro f hf
      rcases List.mem_append.mp hf with hf | hf
      · exact h f hf
      · cases List.mem_singleton.mp hf
        exact ha
    | poll i w =>
      obtain ⟨g, r, g', write, hg, hp, rfl⟩ := hst
      intro f hf
      rcases List.mem_or_eq_of_mem_set hf with hf | hf
      · exact h f hf
      · rw [← hf] at hp
        exact (h g (List.mem_of_getElem? (Option.join_eq_some_iff.mp hg))).poll hp
    | drop i =>
      obtain ⟨g, -, rfl⟩ := hst
      intro f hf
      rcases List.mem_or_eq_of_mem_set hf with hf | hf
      · exact h f hf
      · cases hf
    | setChannel index => cases hs
    | cancel =>
      cases hst
      exact h
    | listen =>
      obtain ⟨p, free, -, -, rfl⟩ := hst
      exact h
    | received k =>
      obtain ⟨p, -, rfl⟩ := hst
      exact h
    | sent status =>
      obtain ⟨q, rest, -, rfl⟩ := hst
      exact h
  | setChannel channel =>
    obtain ⟨-, rfl⟩ := Full.step_setChannel hs
    exact h
  -- `startTransmit` sends bytes of its own, which `ha` excludes.
  | startTransmit data => exact ha.elim
  | _ =>
    cases hs
    exact h

theorem Full.encodes_of_queued {a : FullAct Waker} {psdu : List UInt8}
    (h : ∀ f, some f ∈ s.sys.futures → f.Framed c) (ha : a.Framed c)
    (hq : s.queued a = some psdu) : ∃ f, c.Encodes f psdu := by
  unfold Full.queued at hq
  split at hq
  · obtain ⟨f, hf, hq⟩ := Option.bind_eq_some_iff.mp hq
    have hframed := h f (List.mem_of_getElem? (Option.join_eq_some_iff.mp hf))
    cases f with
    | prepareTransmit index bytes =>
      obtain ⟨channel, f, call, hcall, hfut⟩ := hframed
      exact ⟨f, channel, index, bytes, call, hcall, hfut, (Option.ite_none_left_eq_some.mp hq).2⟩
    | prepareAndTransmit index bytes queued => exact hframed.elim
    | _ => cases hq
  · exact ha.elim
  · cases hq

/-- Every frame that is queued is an encoded one. -/
theorem Full.Run.encodes {pool : List Ptr} {tr : List (Full Waker × FullAct Waker)}
    (h0 : s.Started pool) (hr : (full Waker (Full.Started pool)).Run s tr s')
    (hf : ∀ x ∈ tr, x.2.Framed c) :
    ∀ psdu ∈ tr.filterMap (fun x => x.1.queued x.2), ∃ f, c.Encodes f psdu := by
  -- The futures have encoded frames, and what is queued is a frame of one of them.
  have key := Lts.Run.induct (I := fun tr (s : Full Waker) => (∀ x ∈ tr, x.2.Framed c) →
    (∀ f, some f ∈ s.sys.futures → f.Framed c) ∧
      ∀ psdu ∈ tr.filterMap (fun x => x.1.queued x.2), ∃ f, c.Encodes f psdu) ?_ ?_ hr
  · exact (key hf).2
  · intro _
    refine ⟨?_, nofun⟩
    rw [h0.1.1]
    exact nofun
  · intro tr t a u _ ih hst hf
    obtain ⟨hfut, henc⟩ := ih fun x hx => hf x (List.mem_append_left _ hx)
    have ha := hf (t, a) (List.mem_append_right _ List.mem_cons_self)
    refine ⟨Full.step_framed hfut ha hst, ?_⟩
    intro psdu hp
    rw [List.filterMap_append, List.mem_append] at hp
    rcases hp with hp | hp
    · exact henc psdu hp
    · obtain ⟨x, hx, hq⟩ := List.mem_filterMap.mp hp
      cases List.mem_singleton.mp hx
      exact Full.encodes_of_queued hfut ha hq

end Framed

/-! ## The frames that arrive -/

section Arrive

variable {c : Codec F E}

theorem Taken.Gives.decodes {t : Taken} {psdu : List UInt8} {f : F} (hc : c.Lawful)
    (h : t.Gives psdu) (he : c.Encodes f psdu) (hl : psdu.length ≤ 125) : t.Decodes c f := by
  cases t with
  | discarded => trivial
  | received bytes =>
    cases h
    exact he.receiveFrame hc hl
  | gotReceived room bytes lqi =>
    intro hroom
    have hall : bytes = psdu := h.trans (List.take_of_length_le (by omega))
    rw [hall]
    exact he.tryRead hc

/-- A list of choices, where there is one for each element. -/
theorem forall₂_filterMap {α β : Type} {R : α → β → Prop} {g : α → Option β} {l : List α}
    (h : ∀ a ∈ l, ∃ b, g a = some b ∧ R a b) : l.Forall₂ R (l.filterMap g) := by
  induction l with
  | nil => exact .nil
  | cons a l ih =>
    obtain ⟨b, hb, hr⟩ := h a List.mem_cons_self
    rw [List.filterMap_cons_some hb]
    exact .cons hr (ih fun a ha => h a (List.mem_cons_of_mem _ ha))

/-- A change of the messages, sender by sender. -/
theorem filter_filterMap {α β : Type} (g : α → Option β) (l : List (ι × α)) (i : ι) :
    ((l.filterMap fun x => (g x.2).map (x.1, ·)).filter (·.1 = i)).map (·.2) =
      ((l.filter (·.1 = i)).map (·.2)).filterMap g := by
  induction l with
  | nil => rfl
  | cons x l ih =>
    cases hg : g x.2 with
    | none =>
      rw [List.filterMap_cons_none (by rw [hg]; rfl), ih, List.filter_cons]
      by_cases hx : x.1 = i <;> simp [hx, hg]
    | some b =>
      rw [List.filterMap_cons_some (by rw [hg]; rfl), List.filter_cons, List.filter_cons]
      by_cases hx : x.1 = i <;> simp [hx, hg, ih]

/-- **Frames.** In every run of stations that transmit with `send_frame` only, there are the frames
that each of them has sent, in this order; and every station takes frames that decode to frames that
the others have sent, those of one sender in their order, each at most once. -/
theorem frames_decode (hc : c.Lawful) {n n' : Network ι Waker} {pool : ι → List Ptr}
    {tr : List (Network ι Waker × NetworkAct ι Waker)} (hn : ∀ i, (pool i).Nodup)
    (hlt : ∀ i, (pool i).length < UInt32.size) (h0 : n.Started pool)
    (hr : (network Waker pool).Run n tr n') (hf : ∀ i, ∀ x ∈ stepsOf i tr, x.2.Framed c) :
    ∃ sent : ι → List F,
      (∀ i, ((stepsOf i tr).filterMap fun x => x.1.queued x.2).Forall₂
        (fun psdu f => c.Encodes f psdu) (sent i)) ∧
      ∀ j, ∃ heard : List (ι × F),
        ((stepsOf j tr).filterMap fun x => x.1.taken x.2).Forall₂
          (fun t x => t.Decodes c x.2) heard ∧
        (∀ x ∈ heard, x.1 ≠ j) ∧
        ∀ i, ((heard.filter (·.1 = i)).map (·.2)).Sublist (sent i) := by
  classical
  have henc := fun i => Full.Run.encodes (h0.1 i) (Network.run_station hr i) (hf i)
  -- The frame of a PSDU is chosen once, so that what is sent and what is heard have the same.
  let frameOf : List UInt8 → Option F := fun psdu =>
    if h : ∃ f, c.Encodes f psdu then some h.choose else none
  have hframe : ∀ psdu, (∃ f, c.Encodes f psdu) → ∃ f, frameOf psdu = some f ∧
      c.Encodes f psdu := fun psdu h => ⟨h.choose, dif_pos h, h.choose_spec⟩
  refine ⟨fun i => ((stepsOf i tr).filterMap fun x => x.1.queued x.2).filterMap frameOf,
    fun i => forall₂_filterMap fun psdu hp => hframe psdu (henc i psdu hp), fun j => ?_⟩
  obtain ⟨m, hm⟩ := taken_gives hn hlt h0 hr j
  have hsub := List.take_sublist m (heardBy j tr)
  have hqueued := fun i => ((hsub.filter (·.1 = i)).map (·.2)).trans (heard_queued hn hlt h0 hr i j)
  refine ⟨((heardBy j tr).take m).filterMap fun x => (frameOf x.2).map (x.1, ·), ?_, ?_, ?_⟩
  · -- Every frame that is heard was queued by its sender, so it is an encoded one.
    have hchosen := forall₂_filterMap (l := (heardBy j tr).take m)
      (R := fun x (y : ι × F) => c.Encodes y.2 x.2 ∧ x.2.length ≤ 125)
      (g := fun x => (frameOf x.2).map (x.1, ·)) ?_
    · exact forall₂_trans (fun t x y ht hx => ht.decodes hc hx.1 hx.2) hm hchosen
    · intro x hx
      have hmem := (hqueued x.1).subset
        (List.mem_map_of_mem (List.mem_filter.mpr ⟨hx, decide_eq_true rfl⟩))
      obtain ⟨f, hf, he⟩ := hframe x.2 (henc x.1 x.2 hmem)
      exact ⟨(x.1, f), by rw [hf]; rfl, he, length_heard hn hlt h0 hr j x (hsub.subset hx)⟩
  · intro y hy
    obtain ⟨x, hx, hxy⟩ := List.mem_filterMap.mp hy
    obtain ⟨f, -, rfl⟩ := Option.map_eq_some_iff.mp hxy
    have hether := Network.run_ether hr
    rw [h0.2] at hether
    exact Ether.sender_ne hether j x (hsub.subset hx)
  · intro i
    rw [filter_filterMap]
    exact (hqueued i).filterMap frameOf

end Arrive

section Acknowledgement

/-- Acknowledgements with their sequence number: the frame control, without flags and addresses, and
the number. -/
def Codec.acknowledgement : Codec UInt8 Unit where
  tryWrite seq s := if 3 ≤ s.length then (.ok 3, 2 :: 0 :: seq :: s.drop 3) else (.error (), s)
  tryRead
    | 2 :: 0 :: seq :: _ => .ok (seq, 3)
    | _ => .error ()
  bare := id

theorem Codec.acknowledgement_lawful : acknowledgement.Lawful := by
  refine ⟨?_, ?_, ?_⟩
  · intro f s
    simp only [acknowledgement]
    by_cases h : 3 ≤ s.length
    · rw [if_pos h]
      simp only [List.length_cons, List.length_drop]
      omega
    · rw [if_neg h]
  · intro f s n hn
    simp only [acknowledgement] at hn
    by_cases h : 3 ≤ s.length
    · rw [if_pos h] at hn
      cases hn
      exact h
    · rw [if_neg h] at hn
      cases hn
  · intro f s n hn
    simp only [acknowledgement] at hn ⊢
    by_cases h : 3 ≤ s.length
    · rw [if_pos h] at hn ⊢
      cases hn
      rfl
    · rw [if_neg h] at hn
      cases hn

/-- The acknowledgement of frame 7, in its buffer. -/
def Frame.seven : List UInt8 := 5 :: 2 :: 0 :: 7 :: List.replicate 124 0

/-- One station sends the acknowledgement, the other one receives it. -/
def Network.acknowledged :
    List (Network Bool Nat × NetworkAct Bool Nat) × Network Bool Nat :=
  Lts.exec Network.step Network.pair [
    .act true (.base (.call (.prepareTransmit 11 Frame.seven))), .act true (.base (.poll 0 0)),
    .act false (.base (.call (.prepareReceive 0))), .act false (.base (.poll 0 0)),
    .act false (.base (.call .receive)), .act false (.base .listen),
    .act true (.base (.sent 0)), .hear false ⟨3, 1, 200, 0, [5, 2, 0, 7]⟩,
    .act false (.base (.poll 1 0))]

set_option maxRecDepth 4000 in
theorem Frame.seven_encoded : Codec.acknowledgement.sendFrameCall 11 7 =
    .ok (.ok (.prepareTransmit 11 Frame.seven)) := rfl

theorem mem_stepsOf {tr : List (Network ι Waker × NetworkAct ι Waker)} {j : ι}
    {x : Full Waker × FullAct Waker} (hx : x ∈ stepsOf j tr) :
    ∃ y ∈ tr, y.2.atStation j = some x.2 := by
  obtain ⟨y, hy, h⟩ := List.mem_filterMap.mp hx
  obtain ⟨a, ha, rfl⟩ := Option.map_eq_some_iff.mp h
  exact ⟨y, hy, ha⟩

theorem Network.acknowledged_framed (i : Bool) :
    ∀ x ∈ stepsOf i Network.acknowledged.1, x.2.Framed Codec.acknowledgement := by
  intro x hx
  obtain ⟨y, hy, ha⟩ := mem_stepsOf hx
  have hmem := Lts.Run.mem_exec hy
  generalize y.2 = a at ha hmem
  generalize x.2 = b at ha ⊢
  simp only [List.mem_cons, List.not_mem_nil, or_false] at hmem
  rcases hmem with rfl | rfl | rfl | rfl | rfl | rfl | rfl | rfl | rfl <;>
    cases (Option.ite_none_right_eq_some.mp ha).2
  case inl => exact ⟨11, 7, _, Frame.seven_encoded, rfl⟩
  all_goals trivial

set_option maxRecDepth 4000 in
theorem frames_decode_seven :
    ((stepsOf false Network.acknowledged.1).filterMap fun x => x.1.taken x.2) =
        [.received [5, 2, 0, 7]] ∧
      ∃ sent : Bool → List UInt8,
        (∀ i, ((stepsOf i Network.acknowledged.1).filterMap fun x => x.1.queued x.2).Forall₂
          (fun psdu f => Codec.acknowledgement.Encodes f psdu) (sent i)) ∧
        ∀ j, ∃ heard : List (Bool × UInt8),
          ((stepsOf j Network.acknowledged.1).filterMap fun x => x.1.taken x.2).Forall₂
            (fun t x => t.Decodes Codec.acknowledgement x.2) heard ∧
          (∀ x ∈ heard, x.1 ≠ j) ∧
          ∀ i, ((heard.filter (·.1 = i)).map (·.2)).Sublist (sent i) := by
  refine ⟨rfl, ?_⟩
  have hr : (network Nat fun _ : Bool => [0, 1]).Run Network.pair Network.acknowledged.1
      Network.acknowledged.2 := .exec _ Network.step Network.pair _
  exact frames_decode Codec.acknowledgement_lawful (fun _ => by decide) (fun _ => by decide)
    Network.pair_started hr Network.acknowledged_framed

end Acknowledgement

end Mc1322x.Radio
