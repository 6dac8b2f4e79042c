import Mc1322x.Hal.I2cWire
import Mc1322x.Lib.Outline

/-!
# The I2C driver on the wire

Proof outlines of the driver's programs, blocking and async: whenever the bytes complete, the
handler runs and the task is polled, a transaction comes to `Wire.transact` with one STOP behind it
(`transaction_outline`). Between two operations the module is as `Between` says; in a run of reads,
the reception of the next byte is then already under way.
-/

namespace Mc1322x.I2c

open Mmio

variable {w : Wire} {mode : Mode} {Waker : Type}

/-! ## Assertions -/

/-- The module owns the bus, in transmit or receive mode, with `I2C_TXAK` set or not. -/
def Master.Owns (m : Master) (mtx txak : Bool) (request : Option Bool) (addressed : Bool) : Prop :=
  m.cr.men = true ∧ m.cr.msta = true ∧ m.cr.mtx = mtx ∧ m.cr.txak = txak ∧ m.request = request ∧
    m.addressed = addressed

/-- The bus is not owned, and nothing is on the wire. -/
def Rest (h : List Event) (m : Master) : Prop :=
  m.cr.msta = false ∧ m.transfer = none ∧ m.history = h

/-- The bus is owned, and nothing is on the wire. -/
def Held (mtx txak : Bool) (h : List Event) (m : Master) : Prop :=
  m.Owns mtx txak none true ∧ m.transfer = none ∧ m.history = h ∧ m.mal = false

/-- A byte has completed. -/
def Landed (mtx txak : Bool) (h : List Event) (event : Event) (m : Master) : Prop :=
  m.Owns mtx txak none true ∧ m.transfer = none ∧ m.history = h ++ [event] ∧
    (∃ old, m.rxak = event.rxak old) ∧ ∃ old, m.dr = event.dr old

/-- A byte has completed, and its flags have been cleared. -/
def Taken (mtx txak : Bool) (h : List Event) (event : Event) (m : Master) : Prop :=
  Landed mtx txak h event m ∧ m.mal = false

/-- A byte is on the wire, or has completed and raised `I2C_MIF`. -/
def OnWire (w : Wire) (x : Transfer) (mtx txak : Bool) (h : List Event) (m : Master) : Prop :=
  m.Owns mtx txak none true ∧ m.transfer = some x ∧ m.history = h ∧ m.mal = false ∨
    Landed mtx txak h (w.event txak h x) m ∧ m.mal = (w.event txak h x).lost ∧ m.mif = true

/-- A START is requested, and `h` is the history once the byte that may still be received has
completed. -/
def Selecting (w : Wire) (repeated : Bool) (h : List Event) (m : Master) : Prop :=
  (∃ addressed, m.Owns true false (some repeated) addressed) ∧
    (m.transfer = none ∧ m.history = h ∨
      m.transfer = some .receive ∧ ∃ h', m.history = h' ∧ h = h' ++ [w.event false h' .receive])

/-- The module between two operations: before the first one, after a write, and after a read. -/
def Between (w : Wire) : Option Bool → List Event → Master → Prop
  | none, h => Rest h
  | some false, h => Held true false h
  | some true, h => OnWire w .receive false false h

/-- How a function ends: with an error, the bus is released after `h`. -/
def Ends (h : List Event) (result : Except Error Unit) (P : Master → Prop) (m : Master) : Prop :=
  match result with
  | .ok () => P m
  | .error _ => Rest (h ++ [.stop]) m

/-- A function returns the result of `x` after its events, and `P` holds of the module then. -/
abbrev Did (h : List Event) (x : List Event × Except Error Unit) (P : List Event → Master → Prop)
    (r : Except Error Unit) (m : Master) : Prop :=
  r = x.2 ∧ Ends (h ++ x.1) r (P (h ++ x.1)) m

theorem Did.after (h before events : List Event) (result : Except Error Unit)
    (P : List Event → Master → Prop) :
    Did h (before ++ events, result) P = Did (h ++ before) (events, result) P := by
  unfold Did
  rw [List.append_assoc]

/-- No step beside the task breaks the assertion on the module. -/
abbrev Wire.Stable (w : Wire) (mode : Mode) (Waker : Type) (P : Master → Prop) : Prop :=
  (w.device mode Waker).Stable fun s => P s.master

/-- An outline with assertions on the module. -/
abbrev Wire.Outline (w : Wire) (mode : Mode) (Waker : Type) {α : Type} (Q : α → Master → Prop)
    (P : Master → Prop) (p : Prog bus α) : Prop :=
  (w.device mode Waker).Outline (fun a s => Q a s.master) (fun s => P s.master) p

theorem complete_of_none {m : Master} (h : m.transfer = none) : m.complete w = m := by
  unfold Master.complete
  rw [h]

theorem transfer_complete (m : Master) : (m.complete w).transfer = none := by
  unfold Master.complete
  split
  · assumption
  · rfl

theorem writeCr_mien (m : Master) (b : Bool) :
    m.writeCr { m.readCr with mien := b } = { m with cr := { m.readCr with mien := b } } := by
  unfold Master.writeCr Master.readCr
  cases m.cr.men <;> cases m.cr.msta <;> rfl

/-- An assertion is stable if it does not look at `I2C_MIEN` and `I2C_MBB`, and a completion keeps
it. -/
theorem stable_of {P : Master → Prop} (hc : ∀ m, P m → P (m.complete w))
    (hcr : ∀ m b, P m → P { m with cr := { m.readCr with mien := b } })
    (hmbb : ∀ m, P m → P { m with mbb := false }) : w.Stable mode Waker P := by
  intro e s s' hs he
  cases e with
  | complete =>
    cases he
    exact hc _ hs
  | release =>
    simp only [Wire.device] at he
    split at he
    · cases he
    · cases he
      exact hmbb _ hs
  | isr =>
    cases he
    show P (s.master.writeCr { s.master.readCr with mien := false })
    rw [writeCr_mien]
    exact hcr _ _ hs
  | context cx =>
    cases he
    exact hs

theorem stable_of_none {P : Master → Prop} (hn : ∀ m, P m → m.transfer = none)
    (hcr : ∀ m b, P m → P { m with cr := { m.readCr with mien := b } })
    (hmbb : ∀ m, P m → P { m with mbb := false }) : w.Stable mode Waker P :=
  stable_of (fun m h => by rwa [complete_of_none (hn m h)]) hcr hmbb

theorem Rest.stable (h : List Event) : w.Stable mode Waker (Rest h) :=
  stable_of_none (fun _ h => h.2.1) (fun _ _ h => h) fun _ h => h

theorem Held.stable (mtx txak : Bool) (h : List Event) : w.Stable mode Waker (Held mtx txak h) :=
  stable_of_none (fun _ h => h.2.1) (fun _ _ h => h) fun _ h => h

theorem Taken.stable (mtx txak : Bool) (h : List Event) (event : Event) :
    w.Stable mode Waker (Taken mtx txak h event) :=
  stable_of_none (fun _ h => h.1.2.1) (fun _ _ h => h) fun _ h => h

theorem OnWire.complete {x : Transfer} {mtx txak : Bool} {h : List Event} {m : Master}
    (hm : OnWire w x mtx txak h m) : OnWire w x mtx txak h (m.complete w) := by
  obtain ⟨⟨hmen, hmsta, hmtx, htxak, hown⟩, ht, rfl, hmal⟩ | hm := hm
  · right
    unfold Master.complete
    simp only [ht, htxak, hmal, Bool.false_or]
    exact ⟨⟨⟨hmen, hmsta, hmtx, htxak, hown⟩, rfl, rfl, ⟨_, rfl⟩, ⟨_, rfl⟩⟩, trivial, trivial⟩
  · rw [complete_of_none hm.1.2.1]
    exact .inr hm

theorem OnWire.stable (x : Transfer) (mtx txak : Bool) (h : List Event) :
    w.Stable mode Waker (OnWire w x mtx txak h) :=
  stable_of (fun _ h => h.complete) (fun _ _ h => h) fun _ h => h

theorem Selecting.complete {repeated : Bool} {h : List Event} {m : Master}
    (hm : Selecting w repeated h m) :
    Selecting w repeated h (m.complete w) ∧ (m.complete w).mal = m.mal := by
  obtain ⟨⟨addressed, hmen, hmsta, hmtx, htxak, hown⟩, ht | ⟨ht, h', rfl, rfl⟩⟩ := hm
  · rw [complete_of_none ht.1]
    exact ⟨⟨⟨addressed, hmen, hmsta, hmtx, htxak, hown⟩, .inl ht⟩, rfl⟩
  · unfold Master.complete
    simp only [ht, htxak]
    refine ⟨⟨⟨addressed, hmen, hmsta, hmtx, htxak, hown⟩, .inl ⟨rfl, rfl⟩⟩, ?_⟩
    exact Bool.or_false m.mal

theorem Selecting.stable (repeated : Bool) (h : List Event) :
    w.Stable mode Waker (Selecting w repeated h) :=
  stable_of (fun _ h => h.complete.1) (fun _ _ h => h) fun _ h => h

theorem Selecting.stable_mal (repeated : Bool) (h : List Event) :
    w.Stable mode Waker fun m => Selecting w repeated h m ∧ m.mal = false :=
  stable_of (fun _ h => ⟨h.1.complete.1, h.1.complete.2.trans h.2⟩) (fun _ _ h => h) fun _ h => h

theorem Between.stable (prev : Option Bool) (h : List Event) :
    w.Stable mode Waker (Between w prev h) := by
  match prev with
  | none => exact Rest.stable h
  | some false => exact Held.stable true false h
  | some true => exact OnWire.stable .receive false false h

/-! ## Accesses -/

section Accesses

variable {P : Master → Prop}

theorem readCr_outline {Q : Cr → Master → Prop}
    (hP : w.Stable mode Waker P) (hQ : ∀ v, w.Stable mode Waker (Q v))
    (h : ∀ m, P m → Q m.readCr m) :
    w.Outline mode Waker Q P readCr :=
  .ofRead (A := w.device mode Waker) (r := In.cr) (Q := fun v s => Q v s.master) hP hQ
    fun s => h s.master

theorem readSr_outline {Q : Sr → Master → Prop}
    (hP : w.Stable mode Waker P) (hQ : ∀ v, w.Stable mode Waker (Q v))
    (h : ∀ m, P m → Q m.readSr m) :
    w.Outline mode Waker Q P readSr :=
  .ofRead (A := w.device mode Waker) (r := In.sr) (Q := fun v s => Q v s.master) hP hQ
    fun s => h s.master

theorem readDr_outline {Q : UInt8 → Master → Prop}
    (hP : w.Stable mode Waker P) (hQ : ∀ v, w.Stable mode Waker (Q v))
    (h : ∀ m, P m → Q m.readDr.1 m.readDr.2) :
    w.Outline mode Waker Q P readDr :=
  .ofRead (A := w.device mode Waker) (r := In.dr) (Q := fun v s => Q v s.master) hP hQ
    fun s => h s.master

theorem writeCr_outline {Q : Master → Prop} {v : Cr}
    (hP : w.Stable mode Waker P) (hQ : w.Stable mode Waker Q) (h : ∀ m, P m → Q (m.writeCr v)) :
    w.Outline mode Waker (fun _ => Q) P (writeCr v) :=
  .ofWrite (o := Out.cr v) hP hQ fun s => h s.master

theorem writeSr_outline {Q : Master → Prop} {v : Sr}
    (hP : w.Stable mode Waker P) (hQ : w.Stable mode Waker Q) (h : ∀ m, P m → Q (m.writeSr v)) :
    w.Outline mode Waker (fun _ => Q) P (writeSr v) :=
  .ofWrite (o := Out.sr v) hP hQ fun s => h s.master

theorem writeDr_outline {Q : Master → Prop} {byte : UInt8}
    (hP : w.Stable mode Waker P) (hQ : w.Stable mode Waker Q)
    (h : ∀ m, P m → Q (m.writeDr w byte)) :
    w.Outline mode Waker (fun _ => Q) P (writeDr byte) :=
  .ofWrite (o := Out.dr byte) hP hQ fun s => h s.master

/-- `I2C_CR` is read, and written back with a change: the handler may run in between. -/
theorem modifyCr_outline {Q : Master → Prop} {f : Cr → Cr} (φ : Cr → Prop)
    (hP : w.Stable mode Waker P) (hQ : w.Stable mode Waker Q) (hr : ∀ m, P m → φ m.readCr)
    (hw : ∀ v m, φ v → P m → Q (m.writeCr (f v))) :
    w.Outline mode Waker (fun _ => Q) P
      (do
        let cr ← readCr
        writeCr (f cr)) := by
  have hread : w.Outline mode Waker (fun v m => φ v ∧ P m) P readCr :=
    readCr_outline hP (fun v => (AsyncDevice.Stable.const _).and hP) fun m hm => ⟨hr m hm, hm⟩
  refine hread.bind fun v => AsyncDevice.Outline.of_pure ?_
  intro hv
  exact writeCr_outline hP hQ fun m hm => hw v m hv hm

end Accesses

/-! ## Stopping -/

/-- In the recovery that `stop` makes: the byte on the wire has been cut off. -/
def Stopping (men : Bool) (H : List Event → Prop) (m : Master) : Prop :=
  m.cr.men = men ∧ m.cr.msta = true ∧ m.transfer = none ∧ m.addressed = false ∧ H m.history

theorem Stopping.stable (men : Bool) (H : List Event → Prop) :
    w.Stable mode Waker (Stopping men H) :=
  stable_of_none (fun _ h => h.2.2.1) (fun _ _ h => h) fun _ h => h

/-- The bus has been released by a STOP. -/
def Stopped (H : List Event → Prop) (m : Master) : Prop := ∃ h, H h ∧ Rest (h ++ [.stop]) m

theorem Stopped.stable (H : List Event → Prop) :
    w.Stable mode Waker (Stopped H) :=
  stable_of_none (fun _ ⟨_, _, h⟩ => h.2.1) (fun _ _ h => h) fun _ h => h

/-- `stop` makes one STOP, and nothing else on the bus. -/
theorem stop_outline {P : Master → Prop} {H : List Event → Prop}
    (hP : w.Stable mode Waker P)
    (h : ∀ m, P m → m.cr.men = true ∧ m.cr.msta = true ∧ H m.history) :
    w.Outline mode Waker (fun _ => Stopped H) P stop := by
  refine (writeCr_outline hP (Stopping.stable false H) ?_).bind fun _ => ?_
  · intro m hm
    obtain ⟨hmen, hmsta, hH⟩ := h m hm
    simp [Master.writeCr, Stopping, hmen, hmsta, hH]
  refine (writeCr_outline (Stopping.stable false H) (Stopping.stable true H) ?_).bind fun _ => ?_
  · rintro m ⟨hmen, hmsta, ht, ha, hH⟩
    simp [Master.writeCr, Stopping, hmen, hmsta, ht, ha, hH]
  refine (readDr_outline (Stopping.stable true H) (fun _ => Stopping.stable true H) ?_).bind
    fun _ => ?_
  · rintro m ⟨hmen, hmsta, ht, ha, hH⟩
    simp [Master.readDr, Stopping, hmen, hmsta, ht, ha, hH]
  refine writeCr_outline (Stopping.stable true H) (Stopped.stable H) ?_
  rintro m ⟨hmen, hmsta, ht, ha, hH⟩
  refine ⟨m.history, hH, ?_⟩
  simp [Master.writeCr, Rest, hmen, hmsta]

/-- With nothing on the wire the history before the STOP is known. -/
theorem stop_held {P : Master → Prop} {h : List Event}
    (hP : w.Stable mode Waker P)
    (hm : ∀ m, P m → m.cr.men = true ∧ m.cr.msta = true ∧ m.history = h) :
    w.Outline mode Waker (fun _ => Rest (h ++ [.stop])) P stop := by
  refine (stop_outline (H := (· = h)) hP hm).post ?_
  rintro _ s ⟨_, rfl, hr⟩
  exact hr

theorem fail_outline {P P' : Master → Prop} {h : List Event} (e : Error)
    (hP : w.Stable mode Waker P)
    (hm : ∀ m, P m → m.cr.men = true ∧ m.cr.msta = true ∧ m.history = h) :
    w.Outline mode Waker (fun r m => r = .error e ∧ Ends h r P' m) P
      (do
        stop
        return (.error e : Except Error Unit)) :=
  (stop_held hP hm).bind fun _ => .ofRet (Rest.stable _) fun _ hs => ⟨rfl, hs⟩

/-! ## Waiting -/

/-- The status that a wait for the byte ends with. -/
def Event.status (event : Event) : ByteStatus :=
  if event.lost then .arbitrationLost else .completed

section Waiting

variable {x : Transfer} {mtx txak : Bool} {h : List Event}

/-- A poll is pending while the byte is on the wire. -/
theorem pollByteStatus_onWire {m : Master} (hm : OnWire w x mtx txak h m) :
    pollByteStatus m = (none, m) ∧ m.transfer ≠ none ∨
      ∃ m', pollByteStatus m = (some (w.event txak h x).status, m') ∧
        Taken mtx txak h (w.event txak h x) m' := by
  obtain ⟨-, ht, -, hmal⟩ | ⟨hl, hmal, hmif⟩ := hm
  · left
    simp [pollByteStatus, Master.readSr, ht, hmal]
  · right
    have ht := hl.2.1
    cases hlost : (w.event txak h x).lost with
    | true =>
      rw [hlost] at hmal
      refine ⟨{ m with mal := false }, ?_, hl, rfl⟩
      simp [pollByteStatus, Master.readSr, Master.writeSr, Event.status, hmal, hlost]
    | false =>
      rw [hlost] at hmal
      refine ⟨{ m with mif := false, mal := false }, ?_, hl, rfl⟩
      simp [pollByteStatus, Master.readSr, Master.writeSr, Event.status, hmal, hlost, hmif, ht]

theorem pollWait_of_pending {s : Shared Waker} (h : pollByteStatus s.master = (none, s.master)) :
    (pollWait mode s).1 = none ∧ ((pollWait mode s).2.master = s.master ∨
      (pollWait mode s).2.master =
        { s.master with cr := { s.master.readCr with mien := true } }) := by
  unfold pollWait
  rw [h]
  cases mode with
  | blocking => exact ⟨rfl, .inl rfl⟩
  | async => exact ⟨rfl, .inr (writeCr_mien _ _)⟩

theorem pollWait_of_ready {s : Shared Waker} {r : ByteStatus} {m : Master}
    (h : pollByteStatus s.master = (some r, m)) :
    pollWait mode s = (some r, { s with master := m }) := by
  unfold pollWait
  rw [h]

theorem waits_byte : (w.device mode Waker).Waits Wait.byte
    (fun s => OnWire w x mtx txak h s.master)
    (fun r s => r = (w.event txak h x).status ∧ Taken mtx txak h (w.event txak h x) s.master) where
  stable := OnWire.stable x mtx txak h
  pending armed s s' hs hp := by
    change pollWait mode s = (none, s') at hp
    obtain ⟨hpoll, -⟩ | ⟨m', hpoll, -⟩ := pollByteStatus_onWire hs
    · have hm : (pollWait mode s).2.master = _ ∨ (pollWait mode s).2.master = _ :=
        (pollWait_of_pending hpoll).2
      rw [hp] at hm
      obtain hm | hm := hm <;>
      · simp only at hm
        rw [hm]
        exact hs
    · rw [pollWait_of_ready hpoll] at hp
      cases hp
  resolved armed s s' r hs hp := by
    change pollWait mode s = (some r, s') at hp
    obtain ⟨hpoll, -⟩ | ⟨m', hpoll, hl⟩ := pollByteStatus_onWire hs
    · have hm : (pollWait mode s).1 = none := (pollWait_of_pending hpoll).1
      rw [hp] at hm
      cases hm
    · rw [pollWait_of_ready hpoll] at hp
      cases hp
      exact ⟨rfl, hl⟩
  ends armed s hs := by
    refine ⟨[.complete], { s with master := s.master.complete w }, rfl, ?_⟩
    change (pollWait mode { s with master := s.master.complete w }).1 ≠ none
    -- The completion is the event that ends the wait: it sets the flag that the poll looks at.
    obtain ⟨-, ht⟩ | ⟨m', hpoll, -⟩ := pollByteStatus_onWire hs.complete
    · exact (ht (transfer_complete s.master)).elim
    · rw [pollWait_of_ready (s := { s with master := s.master.complete w }) hpoll]
      nofun

theorem waitByte_outline : w.Outline mode Waker
    (fun r m => r = (if (w.event txak h x).lost then .error .arbitrationLost else .ok ()) ∧
      Ends (h ++ [w.event txak h x]) r (Taken mtx txak h (w.event txak h x)) m)
    (OnWire w x mtx txak h) waitByte := by
  have hst : w.Stable mode Waker (Taken mtx txak h (w.event txak h x)) := Taken.stable _ _ _ _
  have hwaits : (w.device mode Waker).Waits Wait.byte (fun s => OnWire w x mtx txak h s.master) _ :=
    waits_byte
  have hawait := AsyncDevice.Outline.ofWait (A := w.device mode Waker) (w := Wait.byte)
    (OnWire.stable x mtx txak h) (fun r => (AsyncDevice.Stable.const _).and hst) (fun _ h => h)
    hwaits
  refine hawait.bind fun r => AsyncDevice.Outline.of_pure ?_
  rintro rfl
  cases hlost : (w.event txak h x).lost with
  | true =>
    simp only [Event.status, hlost, ↓reduceIte]
    exact fail_outline _ hst fun m hm => ⟨hm.1.1.1, hm.1.1.2.1, hm.1.2.2.1⟩
  | false =>
    simp only [Event.status, hlost, Bool.false_eq_true, ↓reduceIte]
    exact .ofRet hst fun s hs => ⟨rfl, hs⟩

theorem Taken.held {event : Event} {m : Master} (hm : Taken mtx txak h event m) :
    Held mtx txak (h ++ [event]) m :=
  ⟨hm.1.1, hm.1.2.1, hm.1.2.2.1, hm.2⟩

/-- After a byte that the master sends. -/
theorem awaitAck_outline {source : NoAcknowledgeSource} (nacked : Bool)
    (hr : ∀ old, (w.event txak h x).rxak old = nacked)
    (hres : (w.event txak h x).result =
      if (w.event txak h x).lost then .error .arbitrationLost
      else if nacked then .error (.noAcknowledge source) else .ok ()) :
    w.Outline mode Waker (Did h ([w.event txak h x], (w.event txak h x).result) (Held mtx txak))
      (OnWire w x mtx txak h) (awaitAck source) := by
  have hst : w.Stable mode Waker (Held mtx txak (h ++ [w.event txak h x])) := Held.stable _ _ _
  refine waitByte_outline.bind fun r => AsyncDevice.Outline.of_pure ?_
  rintro rfl
  rw [hres]
  cases hlost : (w.event txak h x).lost with
  | true =>
    simp only [↓reduceIte]
    exact .ofRet (Rest.stable _) fun s hs => ⟨rfl, hs⟩
  | false =>
    simp only [Bool.false_eq_true, ↓reduceIte]
    have hread : w.Outline mode Waker
        (fun v m => v.rxak = nacked ∧ Held mtx txak (h ++ [w.event txak h x]) m)
        (Taken mtx txak h (w.event txak h x)) readSr := by
      refine readSr_outline (Taken.stable _ _ _ _)
        (fun v => (AsyncDevice.Stable.const _).and hst) ?_
      intro m hm
      obtain ⟨old, hold⟩ := hm.1.2.2.2.1
      exact ⟨hold.trans (hr old), hm.held⟩
    refine hread.bind fun v => AsyncDevice.Outline.of_pure ?_
    intro hv
    cases nacked with
    | true =>
      simp only [hv, ↓reduceIte]
      exact fail_outline _ hst fun m hm => ⟨hm.1.1, hm.1.2.1, hm.2.2.1⟩
    | false =>
      simp only [hv, Bool.false_eq_true, ↓reduceIte]
      exact .ofRet hst fun s hs => ⟨rfl, hs⟩

end Waiting

/-! ## Starting -/

section Starting

variable {h : List Event} {repeated : Bool}

theorem clearStatus_outline : w.Outline mode Waker
    (fun _ m => Selecting w repeated h m ∧ m.mal = false) (Selecting w repeated h)
    clearStatus := by
  refine (readSr_outline (Selecting.stable repeated h) (fun _ => Selecting.stable repeated h)
    fun _ hm => hm).bind fun v => ?_
  refine writeSr_outline (Selecting.stable _ _) (Selecting.stable_mal _ _) fun m hm => ⟨hm, ?_⟩
  simp [Master.writeSr]

theorem writeDr_selecting {m : Master} (byte : UInt8) (hm : Selecting w repeated h m)
    (hmal : m.mal = false) :
    OnWire w (.address repeated byte) true false h (m.writeDr w byte) := by
  obtain ⟨⟨⟨addressed, hmen, hmsta, hmtx, htxak, hreq, haddr⟩, ht⟩, hmal'⟩ := hm.complete
  obtain ⟨⟨_, hmen', hmsta', hmtx', -, hreq', -⟩, -⟩ := hm
  have hhist : (m.complete w).history = h := by
    obtain ⟨-, hh⟩ | ⟨hn, -⟩ := ht
    · exact hh
    · rw [transfer_complete] at hn
      cases hn
  left
  simp only [Master.writeDr, hmen', hmsta', hmtx', hreq', Bool.and_self, ↓reduceIte]
  exact ⟨⟨hmen, hmsta, hmtx, htxak, rfl, rfl⟩, trivial, hhist, hmal'.trans hmal⟩

/-- The address byte, with the flags cleared before it. -/
theorem select_outline (byte : UInt8) : w.Outline mode Waker
    (Did h ([w.event false h (.address repeated byte)],
      (w.event false h (.address repeated byte)).result) (Held true false))
    (Selecting w repeated h)
    (do
      clearStatus
      writeDr byte
      awaitAck .address) := by
  refine clearStatus_outline.bind fun _ => ?_
  refine (writeDr_outline (Selecting.stable_mal _ _) (OnWire.stable _ _ _ _)
    fun m hm => writeDr_selecting byte hm.1 hm.2).bind fun _ => ?_
  refine awaitAck_outline (w.reply h byte ≠ .ack) (fun _ => rfl) ?_
  cases hr : w.reply h byte <;>
    simp [Wire.event, Event.result, Event.error, Event.lost, hr]

theorem waits_busFree : (w.device mode Waker).Waits Wait.busFree
    (fun s => Rest h s.master) (fun _ s => Rest h s.master) where
  stable := Rest.stable h
  pending armed s s' hs hp := by
    have hsame : s = s' := congrArg Prod.snd hp
    exact hsame ▸ hs
  resolved armed s s' r hs hp := by
    have hsame : s = s' := congrArg Prod.snd hp
    exact hsame ▸ hs
  ends armed s hs := by
    refine ⟨[.release], { s with master.mbb := false }, ?_, ?_⟩
    · simp [AsyncDevice.envs, Wire.device, hs.1]
    · simp [Wire.device]

theorem start_outline (address : UInt8) (isRead : Bool) : w.Outline mode Waker
    (Did h (w.begun address none h isRead) (Held true false)) (Rest h) (start address isRead) := by
  have hfree := AsyncDevice.Outline.ofWait (A := w.device mode Waker) (w := Wait.busFree)
    (Rest.stable h) (fun _ => Rest.stable h) (fun _ h => h) waits_busFree
  refine hfree.bind fun _ => ?_
  refine (writeCr_outline (Rest.stable h) (Selecting.stable false h) ?_).bind fun _ => ?_
  · rintro m ⟨hmsta, ht, hh⟩
    simp [Master.writeCr, Selecting, Master.Owns, hmsta, ht, hh]
  · have hb : w.begun address none h isRead =
        ([w.event false h (.address false (addressByte address isRead))],
          (w.event false h (.address false (addressByte address isRead))).result) := by
      simp [Wire.begun]
    rw [hb]
    exact select_outline _

theorem Between.owns {prev : Bool} {m : Master} (hm : Between w (some prev) h m) :
    ∃ mtx, m.Owns mtx false none true := by
  cases prev with
  | false => exact ⟨_, hm.1⟩
  | true =>
    obtain hm | hm := hm
    · exact ⟨_, hm.1⟩
    · exact ⟨_, hm.1.1⟩

/-- The repeated START is requested while the next byte may still be received. -/
theorem Between.selecting {prev : Bool} {m : Master} {v : Cr} (hm : Between w (some prev) h m)
    (hmen : v.men = true) (hmsta : v.msta = true) (htxak : v.txak = false) :
    Selecting w true (h ++ if prev then [w.event false h .receive] else [])
      (m.writeCr { v with mtx := true, rsta := true }) := by
  obtain ⟨mtx, hmen', hmsta', -⟩ := hm.owns
  have howns : (m.writeCr { v with mtx := true, rsta := true }).Owns true false (some true)
      m.addressed := by
    simp [Master.writeCr, Master.Owns, hmen, hmsta, htxak, hmen', hmsta']
  have hkeeps : (m.writeCr { v with mtx := true, rsta := true }).transfer = m.transfer ∧
      (m.writeCr { v with mtx := true, rsta := true }).history = m.history := by
    simp [Master.writeCr, hmen, hmsta, hmen', hmsta']
  refine ⟨⟨_, howns⟩, ?_⟩
  rw [hkeeps.1, hkeeps.2]
  cases prev with
  | false =>
    obtain ⟨-, ht, hh, -⟩ := hm
    exact .inl ⟨ht, by simp [hh]⟩
  | true =>
    obtain ⟨-, ht, hh, -⟩ | ⟨⟨-, ht, hh, -⟩, -⟩ := hm
    · exact .inr ⟨ht, h, hh, rfl⟩
    · exact .inl ⟨ht, hh⟩

theorem restart_outline (address : UInt8) {prev isRead : Bool} (hne : prev ≠ isRead) :
    w.Outline mode Waker (Did h (w.begun address (some prev) h isRead) (Held true false))
      (Between w (some prev) h) (restart address isRead) := by
  refine (modifyCr_outline (fun v => v.men = true ∧ v.msta = true ∧ v.txak = false)
    (Between.stable (some prev) h) (Selecting.stable _ _) ?_
    fun v m hv hm => hm.selecting hv.1 hv.2.1 hv.2.2).bind fun _ => ?_
  · intro m hm
    obtain ⟨mtx, hmen, hmsta, -, htxak, -⟩ := hm.owns
    exact ⟨hmen, hmsta, htxak⟩
  have hb : w.begun address (some prev) h isRead =
      ((if prev then [w.event false h .receive] else []) ++
        [w.event false (h ++ if prev then [w.event false h .receive] else [])
          (.address true (addressByte address isRead))],
        (w.event false (h ++ if prev then [w.event false h .receive] else [])
          (.address true (addressByte address isRead))).result) := by
    simp [Wire.begun, hne]
  rw [hb, Did.after]
  exact select_outline _

end Starting

section Transfers

variable {h : List Event}

theorem transmitData_outline (data : List UInt8) : w.Outline mode Waker
    (Did h (w.sendAll h data) (Held true false)) (Held true false h) (transmitData data) := by
  -- By induction on the bytes: the history in front grows by one each time.
  induction data generalizing h with
  | nil =>
    refine .ofRet (Held.stable _ _ _) fun s hs => ⟨rfl, ?_⟩
    simpa [Wire.sendAll, Ends] using hs
  | cons byte data ih =>
    refine (writeDr_outline (Held.stable true false h) (OnWire.stable (.data byte) true false h)
      ?_).bind fun _ => ?_
    · rintro m ⟨⟨hmen, hmsta, hmtx, htxak, hreq, haddr⟩, ht, hh, hmal⟩
      left
      simp only [Master.writeDr, complete_of_none ht, hmen, hmsta, hmtx, hreq, Bool.and_self,
        ↓reduceIte]
      exact ⟨⟨hmen, hmsta, hmtx, htxak, rfl, rfl⟩, trivial, hh, hmal⟩
    refine AsyncDevice.Outline.bind (awaitAck_outline (w.reply h byte ≠ .ack) (fun _ => rfl) ?_)
      fun r => AsyncDevice.Outline.of_pure ?_
    · cases hr : w.reply h byte <;>
        simp [Wire.event, Event.result, Event.error, Event.lost, hr]
    rintro rfl
    cases hr : (w.event false h (.data byte)).result with
    | error e =>
      simp only [Wire.sendAll, hr]
      exact .ofRet (Rest.stable _) fun s hs => ⟨rfl, hs⟩
    | ok _ =>
      have hrest := ih (h := h ++ [w.event false h (.data byte)])
      rw [← Did.after] at hrest
      simp only [Wire.sendAll, hr]
      exact hrest

/-- Reading a byte starts the reception of the next one. -/
theorem readByte_outline (txak : Bool) : w.Outline mode Waker
    (fun v m => v = w.data h ∧ OnWire w .receive false txak (h ++ [w.event false h .receive]) m)
    (Taken false txak h (w.event false h .receive)) readDr := by
  refine readDr_outline (Taken.stable _ _ _ _)
    (fun v => (AsyncDevice.Stable.const _).and (OnWire.stable _ _ _ _)) ?_
  rintro m ⟨⟨⟨hmen, hmsta, hmtx, htxak, hreq, haddr⟩, ht, hh, -, old, hdr⟩, hmal⟩
  refine ⟨hdr, .inl ?_⟩
  simp [Master.readDr, Master.Owns, hmen, hmsta, hmtx, htxak, hreq, haddr, ht, hh, hmal]

/-- `I2C_TXAK` is set between two bytes. -/
theorem setTxak_outline {event : Event} : w.Outline mode Waker
    (fun _ => Taken false true h event) (Taken false false h event)
    (do
      let cr ← readCr
      writeCr { cr with txak := true }) := by
  refine modifyCr_outline
    (fun v => v.men = true ∧ v.msta = true ∧ v.mtx = false ∧ v.rsta = false)
    (Taken.stable _ _ _ _) (Taken.stable _ _ _ _)
    (fun m hm => ⟨hm.1.1.1, hm.1.1.2.1, hm.1.1.2.2.1, rfl⟩) ?_
  rintro v m ⟨hmen, hmsta, hmtx, hrsta⟩ ⟨⟨⟨hmen', hmsta', -, -, hreq, haddr⟩, hl⟩, hmal⟩
  have hw : m.writeCr { v with txak := true } = { m with cr := { v with txak := true } } := by
    simp [Master.writeCr, hmen, hmsta, hrsta, hmen', hmsta']
  rw [hw]
  exact ⟨⟨⟨hmen, hmsta, hmtx, rfl, hreq, haddr⟩, hl⟩, hmal⟩

/-- After the loop: the next byte is being received, and is not to be acknowledged behind the last
byte of the transaction. -/
theorem receiveLoop_outline (nackTail : Bool) (buf : List UInt8) : w.Outline mode Waker
    (fun r m => r = ((w.recvAll h buf).2, .ok ()) ∧
      OnWire w .receive false (nackTail && !buf.isEmpty) (h ++ (w.recvAll h buf).1) m)
    (OnWire w .receive false false h) (receiveLoop nackTail buf) := by
  induction buf generalizing h with
  | nil =>
    refine .ofRet (OnWire.stable _ _ _ _) fun s hs => ⟨rfl, ?_⟩
    simpa [Wire.recvAll] using hs
  | cons byte buf ih =>
    refine waitByte_outline.bind fun r => AsyncDevice.Outline.of_pure ?_
    rintro rfl
    -- The rest of the loop, from the reading of the byte on.
    have hrest : w.Outline mode Waker
        (fun r m => r = ((w.recvAll h (byte :: buf)).2, .ok ()) ∧
          OnWire w .receive false nackTail (h ++ (w.recvAll h (byte :: buf)).1) m)
        (Taken false (nackTail && buf.isEmpty) h (w.event false h .receive))
        (readDr >>= fun byte => receiveLoop nackTail buf >>= fun r => pure (byte :: r.1, r.2)) := by
      refine (readByte_outline _).bind fun v => AsyncDevice.Outline.of_pure ?_
      rintro rfl
      have hloop : w.Outline mode Waker
          (fun r m => r = ((w.recvAll (h ++ [w.event false h .receive]) buf).2, .ok ()) ∧
            OnWire w .receive false nackTail (h ++ (w.recvAll h (byte :: buf)).1) m)
          (OnWire w .receive false (nackTail && buf.isEmpty) (h ++ [w.event false h .receive]))
          (receiveLoop nackTail buf) := by
        cases buf with
        | nil =>
          refine .ofRet (OnWire.stable _ _ _ _) fun s hs => ⟨rfl, ?_⟩
          simpa [Wire.recvAll] using hs
        | cons second buf =>
          have hih := ih (h := h ++ [w.event false h .receive])
          rw [← List.append_cons] at hih
          simp only [List.isEmpty_cons, Bool.and_false, Bool.not_false, Bool.and_true] at hih ⊢
          exact hih
      refine hloop.bind fun r => AsyncDevice.Outline.of_pure ?_
      rintro rfl
      exact .ofRet (OnWire.stable _ _ _ _) fun s hs => ⟨rfl, hs⟩
    simp only [List.isEmpty_cons, Bool.not_false, Bool.and_true]
    cases ht : nackTail && buf.isEmpty with
    | false =>
      rw [ht] at hrest
      exact hrest
    | true =>
      rw [ht] at hrest
      exact setTxak_outline.bind fun _ => hrest

/-- The module after an operation. At the end of the transaction nothing is received behind a
buffer that is not empty. -/
def After (w : Wire) (isLast : Bool) (operation : Operation) (h : List Event) : Master → Prop :=
  if isLast && operation.isRead && !operation.buffer.isEmpty then Held false true h
  else Between w (some operation.isRead) h

theorem After.stable (isLast : Bool) (operation : Operation) (h : List Event) :
    w.Stable mode Waker (After w isLast operation h) := by
  unfold After
  split
  · exact Held.stable _ _ _
  · exact Between.stable _ _

theorem Ends.stable {P : Master → Prop} {result : Except Error Unit}
    (hP : w.Stable mode Waker P) : w.Stable mode Waker (Ends h result P) := by
  cases result with
  | ok _ => exact hP
  | error e => exact Rest.stable _

theorem recvAll_isEmpty (buf : List UInt8) : (w.recvAll h buf).2.isEmpty = buf.isEmpty := by
  cases buf <;> rfl

theorem performed_open {isLast : Bool} {buf : List UInt8}
    (hlast : (isLast && !buf.isEmpty) = false) :
    w.performed isLast false h (.read buf) =
      ((w.recvAll h buf).1, .read (w.recvAll h buf).2, .ok ()) := by
  cases isLast with
  | false => rfl
  | true =>
    cases buf with
    | nil => rfl
    | cons byte buf => cases hlast

theorem performed_nack {isLast : Bool} {buf : List UInt8}
    (hlast : (isLast && !buf.isEmpty) = true) :
    w.performed isLast false h (.read buf) =
      ((w.recvAll h buf).1 ++ [w.event true (h ++ (w.recvAll h buf).1) .receive],
        .read (w.recvAll h buf).2,
        (w.event true (h ++ (w.recvAll h buf).1) .receive).result) := by
  cases isLast with
  | false => cases hlast
  | true =>
    cases buf with
    | nil => cases hlast
    | cons byte buf => rfl

theorem result_receive (txak : Bool) (h : List Event) : (w.event txak h .receive).result =
    if (w.event txak h .receive).lost then .error .arbitrationLost else .ok () := by
  cases hl : txak && w.nackLost h <;> simp [Wire.event, Event.result, Event.error, Event.lost, hl]

/-- The transfer of an operation has been made, or has failed. -/
def Performed (w : Wire) (isLast : Bool) (h : List Event) (operation : Operation)
    (r : Operation × Except Error Unit) (m : Master) : Prop :=
  r = (w.performed isLast false h operation).2 ∧
    Ends (h ++ (w.performed isLast false h operation).1)
      (w.performed isLast false h operation).2.2
      (After w isLast operation (h ++ (w.performed isLast false h operation).1)) m

theorem Performed.stable (isLast : Bool) (operation : Operation)
    (r : Operation × Except Error Unit) :
    w.Stable mode Waker (Performed w isLast h operation r) :=
  (AsyncDevice.Stable.const _).and (Ends.stable (After.stable _ _ _))

theorem continueReceive_outline (isLast : Bool) (buf : List UInt8) : w.Outline mode Waker
    (fun r => Performed w isLast h (.read buf) (.read r.1, r.2)) (OnWire w .receive false false h)
    (continueReceive isLast buf) := by
  refine (receiveLoop_outline isLast buf).bind fun r => AsyncDevice.Outline.of_pure ?_
  rintro rfl
  simp only [recvAll_isEmpty, Performed]
  -- Only the end of a last read with a buffer leaves no byte on the wire.
  have hafter : ∀ h, After w isLast (.read buf) h =
      if isLast && !buf.isEmpty then Held false true h else OnWire w .receive false false h := by
    intro h
    simp only [After, Operation.isRead, Operation.buffer, Bool.and_true]
    rfl
  cases hlast : isLast && !buf.isEmpty with
  | false =>
    simp only [performed_open hlast, hafter, hlast, Bool.false_eq_true, ↓reduceIte]
    exact .ofRet (OnWire.stable _ _ _ _) fun s hs => ⟨rfl, hs⟩
  | true =>
    simp only [performed_nack hlast, hafter, hlast, ↓reduceIte, ← List.append_assoc]
    refine waitByte_outline.bind fun r => AsyncDevice.Outline.of_pure ?_
    rintro rfl
    rw [← result_receive]
    refine .ofRet (Ends.stable (Taken.stable _ _ _ _)) fun s hs => ⟨rfl, ?_⟩
    cases hr : (w.event true (h ++ (w.recvAll h buf).1) .receive).result with
    | ok _ =>
      rw [hr] at hs
      exact Taken.held hs
    | error e =>
      rw [hr] at hs
      exact hs

theorem receiveData_outline (isLast : Bool) (buf : List UInt8) : w.Outline mode Waker
    (fun r => Performed w isLast h (.read buf) (.read r.1, r.2)) (Held true false h)
    (receiveData isLast buf) := by
  refine (modifyCr_outline
    (fun v => v.men = true ∧ v.msta = true ∧ v.txak = false ∧ v.rsta = false)
    (Held.stable true false h) (Held.stable false false h)
    (fun m hm => ⟨hm.1.1, hm.1.2.1, hm.1.2.2.2.1, rfl⟩) ?_).bind fun _ => ?_
  · rintro v m ⟨hmen, hmsta, htxak, hrsta⟩ ⟨⟨hmen', hmsta', -, -, hreq, haddr⟩, ht⟩
    have hw : m.writeCr { v with mtx := false } = { m with cr := { v with mtx := false } } := by
      simp [Master.writeCr, hmen, hmsta, hrsta, hmen', hmsta']
    rw [hw]
    exact ⟨⟨hmen, hmsta, rfl, htxak, hreq, haddr⟩, ht⟩
  refine (readDr_outline (Held.stable false false h)
    (fun _ => OnWire.stable .receive false false h) ?_).bind fun _ => ?_
  · rintro m ⟨⟨hmen, hmsta, hmtx, htxak, hreq, haddr⟩, ht, hh, hmal⟩
    left
    simp [Master.readDr, Master.Owns, hmen, hmsta, hmtx, htxak, hreq, haddr, ht, hh, hmal]
  exact continueReceive_outline isLast buf

/-- The module behind the START of an operation. -/
def Begun (w : Wire) (prev : Option Bool) (isRead : Bool) (h : List Event) : Master → Prop :=
  if prev = some isRead then Between w prev h else Held true false h

theorem begun_same (isRead : Bool) :
    Begun w (some isRead) isRead = Between w (some isRead) := by
  funext h
  exact if_pos rfl

theorem begun_started {prev : Option Bool} {isRead : Bool} (hne : prev ≠ some isRead) :
    Begun w prev isRead = Held true false := by
  funext h
  exact if_neg hne

theorem after_write (isLast : Bool) (buf : List UInt8) :
    After w isLast (.write buf) = Held true false := by
  funext h
  unfold After
  rw [if_neg]
  · rfl
  · simp [Operation.isRead]

theorem begin_outline (address : UInt8) (prev : Option Bool) (isRead : Bool) :
    w.Outline mode Waker (Did h (w.begun address prev h isRead) (Begun w prev isRead))
      (Between w prev h) (begin address prev isRead) := by
  cases prev with
  | none => exact start_outline address isRead
  | some prev =>
    by_cases hp : prev = isRead
    · subst hp
      rw [begun_same]
      simp only [begin, Wire.begun, ne_eq, not_true_eq_false, ↓reduceIte]
      refine .ofRet (Between.stable _ _) fun s hs => ⟨rfl, ?_⟩
      show Between w (some prev) (h ++ []) s.master
      rwa [List.append_nil]
    · rw [begun_started fun h => hp (Option.some.inj h)]
      simp only [begin, ne_eq, hp, not_false_eq_true, ↓reduceIte]
      exact restart_outline address hp

theorem perform_outline (prev : Option Bool) (isLast : Bool) (operation : Operation) :
    w.Outline mode Waker (Performed w isLast h operation) (Begun w prev operation.isRead h)
      (perform prev isLast operation) := by
  cases operation with
  | write buf =>
    have hpre : Begun w prev (Operation.write buf).isRead h = Held true false h := by
      by_cases hp : prev = some false
      · rw [hp]
        rfl
      · exact congrFun (begun_started hp) h
    rw [hpre]
    refine (transmitData_outline buf).bind fun r => AsyncDevice.Outline.of_pure ?_
    rintro rfl
    refine .ofRet (Ends.stable (Held.stable _ _ _)) fun s hs => ⟨rfl, ?_⟩
    rw [after_write]
    exact hs
  | read buf =>
    by_cases hp : prev = some true
    · simp only [perform, Begun, Operation.isRead, hp, ne_eq, not_true_eq_false, ↓reduceIte]
      exact (continueReceive_outline isLast buf).bind fun r =>
        .ofRet (Performed.stable _ _ _) fun s hs => hs
    · simp only [perform, Begun, Operation.isRead, hp, ne_eq, not_false_eq_true, ↓reduceIte]
      exact (receiveData_outline isLast buf).bind fun r =>
        .ofRet (Performed.stable _ _ _) fun s hs => hs

end Transfers

/-! ## Transactions -/

section Transactions

variable {h : List Event}

theorem performed_late (late : Bool) (operation : Operation) :
    w.performed false late h operation = w.performed false false h operation := by
  cases operation <;> rfl

/-- After the last operation: a byte that nobody waits for has completed or not. -/
theorem After.closing {operation done : Operation} {events : List Event} {m : Master}
    (hp : w.performed true false h operation = (events, done, .ok ()))
    (hm : After w true operation (h ++ events) m) :
    m.cr.men = true ∧ m.cr.msta = true ∧ ∃ late events,
      w.performed true late h operation = (events, done, .ok ()) ∧ m.history = h ++ events := by
  cases operation with
  | write buf =>
    have hm : Held true false (h ++ events) m := hm
    exact ⟨hm.1.1, hm.1.2.1, false, events, hp, hm.2.2.1⟩
  | read buf =>
    cases buf with
    | cons byte buf =>
      have hm : Held false true (h ++ events) m := hm
      exact ⟨hm.1.1, hm.1.2.1, false, events, hp, hm.2.2.1⟩
    | nil =>
      cases hp
      have hm : OnWire w .receive false false (h ++ []) m := hm
      rw [List.append_nil] at hm
      obtain ⟨ho, -, hh, -⟩ | ⟨⟨ho, -, hh, -⟩, -⟩ := hm
      · exact ⟨ho.1, ho.2.1, false, [], rfl, by rw [hh, List.append_nil]⟩
      · exact ⟨ho.1, ho.2.1, true, _, rfl, hh⟩

theorem served_late (address : UInt8) (late : Bool) (prev : Option Bool) (operation : Operation) :
    w.served address false late prev h operation =
      w.served address false false prev h operation := by
  unfold Wire.served
  simp only [performed_late late]

theorem After.closing_served {address : UInt8} {prev : Option Bool} {operation done : Operation}
    {events : List Event} {m : Master}
    (hs : w.served address true false prev h operation = (events, done, .ok ()))
    (hm : After w true operation (h ++ events) m) :
    m.cr.men = true ∧ m.cr.msta = true ∧ ∃ late events,
      w.served address true late prev h operation = (events, done, .ok ()) ∧
        m.history = h ++ events := by
  unfold Wire.served at hs ⊢
  cases hb : w.begun address prev h operation.isRead with
  | mk started result =>
  cases result with
  | error e =>
    rw [hb] at hs
    cases hs
  | ok _ =>
    simp only [hb] at hs ⊢
    cases hp : w.performed true false (h ++ started) operation with
    | mk events' rest =>
    obtain ⟨done', result'⟩ := rest
    rw [hp] at hs
    cases hs
    rw [← List.append_assoc] at hm
    obtain ⟨hmen, hmsta, late, events, hp', hh⟩ := hm.closing hp
    refine ⟨hmen, hmsta, late, started ++ events, ?_, by rw [hh, List.append_assoc]⟩
    rw [hp']

/-- One operation, and what follows it. -/
theorem operation_outline {address : UInt8} {prev : Option Bool} (isLast : Bool)
    {operation : Operation} {operations : List Operation}
    {k : Operation → Prog bus (List Operation × Except Error Unit)}
    {Q : List Operation × Except Error Unit → Master → Prop}
    (hok : ∀ events done, w.served address isLast false prev h operation = (events, done, .ok ()) →
      w.Outline mode Waker Q (After w isLast operation (h ++ events)) (k done))
    (herr : ∀ events done e, w.served address isLast false prev h operation =
        (events, done, .error e) →
      ∀ m, Rest (h ++ events ++ [.stop]) m → Q (done :: operations, .error e) m) :
    w.Outline mode Waker Q (Between w prev h)
      (do
        match ← begin address prev operation.isRead with
        | .error e => return (operation :: operations, .error e)
        | .ok () =>
          match ← perform prev isLast operation with
          | (done, .error e) => return (done :: operations, .error e)
          | (done, .ok ()) => k done) := by
  refine (begin_outline address prev operation.isRead).bind fun r => AsyncDevice.Outline.of_pure ?_
  rintro rfl
  unfold Wire.served at hok herr
  cases hb : w.begun address prev h operation.isRead with
  | mk started result =>
  rw [hb] at hok herr
  cases result with
  | error e => exact .ofRet (Rest.stable _) fun s hs => herr started operation e rfl s.master hs
  | ok _ =>
    refine (perform_outline prev isLast operation).bind fun r => AsyncDevice.Outline.of_pure ?_
    rintro rfl
    cases hp : w.performed isLast false (h ++ started) operation with
    | mk events rest =>
    obtain ⟨done, result⟩ := rest
    simp only [hp] at hok herr
    cases result with
    | error e =>
      refine .ofRet (Rest.stable _) fun s hs => herr _ _ _ rfl s.master ?_
      rw [← List.append_assoc]
      exact hs
    | ok _ =>
      have hnext := hok (started ++ events) done rfl
      rw [← List.append_assoc] at hnext
      exact hnext

/-- The transaction on the wire, with one STOP behind it. -/
def Transacted (w : Wire) (address : UInt8) (prev : Option Bool) (h : List Event)
    (operations : List Operation) (r : List Operation × Except Error Unit) (m : Master) : Prop :=
  ∃ late, r = (w.transact address late prev h operations).2 ∧
    Rest (h ++ (w.transact address late prev h operations).1 ++ [.stop]) m

theorem Transacted.stable (address : UInt8) (prev : Option Bool) (h : List Event)
    (operations : List Operation) (r : List Operation × Except Error Unit) :
    w.Stable mode Waker (Transacted w address prev h operations r) :=
  stable_of_none (fun _ ⟨_, _, h⟩ => h.2.1) (fun _ _ h => h) fun _ h => h

/-- What the driver does is the transaction on the wire. -/
theorem transactionLoop_outline (address : UInt8) (prev : Option Bool) (operation : Operation)
    (operations : List Operation) : w.Outline mode Waker
      (Transacted w address prev h (operation :: operations)) (Between w prev h)
      (transactionLoop address prev (operation :: operations)) := by
  induction operations generalizing operation prev h with
  | nil =>
    refine operation_outline true (Q := Transacted w address prev h [operation]) ?_ ?_
    · intro events done hs
      -- After the last operation the STOP ends the transaction, late byte or not.
      have hstop : w.Outline mode Waker _ _ stop := stop_outline
        (P := After w true operation (h ++ events))
        (H := fun h₁ => ∃ late events,
          w.served address true late prev h operation = (events, done, .ok ()) ∧ h₁ = h ++ events)
        (After.stable _ _ _) fun m hm => hm.closing_served hs
      refine hstop.bind fun _ => .ofRet (Stopped.stable _) ?_
      rintro s ⟨_, ⟨late, events', hs', rfl⟩, hr⟩
      refine ⟨late, ?_⟩
      simp only [Wire.transact, List.isEmpty_nil, hs', List.append_nil]
      exact ⟨trivial, hr⟩
    · intro events done e hs m hm
      refine ⟨false, ?_⟩
      simp only [Wire.transact, List.isEmpty_nil, hs]
      exact ⟨trivial, hm⟩
  | cons second operations ih =>
    refine operation_outline false
      (Q := Transacted w address prev h (operation :: second :: operations)) ?_ ?_
    · intro events done hs
      have htrans : ∀ late, w.transact address late prev h (operation :: second :: operations) =
          (events ++ (w.transact address late (some operation.isRead) (h ++ events)
              (second :: operations)).1,
            done :: (w.transact address late (some operation.isRead) (h ++ events)
              (second :: operations)).2.1,
            (w.transact address late (some operation.isRead) (h ++ events)
              (second :: operations)).2.2) := by
        intro late
        rw [Wire.transact, List.isEmpty_cons, served_late, hs]
      have hrest := ih (h := h ++ events) (some operation.isRead) second
      refine AsyncDevice.Outline.bind (f := fun r => pure (done :: r.1, r.2)) hrest fun r => ?_
      refine .ofRet (Transacted.stable _ _ _ _ r) ?_
      rintro s ⟨late, rfl, hr⟩
      refine ⟨late, ?_, ?_⟩
      · rw [htrans]
      · rw [htrans, ← List.append_assoc]
        exact hr
    · intro events done e hs m hm
      refine ⟨false, ?_⟩
      simp only [Wire.transact, List.isEmpty_cons, hs]
      exact ⟨trivial, hm⟩

theorem transaction_outline (address : UInt8) (operations : List Operation) :
    w.Outline mode Waker
      (fun r m => operations = [] ∧ r = ([], .ok ()) ∧ Rest h m ∨
        operations ≠ [] ∧ Transacted w address none h operations r m)
      (Rest h) (transaction address operations) := by
  cases operations with
  | nil => exact .ofRet (Rest.stable h) fun s hs => .inl ⟨rfl, rfl, hs⟩
  | cons operation operations =>
    have hloop : w.Outline mode Waker _ _ _ :=
      transactionLoop_outline (h := h) address none operation operations
    exact hloop.post fun r s hs => .inr ⟨nofun, hs⟩

/-- The runs of a transaction, from the states with the history `h` in which the last one has
released the bus. -/
def transactions (w : Wire) (mode : Mode) (Waker : Type) (address : UInt8)
    (operations : List Operation) (h : List Event) : Lts :=
  (w.device mode Waker).runs (transaction address operations) fun s => Rest h s.master

/-- **Framing, placement and release.** Of an empty list nothing happens on the bus. Otherwise the
STARTs and the bytes sent are those of the script, up to the first byte that fails, which gives the
error; the bytes received after each START are in the buffers of its run, in order; and the last
event is a STOP, the only one. From every state of a run, some run goes on to the end.

Where a write follows a read, the result rests on the assumption in `Master.writeDr`: the address of
the repeated START is sent behind the byte that is still being received. -/
theorem transaction_framed (w : Wire) (mode : Mode) (Waker : Type) (address : UInt8)
    (operations : List Operation) (h : List Event) :
    (∀ s done result,
      (transactions w mode Waker address operations h).Reach (Lts.Any _)
        (s, .done (done, result)) →
      (operations = [] → s.master.history = h ∧ done = [] ∧ result = .ok ()) ∧
      (operations ≠ [] → ∃ events, s.master.history = h ++ events ++ [.stop] ∧ .stop ∉ events ∧
        Follows events result (script address none operations) ∧ Verdict events result ∧
        Placed none operations done events ∧
        done.map Operation.shape = operations.map Operation.shape)) ∧
    ∀ x, (transactions w mode Waker address operations h).Reach (Lts.Any _) x →
      ∃ tr s r, (transactions w mode Waker address operations h).Run x tr (s, .done r) := by
  have hout : w.Outline mode Waker _ _ _ :=
    transaction_outline (h := h) address operations
  constructor
  · intro s done result hs
    obtain ⟨rfl, hr, hrest⟩ | ⟨hne, late, hr, hrest⟩ := hout.done (fun _ h => h) hs
    · cases hr
      exact ⟨fun _ => ⟨hrest.2.2, rfl, rfl⟩, fun hne => (hne rfl).elim⟩
    · obtain ⟨rfl, rfl⟩ := Prod.mk.inj hr
      have hplaced := transact_placed w address none late h operations
      have hstop := transact_stop w address none late h operations
      exact ⟨fun he => (hne he).elim, fun _ => ⟨_, hrest.2.2, hstop, transact_follows ..,
        transact_verdict .., hplaced, transact_shape ..⟩⟩
  · intro x hx
    exact hout.ends (fun _ h => h) hx

/-- **The end of a read.** With a slave that responds, the requested bytes of every run of reads are
acknowledged, and one more byte is received behind them; where the transaction ends in a read of at
least one byte, it is the one that is not acknowledged. -/
theorem transaction_reads {w : Wire} (hw : w.Responsive) (mode : Mode) (Waker : Type)
    (address : UInt8) {operations : List Operation} (hne : operations ≠ []) (h : List Event)
    {s : Shared Waker} {done : List Operation} {result : Except Error Unit}
    (hs : (transactions w mode Waker address operations h).Reach (Lts.Any _)
      (s, .done (done, result))) :
    ∃ events, s.master.history = h ++ events ++ [.stop] ∧
      ∀ i, ((runs none operations).getD i []).head?.map Operation.isRead = some true →
        Acknowledged (buffers ((runs none operations).getD i [])).length
          (i + 1 = (runs none operations).length) (EndsInRead operations)
          (((segments events).getD i []).map Prod.snd) := by
  have hout : w.Outline mode Waker _ _ _ :=
    transaction_outline (h := h) address operations
  obtain ⟨rfl, -⟩ | ⟨-, late, -, hrest⟩ := hout.done (fun _ h => h) hs
  · exact (hne rfl).elim
  · exact ⟨_, hrest.2.2, fun i hi => transact_reads address none late hw h operations i (.inr hi)⟩

end Transactions

/-! ## Concrete runs -/

/-- A slave that acknowledges every byte, and sends how much has happened. -/
def Wire.toy : Wire := ⟨fun _ _ => .ack, fun h => h.length.toUInt8, fun _ => false⟩

/-- A slave that acknowledges its address only. -/
def Wire.deaf : Wire := { Wire.toy with reply := fun h _ => if h = [] then .ack else .nack }

/-- The module is on, and the bus is free. -/
def Shared.rest : Shared Nat where
  master := ⟨{ men := true }, false, false, false, false, 0, none, none, false, []⟩
  waker := ⟨none⟩
  cx := 0

/-- The run of a transaction along `n` steps of the task, with the byte on the wire complete after
each of them, and the handler behind it. -/
def promptRun (w : Wire) (mode : Mode) (operations : List Operation) (n : Nat) :=
  Lts.exec (w.device mode Nat).step (.rest, .run (transaction 0x42 operations))
    (List.replicate n [.step, .env .complete, .env .isr]).flatten

theorem promptRun_reach (w : Wire) (mode : Mode) (operations : List Operation) (n : Nat) :
    (transactions w mode Nat 0x42 operations []).Reach (Lts.Any _)
      (promptRun w mode operations n).2 := by
  have hrun : (transactions w mode Nat 0x42 operations []).Run
      (.rest, .run (transaction 0x42 operations)) (promptRun w mode operations n).1
      (promptRun w mode operations n).2 := .exec _ _ _ _
  exact hrun.reach (.init ⟨⟨rfl, rfl, rfl⟩, rfl⟩) fun _ _ => trivial

/-- A read of one byte. -/
def oneRead : List Event :=
  [.address false 0x85 .ack, .recv 1 false false, .recv 2 true false, .stop]

set_option maxRecDepth 2000 in
theorem promptRun_oneRead (mode : Mode) :
    ∃ s, (promptRun .toy mode [.read [0]] 24).2 = (s, .done ([.read [1]], .ok ())) ∧
      s.master.history = oneRead := by
  cases mode
  · exact ⟨_, rfl, rfl⟩
  · exact ⟨_, rfl, rfl⟩

set_option maxRecDepth 2000 in
theorem promptRun_nacked :
    ∃ s, (promptRun .deaf .async [.write [7], .read [0]] 18).2 =
      (s, .done ([.write [7], .read [0]], .error (.noAcknowledge .data))) := ⟨_, rfl⟩

/-- The byte written is not acknowledged, and the read behind it not begun. -/
theorem transaction_framed_nack :
    ∃ s : Shared Nat, ∃ events, s.master.history = [] ++ events ++ [.stop] ∧
      Follows events (.error (.noAcknowledge .data))
        [.start false 0x84, .send 7, .start true 0x85] := by
  obtain ⟨s, hs⟩ := promptRun_nacked
  have hreach := promptRun_reach .deaf .async [.write [7], .read [0]] 18
  rw [hs] at hreach
  obtain ⟨-, h⟩ :=
    (transaction_framed .deaf .async Nat 0x42 [.write [7], .read [0]] []).1 _ _ _ hreach
  obtain ⟨events, hhist, -, hfollows, -⟩ := h nofun
  exact ⟨s, events, hhist, hfollows⟩

theorem transaction_reads_one :
    ∃ events, oneRead = [] ++ events ++ [.stop] ∧
      Acknowledged 1 (1 + 1 = 2) (EndsInRead [.read [0]])
        (((segments events).getD 1 []).map Prod.snd) := by
  obtain ⟨s, hs, hone⟩ := promptRun_oneRead .async
  have hreach := promptRun_reach .toy .async [.read [0]] 24
  rw [hs] at hreach
  obtain ⟨events, hhist, hreads⟩ := transaction_reads ⟨fun _ _ => rfl, fun _ => rfl⟩ .async Nat 0x42
    (List.cons_ne_nil _ _) [] hreach
  exact ⟨events, hone ▸ hhist, hreads 1 rfl⟩

/-- For a buffer of one byte, either driver receives two, and acknowledges the requested one. -/
theorem read_overruns :
    Wire.toy.Responsive ∧ ∃ s s' : Shared Nat,
      (transactions .toy .blocking Nat 0x42 [.read [0]] []).Reach (Lts.Any _)
        (s, .done ([.read [1]], .ok ())) ∧ s.master.history = oneRead ∧
      (transactions .toy .async Nat 0x42 [.read [0]] []).Reach (Lts.Any _)
        (s', .done ([.read [1]], .ok ())) ∧ s'.master.history = oneRead ∧
      ((segments oneRead).getD 1 []).map Prod.snd ≠ .replicate (1 - 1) false ++ [true] := by
  obtain ⟨s, hs, hone⟩ := promptRun_oneRead .blocking
  obtain ⟨s', hs', hone'⟩ := promptRun_oneRead .async
  have hreach := promptRun_reach .toy .blocking [.read [0]] 24
  have hreach' := promptRun_reach .toy .async [.read [0]] 24
  rw [hs] at hreach
  rw [hs'] at hreach'
  exact ⟨⟨fun _ _ => rfl, fun _ => rfl⟩, s, s', hreach, hone, hreach', hone', by decide⟩

end Mc1322x.I2c
