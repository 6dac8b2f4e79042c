import Mc1322x.Hal.I2cTransaction
import Mc1322x.Lib.Coupling
import Mc1322x.Lib.Wakeup

/-!
# The async I2C driver beside the blocking one

The async functions of the driver are copies of the blocking ones (`startAsync` and the others).

* `transactionAsync_couples`: the copies make the same accesses, but for `I2C_MIEN`.
* `Sys` is an async transaction with the books of its waits. `Sys.willWake`: whenever its future is
  pending with the byte complete, the interrupt is enabled and pending or the task has been woken.
* `transactions_agree`: whatever one transaction does on the bus the other one does.
-/

namespace Mc1322x.I2c

open Mmio

/-! ## The async functions -/

/-- `start_async`. -/
def startAsync (address : UInt8) (read : Bool) : Prog bus (Except Error Unit) := do
  awaitBusFree
  writeCr { men := true, msta := true, mtx := true }
  clearStatus
  writeDr (addressByte address read)
  awaitAck .address

/-- `restart_async`. -/
def restartAsync (address : UInt8) (read : Bool) : Prog bus (Except Error Unit) := do
  let cr ← readCr
  writeCr { cr with mtx := true, rsta := true }
  clearStatus
  writeDr (addressByte address read)
  awaitAck .address

/-- `transmit_data_async`. -/
def transmitDataAsync : List UInt8 → Prog bus (Except Error Unit)
  | [] => return .ok ()
  | byte :: data => do
    writeDr byte
    match ← awaitAck .data with
    | .error e => return .error e
    | .ok () => transmitDataAsync data

/-- The loop of `receive_data_async` and `continue_receive_async`. -/
def receiveLoopAsync (nackTail : Bool) : List UInt8 → Prog bus (List UInt8 × Except Error Unit)
  | [] => return ([], .ok ())
  | byte :: data => do
    match ← waitByte with
    | .error e => return (byte :: data, .error e)
    | .ok () =>
      if nackTail && data.isEmpty then
        let cr ← readCr
        writeCr { cr with txak := true }
      let byte ← readDr
      let (data, result) ← receiveLoopAsync nackTail data
      return (byte :: data, result)

/-- `continue_receive_async`. -/
def continueReceiveAsync (nackTail : Bool) (data : List UInt8) :
    Prog bus (List UInt8 × Except Error Unit) := do
  match ← receiveLoopAsync nackTail data with
  | (data, .error e) => return (data, .error e)
  | (data, .ok ()) =>
    if nackTail && !data.isEmpty then
      return (data, ← waitByte)
    return (data, .ok ())

/-- `receive_data_async`. -/
def receiveDataAsync (nackTail : Bool) (data : List UInt8) :
    Prog bus (List UInt8 × Except Error Unit) := do
  let cr ← readCr
  writeCr { cr with mtx := false }
  let _ ← readDr
  continueReceiveAsync nackTail data

/-- The transfer of one operation of the async `transaction`. -/
def performAsync (prevIsRead : Option Bool) (isLast : Bool) : Operation →
    Prog bus (Operation × Except Error Unit)
  | .read buf => do
    let (buf, result) ←
      if prevIsRead ≠ some true then receiveDataAsync isLast buf
      else continueReceiveAsync isLast buf
    return (.read buf, result)
  | .write buf => do
    let result ← transmitDataAsync buf
    return (.write buf, result)

/-- The START or repeated START of an operation of the async `transaction`. -/
def beginAsync (address : UInt8) (prevIsRead : Option Bool) (isRead : Bool) :
    Prog bus (Except Error Unit) :=
  match prevIsRead with
  | none => startAsync address isRead
  | some prev => if prev ≠ isRead then restartAsync address isRead else return .ok ()

/-- The loop of the async `transaction`, and the `stop()` behind it. -/
def transactionLoopAsync (address : UInt8) : Option Bool → List Operation →
    Prog bus (List Operation × Except Error Unit)
  | _, [] => do
    stop
    return ([], .ok ())
  | prevIsRead, operation :: operations => do
    match ← beginAsync address prevIsRead operation.isRead with
    | .error e => return (operation :: operations, .error e)
    | .ok () =>
      match ← performAsync prevIsRead operations.isEmpty operation with
      | (done, .error e) => return (done :: operations, .error e)
      | (done, .ok ()) =>
        let (rest, result) ← transactionLoopAsync address (some operation.isRead) operations
        return (done :: rest, result)

/-- The async `transaction`. -/
def transactionAsync (address : UInt8) (operations : List Operation) :
    Prog bus (List Operation × Except Error Unit) :=
  if operations.isEmpty then return ([], .ok ())
  else transactionLoopAsync address none operations

/-! ## The same but for `I2C_MIEN` -/

/-- Without its interrupt. -/
def Cr.unarmed (v : Cr) : Cr := { v with mien := false }

/-- The module with the interrupt disabled. -/
def Master.unarmed (m : Master) : Master := { m with cr := m.readCr.unarmed }

/-- The write without the interrupt, which only the async driver enables. -/
def Out.unarmed : Out → Out
  | .cr v => .cr v.unarmed
  | o => o

/-- `I2C_MIF` is not cleared without `I2C_MAL`. -/
def Out.Tame : Out → Prop
  | .sr v => v.mal = true → v.mif = true
  | _ => True

/-- Values of `I2C_CR` may differ in `I2C_MIEN`. -/
def upToMien : Coupling bus where
  V r := match r with
    | .cr => fun (v v' : Cr) => v.unarmed = v'.unarmed
    | .sr | .dr => Eq
  W o o' := o.unarmed = o'.unarmed ∧ o.Tame ∧ o'.Tame
  symm_V {r v v'} h := by
    cases r <;> exact Eq.symm h
  symm_W h := ⟨h.1.symm, h.2.2, h.2.1⟩

section Module

variable {w : Wire} (m : Master)

theorem unarmed_complete : (m.complete w).unarmed = m.unarmed.complete w := by
  obtain ⟨cr, mbb, mal, mif, rxak, dr, transfer, request, addressed, history⟩ := m
  cases transfer <;> rfl

theorem unarmed_writeCr (v : Cr) :
    (m.writeCr v).unarmed = (m.unarmed.writeCr v.unarmed).unarmed := by
  obtain ⟨⟨men, mien, msta, mtx, txak, rsta⟩, mbb, mal, mif, rxak, dr, transfer, request,
    addressed, history⟩ := m
  obtain ⟨men', mien', msta', mtx', txak', rsta'⟩ := v
  cases men <;> cases men' <;> cases msta <;> cases msta' <;> cases rsta' <;> rfl

theorem unarmed_arm (b : Bool) :
    (m.writeCr { m.readCr with mien := b }).unarmed = m.unarmed := by
  rw [writeCr_mien]
  rfl

theorem unarmed_writeDr (byte : UInt8) :
    (m.writeDr w byte).unarmed = m.unarmed.writeDr w byte := by
  unfold Master.writeDr
  rw [← unarmed_complete]
  cases hc : m.cr.men && m.cr.msta && m.cr.mtx with
  | true =>
    have hc' : (m.unarmed.cr.men && m.unarmed.cr.msta && m.unarmed.cr.mtx) = true := hc
    rw [hc']
    rfl
  | false =>
    have hc' : (m.unarmed.cr.men && m.unarmed.cr.msta && m.unarmed.cr.mtx) = false := hc
    rw [hc']
    rfl

theorem unarmed_readDr :
    m.unarmed.readDr.1 = m.readDr.1 ∧ m.readDr.2.unarmed = m.unarmed.readDr.2 := by
  refine ⟨rfl, ?_⟩
  unfold Master.readDr
  cases hc : m.cr.men && m.cr.msta && !m.cr.mtx && m.addressed && m.transfer.isNone with
  | true =>
    have hc' : (m.unarmed.cr.men && m.unarmed.cr.msta && !m.unarmed.cr.mtx &&
      m.unarmed.addressed && m.unarmed.transfer.isNone) = true := hc
    rw [hc']
    rfl
  | false =>
    have hc' : (m.unarmed.cr.men && m.unarmed.cr.msta && !m.unarmed.cr.mtx &&
      m.unarmed.addressed && m.unarmed.transfer.isNone) = false := hc
    rw [hc']
    rfl

theorem unarmed_pollByteStatus : pollByteStatus m.unarmed =
    ((pollByteStatus m).1, (pollByteStatus m).2.unarmed) := by
  obtain ⟨cr, mbb, mal, mif, rxak, dr, transfer, request, addressed, history⟩ := m
  cases mal <;> cases mif <;> cases transfer <;> rfl

end Module

/-- The modules agree but for `I2C_MIEN`. -/
def Shared.Beside {Waker : Type} (s t : Shared Waker) : Prop :=
  s.master.unarmed = t.master.unarmed

section Device

variable {Waker : Type} {s t : Shared Waker}

theorem Shared.Beside.get {α : Type} {s t : Shared Waker} (h : s.Beside t) (f : Master → α)
    (hf : ∀ m, f m.unarmed = f m) : f s.master = f t.master := by
  rw [← hf s.master, ← hf t.master]
  exact congrArg f h

theorem pollWait_unarmed (mode : Mode) (s : Shared Waker) :
    (pollWait mode s).1 = (pollByteStatus s.master).1 ∧
      (pollWait mode s).2.master.unarmed = (pollByteStatus s.master).2.unarmed := by
  unfold pollWait
  cases h : pollByteStatus s.master with
  | mk r m =>
    cases r with
    | some r => exact ⟨rfl, rfl⟩
    | none =>
      cases mode with
      | blocking => exact ⟨rfl, rfl⟩
      | async => exact ⟨rfl, unarmed_arm m true⟩

theorem Shared.Beside.pollWait {mode mode' : Mode} (h : s.Beside t) :
    (pollWait mode s).1 = (pollWait mode' t).1 ∧
      (I2c.pollWait mode s).2.Beside (I2c.pollWait mode' t).2 := by
  obtain ⟨hs, hs'⟩ := pollWait_unarmed mode s
  obtain ⟨ht, ht'⟩ := pollWait_unarmed mode' t
  have hp := unarmed_pollByteStatus s.master
  rw [show s.master.unarmed = t.master.unarmed from h, unarmed_pollByteStatus] at hp
  obtain ⟨h₁, h₂⟩ := Prod.mk.inj hp
  constructor
  · rw [hs, ht, h₁]
  · unfold Shared.Beside
    rw [hs', ht', h₂]

theorem Shared.Beside.write (h : s.Beside t) {w : Wire} {mode mode' : Mode} {o o' : Out}
    (ho : o.unarmed = o'.unarmed) :
    ((w.device mode Waker).write o s).Beside ((w.device mode' Waker).write o' t) := by
  have hm : s.master.unarmed = t.master.unarmed := h
  cases o with
  | cr v =>
    cases o' with
    | cr v' =>
      have hv : v.unarmed = v'.unarmed := Out.cr.inj ho
      change (s.master.writeCr v).unarmed = (t.master.writeCr v').unarmed
      rw [unarmed_writeCr s.master, unarmed_writeCr t.master, hm, hv]
    | sr v' => cases ho
    | dr byte => cases ho
  | sr v =>
    cases o' with
    | sr v' =>
      cases ho
      exact congrArg (Master.writeSr v) hm
    | cr v' => cases ho
    | dr byte => cases ho
  | dr byte =>
    cases o' with
    | dr byte' =>
      cases ho
      change (s.master.writeDr w byte).unarmed = (t.master.writeDr w byte).unarmed
      rw [unarmed_writeDr, unarmed_writeDr, hm]
    | cr v' => cases ho
    | sr v' => cases ho

/-- Both drivers move the module alike. -/
theorem device_coupled (w : Wire) (mode mode' : Mode) (Waker : Type) :
    (w.device mode Waker).Coupled (w.device mode' Waker) upToMien Shared.Beside where
  read r s t h := by
    have hm : s.master.unarmed = t.master.unarmed := h
    cases r with
    | cr => exact ⟨h.get (fun m => m.readCr.unarmed) fun _ => rfl, h⟩
    | sr => exact ⟨h.get (fun m => m.readSr) fun _ => rfl, h⟩
    | dr =>
      refine ⟨h.get (fun m => m.readDr.1) fun _ => rfl, ?_⟩
      change s.master.readDr.2.unarmed = t.master.readDr.2.unarmed
      rw [(unarmed_readDr _).2, (unarmed_readDr _).2, hm]
  write o o' s t ho h := h.write ho.1
  start w s t h := h
  poll armed wait s t h := by
    cases wait with
    | busFree => exact ⟨h.get (fun m => if m.mbb then none else some ()) fun _ => rfl, h⟩
    | byte => exact h.pollWait
  env e s s' t h he := by
    have hm : s.master.unarmed = t.master.unarmed := h
    cases e with
    | complete =>
      cases he
      refine ⟨.complete, _, rfl, ?_⟩
      change (s.master.complete w).unarmed = (t.master.complete w).unarmed
      rw [unarmed_complete, unarmed_complete, hm]
    | release =>
      -- `MSTA` is the same for both, so the bus is released in both.
      have hmsta : s.master.cr.msta = t.master.cr.msta := h.get (fun m => m.cr.msta) fun _ => rfl
      simp only [Wire.device] at he
      split at he
      · cases he
      · rename_i hn
        cases he
        refine ⟨.release, { t with master.mbb := false }, if_neg (hmsta ▸ hn), ?_⟩
        exact h.get (fun m => { m.unarmed with mbb := false }) fun _ => rfl
    | isr =>
      cases he
      refine ⟨.isr, _, rfl, ?_⟩
      change (s.master.writeCr _).unarmed = (t.master.writeCr _).unarmed
      rw [unarmed_arm, unarmed_arm, hm]
    | context cx =>
      cases he
      exact ⟨.context cx, _, rfl, h⟩

end Device

/-! ## The copies make the same accesses -/

section Copies

theorem writeCr_couples {v v' : Cr} (h : v.unarmed = v'.unarmed) :
    Couples upToMien Eq (writeCr v) (writeCr v') :=
  .ofWrite ⟨congrArg Out.cr h, trivial, trivial⟩

theorem writeSr_couples {v : Sr} (h : v.mal = false) :
    Couples upToMien Eq (writeSr v) (writeSr v) :=
  .ofWrite ⟨rfl, by simp [Out.Tame, h], by simp [Out.Tame, h]⟩

theorem writeDr_couples (byte : UInt8) : Couples upToMien Eq (writeDr byte) (writeDr byte) :=
  .ofWrite ⟨rfl, trivial, trivial⟩

theorem readCr_couples :
    Couples upToMien (fun v v' : Cr => v.unarmed = v'.unarmed) readCr readCr :=
  .ofRead (B := bus) (C := upToMien) In.cr

theorem readSr_couples : Couples upToMien Eq readSr readSr :=
  .ofRead (B := bus) (C := upToMien) In.sr

theorem readDr_couples : Couples upToMien Eq readDr readDr :=
  .ofRead (B := bus) (C := upToMien) In.dr

theorem awaitByte_couples : Couples upToMien Eq awaitByte awaitByte := .ofWait (B := bus) Wait.byte

theorem awaitBusFree_couples : Couples upToMien Eq awaitBusFree awaitBusFree :=
  .ofWait (B := bus) Wait.busFree

theorem clearStatus_couples : Couples upToMien Eq clearStatus clearStatus :=
  readSr_couples.bind_eq fun _ => writeSr_couples rfl

theorem stop_couples : Couples upToMien Eq stop stop :=
  (writeCr_couples rfl).bind_eq fun _ => (writeCr_couples rfl).bind_eq fun _ =>
    readDr_couples.bind_eq fun _ => writeCr_couples rfl

theorem waitByte_couples : Couples upToMien Eq waitByte waitByte := by
  refine awaitByte_couples.bind_eq fun status => ?_
  cases status with
  | completed => exact .ofRet rfl
  | arbitrationLost => exact stop_couples.bind_eq fun _ => .ofRet rfl

theorem awaitAck_couples (source : NoAcknowledgeSource) :
    Couples upToMien Eq (awaitAck source) (awaitAck source) := by
  refine waitByte_couples.bind_eq fun result => ?_
  cases result with
  | error e => exact .ofRet rfl
  | ok _ =>
    refine readSr_couples.bind_eq fun sr => ?_
    split
    · exact stop_couples.bind_eq fun _ => .ofRet rfl
    · exact .ofRet rfl

/-- `I2C_CR` is written back with a change, in the same place of both copies. -/
theorem modifyCr_couples {α : Type} {f : Cr → Cr} {p q : Prog bus α}
    (hf : ∀ v v' : Cr, v.unarmed = v'.unarmed → (f v).unarmed = (f v').unarmed)
    (h : Couples upToMien Eq p q) :
    Couples upToMien Eq
      (do
        let cr ← readCr
        writeCr (f cr)
        p)
      (do
        let cr ← readCr
        writeCr (f cr)
        q) :=
  readCr_couples.bind fun v v' hv => (writeCr_couples (hf v v' hv)).bind_eq fun _ => h

variable (address : UInt8)

theorem startAsync_couples (read : Bool) :
    Couples upToMien Eq (start address read) (startAsync address read) :=
  awaitBusFree_couples.bind_eq fun _ => (writeCr_couples rfl).bind_eq fun _ =>
    clearStatus_couples.bind_eq fun _ => (writeDr_couples _).bind_eq fun _ => awaitAck_couples _

theorem restartAsync_couples (read : Bool) :
    Couples upToMien Eq (restart address read) (restartAsync address read) := by
  refine modifyCr_couples (f := fun cr => { cr with mtx := true, rsta := true }) ?_ ?_
  · intro v v' h
    exact congrArg (fun v : Cr => { v with mtx := true, rsta := true }) h
  · exact clearStatus_couples.bind_eq fun _ => (writeDr_couples _).bind_eq fun _ =>
      awaitAck_couples _

theorem transmitDataAsync_couples (data : List UInt8) :
    Couples upToMien Eq (transmitData data) (transmitDataAsync data) := by
  induction data with
  | nil => exact .ofRet rfl
  | cons byte data ih =>
    refine (writeDr_couples byte).bind_eq fun _ => (awaitAck_couples .data).bind_eq fun result => ?_
    cases result with
    | error e => exact .ofRet rfl
    | ok _ => exact ih

theorem receiveLoopAsync_couples (nackTail : Bool) (data : List UInt8) :
    Couples upToMien Eq (receiveLoop nackTail data) (receiveLoopAsync nackTail data) := by
  induction data with
  | nil => exact .ofRet rfl
  | cons byte data ih =>
    refine waitByte_couples.bind_eq fun result => ?_
    cases result with
    | error e => exact .ofRet rfl
    | ok _ =>
      have hrest : Couples upToMien Eq
          (do
            let byte ← readDr
            let (data, result) ← receiveLoop nackTail data
            return (byte :: data, result))
          (do
            let byte ← readDr
            let (data, result) ← receiveLoopAsync nackTail data
            return (byte :: data, result)) :=
        readDr_couples.bind_eq fun byte => ih.bind_eq fun _ => .ofRet rfl
      dsimp only
      split
      · refine modifyCr_couples (f := fun cr => { cr with txak := true }) ?_ hrest
        intro v v' h
        exact congrArg (fun v : Cr => { v with txak := true }) h
      · exact hrest

theorem continueReceiveAsync_couples (nackTail : Bool) (data : List UInt8) :
    Couples upToMien Eq (continueReceive nackTail data) (continueReceiveAsync nackTail data) := by
  refine (receiveLoopAsync_couples nackTail data).bind_eq fun r => ?_
  obtain ⟨data, result⟩ := r
  cases result with
  | error e => exact .ofRet rfl
  | ok _ =>
    dsimp only
    split
    · exact waitByte_couples.bind_eq fun _ => .ofRet rfl
    · exact .ofRet rfl

theorem receiveDataAsync_couples (nackTail : Bool) (data : List UInt8) :
    Couples upToMien Eq (receiveData nackTail data) (receiveDataAsync nackTail data) := by
  refine modifyCr_couples (f := fun cr => { cr with mtx := false }) ?_ ?_
  · intro v v' h
    exact congrArg (fun v : Cr => { v with mtx := false }) h
  · exact readDr_couples.bind_eq fun _ => continueReceiveAsync_couples nackTail data

theorem performAsync_couples (prevIsRead : Option Bool) (isLast : Bool) (operation : Operation) :
    Couples upToMien Eq (perform prevIsRead isLast operation)
      (performAsync prevIsRead isLast operation) := by
  cases operation with
  | read buf =>
    simp only [perform, performAsync]
    split
    · exact (receiveDataAsync_couples isLast buf).bind_eq fun _ => .ofRet rfl
    · exact (continueReceiveAsync_couples isLast buf).bind_eq fun _ => .ofRet rfl
  | write buf => exact (transmitDataAsync_couples buf).bind_eq fun _ => .ofRet rfl

theorem beginAsync_couples (prevIsRead : Option Bool) (isRead : Bool) :
    Couples upToMien Eq (begin address prevIsRead isRead)
      (beginAsync address prevIsRead isRead) := by
  cases prevIsRead with
  | none => exact startAsync_couples address isRead
  | some prev =>
    unfold begin beginAsync
    dsimp only
    split
    · exact restartAsync_couples address isRead
    · exact .ofRet rfl

theorem transactionLoopAsync_couples (prevIsRead : Option Bool) (operations : List Operation) :
    Couples upToMien Eq (transactionLoop address prevIsRead operations)
      (transactionLoopAsync address prevIsRead operations) := by
  induction operations generalizing prevIsRead with
  | nil => exact stop_couples.bind_eq fun _ => .ofRet rfl
  | cons operation operations ih =>
    refine (beginAsync_couples address prevIsRead _).bind_eq fun result => ?_
    cases result with
    | error e => exact .ofRet rfl
    | ok _ =>
      refine (performAsync_couples prevIsRead _ operation).bind_eq fun r => ?_
      obtain ⟨done, result⟩ := r
      cases result with
      | error e => exact .ofRet rfl
      | ok _ => exact (ih _).bind_eq fun _ => .ofRet rfl

theorem transactionAsync_couples (operations : List Operation) :
    Couples upToMien Eq (transaction address operations) (transactionAsync address operations) := by
  unfold transaction transactionAsync
  split
  · exact .ofRet rfl
  · exact transactionLoopAsync_couples address none operations

end Copies

/-! ## What the time of a completion changes -/

/-- Two transfers with the same result and buffers that send the same; where `φ`, they are the same. -/
def Alike {α : Type} (φ : Prop) (x y : List Event × α) : Prop :=
  x.2 = y.2 ∧ x.1.filterMap Event.action = y.1.filterMap Event.action ∧ (φ → x.1 = y.1)

theorem Alike.refl {α : Type} (φ : Prop) (x : List Event × α) : Alike φ x x :=
  ⟨rfl, rfl, fun _ => rfl⟩

theorem Alike.symm {α : Type} {φ : Prop} {x y : List Event × α} (h : Alike φ x y) : Alike φ y x :=
  ⟨h.1.symm, h.2.1.symm, fun hφ => (h.2.2 hφ).symm⟩

theorem Alike.trans {α : Type} {φ : Prop} {x y z : List Event × α} (h : Alike φ x y)
    (h' : Alike φ y z) : Alike φ x z :=
  ⟨h.1.trans h'.1, h.2.1.trans h'.2.1, fun hφ => (h.2.2 hφ).trans (h'.2.2 hφ)⟩

/-- The same events before both. -/
theorem Alike.after {α β : Type} {φ : Prop} {x y : List Event × α} (h : Alike φ x y)
    (events : List Event) (f : α → β) :
    Alike φ (events ++ x.1, f x.2) (events ++ y.1, f y.2) := by
  obtain ⟨hr, ha, he⟩ := h
  refine ⟨congrArg f hr, ?_, fun hφ => ?_⟩
  · simp only [List.filterMap_append, ha]
  · exact congrArg (events ++ ·) (he hφ)

section Late

variable (w : Wire) (address : UInt8) (late : Bool)

theorem performed_alike (isLast : Bool) (h : List Event) (operation : Operation) :
    Alike (operation ≠ .read []) (w.performed isLast late h operation)
      (w.performed isLast false h operation) := by
  cases operation with
  | write buf => exact .refl _ _
  | read buf =>
    cases buf with
    | cons byte buf => exact .refl _ _
    | nil =>
      cases isLast with
      | false => exact .refl _ _
      | true =>
        refine ⟨rfl, ?_, fun h => (h rfl).elim⟩
        cases late <;> rfl

theorem served_alike (isLast : Bool) (prev : Option Bool) (h : List Event)
    (operation : Operation) :
    Alike (operation ≠ .read []) (w.served address isLast late prev h operation)
      (w.served address isLast false prev h operation) := by
  unfold Wire.served
  cases hb : w.begun address prev h operation.isRead with
  | mk started result =>
    cases result with
    | error e => exact .refl _ _
    | ok _ => exact (performed_alike w late isLast (h ++ started) operation).after started id

/-- Only the byte received behind an empty buffer at the end depends on when bytes complete. -/
theorem transact_alike (prev : Option Bool) (h : List Event) (operations : List Operation) :
    Alike (operations.getLast? ≠ some (.read [])) (w.transact address late prev h operations)
      (w.transact address false prev h operations) := by
  induction operations generalizing prev h with
  | nil => exact .refl _ _
  | cons operation operations ih =>
    cases operations with
    | nil =>
      have hs := served_alike w address late true prev h operation
      unfold Wire.transact
      simp only [List.isEmpty_nil, Wire.transact, List.getLast?_singleton, List.append_nil]
      obtain ⟨hr, ha, he⟩ := hs
      cases hl : w.served address true late prev h operation with
      | mk events rest =>
        cases hf : w.served address true false prev h operation with
        | mk events' rest' =>
          rw [hl, hf] at hr ha he
          obtain rfl : rest = rest' := hr
          obtain ⟨done, result⟩ := rest
          cases result with
          | error e => exact ⟨rfl, ha, fun hne => he fun h => hne (congrArg some h)⟩
          | ok _ => exact ⟨rfl, ha, fun hne => he fun h => hne (congrArg some h)⟩
    | cons second operations =>
      rw [List.getLast?_cons_cons]
      unfold Wire.transact
      rw [List.isEmpty_cons, served_late]
      cases w.served address false false prev h operation with
      | mk events rest =>
        obtain ⟨done, result⟩ := rest
        cases result with
        | error e => exact .refl _ _
        | ok _ =>
          have hrest := ih (some operation.isRead) (h ++ events)
          -- An operation that is not the last does not depend on `late`.
          exact hrest.after events fun r => (done :: r.1, r.2)

end Late

/-! ## Wakes -/

/-- An async transaction with the books of its waits. -/
structure Sys (Waker : Type) where
  shared : Shared Waker
  task : Fiber bus (List Operation × Except Error Unit)
  books : Wakeup Waker

namespace Sys

variable {Waker : Type} (w : Wire)

/-- The books after a step of the task, from the wait that it is in. A poll of a wait for the bus
wakes its own task (`yield_now`). -/
def polled {α : Type} (cx : Waker) : Fiber bus α → Wakeup Waker
  | .wait true .byte _ => .polled cx
  | .wait true .busFree _ => (Wakeup.polled cx).wake (some cx)
  | _ => .idle

/-- The books after a step, which leaves the task `task`. -/
def record (x : Sys Waker) (task : Fiber bus (List Operation × Except Error Unit)) :
    (w.device .async Waker).Act → Wakeup Waker
  | .step => polled x.shared.cx task
  | .env .isr => x.books.wake x.shared.waker.wake.1
  | .env _ => x.books

/-- One step, which is recorded. -/
def step (x : Sys Waker) (a : (w.device .async Waker).Act) : Option (Sys Waker) :=
  ((w.device .async Waker).step (x.shared, x.task) a).map fun y => ⟨y.1, y.2, x.record w y.2 a⟩

/-- Whenever the task is pending with the byte complete, `i2c_isr` is pending or the task has been
woken. In a wait for the bus it has been woken. -/
def WillWake (x : Sys Waker) : Prop :=
  match x.task with
  | .wait true .byte _ => x.shared.master.transfer = none →
      x.shared.master.cr.mien = true ∧ x.shared.master.mif = true ∨ x.books.Woken
  | .wait true .busFree _ => x.books.Woken
  | _ => True

end Sys

/-- The runs of an async transaction with the books of its waits. -/
def asyncSys (w : Wire) (Waker : Type) (address : UInt8) (operations : List Operation)
    (h : List Event) : Lts :=
  .ofStep
    (fun x : Sys Waker => Rest h x.shared.master ∧
      x.task = .run (transactionAsync address operations) ∧ x.books = .idle)
    (Sys.step w)

/-- The runs of an async transaction. -/
def asyncTransactions (w : Wire) (Waker : Type) (address : UInt8) (operations : List Operation)
    (h : List Event) : Lts :=
  (w.device .async Waker).runs (transactionAsync address operations) fun s => Rest h s.master

/-! ### The flags of a byte -/

/-- The flags have not been cleared yet, but will be before the first byte. -/
inductive Opening {α : Type} : Prog bus α → Prop
  | ret (a : α) : Opening (.ret a)
  | wait {k : Unit → Prog bus α} (h : ∀ r, Opening (k r)) :
      Opening (.wait (B := bus) Wait.busFree k)
  | cr (v : Cr) {p : Prog bus α} (h : Opening p) : Opening (.write (B := bus) (.cr v) p)
  | sr {k : Sr → Prog bus α} (h : ∀ v, Opening (k v)) : Opening (.read (B := bus) In.sr k)
  | clear {v : Sr} (h : v.mal = false) (p : Prog bus α) :
      Opening (.write (B := bus) (.sr v) p)

theorem transactionAsync_opening (address : UInt8) (operations : List Operation) :
    Opening (transactionAsync address operations) := by
  unfold transactionAsync
  cases operations with
  | nil => exact .ret _
  | cons operation operations =>
    exact .wait fun _ => .cr _ (.sr fun _ => .clear rfl _)

section Flags

variable {Waker : Type} {α : Type}

/-- A task before its first byte. -/
def IsOpening : Fiber bus α → Prop
  | .run p => Opening p
  | .wait _ .busFree k => ∀ r, Opening (k r)
  | .wait _ .byte _ => False
  | .done _ => True

/-- The hardware raises `I2C_MAL` with `I2C_MIF`, and the driver does not clear `I2C_MIF` alone. -/
def Master.Flags (m : Master) : Prop := m.mal = true → m.mif = true

theorem Master.Flags.of_eq {m m' : Master} (h : m.Flags) (hmal : m'.mal = m.mal)
    (hmif : m'.mif = m.mif) : m'.Flags := by
  unfold Master.Flags
  rw [hmal, hmif]
  exact h

theorem Master.Flags.complete {w : Wire} {m : Master} (h : m.Flags) : (m.complete w).Flags := by
  unfold Master.complete
  split
  · exact h
  · exact fun _ => rfl

theorem writeCr_flags (v : Cr) (m : Master) :
    (m.writeCr v).mal = m.mal ∧ (m.writeCr v).mif = m.mif := by
  obtain ⟨⟨men, mien, msta, mtx, txak, rsta⟩, mbb, mal, mif, rxak, dr, transfer, request,
    addressed, history⟩ := m
  obtain ⟨men', mien', msta', mtx', txak', rsta'⟩ := v
  cases men <;> cases men' <;> cases msta <;> cases msta' <;> cases rsta' <;> exact ⟨rfl, rfl⟩

theorem Master.Flags.writeCr {m : Master} (h : m.Flags) (v : Cr) : (m.writeCr v).Flags :=
  h.of_eq (writeCr_flags v m).1 (writeCr_flags v m).2

theorem Master.Flags.writeSr {m : Master} {v : Sr} (h : m.Flags) (hv : (Out.sr v).Tame) :
    (m.writeSr v).Flags := by
  intro hmal
  have hmal : (m.mal && v.mal) = true := hmal
  obtain ⟨h₁, h₂⟩ := Bool.and_eq_true_iff.mp hmal
  exact Bool.and_eq_true_iff.mpr ⟨h h₁, hv h₂⟩

theorem Master.Flags.write {w : Wire} {s : Shared Waker} {o : Out} (h : s.master.Flags)
    (ho : o.Tame) : ((w.device .async Waker).write o s).master.Flags := by
  cases o with
  | cr v => exact h.writeCr v
  | sr v => exact h.writeSr ho
  | dr byte =>
    change (s.master.writeDr w byte).Flags
    unfold Master.writeDr
    split
    · exact h.complete
    · exact h

theorem Master.Flags.read {w : Wire} {s : Shared Waker} (r : In) (h : s.master.Flags) :
    ((w.device .async Waker).read r s).2.master.Flags := by
  cases r with
  | cr => exact h
  | sr => exact h
  | dr =>
    change s.master.readDr.2.Flags
    unfold Master.readDr
    dsimp only
    split
    · exact h
    · exact h

theorem Master.Flags.pollByteStatus {m : Master} (h : m.Flags) : (pollByteStatus m).2.Flags := by
  unfold I2c.pollByteStatus
  dsimp only
  split
  · exact h.writeSr fun hmal => (Bool.false_ne_true hmal).elim
  split
  · rename_i hmal _
    exact h.writeSr fun h => (hmal h).elim
  · exact h

theorem Master.Flags.pollWait {s : Shared Waker} (h : s.master.Flags) :
    (pollWait .async s).2.master.Flags := by
  have hm : (I2c.pollWait .async s).2.master.unarmed.Flags := by
    rw [(pollWait_unarmed .async s).2]
    exact h.pollByteStatus
  exact hm

theorem Master.Flags.env {w : Wire} {e : Env Waker} {s s' : Shared Waker} (h : s.master.Flags)
    (he : (w.device .async Waker).env e s = some s') : s'.master.Flags := by
  cases e with
  | complete =>
    cases he
    exact h.complete
  | release =>
    simp only [Wire.device] at he
    split at he
    · cases he
    · cases he
      exact h
  | isr =>
    cases he
    exact h.writeCr _
  | context cx =>
    cases he
    exact h

/-- The flags, once they have been cleared. -/
def Flagged (x : Shared Waker × Fiber bus α) : Prop := x.1.master.Flags ∨ IsOpening x.2

theorem Flagged.step {w : Wire} {β : Type} {R : α → β → Prop}
    {x x' : Shared Waker × Fiber bus α} {y : Fiber bus β} {a : (w.device .async Waker).Act}
    (hx : Flagged x) (hb : AsyncDevice.Beside upToMien R x.2 y)
    (hst : (w.device .async Waker).step x a = some x') : Flagged x' := by
  obtain ⟨s, task⟩ := x
  cases a with
  | env e =>
    rw [AsyncDevice.step_env] at hst
    obtain ⟨s', he, hs⟩ := Option.map_eq_some_iff.mp hst
    cases hs
    exact hx.imp_left fun h => h.env he
  | step =>
    cases hb with
    | run hp =>
      cases hp with
      | ret hR =>
        cases hst
        exact .inr trivial
      | @read r k l hk =>
        cases hst
        refine hx.imp (Master.Flags.read r) fun h => ?_
        cases h with
        | sr h => exact h _
      | @write o o' p q ho hp =>
        cases hst
        obtain h | h := hx
        · exact .inl (h.write ho.2.1)
        cases h with
        | cr v h => exact .inr h
        -- The write that clears the flags ends the opening.
        | @clear v hv p => exact .inl fun hmal => by simp [Wire.device, Master.writeSr, hv] at hmal
      | wait hk =>
        cases hst
        refine hx.imp id fun h => ?_
        cases h with
        | wait h => exact h
    | @wait armed wt k l hk =>
      cases hst
      cases wt with
      | busFree =>
        refine hx.imp id fun h => ?_
        dsimp only
        split
        · exact h _
        · exact h
      | byte =>
        obtain h | h := hx
        · exact .inl h.pollWait
        · exact h.elim
    | done hR => cases hst

end Flags

/-! ### The waits -/

namespace Sys

variable {Waker : Type} {w : Wire}

/-- Whoever waits has been woken, or is in the slot with the interrupt enabled. -/
def Armed (x : Sys Waker) : Prop :=
  match x.task with
  | .wait true .byte _ => x.books.pending ≠ none ∧
      x.books.NotLost (x.shared.master.cr.mien = true) x.shared.waker.slot
  | .wait true .busFree _ => x.books.Woken
  | _ => True

/-- A pending poll arms the interrupt. -/
theorem pollWait_pending {s : Shared Waker} (h : (pollWait .async s).1 = none) :
    (pollWait .async s).2.master.cr.mien = true ∧ (pollWait .async s).2.waker.slot = some s.cx := by
  unfold pollWait at h ⊢
  cases hp : pollByteStatus s.master with
  | mk r m =>
    rw [hp] at h
    cases r with
    | some r => cases h
    | none => exact ⟨by simp [writeCr_mien], rfl⟩

theorem Armed.env {x : Sys Waker} {e : Env Waker} {s' : Shared Waker} (hx : x.Armed)
    (he : (w.device .async Waker).env e x.shared = some s') :
    Armed ⟨s', x.task, x.record w x.task (.env e)⟩ := by
  obtain ⟨s, task, books⟩ := x
  cases task with
  | run p => trivial
  | done r => trivial
  | wait armed wt k =>
    cases armed with
    | false => trivial
    | true =>
      cases wt with
      | busFree =>
        have hx : books.Woken := hx
        cases e with
        | isr => exact hx.wake _
        | complete | release | context cx => exact hx
      | byte =>
        obtain ⟨hp, hn⟩ := hx
        cases e with
        | complete =>
          cases he
          refine ⟨hp, hn.mono fun hm => ?_⟩
          -- The end of a byte leaves the interrupt enabled.
          change (s.master.complete w).cr.mien = true
          unfold Master.complete
          split <;> exact hm
        | release =>
          simp only [Wire.device] at he
          split at he
          · cases he
          · cases he
            exact ⟨hp, hn⟩
        | isr =>
          cases he
          exact ⟨hp, hn.wake⟩
        | context cx =>
          cases he
          exact ⟨hp, hn⟩

theorem Armed.poll {x x' : Sys Waker} (hst : x.step w .step = some x') : x'.Armed := by
  obtain ⟨s, task, books⟩ := x
  obtain ⟨y, hy, hx'⟩ := Option.map_eq_some_iff.mp hst
  cases hx'
  cases task with
  | run p =>
    cases p <;> cases hy <;> trivial
  | done r => cases hy
  | wait armed wt k =>
    cases hy
    cases hp : ((w.device .async Waker).poll armed wt s).1 with
    | some r => trivial
    | none =>
      cases wt with
      | busFree => exact ⟨s.cx, List.mem_append_right _ (List.mem_singleton.mpr rfl), rfl⟩
      | byte =>
        obtain ⟨hm, hs⟩ := pollWait_pending hp
        exact ⟨Option.some_ne_none _, fun _ => .inr ⟨hm, hs⟩⟩

variable {address : UInt8} {operations : List Operation} {h : List Event}

/-- The books are kept beside a run of the transaction. -/
theorem reach {x : Sys Waker}
    (hx : (asyncSys w Waker address operations h).Reach (Lts.Any _) x) :
    (asyncTransactions w Waker address operations h).Reach (Lts.Any _) (x.shared, x.task) ∧
      x.Armed := by
  refine Lts.Reach.induct (I := fun x : Sys Waker =>
    (asyncTransactions w Waker address operations h).Reach (Lts.Any _) (x.shared, x.task) ∧
      x.Armed) ?_ ?_ hx
  · rintro ⟨s, _, _⟩ ⟨hs, rfl, rfl⟩
    exact ⟨.init ⟨hs, rfl⟩, trivial⟩
  · intro x a x' ⟨hr, ha⟩ _ hst
    obtain ⟨y, hy, hx'⟩ := Option.map_eq_some_iff.mp hst
    cases hx'
    refine ⟨.step hr trivial hy, ?_⟩
    cases a with
    | env e =>
      rw [AsyncDevice.step_env] at hy
      obtain ⟨s', he, hs'⟩ := Option.map_eq_some_iff.mp hy
      cases hs'
      exact ha.env he
    | step => exact Armed.poll hst

end Sys

section Agreement

variable {w : Wire} {mode : Mode} {Waker : Type} {address : UInt8} {operations : List Operation}
  {h : List Event}

/-- With nothing on the wire, a wait for a byte has its flag. -/
theorem flag_of_waits {J : Shared Waker → Prop} {P : ByteStatus → Shared Waker → Prop}
    (hw : (w.device mode Waker).Waits .byte J P) {s : Shared Waker} (hs : J s)
    (ht : s.master.transfer = none) : s.master.mal = true ∨ s.master.mif = true := by
  cases hmal : s.master.mal with
  | true => exact .inl rfl
  | false =>
  cases hmif : s.master.mif with
  | true => exact .inr rfl
  | false =>
  -- Without a flag and a byte on the wire the module is dead: no step beside the task changes that.
  have hdead : w.Stable mode Waker fun m =>
      m.transfer = none ∧ m.mal = false ∧ m.mif = false :=
    stable_of_none (fun _ h => h.1) (fun _ _ h => h) fun _ h => h
  obtain ⟨es, s', hes, hne⟩ := hw.ends true s hs
  obtain ⟨-, hmal', hmif'⟩ := hdead.envs ⟨ht, hmal, hmif⟩ hes
  refine (hne ?_).elim
  change (pollWait mode s').1 = none
  rw [(pollWait_unarmed mode s').1]
  simp [pollByteStatus, Master.readSr, hmal', hmif']

/-- Every state of an async transaction stands beside one of the blocking program. -/
theorem asyncTransactions_beside (mode : Mode) {x : Shared Waker × Fiber bus _}
    (hx : (asyncTransactions w Waker address operations h).Reach (Lts.Any _) x) :
    ∃ y, (transactions w mode Waker address operations h).Reach (Lts.Any _) y ∧
      x.1.Beside y.1 ∧ AsyncDevice.Beside upToMien (fun r r' => r' = r) x.2 y.2 :=
  (device_coupled w .async mode Waker).reach (transactionAsync_couples address operations).symm
    (fun s hs => ⟨s, hs, rfl⟩) hx

theorem asyncTransactions_flagged {x : Shared Waker × Fiber bus _}
    (hx : (asyncTransactions w Waker address operations h).Reach (Lts.Any _) x) : Flagged x := by
  refine (Lts.Reach.induct (I := fun x : Shared Waker × Fiber bus _ =>
    (asyncTransactions w Waker address operations h).Reach (Lts.Any _) x ∧ Flagged x)
    ?_ ?_ hx).2
  · rintro ⟨s, _⟩ ⟨hs, rfl⟩
    exact ⟨.init ⟨hs, rfl⟩, .inr (transactionAsync_opening address operations)⟩
  · intro x a x' ⟨hr, hf⟩ _ hst
    obtain ⟨y, -, -, hb⟩ := asyncTransactions_beside .blocking hr
    exact ⟨.step hr trivial hst, hf.step hb hst⟩

/-- No wake is lost. -/
theorem Sys.willWake {x : Sys Waker}
    (hx : (asyncSys w Waker address operations h).Reach (Lts.Any _) x) : x.WillWake := by
  obtain ⟨hr, harmed⟩ := Sys.reach hx
  obtain ⟨⟨s, task⟩, hy, hrel, hbeside⟩ := asyncTransactions_beside .async hr
  have hflags := asyncTransactions_flagged hr
  obtain ⟨⟨master, waker, cx⟩, task', books⟩ := x
  cases task' with
  | run p => trivial
  | done r => trivial
  | wait armed wt k =>
    cases armed with
    | false => trivial
    | true =>
      cases wt with
      | busFree => exact harmed
      | byte =>
        intro ht
        obtain ⟨hp, hn⟩ := harmed
        obtain hw | ⟨hmien, -⟩ := hn hp
        · exact .inr hw
        refine .inl ⟨hmien, ?_⟩
        cases hbeside with
        | @wait _ _ _ l hk =>
          have hout : w.Outline .async Waker _ _ _ :=
            transaction_outline (h := h) address operations
          -- The byte has ended, so the blocking run, at the same wait, finds a flag.
          obtain ⟨J, P, hw, hJ, -⟩ := AsyncDevice.Outline.At.reach hout (fun _ h => h) hy
          have ht' : s.master.transfer = none := by
            rw [← hrel.get (fun m => m.transfer) fun _ => rfl]
            exact ht
          obtain hmal | hmif := flag_of_waits hw hJ ht'
          · rw [← hrel.get (fun m => m.mal) fun _ => rfl] at hmal
            obtain hf | hf := hflags
            · exact hf hmal
            · exact hf.elim
          · rw [← hrel.get (fun m => m.mif) fun _ => rfl] at hmif
            exact hmif

/-- Two transactions that are done have sent the same, with the same result and buffers. -/
theorem transactions_alike {mode' : Mode} {s s' : Shared Waker}
    {r r' : List Operation × Except Error Unit}
    (hs : (transactions w mode Waker address operations h).Reach (Lts.Any _) (s, .done r))
    (hs' : (transactions w mode' Waker address operations h).Reach (Lts.Any _) (s', .done r')) :
    Alike (operations.getLast? ≠ some (.read [])) (s.master.history, r)
      (s'.master.history, r') := by
  have hout : ∀ mode, w.Outline mode Waker _ _ _ :=
    fun mode => transaction_outline (h := h) address operations
  obtain ⟨he, rfl, -, -, hh⟩ | ⟨hne, late, rfl, -, -, hh⟩ := (hout mode).done (fun _ h => h) hs
  · obtain ⟨-, rfl, -, -, hh'⟩ | ⟨hne, -⟩ := (hout mode').done (fun _ h => h) hs'
    · rw [hh, hh']
      exact .refl _ _
    · exact (hne he).elim
  · obtain ⟨he, -⟩ | ⟨-, late', rfl, -, -, hh'⟩ := (hout mode').done (fun _ h => h) hs'
    · exact (hne he).elim
    · have hlate := transact_alike w address late none h operations
      have hlate' := transact_alike w address late' none h operations
      obtain ⟨hr, ha, he⟩ := hlate.trans hlate'.symm
      rw [hh, hh']
      refine ⟨hr, ?_, fun hφ => ?_⟩
      · simp only [List.filterMap_append, ha]
      · simp only [he hφ]

/-- **The async transaction agrees with the blocking one.** For a transaction of either driver that
is done there is one of the other driver with the same history of the bus, the same buffers and the
same result. Whichever steps they have taken, any two of them have sent the same, with the same
buffers and result, and have the same history, except for the byte that is received behind an empty
buffer at the end: there it depends on the time of its completion. From every state of an async
transaction, some run goes on to the end. Whenever it is pending with the byte complete, `i2c_isr`
is pending with `I2C_MIEN` set or the task has been woken.

That the two have the same history where a write follows a read rests on the assumption in
`Master.writeDr`: when the byte behind the read completes depends on time, but the address is sent
behind it. -/
theorem transactions_agree (w : Wire) (Waker : Type) (address : UInt8) (operations : List Operation)
    (h : List Event) :
    (∀ s r, (asyncTransactions w Waker address operations h).Reach (Lts.Any _) (s, .done r) →
      ∃ s', (transactions w .blocking Waker address operations h).Reach (Lts.Any _)
        (s', .done r) ∧ s'.master.history = s.master.history) ∧
    (∀ s r, (transactions w .blocking Waker address operations h).Reach (Lts.Any _)
        (s, .done r) →
      ∃ s', (asyncTransactions w Waker address operations h).Reach (Lts.Any _) (s', .done r) ∧
        s'.master.history = s.master.history) ∧
    (∀ s r s' r', (asyncTransactions w Waker address operations h).Reach (Lts.Any _)
        (s, .done r) →
      (transactions w .blocking Waker address operations h).Reach (Lts.Any _) (s', .done r') →
      r = r' ∧ s.master.history.filterMap Event.action = s'.master.history.filterMap Event.action ∧
      (operations.getLast? ≠ some (.read []) → s.master.history = s'.master.history)) ∧
    (∀ x, (asyncTransactions w Waker address operations h).Reach (Lts.Any _) x →
      ∃ tr s r, (asyncTransactions w Waker address operations h).Run x tr (s, .done r)) ∧
    ∀ x : Sys Waker, (asyncSys w Waker address operations h).Reach (Lts.Any _) x → x.WillWake := by
  -- An async run has a run of the same device beside it, in either mode.
  have hto : ∀ mode s r,
      (asyncTransactions w Waker address operations h).Reach (Lts.Any _) (s, .done r) →
      ∃ s', (transactions w mode Waker address operations h).Reach (Lts.Any _) (s', .done r) ∧
        s'.master.history = s.master.history := by
    intro mode s r hs
    obtain ⟨⟨s', task⟩, hy, hrel, hb⟩ := asyncTransactions_beside mode hs
    obtain ⟨_, rfl, rfl⟩ := hb.of_done
    exact ⟨s', hy, (hrel.get (fun m => m.history) fun _ => rfl).symm⟩
  refine ⟨hto .blocking, ?_, ?_, ?_, fun x hx => Sys.willWake hx⟩
  · intro s r hs
    obtain ⟨⟨s', task⟩, hy, hrel, hb⟩ := (device_coupled w .blocking .async Waker).reach
      (transactionAsync_couples address operations) (fun s hs => ⟨s, hs, rfl⟩) hs
    obtain ⟨_, rfl, rfl⟩ := hb.of_done
    exact ⟨s', hy, (hrel.get (fun m => m.history) fun _ => rfl).symm⟩
  · intro s r s' r' hs hs'
    obtain ⟨t, ht, hh⟩ := hto .blocking s r hs
    rw [← hh]
    exact transactions_alike ht hs'
  · intro x hx
    obtain ⟨y, hy, hrel, hb⟩ := asyncTransactions_beside .blocking hx
    obtain ⟨tr, s, r, hrun⟩ := (transaction_framed w .blocking Waker address operations h).2 y hy
    obtain ⟨tr', ⟨s', task⟩, hrun', -, hb'⟩ :=
      (device_coupled w .blocking .async Waker).run hrel.symm hb.symm hrun
    obtain ⟨r', rfl, -⟩ := hb'.of_done
    exact ⟨tr', s', r', hrun'⟩

end Agreement

end Mc1322x.I2c
