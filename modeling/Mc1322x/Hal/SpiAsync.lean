import Mc1322x.Hal.Spi
import Mc1322x.Lib.Wakeup

/-!
# The words of SPI, blocking and async

The operations of `SpiBus` against a slave, one after the other and none dropped. A slave answers
each word by the words before it (`Slave`). `blocking` is the busy-waiting driver. In `Sys` the
operations of both kinds run with the handler `spi_isr`, and the accesses of `transfer_word_async`
are single steps: the write of `INTENNUM`, and the critical section with its two accesses to
`INTENABLE` at the start. The handler runs where the channel is enabled and `SPI_INT` is set, and
the transfer may end at any time.

* `path` is what a step does to the words (`Sys.sound_step`), so that the words are those of a port
  that waits for each transfer (`shifter`).
* A poll that is pending leaves the channel enabled (`Armed`): the section restores what it has
  saved after the write of `INTENNUM`, and the handler has not run before with `SPI_INT` clear.
-/

namespace Mc1322x.SpiAsync

open Mmio Spi

/-! ## What an operation is for -/

/-- What `SPI_RX_DATA` shows after the transfer of a word, behind the words shifted out before. -/
abbrev Slave := List UInt8 → UInt8 → UInt32

/-- The bytes shifted in for some words, behind those shifted out before. -/
def Slave.replies (slave : Slave) : List UInt8 → List UInt8 → List UInt8
  | _, [] => []
  | before, tx :: words => (slave before tx).toUInt8 :: Slave.replies slave (before ++ [tx]) words

/-- The words of a transfer: those of the write slice, padded with `0xFF`. -/
def busWords (read write : List UInt8) : List UInt8 :=
  (List.range (max read.length write.length)).map fun i => write[i]?.getD 0xFF

/-- The slice that an operation reads into. -/
def readSlice : Op → List UInt8
  | .read words => words
  | .write _ => []
  | .transfer buffer _ => buffer
  | .transferInPlace words => words

/-- The slice that an operation writes. -/
def writeSlice : Op → List UInt8
  | .read _ => []
  | .write words => words
  | .transfer _ words => words
  | .transferInPlace words => words

/-- From `before` to `log` the words of the operation have been shifted out, and `buffer` is what
the slave has answered to the first ones. -/
def Exact (slave : Slave) (op : Op) (before log : List (UInt8 × UInt8)) (buffer : List UInt8) :
    Prop :=
  let words := busWords (readSlice op) (writeSlice op)
  let rxs := slave.replies (before.map Prod.fst) words
  log = before ++ words.zip rxs ∧ buffer = rxs.take (readSlice op).length

section Words

variable (slave : Slave)

theorem length_replies (before words : List UInt8) :
    (slave.replies before words).length = words.length := by
  induction words generalizing before with
  | nil => rfl
  | cons tx words ih => exact congrArg (· + 1) (ih _)

theorem replies_append (before words words' : List UInt8) :
    slave.replies before (words ++ words') =
      slave.replies before words ++ slave.replies (before ++ words) words' := by
  induction words generalizing before with
  | nil => simp [Slave.replies]
  | cons tx words ih => simp [Slave.replies, ih]

theorem length_busWords (read write : List UInt8) :
    (busWords read write).length = max read.length write.length := by
  simp [busWords]

/-- The words of an operation are those of a transfer. -/
theorem words_eq (op : Op) : op.words = busWords (readSlice op) (writeSlice op) := by
  apply List.ext_getElem
  · cases op <;> simp [Op.words, paddedWords, busWords, readSlice, writeSlice]
    omega
  · intro i h₁ h₂
    cases op with
    | read words => simp [Op.words, busWords, readSlice, writeSlice]
    | write words | transferInPlace words =>
      have hi : i < words.length := h₁
      simp [Op.words, busWords, writeSlice, hi]
    | transfer buffer words =>
      have hi : i < max buffer.length words.length := by
        rw [length_busWords] at h₂
        exact h₂
      by_cases hb : i < buffer.length
      · simp [Op.words, busWords, writeSlice, paddedWords, hb]
      · have hw : i < words.length := by omega
        have hmin : min buffer.length words.length = buffer.length := by omega
        simp [Op.words, busWords, writeSlice, paddedWords, List.getElem_append, hb, hw, hmin]
        congr 1
        omega

/-- An operation stores what is shifted in for the read slice. -/
theorem result_eq (op : Op) {rxs : List UInt8} (h : rxs.length = op.words.length) :
    op.result rxs = rxs.take (readSlice op).length := by
  cases op with
  | read words =>
    have hlen : rxs.length = words.length := by simpa [Op.words] using h
    exact (List.take_of_length_le (Nat.le_of_eq hlen)).symm
  | write words => rfl
  | transfer buffer words => rfl
  | transferInPlace words => exact (List.take_of_length_le (Nat.le_of_eq h)).symm

/-- A port that waits for each transfer; its state is the transfers so far. -/
def shifter : Device bus (List (UInt8 × UInt8)) where
  read r := nomatch r
  write o := nomatch o
  wait tx t := ((slave (t.map Prod.fst) tx).toUInt8,
    t ++ [(tx, (slave (t.map Prod.fst) tx).toUInt8)])

theorem shift_transferWords (words : List UInt8) (t : List (UInt8 × UInt8)) :
    (shifter slave).eval (transferWords words) t =
      (slave.replies (t.map Prod.fst) words,
        t ++ words.zip (slave.replies (t.map Prod.fst) words)) := by
  induction words generalizing t with
  | nil => simp [transferWords, Slave.replies]
  | cons tx words ih =>
    have hw : (shifter slave).eval (transferWord tx) t =
        ((slave (t.map Prod.fst) tx).toUInt8,
          t ++ [(tx, (slave (t.map Prod.fst) tx).toUInt8)]) := rfl
    rw [transferWords, Device.eval_bind, hw, Device.eval_bind, ih]
    simp [Slave.replies]

/-- On that port an operation does what it is for. -/
theorem shift_exact (op : Op) (t : List (UInt8 × UInt8)) :
    Exact slave op t ((shifter slave).eval op.prog t).2 ((shifter slave).eval op.prog t).1 := by
  have hlen := length_replies slave (t.map Prod.fst) op.words
  have hprog : (shifter slave).eval op.prog t =
      (op.result (slave.replies (t.map Prod.fst) op.words),
        t ++ op.words.zip (slave.replies (t.map Prod.fst) op.words)) := by
    cases op with
    | read words => exact shift_transferWords slave _ t
    | transferInPlace words => exact shift_transferWords slave words t
    | write words =>
      rw [Op.prog, Device.eval_bind, shift_transferWords]
      rfl
    -- The words of the buffer, padded, and the words behind it are two transfers.
    | transfer buffer words =>
      have hpad := length_replies slave (t.map Prod.fst) (paddedWords buffer words)
      have hbuf : (paddedWords buffer words).length = buffer.length := by simp [paddedWords]
      have hmap : (t ++ (paddedWords buffer words).zip
          (slave.replies (t.map Prod.fst) (paddedWords buffer words))).map Prod.fst =
          t.map Prod.fst ++ paddedWords buffer words := by
        rw [List.map_append, List.map_fst_zip (Nat.le_of_eq hpad.symm)]
      rw [Op.prog, Device.eval_bind, shift_transferWords, Device.eval_bind, shift_transferWords,
        hmap]
      simp only [Device.eval_pure, Op.result, Op.words]
      rw [replies_append, List.zip_append hpad.symm, List.append_assoc, ← hbuf, ← hpad,
        List.take_left]
  rw [hprog]
  simp only [Exact]
  rw [← words_eq, ← result_eq op hlen]
  exact ⟨rfl, rfl⟩

end Words

/-! ## The blocking driver -/

variable {Waker : Type} (slave : Slave)

/-- The transfer under way ends. -/
def ends (p : Port Waker) : Option (Port Waker) :=
  p.shifting.bind fun tx => p.complete (slave (p.log.map Prod.fst) tx)

/-- The loop of `transfer_word`, where the transfer ends after `n` checks. -/
def spin : Nat → Port Waker → UInt8 × Port Waker
  | 0, p =>
    let p := (ends slave p).getD p
    (p.pollTransferStatus.1.getD 0, p.pollTransferStatus.2)
  | n + 1, p => match p.pollTransferStatus with
    | (some rx, p) => (rx, p)
    | (none, p) => spin n p

/-- The port with the busy-waiting driver; `latency k` is the number of checks that transfer number
`k` outlasts. -/
def blocking (Waker : Type) (latency : Nat → Nat) : Device bus (Port Waker) where
  read r := nomatch r
  write o := nomatch o
  wait tx p := spin slave (latency p.log.length) (p.startTransfer tx)

/-- In the transfer of `tx`: it is under way, or it has ended and `SPI_INT` is its own. -/
def Sending (tx : UInt8) (p : Port Waker) (t : List (UInt8 × UInt8)) : Prop :=
  (p.shifting = some tx ∧ p.int = false ∧ p.log = t) ∨
    (p.shifting = none ∧ p.int = true ∧ p.rxData = slave (t.map Prod.fst) tx ∧
      p.log = t ++ [(tx, (slave (t.map Prod.fst) tx).toUInt8)])

section Blocking

variable {slave} {p p' : Port Waker} {t : List (UInt8 × UInt8)} {tx : UInt8}

theorem Settled.start (h : Settled p t) : Sending slave tx (p.startTransfer tx) t := by
  obtain ⟨-, hi, hl⟩ := h
  rw [startTransfer_eq]
  exact .inl ⟨rfl, hi, hl⟩

theorem pollTransferStatus_pending (h : p.int = false) : p.pollTransferStatus = (none, p) :=
  if_pos h

/-- Where a transfer is under way, it ends with the slave's answer. -/
theorem Sending.ends (h : Sending slave tx p t) (he : ends slave p = some p') :
    Sending slave tx p' t ∧ p'.int = true := by
  obtain ⟨hs, -, hl⟩ | ⟨hs, -⟩ := h
  · simp only [SpiAsync.ends, Port.complete, hs, hl, Option.bind_some, Option.map_some] at he
    cases he
    exact ⟨.inr ⟨rfl, rfl, rfl, rfl⟩, rfl⟩
  · simp only [SpiAsync.ends, hs, Option.bind_none] at he
    cases he

/-- The check that finds `SPI_INT` set gets the slave's answer. -/
theorem Sending.received (h : Sending slave tx p t) (hi : p.int = true) :
    p.pollTransferStatus.1 = some (slave (t.map Prod.fst) tx).toUInt8 ∧
      Settled p.pollTransferStatus.2 (t ++ [(tx, (slave (t.map Prod.fst) tx).toUInt8)]) := by
  obtain ⟨-, hi', -⟩ | ⟨hs, -, hx, hl⟩ := h
  · rw [hi] at hi'
    cases hi'
  · rw [pollTransferStatus_ready hi, hx]
    exact ⟨rfl, hs, rfl, hl⟩

theorem spin_spec (h : Sending slave tx p t) (hi : p.int = false) (n : Nat) :
    (spin slave n p).1 = (slave (t.map Prod.fst) tx).toUInt8 ∧
      Settled (spin slave n p).2 (t ++ [(tx, (slave (t.map Prod.fst) tx).toUInt8)]) := by
  induction n with
  | zero =>
    have hs : p.shifting = some tx := by
      obtain ⟨hs, -⟩ | ⟨-, hi', -⟩ := h
      · exact hs
      · rw [hi] at hi'
        cases hi'
    obtain ⟨p', he⟩ : ∃ p', ends slave p = some p' := by
      simp only [ends, Port.complete, hs, Option.bind_some, Option.map_some]
      exact ⟨_, rfl⟩
    obtain ⟨hsend, hint⟩ := h.ends he
    obtain ⟨hr, hset⟩ := hsend.received hint
    simp only [spin, he, Option.getD_some, hr]
    exact ⟨trivial, hset⟩
  | succ n ih =>
    simp only [spin, pollTransferStatus_pending hi]
    exact ih

theorem blocking_sim (latency : Nat → Nat) :
    Device.Sim (blocking slave Waker latency) (shifter slave) Settled where
  read r := nomatch r
  write o := nomatch o
  wait tx p t h := by
    have hi : (p.startTransfer tx).int = false := by
      rw [startTransfer_eq]
      exact h.2.1
    exact spin_spec (Settled.start h) hi _

end Blocking

/-! ## The accesses of an async operation -/

/-- A step beside the words. -/
inductive Change (Waker : Type) where
  /-- The transfer ends. -/
  | ends
  /-- The channel and the wakers change. -/
  | signals (enabled : Bool) (waker : WakerCell Waker) (cx : Waker)

/-- The words, whatever the interrupts and the wakers do. -/
def path (Waker : Type) : AsyncDevice bus (Port Waker) where
  read r := nomatch r
  write o := nomatch o
  start tx p := p.startTransfer tx
  poll _ _ p := p.pollTransferStatus
  Env := Change Waker
  env e p := match e with
    | .ends => ends slave p
    | .signals enabled waker cx => some { p with enabled, waker, cx }

theorem path_refines : (path slave Waker).Refines (shifter slave) Settled (Sending slave)
    (fun _ _ => True) where
  read r := nomatch r
  write o := nomatch o
  start tx p t h := Settled.start h
  pending armed tx p p' t h hp := by
    cases hi : p.int with
    | false =>
      cases (pollTransferStatus_pending hi).symm.trans hp
      exact h
    | true =>
      have hr := (h.received hi).1
      rw [show p.pollTransferStatus = (none, p') from hp] at hr
      cases hr
  resolved armed tx p p' t r h _ hp := by
    cases hi : p.int with
    | false => cases (pollTransferStatus_pending hi).symm.trans hp
    | true =>
      obtain ⟨hr, hset⟩ := h.received hi
      rw [show p.pollTransferStatus = (some r, p') from hp] at hr hset
      cases hr
      exact ⟨rfl, hset⟩
  env e p p' t h he := by
    cases e with
    | ends =>
      simp only [path, ends, h.1, Option.bind_none] at he
      cases he
    | signals enabled waker cx =>
      cases he
      exact h
  env_mid e tx p p' t h he := by
    cases e with
    | ends => exact (h.ends he).1
    | signals enabled waker cx =>
      cases he
      exact h

/-- A transfer, and what its task does with the word shifted in. -/
structure Word where
  tx : UInt8
  k : UInt8 → Prog bus (List UInt8)

/-- Where a poll of `transfer_word_async` is, with the `INTENABLE` that its critical section has
saved. -/
inductive Poll where
  /-- Before the write of `INTENNUM`. -/
  | arm
  /-- Before `acquire` reads `INTENABLE`. -/
  | acquire
  /-- Before `acquire` clears it. -/
  | mask (saved : Bool)
  /-- In the section, before `poll_transfer_status`. -/
  | check (saved : Bool)
  /-- In the section, before `WAKER.set`. -/
  | register (saved : Bool)
  /-- Before `release` restores `INTENABLE`. -/
  | release (saved : Bool) (rx : Option UInt8)

/-- Where an operation is. -/
inductive Place where
  /-- An async one that has not been polled yet. -/
  | called (p : Prog bus (List UInt8))
  /-- Between two words. -/
  | run (p : Prog bus (List UInt8))
  /-- In the loop of `transfer_word`. -/
  | spin (w : Word)
  | poll (w : Word) (stage : Poll)
  | pending (w : Word)
  | done (buffer : List UInt8)

/-- A poll that is pending waits from then on. -/
def Place.waits {Waker : Type} (cx : Waker) (books : Wakeup Waker) : Place → Wakeup Waker
  | .pending _ => .polled cx
  | _ => books

/-- The next step of an operation; `none`: it is not running. -/
def advance (async : Bool) (p : Port Waker) : Place → Option (Port Waker × Place)
  | .called _ | .pending _ | .done _ => none
  | .run (.ret buffer) => some (p, .done buffer)
  | .run (.read r _) => nomatch r
  | .run (.write o _) => nomatch o
  | .run (.wait tx k) =>
    some (p.startTransfer tx, if async then .poll ⟨tx, k⟩ .arm else .spin ⟨tx, k⟩)
  | .spin w => match p.pollTransferStatus with
    | (some rx, p) => some (p, .run (w.k rx))
    | (none, p) => some (p, .spin w)
  | .poll w .arm => some ({ p with enabled := true }, .poll w .acquire)
  | .poll w .acquire => some (p, .poll w (.mask p.enabled))
  | .poll w (.mask saved) => some ({ p with enabled := false }, .poll w (.check saved))
  | .poll w (.check saved) => match p.pollTransferStatus with
    | (some rx, p) => some (p, .poll w (.release saved (some rx)))
    | (none, p) => some (p, .poll w (.register saved))
  | .poll w (.register saved) =>
    some ({ p with waker := p.waker.set p.cx }, .poll w (.release saved none))
  | .poll w (.release saved none) => some ({ p with enabled := saved }, .pending w)
  | .poll w (.release saved (some rx)) => some ({ p with enabled := saved }, .run (w.k rx))

/-- The steps of an operation, when nothing comes between them. -/
def advances (async : Bool) : Nat → Port Waker × Place → Option (Port Waker × Place)
  | 0, x => some x
  | n + 1, x => (advance async x.1 x.2).bind (advances async n)

/-- The steps of a poll together are `pollWord`. -/
theorem poll_steps {p : Port Waker} (ha : p.async = true) (w : Word) :
    match p.pollWord with
    | (some rx, p') => advances true 5 (p, .poll w .arm) = some (p', .run (w.k rx))
    | (none, p') => advances true 6 (p, .poll w .arm) = some (p', .pending w) := by
  unfold Port.pollWord
  rw [if_pos ha]
  obtain hi | hi := Bool.eq_false_or_eq_true p.int
  · rw [pollTransferStatus_ready (p := { p with enabled := true }) hi]
    simp only [advances, advance, Option.bind_some]
    rw [pollTransferStatus_ready (p := { p with enabled := false }) hi]
    rfl
  · rw [pollTransferStatus_pending (p := { p with enabled := true }) hi]
    simp only [advances, advance, Option.bind_some]
    rw [pollTransferStatus_pending (p := { p with enabled := false }) hi]
    rfl

/-! ## The system -/

/-- Whether `spi_isr` has disabled the channel and is to call `WAKER.wake()`. -/
inductive Handler where
  | idle
  | disabled

/-- An operation that has been called. -/
structure Running where
  op : Op
  async : Bool
  /-- The transfers before it. -/
  before : List (UInt8 × UInt8)
  place : Place

/-- The SPI with its handler, and the operation on it. -/
structure Sys (Waker : Type) where
  port : Port Waker
  handler : Handler
  /-- The last operation. -/
  running : Option Running
  /-- The books of its wait. -/
  books : Wakeup Waker

/-- What happens: operations begin and go on access by access, the transfer ends, and the handler
runs. -/
inductive Act (Waker : Type) where
  | begin (async : Bool) (op : Op)
  | poll (cx : Waker)
  /-- The next step of the operation. -/
  | step
  | isr
  /-- The transfer under way ends. -/
  | ends

namespace Sys

/-- No operation runs. -/
def free (s : Sys Waker) : Bool :=
  match s.running with
  | none => true
  | some r => match r.place with
    | .done _ => true
    | _ => false

/-- A new poll, of an async operation that has not been polled yet or is pending. -/
def repoll (s : Sys Waker) (r : Running) (cx : Waker) : Option (Sys Waker) :=
  match r.place with
  | .called p => some { s with
      port := { s.port with cx := cx }
      running := some { r with place := .run p } }
  | .pending w => some { s with
      port := { s.port with cx := cx }
      running := some { r with place := .poll w .arm }
      books := .idle }
  | _ => none

/-- The next step of an operation. -/
def proceed (s : Sys Waker) (r : Running) : Option (Sys Waker) :=
  (advance r.async s.port r.place).map fun (port, place) => { s with
    port := port
    running := some { r with place := place }
    books := place.waits port.cx s.books }

/-- A step of `spi_isr`; where it is idle, its start. -/
def isr (s : Sys Waker) : Option (Sys Waker) :=
  match s.handler with
  | .idle =>
    if s.port.int ∧ s.port.enabled then
      some { s with port := { s.port with enabled := false }, handler := .disabled }
    else none
  | .disabled => some { s with
      port := { s.port with waker := s.port.waker.wake.2 }
      handler := .idle
      books := s.books.wake s.port.waker.wake.1 }

/-- One step; `none`: the step is not possible. The driver does not run inside the handler, and a
critical section keeps the handler out, as it disables the channel. -/
def step (slave : Slave) (s : Sys Waker) : Act Waker → Option (Sys Waker)
  | .begin async op => match s.handler, s.free with
    | .idle, true => some { s with running := some {
        op, async
        before := s.port.log
        place := if async then .called op.prog else .run op.prog } }
    | _, _ => none
  | .poll cx => match s.handler, s.running with
    | .idle, some r => s.repoll r cx
    | _, _ => none
  | .step => match s.handler, s.running with
    | .idle, some r => s.proceed r
    | _, _ => none
  | .isr => s.isr
  | .ends => (ends slave s.port).map fun port => { s with port }

end Sys

/-- What a step that is possible does. -/
theorem Sys.step_spec {slave : Slave} {s s' : Sys Waker} {a : Act Waker}
    (h : s.step slave a = some s') :
    match a with
    | .begin async op => s.free = true ∧ s' = { s with running := some {
        op, async
        before := s.port.log
        place := if async then .called op.prog else .run op.prog } }
    | .poll cx => ∃ r, s.running = some r ∧
      ((∃ q, r.place = .called q ∧ s' = { s with
          port := { s.port with cx := cx }
          running := some { r with place := .run q } }) ∨
        ∃ w, r.place = .pending w ∧ s' = { s with
          port := { s.port with cx := cx }
          running := some { r with place := .poll w .arm }
          books := .idle })
    | .step => ∃ r port place, s.handler = .idle ∧ s.running = some r ∧
      advance r.async s.port r.place = some (port, place) ∧ s' = { s with
        port := port
        running := some { r with place := place }
        books := place.waits port.cx s.books }
    | .isr => (s.handler = .idle ∧ s.port.int = true ∧ s.port.enabled = true ∧
        s' = { s with port := { s.port with enabled := false }, handler := .disabled }) ∨
      (s.handler = .disabled ∧ s' = { s with
        port := { s.port with waker := s.port.waker.wake.2 }
        handler := .idle
        books := s.books.wake s.port.waker.wake.1 })
    | .ends => ∃ port, ends slave s.port = some port ∧ s' = { s with port := port } := by
  obtain ⟨port, handler, running, books⟩ := s
  cases a with
  | begin async op =>
    simp only [Sys.step] at h
    split at h
    · rename_i hfree
      cases h
      exact ⟨hfree, rfl⟩
    · cases h
  | poll cx =>
    -- A poll starts with no handler running, from the call or from a wait.
    cases handler with
    | disabled => cases h
    | idle =>
      cases running with
      | none => cases h
      | some r =>
        obtain ⟨op, async, before, place⟩ := r
        refine ⟨_, rfl, ?_⟩
        cases place with
        | called q =>
          cases h
          exact .inl ⟨q, rfl, rfl⟩
        | pending w =>
          cases h
          exact .inr ⟨w, rfl, rfl⟩
        | run q | spin w | poll w stage | done buffer => cases h
  | step =>
    cases handler with
    | disabled => cases h
    | idle =>
      cases running with
      | none => cases h
      | some r =>
        -- `advance` says what the access does; here it is only kept.
        obtain ⟨⟨p', place⟩, hadv, rfl⟩ := Option.map_eq_some_iff.mp h
        exact ⟨r, p', place, rfl, rfl, hadv, rfl⟩
  | isr =>
    cases handler with
    | idle =>
      -- The handler masks in its first step and wakes in its second.
      obtain ⟨⟨hi, he⟩, e⟩ := Option.ite_none_right_eq_some.mp h
      cases e
      exact .inl ⟨rfl, hi, he, rfl⟩
    | disabled =>
      cases h
      exact .inr ⟨rfl, rfl⟩
  | ends =>
    obtain ⟨p', he, rfl⟩ := Option.map_eq_some_iff.mp h
    exact ⟨p', he, rfl⟩

/-- The runs from a port where no transfer is under way and `SPI_INT` is clear. -/
def runs (Waker : Type) : Lts :=
  .ofStep (fun s : Sys Waker => s.running = none ∧ s.handler = .idle ∧ s.port.shifting = none ∧
    s.port.int = false) (Sys.step slave)

/-! ## The words of a run -/

/-- The operation as a task of `path`. -/
def Place.fiber : Place → Fiber bus (List UInt8)
  | .called p | .run p => .run p
  | .poll w (.release _ (some rx)) => .run (w.k rx)
  | .spin w | .poll w _ | .pending w => .wait true w.tx w.k
  | .done buffer => .done buffer

/-- The operation, with what is left of it, does what the port of `shifter` does. -/
def Agrees (r : Running) (p : Port Waker) : Prop :=
  AsyncDevice.Refines.Agrees (shifter slave) Settled (Sending slave) r.op.prog r.before
    (p, r.place.fiber)

/-- Between two operations the port is settled. -/
def Sys.Sound (s : Sys Waker) : Prop :=
  match s.running with
  | none => Settled s.port s.port.log
  | some r => Agrees slave r s.port

section Sound

variable {slave} {s s' : Sys Waker} {r : Running} {p p' : Port Waker}

theorem agrees_step {prog : Prog bus (List UInt8)} {before : List (UInt8 × UInt8)}
    {f f' : Fiber bus (List UInt8)} {a : (path slave Waker).Act}
    (h : AsyncDevice.Refines.Agrees (shifter slave) Settled (Sending slave) prog before (p, f))
    (hs : (path slave Waker).step (p, f) a = some (p', f')) :
    AsyncDevice.Refines.Agrees (shifter slave) Settled (Sending slave) prog before (p', f') := by
  refine AsyncDevice.Refines.Agrees.step (path_refines slave) h ?_ hs
  cases a with
  | env e => trivial
  | step =>
    simp only [AsyncDevice.Resolves]
    split
    · exact fun _ => trivial
    · trivial

/-- The channel and the wakers are nothing to the words. -/
theorem Agrees.signals (h : Agrees slave r p) (enabled : Bool) (waker : WakerCell Waker)
    (cx : Waker) : Agrees slave r { p with enabled, waker, cx } := by
  refine agrees_step (a := .env (.signals enabled waker cx)) h ?_
  exact (path slave Waker).step_env p r.place.fiber (.signals enabled waker cx)

theorem Agrees.ends (h : Agrees slave r p) (he : ends slave p = some p') : Agrees slave r p' := by
  refine agrees_step (a := .env .ends) h ?_
  exact ((path slave Waker).step_env p r.place.fiber .ends).trans
    (congrArg (Option.map (·, r.place.fiber)) he)

/-- A check of `SPI_INT`, as a poll of `path`. -/
theorem Agrees.hit {w : Word} {rx : UInt8} {place : Place} (h : Agrees slave r p)
    (hf : r.place.fiber = .wait true w.tx w.k) (hp : p.pollTransferStatus = (some rx, p'))
    (hplace : place.fiber = .run (w.k rx)) : Agrees slave { r with place } p' := by
  unfold Agrees at h ⊢
  rw [hf] at h
  rw [hplace]
  refine agrees_step (a := .step) h ?_
  simp only [AsyncDevice.step, path, hp]

theorem Agrees.miss {w : Word} {place : Place} (h : Agrees slave r p)
    (hf : r.place.fiber = .wait true w.tx w.k) (hp : p.pollTransferStatus = (none, p'))
    (hplace : place.fiber = .wait true w.tx w.k) : Agrees slave { r with place } p' := by
  unfold Agrees at h ⊢
  rw [hf] at h
  rw [hplace]
  refine agrees_step (a := .step) h ?_
  simp only [AsyncDevice.step, path, hp]

theorem agrees_advance {place : Place} (h : Agrees slave r p)
    (hs : advance r.async p r.place = some (p', place)) : Agrees slave { r with place } p' := by
  obtain ⟨op, async, before, at'⟩ := r
  cases at' with
  | called q | pending w | done buffer => cases hs
  | run q =>
    cases q with
    | ret buffer =>
      cases hs
      obtain ⟨t, hset, ht⟩ := h
      exact ⟨t, hset, ht⟩
    | read r k => exact nomatch r
    | write o k => exact nomatch o
    | wait tx k =>
      obtain ⟨t, hset, ht⟩ := h
      simp only [advance, Option.some.injEq, Prod.mk.injEq] at hs
      obtain ⟨rfl, rfl⟩ := hs
      cases async <;> exact ⟨t, Settled.start hset, ht⟩
  | spin w =>
    simp only [advance] at hs
    split at hs
    · rename_i rx p₁ hp
      cases hs
      -- The transfer has ended: its word is the next of the operation.
      exact h.hit rfl hp rfl
    · rename_i p₁ hp
      cases hs
      exact h.miss rfl hp rfl
  | poll w stage =>
    cases stage with
    | arm =>
      cases hs
      exact h.signals true p.waker p.cx
    | acquire =>
      cases hs
      exact h
    | mask saved =>
      cases hs
      exact h.signals false p.waker p.cx
    | check saved =>
      simp only [advance] at hs
      split at hs
      · rename_i rx p₁ hp
        cases hs
        exact h.hit rfl hp rfl
      · rename_i p₁ hp
        cases hs
        exact h.miss rfl hp rfl
    | register saved =>
      cases hs
      exact h.signals p.enabled _ p.cx
    | release saved rx =>
      cases rx with
      | none =>
        cases hs
        exact h.signals saved p.waker p.cx
      | some rx =>
        cases hs
        exact h.signals saved p.waker p.cx

theorem Agrees.settled {buffer : List UInt8} (hp : r.place = .done buffer)
    (h : Agrees slave r p) : Settled p p.log := by
  unfold Agrees at h
  rw [hp] at h
  obtain ⟨t, ⟨hs, hi, -⟩, -⟩ := h
  exact ⟨hs, hi, rfl⟩

theorem Sys.free_settled (h : s.Sound slave) (hf : s.free = true) : Settled s.port s.port.log := by
  unfold Sys.Sound at h
  unfold Sys.free at hf
  split at hf
  · rename_i hr
    rw [hr] at h
    exact h
  · rename_i r hr
    rw [hr] at h
    split at hf
    · rename_i buffer hp
      exact h.settled hp
    · cases hf

/-- What `Sound` says does not depend on the interrupt and its waker. -/
theorem Sys.Sound.signals (h : s.Sound slave) (enabled : Bool) (waker : WakerCell Waker) (cx : Waker)
    (handler : Handler) (books : Wakeup Waker) :
    Sys.Sound slave ⟨{ s.port with enabled, waker, cx }, handler, s.running, books⟩ := by
  obtain ⟨port, _, running, _⟩ := s
  cases running with
  | none => exact h
  | some r => exact Agrees.signals h enabled waker cx

theorem Sys.sound_step {a : Act Waker} (h : s.Sound slave) (hs : s.step slave a = some s') :
    s'.Sound slave := by
  have hspec := Sys.step_spec hs
  obtain ⟨port, handler, running, books⟩ := s
  cases a with
  | begin async op =>
    obtain ⟨hfree, rfl⟩ := hspec
    have hset := Sys.free_settled h hfree
    cases async <;> exact ⟨port.log, hset, rfl⟩
  | poll cx =>
    obtain ⟨⟨op, async, before, place⟩, rfl, ⟨q, rfl, rfl⟩ | ⟨w, rfl, rfl⟩⟩ := hspec
    · exact Sys.Sound.signals h port.enabled port.waker cx handler books
    · exact Sys.Sound.signals h port.enabled port.waker cx handler .idle
  | step =>
    obtain ⟨r, p', place, -, rfl, hadv, rfl⟩ := hspec
    exact agrees_advance h hadv
  | isr =>
    obtain ⟨-, -, -, rfl⟩ | ⟨-, rfl⟩ := hspec
    · exact h.signals false port.waker port.cx .disabled books
    · exact h.signals port.enabled _ port.cx .idle _
  | ends =>
    obtain ⟨p', he, rfl⟩ := hspec
    cases running with
    | none =>
      obtain ⟨hsh, -⟩ := (show Settled port port.log from h)
      simp only [SpiAsync.ends, hsh, Option.bind_none] at he
      cases he
    | some r => exact Agrees.ends h he

end Sound

/-! ## Wakes -/

/-- The interrupt of a pending poll is not lost. Before its critical section, the channel is enabled
unless the handler has found `SPI_INT` set; in the section, the handler does not run. -/
def Armed (p : Port Waker) (handler : Handler) (books : Wakeup Waker) : Place → Prop
  | .poll _ .acquire => p.enabled = true ∨ p.int = true
  | .poll _ (.mask saved) => saved = true ∨ p.int = true
  | .poll _ (.check saved) => handler = .idle ∧ p.enabled = false ∧ (saved = true ∨ p.int = true)
  | .poll _ (.register saved) => handler = .idle ∧ p.enabled = false ∧ saved = true
  | .poll _ (.release saved none) =>
    handler = .idle ∧ p.enabled = false ∧ saved = true ∧ p.waker.slot = some p.cx
  | .pending _ => books.pending ≠ none ∧
      books.NotLost (p.enabled = true ∨ handler = .disabled) p.waker.slot
  | _ => True

/-- A wait for the transfer under way will be woken. -/
def Sys.Armed (s : Sys Waker) : Prop :=
  ∀ r, s.running = some r → SpiAsync.Armed s.port s.handler s.books r.place

section Armed

variable {slave} {s s' : Sys Waker} {p p' : Port Waker} {books : Wakeup Waker}

theorem pollTransferStatus_none (h : p.pollTransferStatus = (none, p')) :
    p.int = false ∧ p' = p := by
  obtain hi | hi := Bool.eq_false_or_eq_true p.int
  · cases (pollTransferStatus_ready hi).symm.trans h
  · cases (pollTransferStatus_pending hi).symm.trans h
    exact ⟨hi, rfl⟩

theorem Armed.advance {async : Bool} {place place' : Place}
    (h : SpiAsync.Armed p .idle books place)
    (hs : SpiAsync.advance async p place = some (p', place')) :
    SpiAsync.Armed p' .idle (place'.waits p'.cx books) place' := by
  cases place with
  | called q | pending w | done buffer => cases hs
  | run q =>
    cases q with
    | ret buffer =>
      cases hs
      trivial
    | read r k => exact nomatch r
    | write o k => exact nomatch o
    | wait tx k =>
      simp only [SpiAsync.advance, Option.some.injEq, Prod.mk.injEq] at hs
      obtain ⟨-, rfl⟩ := hs
      cases async <;> trivial
  | spin w =>
    simp only [SpiAsync.advance] at hs
    split at hs <;> cases hs <;> trivial
  | poll w stage =>
    cases stage with
    | arm =>
      cases hs
      exact .inl rfl
    | acquire =>
      cases hs
      exact h
    | mask saved =>
      cases hs
      exact ⟨rfl, rfl, h⟩
    | check saved =>
      obtain ⟨-, he, hsaved⟩ := h
      simp only [SpiAsync.advance] at hs
      split at hs
      · cases hs
        trivial
      · rename_i p₁ hp
        obtain ⟨hi, rfl⟩ := pollTransferStatus_none hp
        cases hs
        -- No transfer has ended, so it was enabled when the section began.
        refine ⟨rfl, he, hsaved.resolve_right ?_⟩
        rw [hi]
        exact Bool.false_ne_true
    | register saved =>
      obtain ⟨-, he, hsaved⟩ := h
      cases hs
      exact ⟨rfl, he, hsaved, rfl⟩
    | release saved rx =>
      cases rx with
      | none =>
        obtain ⟨-, -, hsaved, hslot⟩ := h
        cases hs
        -- The section ends with the waker in its slot, and nothing has been missed in it.
        refine ⟨Option.some_ne_none _, ?_⟩
        simp only [hslot]
        exact Wakeup.notLost_polled (.inl hsaved)
      | some rx =>
        cases hs
        trivial

/-- The end of a transfer only sets `SPI_INT`. -/
theorem Armed.ends {handler : Handler} {place : Place} (h : SpiAsync.Armed p handler books place)
    (he : SpiAsync.ends slave p = some p') : SpiAsync.Armed p' handler books place := by
  obtain ⟨tx, -, hc⟩ := Option.bind_eq_some_iff.mp he
  obtain ⟨-, -, rfl⟩ := Option.map_eq_some_iff.mp hc
  cases place with
  | poll w stage =>
    cases stage with
    | acquire | mask saved => exact .inr rfl
    | check saved => exact ⟨h.1, h.2.1, .inr rfl⟩
    | release saved rx => cases rx <;> exact h
    | arm | register saved => exact h
  | _ => exact h

/-- The handler runs neither in the critical section nor with `SPI_INT` clear. -/
theorem Armed.disable {place : Place} (h : SpiAsync.Armed p .idle books place) (hi : p.int = true)
    (he : p.enabled = true) :
    SpiAsync.Armed { p with enabled := false } .disabled books place := by
  cases place with
  | poll w stage =>
    cases stage with
    | arm => trivial
    | acquire => exact .inr hi
    | mask saved => exact h
    | check saved | register saved =>
      have hd := h.2.1
      rw [he] at hd
      cases hd
    | release saved rx =>
      cases rx with
      | none =>
        have hd := h.2.1
        rw [he] at hd
        cases hd
      | some rx => trivial
  | pending w => exact ⟨h.1, h.2.mono fun _ => .inr rfl⟩
  | called q | run q | spin w | done buffer => trivial

theorem Armed.wake {place : Place} (h : SpiAsync.Armed p .disabled books place) :
    SpiAsync.Armed { p with waker := p.waker.wake.2 } .idle (books.wake p.waker.wake.1) place := by
  cases place with
  | poll w stage =>
    cases stage with
    | arm => trivial
    | acquire | mask saved => exact h
    | check saved | register saved => cases h.1
    | release saved rx =>
      cases rx with
      | none => cases h.1
      | some rx => trivial
  | pending w => exact ⟨h.1, h.2.wake⟩
  | called q | run q | spin w | done buffer => trivial

theorem Sys.armed_step {a : Act Waker} (h : s.Armed) (hs : s.step slave a = some s') :
    s'.Armed := by
  have hspec := Sys.step_spec hs
  obtain ⟨port, handler, running, books⟩ := s
  cases a with
  | begin async op =>
    obtain ⟨-, rfl⟩ := hspec
    rintro r ⟨⟩
    cases async <;> trivial
  | poll cx =>
    obtain ⟨r, -, ⟨q, -, rfl⟩ | ⟨w, -, rfl⟩⟩ := hspec
    · rintro r ⟨⟩
      trivial
    · rintro r ⟨⟩
      trivial
  | step =>
    obtain ⟨r, p', place, rfl, hr, hadv, rfl⟩ := hspec
    rintro r' ⟨⟩
    exact (h r hr).advance hadv
  | isr =>
    obtain ⟨rfl, hi, he, rfl⟩ | ⟨rfl, rfl⟩ := hspec
    · exact fun r hr => (h r hr).disable hi he
    · exact fun r hr => (h r hr).wake
  | ends =>
    obtain ⟨p', he, rfl⟩ := hspec
    exact fun r hr => (h r hr).ends he

end Armed

/-! ## Runs -/

section Runs

variable {slave} {s : Sys Waker} {r : Running}

theorem inv_of_reach (h : (runs slave Waker).Reach (Lts.Any _) s) :
    s.Sound slave ∧ s.Armed := by
  refine Lts.Reach.induct (I := fun s : Sys Waker => s.Sound slave ∧ s.Armed) ?_ ?_ h
  · rintro ⟨port, handler, running, books⟩ ⟨rfl, -, hs, hi⟩
    exact ⟨⟨hs, hi, rfl⟩, fun r hr => by cases hr⟩
  · exact fun s a s' ⟨hsound, harmed⟩ _ hst =>
      ⟨Sys.sound_step hsound hst, Sys.armed_step harmed hst⟩

theorem Agrees.exact {p : Port Waker} {buffer : List UInt8} (h : Agrees slave r p)
    (hp : r.place = .done buffer) :
    Exact slave r.op r.before p.log buffer := by
  unfold Agrees at h
  rw [hp] at h
  obtain ⟨t, ⟨-, -, hl⟩, ht⟩ := h
  have hex := shift_exact slave r.op r.before
  rw [← ht] at hex
  rw [hl]
  exact hex

/-- A transfer that has ended while its poll is pending has `SPI_INT` set. -/
theorem Agrees.int_of_pending {p : Port Waker} {w : Word} (h : Agrees slave r p)
    (hp : r.place = .pending w) (hs : p.shifting = none) : p.int = true := by
  unfold Agrees at h
  rw [hp] at h
  obtain ⟨t, ⟨hs', -⟩ | ⟨-, hi, -⟩, -⟩ := h
  · rw [show p.shifting = some w.tx from hs'] at hs
    cases hs
  · exact hi

theorem blocking_exact (slave : Slave) {p : Port Waker} (hs : p.shifting = none)
    (hi : p.int = false) (latency : Nat → Nat) (op : Op) :
    Exact slave op p.log ((blocking slave Waker latency).eval op.prog p).2.log
      ((blocking slave Waker latency).eval op.prog p).1 := by
  obtain ⟨hr, -, -, hl⟩ := (blocking_sim latency).eval op.prog (s := p) ⟨hs, hi, rfl⟩
  rw [hr, hl]
  exact shift_exact slave op p.log

/-- **The words of SPI**, whatever the slave answers.
* A blocking operation, after any number of checks for each word, shifts out the write slice, padded
  with `0xFF` to the longer of its two slices, and stores the words shifted in for the read slice.
* So does every operation that is done in a run, blocking or async: it has shifted out the words and
  left the buffer of its blocking counterpart.
* A poll that is pending with its transfer ended has its interrupt enabled and pending, or its task
  has been woken, or the handler that runs is about to wake it. -/
theorem spi_words (slave : Slave) (Waker : Type) :
    (∀ latency op (p : Port Waker), p.shifting = none → p.int = false →
      Exact slave op p.log ((blocking slave Waker latency).eval op.prog p).2.log
        ((blocking slave Waker latency).eval op.prog p).1) ∧
    ∀ s, (runs slave Waker).Reach (Lts.Any _) s → ∀ r, s.running = some r →
      (∀ buffer, r.place = .done buffer →
        Exact slave r.op r.before s.port.log buffer ∧
        ∀ latency (p : Port Waker), p.shifting = none → p.int = false → p.log = r.before →
          ((blocking slave Waker latency).eval r.op.prog p).1 = buffer ∧
          ((blocking slave Waker latency).eval r.op.prog p).2.log = s.port.log) ∧
      ∀ w, r.place = .pending w → s.port.shifting = none →
        (s.port.int = true ∧ s.port.enabled = true) ∨ s.books.Woken ∨ s.handler = .disabled := by
  refine ⟨fun latency op p hs hi => blocking_exact slave hs hi latency op, ?_⟩
  intro s hs r hr
  obtain ⟨hsound, harmed⟩ := inv_of_reach hs
  have hag : Agrees slave r s.port := by
    unfold Sys.Sound at hsound
    rw [hr] at hsound
    exact hsound
  refine ⟨fun buffer hp => ⟨hag.exact hp, ?_⟩, ?_⟩
  · intro latency p hsh hi hl
    obtain ⟨hlog, hbuf⟩ := hag.exact hp
    obtain ⟨hlog', hbuf'⟩ := blocking_exact slave hsh hi latency r.op
    rw [hl] at hlog' hbuf'
    exact ⟨hbuf'.trans hbuf.symm, hlog'.trans hlog.symm⟩
  · intro w hp hsh
    have harm := harmed r hr
    rw [hp] at harm
    -- Woken, or not yet: then the interrupt is enabled, or its handler is running.
    obtain hw | ⟨he | hh, -⟩ := harm.2 harm.1
    · exact .inr (.inl hw)
    · exact .inl ⟨hag.int_of_pending hp hsh, he⟩
    · exact .inr (.inr hh)

end Runs

/-! ## A concrete run -/

/-- A slave that answers each word with the number of words before it. -/
def counting : Slave := fun before _ => .ofNat before.length

/-- A transfer of two words into a buffer of one, polled once before each word has been shifted. -/
def twoWords : List (Sys Nat × Act Nat) × Sys Nat :=
  Lts.exec (Sys.step counting) ⟨Spi.Sys.zero.port, .idle, none, .idle⟩
    ([.begin true (.transfer [0] [7, 8]), .poll 0] ++ .replicate 7 .step ++
      [.ends, .isr, .isr, .poll 1] ++ .replicate 12 .step ++ [.ends, .poll 1] ++
      .replicate 6 .step)

theorem spi_words_two : ∃ r, twoWords.2.running = some r ∧ r.place = .done [0] ∧
    Exact counting (.transfer [0] [7, 8]) [] twoWords.2.port.log [0] := by
  have hrun : (runs counting Nat).Run ⟨Spi.Sys.zero.port, .idle, none, .idle⟩ twoWords.1
      twoWords.2 := .exec _ _ _ _
  have hreach : (runs counting Nat).Reach (Lts.Any _) twoWords.2 :=
    hrun.reach (.init ⟨rfl, rfl, rfl, rfl⟩) fun _ _ => trivial
  exact ⟨_, rfl, rfl, (((spi_words counting Nat).2 _ hreach _ rfl).1 _ rfl).1⟩

end Mc1322x.SpiAsync
