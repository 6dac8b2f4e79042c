import Mc1322x.Hal.Util
import Mc1322x.Lib.Lts
import Mc1322x.Lib.Wakeup

/-!
# The async UART driver (`mc1322x-hal/src/uart.rs`)

The async `Read` and `Write` of one UART, one future of each at a time, with the handler
`uart_isr_common`. Bytes arrive and depart at any time. The register accesses of the futures and of
the handler are single steps; while the handler runs, or a future is in a critical section, only the
hardware moves beside it. A future that is pending may be polled or dropped at any time.

* The waits of both directions are one wait (`waitStep`) with one invariant (`Sys.Armed`): the
  handler masks a direction only where it then wakes it.
* `async_lossless`: no wake is lost, the bytes read are those that arrived, and the bytes of a write
  are pushed once each, in order and where the FIFO has room.
-/

namespace Mc1322x.UartAsync

/-! ## The UART -/

/-- The directions of a UART. -/
inductive Dir where
  | rx
  | tx
  deriving DecidableEq

/-- The other direction. -/
def Dir.other : Dir → Dir
  | .rx => .tx
  | .tx => .rx

/-- A value for each direction. -/
structure Both (α : Type) where
  rx : α
  tx : α

namespace Both

variable {α : Type} (b : Both α) (a : α)

/-- The part for a direction. -/
def get : Dir → α
  | .rx => b.rx
  | .tx => b.tx

/-- The part for a direction becomes `a`. -/
def set : Dir → Both α
  | .rx => { b with rx := a }
  | .tx => { b with tx := a }

@[simp] theorem get_set_self (d : Dir) : (b.set a d).get d = a := by
  cases d <;> rfl

theorem get_set_of_ne {d d' : Dir} (h : d' ≠ d) : (b.set a d).get d' = b.get d' := by
  cases d <;> cases d' <;> first | rfl | exact (h rfl).elim

end Both

/-- The FIFOs are as deep as each other (`TX_FIFO_DEPTH`). -/
def fifoDepth : Nat := 32

/-- The UART with its FIFOs, the driver's static wakers, and the books of the waits. -/
structure Core (Waker : Type) where
  /-- `UCON_MRXR` and `UCON_MTXR`: the interrupt is masked. -/
  masked : Both Bool
  rxFifo : List UInt8
  txFifo : List UInt8
  wakers : Both (WakerCell Waker)
  books : Both (Wakeup Waker)
  /-- The bytes that have come into the RX FIFO. -/
  arrived : List UInt8
  /-- The bytes written to `UDATA`. -/
  pushed : List UInt8
  /-- The bytes that have left the TX FIFO. -/
  departed : List UInt8

namespace Core

variable {Waker : Type} (c : Core Waker)

/-- `rx_count`. -/
def rxCount : Nat := c.rxFifo.length

/-- `tx_free`. -/
def txFree : Nat := fifoDepth - c.txFifo.length

/-- What a wait is for. With a watermark of 1 (`FIFO_WATERMARK`), it is also `USTAT_RXRDY` and
`USTAT_TXRDY`. -/
def ready : Dir → Bool
  | .rx => 0 < c.rxCount
  | .tx => 0 < c.txFree

/-- `read_byte`. -/
def readByte : UInt8 × Core Waker := (c.rxFifo.headD 0, { c with rxFifo := c.rxFifo.tail })

/-- `write_byte`. A byte for a full FIFO is lost. -/
def writeByte (byte : UInt8) : Core Waker :=
  { c with
    txFifo := if c.txFifo.length < fifoDepth then c.txFifo ++ [byte] else c.txFifo
    pushed := c.pushed ++ [byte] }

/-- A poll of a wait stores the waker and unmasks the interrupt. -/
def arm (d : Dir) (cx : Waker) : Core Waker :=
  { c with
    masked := c.masked.set false d
    wakers := c.wakers.set ((c.wakers.get d).set cx) d
    books := c.books.set (.polled cx) d }

/-- The handler wakes the task in the slot of a direction. -/
def wake (d : Dir) : Core Waker :=
  { c with
    wakers := c.wakers.set (c.wakers.get d).wake.2 d
    books := c.books.set ((c.books.get d).wake (c.wakers.get d).wake.1) d }

/-- The wait of a direction is polled again or dropped. -/
def resume (d : Dir) : Core Waker := { c with books := c.books.set .idle d }

/-- The interrupt of a direction is pending. -/
def Interrupts (d : Dir) : Prop := c.masked.get d = false ∧ c.ready d = true

end Core

/-! ## The futures -/

/-- Where a future is in `wait_rx_ready` or `wait_tx_ready`. -/
inductive Wait (Waker : Type) where
  /-- In a poll, before the critical section. -/
  | poll (cx : Waker)
  /-- In the critical section, after the check. -/
  | checked (cx : Waker)
  | pending

variable {Waker : Type}

/-- A step of `wait_rx_ready` or `wait_tx_ready`; the wait is `none` where it is over. -/
def waitStep (d : Dir) (c : Core Waker) : Wait Waker → Option (Option (Wait Waker) × Core Waker)
  | .poll cx => if c.ready d then some (none, c) else some (some (.checked cx), c)
  | .checked cx => some (some .pending, c.arm d cx)
  | .pending => none

/-- Where a `Read::read` into a buffer of length `n` is. -/
inductive Reader (Waker : Type) where
  | idle
  /-- Not polled yet. -/
  | called (n : Nat)
  | begin (cx : Waker) (n : Nat)
  | waiting (w : Wait Waker) (n : Nat)
  /-- At the head of the loop, with `buf` read. -/
  | drain (n : Nat) (buf : List UInt8)
  /-- At `read_byte`. -/
  | take (n : Nat) (buf : List UInt8)

/-- A step of `Read::read`, with the bytes that it returns. -/
def readStep (c : Core Waker) :
    Reader Waker → Option (Reader Waker × Core Waker × Option (Nat × List UInt8))
  | .idle | .called _ => none
  | .begin cx n =>
    if n = 0 then some (.idle, c, some (n, []))
    else if c.rxCount = 0 then some (.waiting (.poll cx) n, c, none)
    else some (.drain n [], c, none)
  | .waiting w n =>
    match waitStep .rx c w with
    | none => none
    | some (some w', c') => some (.waiting w' n, c', none)
    | some (none, c') => some (.drain n [], c', none)
  | .drain n buf =>
    if buf.length < n ∧ 0 < c.rxCount then some (.take n buf, c, none)
    else some (.idle, c, some (n, buf))
  | .take n buf => some (.drain n (buf ++ [c.readByte.1]), c.readByte.2, none)

/-- Where a `Write::write` of `buf` is; `n` of its bytes have been pushed. -/
inductive Writer (Waker : Type) where
  | idle
  /-- Not polled yet. -/
  | called (buf : List UInt8)
  /-- At the head of the loop. -/
  | loop (cx : Waker) (buf : List UInt8) (n : Nat)
  | waiting (w : Wait Waker) (buf : List UInt8) (n : Nat)
  /-- At `write_byte`. -/
  | push (cx : Waker) (buf : List UInt8) (n : Nat)

/-- The context that a wait is polled with. -/
def Wait.context : Wait Waker → Option Waker
  | .poll cx | .checked cx => some cx
  | .pending => none

/-- A step of `Write::write`, and whether it returns. The check for an empty buffer is that of the
loop. -/
def writeStep (c : Core Waker) :
    Writer Waker → Option (Writer Waker × Core Waker × Option (List UInt8 × Nat))
  | .idle | .called _ => none
  | .loop cx buf n =>
    if n < buf.length then
      if c.txFree = 0 then some (.waiting (.poll cx) buf n, c, none)
      else some (.push cx buf n, c, none)
    else some (.idle, c, some (buf, n))
  | .waiting w buf n =>
    match waitStep .tx c w, w.context with
    | some (some w', c'), _ => some (.waiting w' buf n, c', none)
    | some (none, c'), some cx => some (.push cx buf n, c', none)
    | _, _ => none
  | .push cx buf n => some (.loop cx buf (n + 1), c.writeByte (buf.getD n 0), none)

/-! ## The handler -/

/-- Where `uart_isr_common` is, with `USTAT` as it has read it. -/
inductive Handler where
  | idle
  /-- Before it masks the interrupts. -/
  | mask (stat : Both Bool)
  | wakeRx (stat : Both Bool)
  | wakeTx (stat : Both Bool)

/-- A step of `uart_isr_common`. -/
def handlerStep (c : Core Waker) : Handler → Handler × Core Waker
  | .idle => (.mask ⟨c.ready .rx, c.ready .tx⟩, c)
  | .mask stat =>
    (.wakeRx stat,
      { c with masked := ⟨c.masked.rx || stat.rx, c.masked.tx || stat.tx⟩ })
  | .wakeRx stat => (.wakeTx stat, if stat.rx then c.wake .rx else c)
  | .wakeTx stat => (.idle, if stat.tx then c.wake .tx else c)

/-- The handler has masked a direction and is about to wake it. -/
def Handler.wakes : Handler → Dir → Bool
  | .wakeRx stat, d => stat.get d
  | .wakeTx stat, .tx => stat.tx
  | _, _ => false

/-! ## The system -/

/-- A `write` that has returned, or has been dropped after `n` bytes. -/
structure Write where
  buf : List UInt8
  n : Nat
  returned : Bool

/-- The UART with its handler, one reader and one writer. -/
structure Sys (Waker : Type) where
  core : Core Waker
  reader : Reader Waker
  writer : Writer Waker
  handler : Handler
  /-- What the reads have returned, with the lengths of their buffers. -/
  reads : List (Nat × List UInt8)
  writes : List Write

/-- What happens: bytes come and go, calls, polls and drops of the two futures, and the steps of the
handler. -/
inductive Act (Waker : Type) where
  | arrive (byte : UInt8)
  | depart
  /-- A step of the handler; when it is idle, its start. -/
  | isr
  | read (n : Nat)
  | write (buf : List UInt8)
  | poll (d : Dir) (cx : Waker)
  /-- The next step of a poll. -/
  | step (d : Dir)
  | drop (d : Dir)

namespace Sys

/-- The wait that a future is in. -/
def wait (x : Sys Waker) : Dir → Option (Wait Waker)
  | .rx => match x.reader with
    | .waiting w _ => some w
    | _ => none
  | .tx => match x.writer with
    | .waiting w _ _ => some w
    | _ => none

/-- A future is in a critical section. -/
def locked (x : Sys Waker) (d : Dir) : Bool :=
  match x.wait d with
  | some (.checked _) => true
  | _ => false

/-- Nothing keeps the future of a direction from running: neither the handler nor a critical
section of the other one. -/
def runs (x : Sys Waker) (d : Dir) : Bool :=
  match x.handler with
  | .idle => !x.locked d.other
  | _ => false

/-- A new poll, of a future that has not been polled yet or is pending. -/
def poll (x : Sys Waker) (cx : Waker) : Dir → Option (Sys Waker)
  | .rx => match x.reader with
    | .called n => some { x with reader := .begin cx n }
    | .waiting .pending n =>
      some { x with reader := .waiting (.poll cx) n, core := x.core.resume .rx }
    | _ => none
  | .tx => match x.writer with
    | .called buf => some { x with writer := .loop cx buf 0 }
    | .waiting .pending buf n =>
      some { x with writer := .waiting (.poll cx) buf n, core := x.core.resume .tx }
    | _ => none

/-- The next access of a poll. -/
def advance (x : Sys Waker) : Dir → Option (Sys Waker)
  | .rx => (readStep x.core x.reader).map fun (reader, core, result) =>
    { x with reader, core, reads := x.reads ++ result.toList }
  | .tx => (writeStep x.core x.writer).map fun (writer, core, result) =>
    { x with writer, core, writes := x.writes ++ result.toList.map fun r => ⟨r.1, r.2, true⟩ }

/-- A future is dropped between its polls; `none`: there is none. -/
def drop (x : Sys Waker) : Dir → Option (Sys Waker)
  | .rx => match x.reader with
    | .called _ => some { x with reader := .idle }
    | .waiting .pending _ => some { x with reader := .idle, core := x.core.resume .rx }
    | _ => none
  | .tx => match x.writer with
    | .called buf => some { x with writer := .idle, writes := x.writes ++ [⟨buf, 0, false⟩] }
    | .waiting .pending buf n =>
      some { x with
        writer := .idle
        core := x.core.resume .tx
        writes := x.writes ++ [⟨buf, n, false⟩] }
    | _ => none

/-- One step; `none`: not possible. -/
def step (x : Sys Waker) : Act Waker → Option (Sys Waker)
  | .arrive byte =>
    if x.core.rxFifo.length < fifoDepth then
      some { x with core := { x.core with
        rxFifo := x.core.rxFifo ++ [byte]
        arrived := x.core.arrived ++ [byte] } }
    else none
  | .depart => match x.core.txFifo with
    | [] => none
    | byte :: rest => some { x with core := { x.core with
        txFifo := rest
        departed := x.core.departed ++ [byte] } }
  | .isr =>
    if x.locked .rx || x.locked .tx then none
    else
      let (handler, core) := handlerStep x.core x.handler
      some { x with handler, core }
  | .read n => match x.reader with
    | .idle => some { x with reader := .called n }
    | _ => none
  | .write buf => match x.writer with
    | .idle => some { x with writer := .called buf }
    | _ => none
  | .poll d cx => if x.runs d then x.poll cx d else none
  | .step d => if x.runs d then x.advance d else none
  | .drop d => if x.runs d then x.drop d else none

end Sys

/-! ## The waits -/

/-- A step leaves the interrupt, the waker and the books of a direction alone. -/
structure Core.Kept (d : Dir) (c c' : Core Waker) : Prop where
  masked : c'.masked.get d = c.masked.get d
  wakers : c'.wakers.get d = c.wakers.get d
  books : c'.books.get d = c.books.get d

theorem Core.Kept.refl (d : Dir) (c : Core Waker) : c.Kept d c := ⟨rfl, rfl, rfl⟩

theorem Core.Kept.arm {d d' : Dir} (h : d' ≠ d) (c : Core Waker) (cx : Waker) :
    c.Kept d' (c.arm d cx) :=
  ⟨Both.get_set_of_ne _ _ h, Both.get_set_of_ne _ _ h, Both.get_set_of_ne _ _ h⟩

theorem Core.Kept.resume {d d' : Dir} (h : d' ≠ d) (c : Core Waker) : c.Kept d' (c.resume d) :=
  ⟨rfl, rfl, Both.get_set_of_ne _ _ h⟩

theorem waitStep_spec {d : Dir} {c c' : Core Waker} {w : Wait Waker} {w' : Option (Wait Waker)}
    (h : waitStep d c w = some (w', c')) :
    (∃ cx, c' = c.arm d cx) ∨ c' = c ∧ w' ≠ some .pending := by
  cases w with
  | poll cx =>
    simp only [waitStep] at h
    split at h <;> cases h <;> exact .inr ⟨rfl, nofun⟩
  | checked cx =>
    cases h
    exact .inl ⟨cx, rfl⟩
  | pending => cases h

/-- A step of a read in its wait: the wait goes on, or it is over. -/
theorem readStep_waiting {c c' : Core Waker} {r' : Reader Waker} {res : Option (Nat × List UInt8)}
    {w : Wait Waker} {n : Nat} (h : readStep c (.waiting w n) = some (r', c', res)) :
    res = none ∧ ((∃ w', waitStep .rx c w = some (some w', c') ∧ r' = .waiting w' n) ∨
      waitStep .rx c w = some (none, c') ∧ r' = .drain n []) := by
  simp only [readStep] at h
  split at h <;> cases h
  · rename_i w' hw
    exact ⟨rfl, .inl ⟨w', hw, rfl⟩⟩
  · rename_i hw
    exact ⟨rfl, .inr ⟨hw, rfl⟩⟩

theorem writeStep_waiting {c c' : Core Waker} {r' : Writer Waker} {res : Option (List UInt8 × Nat)}
    {w : Wait Waker} {buf : List UInt8} {n : Nat}
    (h : writeStep c (.waiting w buf n) = some (r', c', res)) :
    res = none ∧ ((∃ w', waitStep .tx c w = some (some w', c') ∧ r' = .waiting w' buf n) ∨
      waitStep .tx c w = some (none, c') ∧ ∃ cx, r' = .push cx buf n) := by
  simp only [writeStep] at h
  split at h <;> cases h
  · rename_i w' hw
    exact ⟨rfl, .inl ⟨w', hw, rfl⟩⟩
  · rename_i cx _ hw
    exact ⟨rfl, .inr ⟨hw, cx, rfl⟩⟩

/-- A step of a future arms its wait, or leaves the waits alone and does not end in a pending one. -/
theorem readStep_waits {c c' : Core Waker} {r r' : Reader Waker} {res : Option (Nat × List UInt8)}
    (h : readStep c r = some (r', c', res)) :
    (∃ cx, c' = c.arm .rx cx) ∨ (∀ d, c.Kept d c') ∧ ∀ n, r' ≠ .waiting .pending n := by
  cases r with
  | idle | called n => cases h
  | begin cx n =>
    simp only [readStep] at h
    split at h
    · cases h
      exact .inr ⟨fun d => .refl d c, nofun⟩
    split at h <;> cases h <;> exact .inr ⟨fun d => .refl d c, nofun⟩
  | waiting w n =>
    obtain ⟨-, ⟨w', hw, rfl⟩ | ⟨hw, rfl⟩⟩ := readStep_waiting h
    · obtain ha | ⟨rfl, hne⟩ := waitStep_spec hw
      · exact .inl ha
      · refine .inr ⟨fun d => .refl d _, ?_⟩
        rintro _ ⟨⟩
        exact hne rfl
    · obtain ha | ⟨rfl, -⟩ := waitStep_spec hw
      · exact .inl ha
      · exact .inr ⟨fun d => .refl d _, nofun⟩
  | drain n buf =>
    simp only [readStep] at h
    split at h <;> cases h <;> exact .inr ⟨fun d => .refl d c, nofun⟩
  | take n buf =>
    cases h
    exact .inr ⟨fun d => ⟨rfl, rfl, rfl⟩, nofun⟩

theorem writeStep_waits {c c' : Core Waker} {r r' : Writer Waker} {res : Option (List UInt8 × Nat)}
    (h : writeStep c r = some (r', c', res)) :
    (∃ cx, c' = c.arm .tx cx) ∨ (∀ d, c.Kept d c') ∧ ∀ buf n, r' ≠ .waiting .pending buf n := by
  cases r with
  | idle | called n => cases h
  | loop cx buf n =>
    simp only [writeStep] at h
    split at h
    · split at h <;> cases h <;> exact .inr ⟨fun d => .refl d c, nofun⟩
    · cases h
      exact .inr ⟨fun d => .refl d c, nofun⟩
  | waiting w buf n =>
    obtain ⟨-, ⟨w', hw, rfl⟩ | ⟨hw, cx, rfl⟩⟩ := writeStep_waiting h
    · obtain ha | ⟨rfl, hne⟩ := waitStep_spec hw
      · exact .inl ha
      · refine .inr ⟨fun d => .refl d _, ?_⟩
        rintro _ _ ⟨⟩
        exact hne rfl
    · obtain ha | ⟨rfl, -⟩ := waitStep_spec hw
      · exact .inl ha
      · exact .inr ⟨fun d => .refl d _, nofun⟩
  | push cx buf n =>
    cases h
    exact .inr ⟨fun d => ⟨rfl, rfl, rfl⟩, nofun⟩

namespace Sys

variable {x x' : Sys Waker} {d : Dir}

/-- A future that is pending has been woken, or is in the slot with its interrupt unmasked, or the
handler is about to wake it. -/
def Armed (x : Sys Waker) (d : Dir) : Prop :=
  x.wait d = some .pending → (x.core.books.get d).pending ≠ none ∧
    (x.core.books.get d).NotLost
      (x.core.masked.get d = false ∨ x.handler.wakes d = true) (x.core.wakers.get d).slot

theorem Armed.of_not_pending (h : x.wait d ≠ some .pending) : x.Armed d := fun hw => (h hw).elim

theorem Armed.frame (hx : x.Armed d) (hwk : x'.core.wakers.get d = x.core.wakers.get d)
    (hb : x'.core.books.get d = x.core.books.get d) (hw : x'.wait d = x.wait d)
    (hh : x.core.masked.get d = false ∨ x.handler.wakes d = true →
      x'.core.masked.get d = false ∨ x'.handler.wakes d = true) : x'.Armed d := by
  intro hp
  obtain ⟨hne, hn⟩ := hx (hw ▸ hp)
  rw [hb, hwk]
  exact ⟨hne, hn.mono hh⟩

/-- The same, for a step that leaves the handler alone. -/
theorem Armed.keep (hx : x.Armed d) (hc : x.core.Kept d x'.core) (hw : x'.wait d = x.wait d)
    (hh : x'.handler = x.handler) : x'.Armed d :=
  hx.frame hc.wakers hc.books hw fun h => by rwa [hc.masked, hh]

/-- The handler wakes a direction. -/
theorem Armed.wake (hx : x.Armed d) (hc : x'.core = x.core.wake d)
    (hw : x'.wait d = x.wait d) : x'.Armed d := by
  intro hp
  obtain ⟨hne, hn⟩ := hx (hw ▸ hp)
  rw [hc]
  simp only [Core.wake, Both.get_set_self]
  exact ⟨hne, hn.wake⟩

theorem armed_arm (x : Sys Waker) (d : Dir) (cx : Waker) (hx' : x'.core = x.core.arm d cx) :
    x'.Armed d := by
  intro _
  rw [hx']
  simp only [Core.arm, Both.get_set_self]
  exact ⟨Option.some_ne_none _, Wakeup.notLost_polled (.inl trivial)⟩

theorem Armed.advance {e : Dir} (hx : ∀ d, x.Armed d) (h : x.advance e = some x') :
    ∀ d, x'.Armed d := by
  intro d
  cases e with
  | rx =>
    obtain ⟨⟨r', c', res⟩, hr, rfl⟩ := Option.map_eq_some_iff.mp h
    obtain ⟨cx, hc⟩ | ⟨hk, hp⟩ := readStep_waits hr
    · cases d with
      | rx => exact armed_arm x .rx cx hc
      | tx => exact (hx .tx).keep (hc ▸ .arm (by decide) _ _) rfl rfl
    · cases d with
      | rx =>
        refine .of_not_pending fun hw => ?_
        cases r' <;> cases hw
        -- A step that does not arm the wait does not end in a pending one either.
        exact hp _ rfl
      | tx => exact (hx .tx).keep (hk .tx) rfl rfl
  | tx =>
    obtain ⟨⟨r', c', res⟩, hr, rfl⟩ := Option.map_eq_some_iff.mp h
    obtain ⟨cx, hc⟩ | ⟨hk, hp⟩ := writeStep_waits hr
    · cases d with
      | tx => exact armed_arm x .tx cx hc
      | rx => exact (hx .rx).keep (hc ▸ .arm (by decide) _ _) rfl rfl
    · cases d with
      | tx =>
        refine .of_not_pending fun hw => ?_
        cases r' <;> cases hw
        exact hp _ _ rfl
      | rx => exact (hx .rx).keep (hk .rx) rfl rfl

/-- What a new poll and a drop do: the future of the direction is no longer pending. -/
structure Resumes (x x' : Sys Waker) (e : Dir) : Prop where
  core : x'.core = x.core ∨ x'.core = x.core.resume e
  wait : x'.wait e ≠ some .pending
  other : x'.wait e.other = x.wait e.other
  handler : x'.handler = x.handler

theorem poll_resumes {e : Dir} {cx : Waker} (h : x.poll cx e = some x') : x.Resumes x' e := by
  cases e with
  | rx =>
    cases hr : x.reader with
    | called n =>
      simp only [Sys.poll, hr] at h
      cases h
      exact ⟨.inl rfl, nofun, rfl, rfl⟩
    | waiting w n =>
      cases w <;> simp only [Sys.poll, hr, reduceCtorEq] at h
      cases h
      exact ⟨.inr rfl, nofun, rfl, rfl⟩
    | idle | begin | drain | take => simp only [Sys.poll, hr, reduceCtorEq] at h
  | tx =>
    cases hr : x.writer with
    | called buf =>
      simp only [Sys.poll, hr] at h
      cases h
      exact ⟨.inl rfl, nofun, rfl, rfl⟩
    | waiting w buf n =>
      cases w <;> simp only [Sys.poll, hr, reduceCtorEq] at h
      cases h
      exact ⟨.inr rfl, nofun, rfl, rfl⟩
    | idle | loop | push => simp only [Sys.poll, hr, reduceCtorEq] at h

theorem drop_resumes {e : Dir} (h : x.drop e = some x') : x.Resumes x' e := by
  cases e with
  | rx =>
    cases hr : x.reader with
    | called n =>
      simp only [Sys.drop, hr] at h
      cases h
      exact ⟨.inl rfl, nofun, rfl, rfl⟩
    | waiting w n =>
      cases w <;> simp only [Sys.drop, hr, reduceCtorEq] at h
      cases h
      exact ⟨.inr rfl, nofun, rfl, rfl⟩
    | idle | begin | drain | take => simp only [Sys.drop, hr, reduceCtorEq] at h
  | tx =>
    cases hr : x.writer with
    | called buf =>
      simp only [Sys.drop, hr] at h
      cases h
      exact ⟨.inl rfl, nofun, rfl, rfl⟩
    | waiting w buf n =>
      cases w <;> simp only [Sys.drop, hr, reduceCtorEq] at h
      cases h
      exact ⟨.inr rfl, nofun, rfl, rfl⟩
    | idle | loop | push => simp only [Sys.drop, hr, reduceCtorEq] at h

theorem Armed.resume {e : Dir} (hx : ∀ d, x.Armed d) (h : x.Resumes x' e) : ∀ d, x'.Armed d := by
  intro d
  by_cases hd : d = e
  · rw [hd]
    exact .of_not_pending h.wait
  · obtain rfl : d = e.other := by
      cases d <;> cases e <;> first | rfl | exact (hd rfl).elim
    refine (hx _).keep ?_ h.other h.handler
    obtain hc | hc := h.core
    · rw [hc]
      exact .refl _ _
    · rw [hc]
      exact .resume hd _

theorem Armed.handler (hx : ∀ d, x.Armed d) : ∀ d, Armed { x with
    handler := (handlerStep x.core x.handler).1
    core := (handlerStep x.core x.handler).2 } d := by
  obtain ⟨core, reader, writer, handler, reads, writes⟩ := x
  intro d
  have hd := hx d
  cases handler with
  | idle => exact hd.frame rfl rfl rfl fun h => .inl (h.resolve_right nofun)
  | mask stat =>
    -- A direction is masked only if its flag has been read, and then it is woken.
    refine hd.frame rfl rfl rfl fun h => ?_
    have hm : core.masked.get d = false := h.resolve_right nofun
    cases hs : stat.get d with
    | true => exact .inr hs
    | false =>
      left
      cases d with
      | rx => exact Bool.or_eq_false_iff.mpr ⟨hm, hs⟩
      | tx => exact Bool.or_eq_false_iff.mpr ⟨hm, hs⟩
  | wakeRx stat =>
    cases hs : stat.rx with
    | true =>
      simp only [handlerStep, hs]
      cases d with
      | rx => exact hd.wake rfl rfl
      | tx => exact hd.frame rfl rfl rfl id
    | false =>
      simp only [handlerStep, hs]
      refine hd.frame rfl rfl rfl ?_
      cases d with
      | rx => exact fun h => .inl (h.resolve_right fun hw => Bool.false_ne_true (hs.symm.trans hw))
      | tx => exact id
  | wakeTx stat =>
    cases hs : stat.tx with
    | true =>
      simp only [handlerStep, hs]
      cases d with
      | tx => exact hd.wake rfl rfl
      | rx => exact hd.frame rfl rfl rfl id
    | false =>
      simp only [handlerStep, hs]
      refine hd.frame rfl rfl rfl ?_
      cases d with
      | tx => exact fun h => .inl (h.resolve_right fun hw => Bool.false_ne_true (hs.symm.trans hw))
      | rx => exact id

theorem Armed.step {a : Act Waker} (hx : ∀ d, x.Armed d) (h : x.step a = some x') :
    ∀ d, x'.Armed d := by
  cases a with
  | arrive byte =>
    simp only [Sys.step] at h
    split at h <;> cases h
    exact fun d => (hx d).keep ⟨rfl, rfl, rfl⟩ (by cases d <;> rfl) rfl
  | depart =>
    simp only [Sys.step] at h
    split at h <;> cases h
    exact fun d => (hx d).keep ⟨rfl, rfl, rfl⟩ (by cases d <;> rfl) rfl
  | isr =>
    simp only [Sys.step] at h
    split at h <;> cases h
    exact Armed.handler hx
  | read n =>
    cases hr : x.reader <;> simp only [Sys.step, hr, reduceCtorEq] at h
    cases h
    exact .resume (e := .rx) hx ⟨.inl rfl, nofun, rfl, rfl⟩
  | write buf =>
    cases hr : x.writer <;> simp only [Sys.step, hr, reduceCtorEq] at h
    cases h
    exact .resume (e := .tx) hx ⟨.inl rfl, nofun, rfl, rfl⟩
  | poll e cx =>
    simp only [Sys.step] at h
    split at h
    · exact .resume hx (poll_resumes h)
    · cases h
  | step e =>
    simp only [Sys.step] at h
    split at h
    · exact .advance hx h
    · cases h
  | drop e =>
    simp only [Sys.step] at h
    split at h
    · exact .resume hx (drop_resumes h)
    · cases h

end Sys

/-! ## The bytes read -/

/-- The FIFOs and the bytes that they have moved are the same. -/
structure Core.SameFifos (c c' : Core Waker) : Prop where
  rxFifo : c'.rxFifo = c.rxFifo
  arrived : c'.arrived = c.arrived
  txFifo : c'.txFifo = c.txFifo
  pushed : c'.pushed = c.pushed
  departed : c'.departed = c.departed

theorem Core.SameFifos.refl (c : Core Waker) : c.SameFifos c := ⟨rfl, rfl, rfl, rfl, rfl⟩

theorem Core.sameFifos_arm (c : Core Waker) (d : Dir) (cx : Waker) : c.SameFifos (c.arm d cx) :=
  ⟨rfl, rfl, rfl, rfl, rfl⟩

theorem Core.sameFifos_wake (c : Core Waker) (d : Dir) : c.SameFifos (c.wake d) :=
  ⟨rfl, rfl, rfl, rfl, rfl⟩

theorem waitStep_fifos {d : Dir} {c c' : Core Waker} {w : Wait Waker} {w' : Option (Wait Waker)}
    (h : waitStep d c w = some (w', c')) :
    c.SameFifos c' ∧ (w' = none → c.ready d = true) := by
  cases w with
  | poll cx =>
    simp only [waitStep] at h
    split at h
    · rename_i hready
      cases h
      exact ⟨.refl _, fun _ => hready⟩
    · cases h
      exact ⟨.refl _, nofun⟩
  | checked cx =>
    cases h
    exact ⟨c.sameFifos_arm d cx, nofun⟩
  | pending => cases h

/-- The bytes that a read has taken from the FIFO. -/
def Reader.got : Reader Waker → List UInt8
  | .drain _ buf | .take _ buf => buf
  | _ => []

/-- A read comes to its loop with a byte in the FIFO, and only it takes bytes. -/
def Reader.Ok (c : Core Waker) : Reader Waker → Prop
  | .waiting _ n => 0 < n
  | .drain n buf => buf.length ≤ n ∧ (buf = [] → 0 < n ∧ c.rxFifo ≠ [])
  | .take n buf => buf.length < n ∧ c.rxFifo ≠ []
  | _ => True

/-- A read fills its buffer in part, and not at all only if it is empty. -/
def Filled (r : Nat × List UInt8) : Prop := r.2.length ≤ r.1 ∧ (0 < r.1 → r.2 ≠ [])

/-- What holds of the reader between any two steps: no byte is lost, doubled or out of order. -/
structure ReadInv (c : Core Waker) (r : Reader Waker) (reads : List (Nat × List UInt8)) :
    Prop where
  ok : r.Ok c
  bytes : reads.flatMap Prod.snd ++ r.got ++ c.rxFifo = c.arrived
  filled : ∀ r ∈ reads, Filled r

section Reading

variable {c c' : Core Waker} {r r' : Reader Waker} {reads : List (Nat × List UInt8)}

theorem rxCount_pos : 0 < c.rxCount ↔ c.rxFifo ≠ [] := List.length_pos_iff

theorem ReadInv.frame (h : ReadInv c r reads) (hf : c'.rxFifo = c.rxFifo)
    (ha : c'.arrived = c.arrived) : ReadInv c' r reads where
  ok := by
    have ho := h.ok
    cases r <;> simp only [Reader.Ok, hf] at ho ⊢ <;> exact ho
  bytes := by
    rw [hf, ha]
    exact h.bytes
  filled := h.filled

theorem ReadInv.resume (h : ReadInv c r reads) (d : Dir) : ReadInv (c.resume d) r reads :=
  h.frame rfl rfl

/-- The future of a read moves on without a byte. -/
theorem ReadInv.move (h : ReadInv c r reads) (hr : r'.Ok c) (hg : r'.got = r.got) :
    ReadInv c r' reads where
  ok := hr
  bytes := by
    rw [hg]
    exact h.bytes
  filled := h.filled

theorem ReadInv.arrive (h : ReadInv c r reads) (byte : UInt8) : ReadInv { c with
    rxFifo := c.rxFifo ++ [byte], arrived := c.arrived ++ [byte] } r reads where
  ok := by
    have ho := h.ok
    have hne : c.rxFifo ++ [byte] ≠ [] := List.concat_ne_nil _ _
    cases r with
    | drain n buf => exact ⟨ho.1, fun hb => ⟨(ho.2 hb).1, hne⟩⟩
    | take n buf => exact ⟨ho.1, hne⟩
    | _ => exact ho
  bytes := by
    rw [← h.bytes, List.append_assoc _ c.rxFifo]
  filled := h.filled

/-- A read returns. -/
theorem ReadInv.finish {n : Nat} {buf : List UInt8} (h : ReadInv c r reads) (hg : r.got = buf)
    (hf : Filled (n, buf)) : ReadInv c .idle (reads ++ [(n, buf)]) where
  ok := trivial
  bytes := by
    rw [← h.bytes, hg]
    simp [Reader.got]
  filled := by
    intro r hr
    obtain hr | hr := List.mem_append.mp hr
    · exact h.filled r hr
    · rw [List.mem_singleton.mp hr]
      exact hf

/-- A step after which the read goes on. -/
theorem ReadInv.unreturned (h : ReadInv c r reads) :
    ReadInv c r (reads ++ (none : Option (Nat × List UInt8)).toList) := by
  rw [Option.toList_none, List.append_nil]
  exact h

theorem ReadInv.step {res : Option (Nat × List UInt8)} (h : ReadInv c r reads)
    (hst : readStep c r = some (r', c', res)) : ReadInv c' r' (reads ++ res.toList) := by
  cases r with
  | idle | called n => cases hst
  | begin cx n =>
    simp only [readStep] at hst
    split at hst
    · rename_i hn
      cases hst
      exact h.finish rfl ⟨Nat.zero_le _, fun hpos => by omega⟩
    rename_i hn
    have hn := Nat.pos_of_ne_zero hn
    split at hst
    · cases hst
      apply ReadInv.unreturned
      exact h.move hn rfl
    · rename_i hc
      cases hst
      apply ReadInv.unreturned
      exact h.move ⟨Nat.zero_le _, fun _ => ⟨hn, rxCount_pos.mp (Nat.pos_of_ne_zero hc)⟩⟩ rfl
  | waiting w n =>
    have hn : 0 < n := h.ok
    obtain ⟨rfl, hw⟩ := readStep_waiting hst
    apply ReadInv.unreturned
    obtain ⟨w', hw, rfl⟩ | ⟨hw, rfl⟩ := hw
    · obtain ⟨hs, -⟩ := waitStep_fifos hw
      exact (h.frame hs.rxFifo hs.arrived).move hn rfl
    · obtain ⟨hs, hready⟩ := waitStep_fifos hw
      refine (h.frame hs.rxFifo hs.arrived).move ⟨Nat.zero_le _, fun _ => ⟨hn, ?_⟩⟩ rfl
      rw [hs.rxFifo]
      exact rxCount_pos.mp (of_decide_eq_true (hready rfl))
  | drain n buf =>
    obtain ⟨hlen, hnil⟩ := h.ok
    simp only [readStep] at hst
    split at hst
    · rename_i hc
      cases hst
      apply ReadInv.unreturned
      exact h.move ⟨hc.1, rxCount_pos.mp hc.2⟩ rfl
    · rename_i hc
      cases hst
      refine h.finish rfl ⟨hlen, fun hpos => ?_⟩
      rintro rfl
      exact hc ⟨hpos, rxCount_pos.mpr (hnil rfl).2⟩
  | take n buf =>
    obtain ⟨hlen, hne⟩ := h.ok
    cases hst
    apply ReadInv.unreturned
    refine ⟨⟨?_, fun hb => (List.concat_ne_nil _ _ hb).elim⟩, ?_, h.filled⟩
    · rw [List.length_append, List.length_singleton]
      exact hlen
    · obtain ⟨byte, rest, hf⟩ := List.exists_cons_of_ne_nil hne
      -- The byte goes from the FIFO into the buffer: the received bytes are the same.
      have hb := h.bytes
      simp only [Reader.got, hf] at hb
      simp [Reader.got, Core.readByte, hf, ← hb]

theorem readStep_tx {res : Option (Nat × List UInt8)} (h : readStep c r = some (r', c', res)) :
    c'.txFifo = c.txFifo ∧ c'.pushed = c.pushed ∧ c'.departed = c.departed := by
  cases r with
  | idle | called n => cases h
  | begin cx n =>
    simp only [readStep] at h
    split at h
    · cases h
      exact ⟨rfl, rfl, rfl⟩
    split at h <;> cases h <;> exact ⟨rfl, rfl, rfl⟩
  | waiting w n =>
    obtain ⟨-, ⟨_, hw, -⟩ | ⟨hw, -⟩⟩ := readStep_waiting h
    · have hs := (waitStep_fifos hw).1
      exact ⟨hs.txFifo, hs.pushed, hs.departed⟩
    · have hs := (waitStep_fifos hw).1
      exact ⟨hs.txFifo, hs.pushed, hs.departed⟩
  | drain n buf =>
    simp only [readStep] at h
    split at h <;> cases h <;> exact ⟨rfl, rfl, rfl⟩
  | take n buf =>
    cases h
    exact ⟨rfl, rfl, rfl⟩

end Reading

/-! ## The bytes written -/

/-- The bytes that a write has pushed. -/
def Writer.pushed : Writer Waker → List UInt8
  | .loop _ buf n | .waiting _ buf n | .push _ buf n => buf.take n
  | _ => []

/-- The bytes of a write that have been put into the FIFO. -/
def Write.pushed (w : Write) : List UInt8 := w.buf.take w.n

/-- A write comes to `write_byte` with room in the FIFO, and only it fills the FIFO. -/
def Writer.Ok (c : Core Waker) : Writer Waker → Prop
  | .loop _ buf n => n ≤ buf.length
  | .waiting _ buf n => n < buf.length
  | .push _ buf n => n < buf.length ∧ 0 < c.txFree
  | _ => True

/-- What holds of the writer between any two steps: the bytes of the writes, in order, and nothing
else, have gone into the FIFO. -/
structure WriteInv (before : List UInt8) (c : Core Waker) (r : Writer Waker)
    (writes : List Write) : Prop where
  ok : r.Ok c
  fifo : c.departed ++ c.txFifo = before ++ c.pushed
  bytes : writes.flatMap Write.pushed ++ r.pushed = c.pushed
  whole : ∀ w ∈ writes, w.n ≤ w.buf.length ∧ (w.returned = true → w.n = w.buf.length)

section Writing

variable {before : List UInt8} {c c' : Core Waker} {r r' : Writer Waker} {writes : List Write}

theorem WriteInv.frame (h : WriteInv before c r writes) (hf : c'.txFifo = c.txFifo)
    (hp : c'.pushed = c.pushed) (hd : c'.departed = c.departed) : WriteInv before c' r writes where
  ok := by
    have ho := h.ok
    cases r <;> simp only [Writer.Ok, Core.txFree, hf] at ho ⊢ <;> exact ho
  fifo := by
    rw [hf, hp, hd]
    exact h.fifo
  bytes := by
    rw [hp]
    exact h.bytes
  whole := h.whole

theorem WriteInv.resume (h : WriteInv before c r writes) (d : Dir) :
    WriteInv before (c.resume d) r writes :=
  h.frame rfl rfl rfl

theorem WriteInv.move (h : WriteInv before c r writes) (hr : r'.Ok c)
    (hg : r'.pushed = r.pushed) : WriteInv before c r' writes where
  ok := hr
  fifo := h.fifo
  bytes := by
    rw [hg]
    exact h.bytes
  whole := h.whole

theorem WriteInv.depart {byte : UInt8} {rest : List UInt8} (h : WriteInv before c r writes)
    (hf : c.txFifo = byte :: rest) : WriteInv before { c with
      txFifo := rest, departed := c.departed ++ [byte] } r writes where
  ok := by
    have ho := h.ok
    cases r with
    | push cx buf n =>
      refine ⟨ho.1, ?_⟩
      have hroom := ho.2
      simp only [Core.txFree, hf, List.length_cons] at hroom ⊢
      omega
    | _ => exact ho
  fifo := by
    rw [← h.fifo, hf, List.append_assoc]
    rfl
  bytes := h.bytes
  whole := h.whole

/-- A write returns or is dropped. -/
theorem WriteInv.finish {w : Write} (h : WriteInv before c r writes) (hp : r.pushed = w.pushed)
    (hw : w.n ≤ w.buf.length ∧ (w.returned = true → w.n = w.buf.length)) :
    WriteInv before c .idle (writes ++ [w]) where
  ok := trivial
  fifo := h.fifo
  bytes := by
    rw [← h.bytes, hp]
    simp [Writer.pushed]
  whole := by
    intro v hv
    obtain hv | hv := List.mem_append.mp hv
    · exact h.whole v hv
    · rw [List.mem_singleton.mp hv]
      exact hw

/-- A step after which the write goes on. -/
theorem WriteInv.unreturned (h : WriteInv before c r writes) : WriteInv before c r
    (writes ++ (none : Option (List UInt8 × Nat)).toList.map fun r => ⟨r.1, r.2, true⟩) := by
  rw [Option.toList_none, List.map_nil, List.append_nil]
  exact h

theorem WriteInv.step {res : Option (List UInt8 × Nat)} (h : WriteInv before c r writes)
    (hst : writeStep c r = some (r', c', res)) :
    WriteInv before c' r' (writes ++ res.toList.map fun r => ⟨r.1, r.2, true⟩) := by
  cases r with
  | idle | called n => cases hst
  | loop cx buf n =>
    have hn : n ≤ buf.length := h.ok
    simp only [writeStep] at hst
    split at hst
    · rename_i hlt
      split at hst
      · cases hst
        apply WriteInv.unreturned
        exact h.move hlt rfl
      · rename_i hfree
        cases hst
        apply WriteInv.unreturned
        exact h.move ⟨hlt, Nat.pos_of_ne_zero hfree⟩ rfl
    · rename_i hge
      cases hst
      exact h.finish rfl ⟨hn, fun _ => Nat.le_antisymm hn (Nat.le_of_not_lt hge)⟩
  | waiting w buf n =>
    have hn : n < buf.length := h.ok
    obtain ⟨rfl, hw⟩ := writeStep_waiting hst
    apply WriteInv.unreturned
    obtain ⟨w', hw, rfl⟩ | ⟨hw, cx, rfl⟩ := hw
    · obtain ⟨hs, -⟩ := waitStep_fifos hw
      exact (h.frame hs.txFifo hs.pushed hs.departed).move hn rfl
    · obtain ⟨hs, hready⟩ := waitStep_fifos hw
      refine (h.frame hs.txFifo hs.pushed hs.departed).move ⟨hn, ?_⟩ rfl
      unfold Core.txFree
      rw [hs.txFifo]
      exact of_decide_eq_true (hready rfl)
  | push cx buf n =>
    obtain ⟨hn, hfree⟩ := h.ok
    -- The slot was free before, and only this future fills slots.
    have hroom : c.txFifo.length < fifoDepth := by
      unfold Core.txFree at hfree
      omega
    cases hst
    apply WriteInv.unreturned
    refine ⟨Nat.succ_le_of_lt hn, ?_, ?_, h.whole⟩
    · simp only [Core.writeByte, if_pos hroom]
      rw [← List.append_assoc, ← List.append_assoc, h.fifo]
    · have hb : writes.flatMap Write.pushed ++ buf.take n = c.pushed := h.bytes
      have hg : buf.getD n 0 = buf[n] := by simp [hn]
      simp only [Core.writeByte, Writer.pushed, ← hb, hg, List.append_assoc,
        List.take_succ_eq_append_getElem hn]

theorem writeStep_rx {res : Option (List UInt8 × Nat)} (h : writeStep c r = some (r', c', res)) :
    c'.rxFifo = c.rxFifo ∧ c'.arrived = c.arrived := by
  cases r with
  | idle | called n => cases h
  | loop cx buf n =>
    simp only [writeStep] at h
    split at h
    · split at h <;> cases h <;> exact ⟨rfl, rfl⟩
    · cases h
      exact ⟨rfl, rfl⟩
  | waiting w buf n =>
    obtain ⟨-, ⟨_, hw, -⟩ | ⟨hw, -⟩⟩ := writeStep_waiting h
    · have hs := (waitStep_fifos hw).1
      exact ⟨hs.rxFifo, hs.arrived⟩
    · have hs := (waitStep_fifos hw).1
      exact ⟨hs.rxFifo, hs.arrived⟩
  | push cx buf n =>
    cases h
    exact ⟨rfl, rfl⟩

end Writing

/-! ## Runs -/

/-- The UART as `Uart::new` leaves it, or with what an earlier driver left in the FIFOs, the slots
and the masks. -/
def Sys.Init (before : List UInt8) (x : Sys Waker) : Prop :=
  x.reader = .idle ∧ x.writer = .idle ∧ x.handler = .idle ∧ x.reads = [] ∧ x.writes = [] ∧
    x.core.arrived = x.core.rxFifo ∧ x.core.txFifo = before ∧ x.core.pushed = [] ∧
    x.core.departed = []

/-- The runs of a UART, with the bytes `before` in the TX FIFO. -/
def asyncRuns (Waker : Type) (before : List UInt8) : Lts :=
  .ofStep (Sys.Init before : Sys Waker → Prop) Sys.step

namespace Sys

variable {before : List UInt8} {x x' : Sys Waker}

/-- What holds of the bytes. -/
structure Inv (before : List UInt8) (x : Sys Waker) : Prop where
  read : ReadInv x.core x.reader x.reads
  write : WriteInv before x.core x.writer x.writes

theorem Inv.advance {d : Dir} (hx : x.Inv before) (h : x.advance d = some x') :
    x'.Inv before := by
  cases d with
  | rx =>
    obtain ⟨⟨r', c', res⟩, hr, rfl⟩ := Option.map_eq_some_iff.mp h
    obtain ⟨hf, hp, hd⟩ := readStep_tx hr
    exact ⟨hx.read.step hr, hx.write.frame hf hp hd⟩
  | tx =>
    obtain ⟨⟨r', c', res⟩, hr, rfl⟩ := Option.map_eq_some_iff.mp h
    obtain ⟨hf, ha⟩ := writeStep_rx hr
    exact ⟨hx.read.frame hf ha, hx.write.step hr⟩

theorem Inv.poll {d : Dir} {cx : Waker} (hx : x.Inv before) (h : x.poll cx d = some x') :
    x'.Inv before := by
  obtain ⟨core, reader, writer, handler, reads, writes⟩ := x
  have hread : ReadInv core reader reads := hx.read
  have hwrite : WriteInv before core writer writes := hx.write
  cases d with
  | rx =>
    cases reader with
    | called n =>
      cases h
      exact ⟨hread.move trivial rfl, hwrite⟩
    | waiting w n =>
      cases w <;> cases h
      exact ⟨(hread.resume .rx).move hread.ok rfl, hwrite.resume .rx⟩
    | idle | begin | drain | take => cases h
  | tx =>
    cases writer with
    | called buf =>
      cases h
      exact ⟨hread, hwrite.move (Nat.zero_le _) rfl⟩
    | waiting w buf n =>
      cases w <;> cases h
      exact ⟨hread.resume .tx, (hwrite.resume .tx).move hwrite.ok rfl⟩
    | idle | loop | push => cases h

/-- A read that is dropped has taken no byte; a write has pushed some of its bytes. -/
theorem Inv.drop {d : Dir} (hx : x.Inv before) (h : x.drop d = some x') : x'.Inv before := by
  obtain ⟨core, reader, writer, handler, reads, writes⟩ := x
  have hread : ReadInv core reader reads := hx.read
  have hwrite : WriteInv before core writer writes := hx.write
  cases d with
  | rx =>
    cases reader with
    | called n =>
      cases h
      exact ⟨hread.move trivial rfl, hwrite⟩
    | waiting w n =>
      cases w <;> cases h
      exact ⟨(hread.resume .rx).move trivial rfl, hwrite.resume .rx⟩
    | idle | begin | drain | take => cases h
  | tx =>
    cases writer with
    | called buf =>
      cases h
      exact ⟨hread, hwrite.finish rfl ⟨Nat.zero_le _, nofun⟩⟩
    | waiting w buf n =>
      cases w <;> cases h
      have hn : n < buf.length := hwrite.ok
      exact ⟨hread.resume .tx, (hwrite.resume .tx).finish rfl ⟨Nat.le_of_lt hn, nofun⟩⟩
    | idle | loop | push => cases h

theorem handlerStep_fifos (c : Core Waker) (handler : Handler) :
    c.SameFifos (handlerStep c handler).2 := by
  cases handler with
  | idle => exact .refl c
  | mask stat => exact ⟨rfl, rfl, rfl, rfl, rfl⟩
  | wakeRx stat =>
    simp only [handlerStep]
    split
    · exact c.sameFifos_wake .rx
    · exact .refl c
  | wakeTx stat =>
    simp only [handlerStep]
    split
    · exact c.sameFifos_wake .tx
    · exact .refl c

theorem Inv.step {a : Act Waker} (hx : x.Inv before) (h : x.step a = some x') :
    x'.Inv before := by
  cases a with
  | arrive byte =>
    simp only [Sys.step] at h
    split at h <;> cases h
    exact ⟨hx.read.arrive byte, hx.write.frame rfl rfl rfl⟩
  | depart =>
    cases hf : x.core.txFifo <;> simp only [Sys.step, hf, reduceCtorEq] at h
    cases h
    exact ⟨hx.read.frame rfl rfl, hx.write.depart hf⟩
  | isr =>
    simp only [Sys.step] at h
    split at h <;> cases h
    have hs := handlerStep_fifos x.core x.handler
    exact ⟨hx.read.frame hs.rxFifo hs.arrived, hx.write.frame hs.txFifo hs.pushed hs.departed⟩
  | read n =>
    have hread := hx.read
    cases hr : x.reader <;> simp only [Sys.step, hr, reduceCtorEq] at h
    cases h
    rw [hr] at hread
    exact ⟨hread.move trivial rfl, hx.write⟩
  | write buf =>
    have hwrite := hx.write
    cases hr : x.writer <;> simp only [Sys.step, hr, reduceCtorEq] at h
    cases h
    rw [hr] at hwrite
    exact ⟨hx.read, hwrite.move trivial rfl⟩
  | poll d cx =>
    simp only [Sys.step] at h
    split at h
    · exact hx.poll h
    · cases h
  | step d =>
    simp only [Sys.step] at h
    split at h
    · exact hx.advance h
    · cases h
  | drop d =>
    simp only [Sys.step] at h
    split at h
    · exact hx.drop h
    · cases h

theorem inv_of_reach (hx : (asyncRuns Waker before).Reach (Lts.Any _) x) :
    (∀ d, x.Armed d) ∧ x.Inv before := by
  refine Lts.Reach.induct (I := fun x : Sys Waker => (∀ d, x.Armed d) ∧ x.Inv before) ?_ ?_ hx
  · rintro ⟨core, reader, writer, handler, reads, writes⟩
      ⟨rfl, rfl, rfl, rfl, rfl, ha, hf, hp, hd⟩
    refine ⟨fun d => .of_not_pending (by cases d <;> nofun), ⟨trivial, ha.symm, nofun⟩, trivial, ?_,
      hp.symm, nofun⟩
    rw [hf, hp, hd, List.append_nil]
    rfl
  · exact fun x a x' hx _ hst => ⟨Armed.step hx.1 hst, hx.2.step hst⟩

end Sys

/-- **Nothing is lost.** In every state that a run reaches:
* A future that is pending with its FIFO ready has its interrupt unmasked and pending, or has been
  woken since it was polled, or the handler that runs is about to wake it.
* A read fills at least one byte of a buffer that is not empty, and what the reads have taken, with
  the RX FIFO behind it, are the bytes that arrived.
* A write comes to `write_byte` with room in the FIFO only, and no byte pushed is lost. What has been
  pushed is the whole buffer of each write that has returned, and the first bytes of each one that
  was dropped or still runs. -/
theorem async_lossless (Waker : Type) (before : List UInt8) (x : Sys Waker)
    (hx : (asyncRuns Waker before).Reach (Lts.Any _) x) :
    (∀ d, x.wait d = some .pending → x.core.ready d = true →
      x.core.Interrupts d ∨ (x.core.books.get d).Woken ∨ x.handler.wakes d = true) ∧
    (∀ r ∈ x.reads, r.2.length ≤ r.1 ∧ (0 < r.1 → r.2 ≠ [])) ∧
    x.reads.flatMap Prod.snd ++ x.reader.got ++ x.core.rxFifo = x.core.arrived ∧
    (∀ cx buf n, x.writer = .push cx buf n → n < buf.length ∧ 0 < x.core.txFree) ∧
    x.core.departed ++ x.core.txFifo = before ++ x.core.pushed ∧
    x.writes.flatMap Write.pushed ++ x.writer.pushed = x.core.pushed ∧
    ∀ w ∈ x.writes, w.n ≤ w.buf.length ∧ (w.returned = true → w.pushed = w.buf) := by
  obtain ⟨harmed, hread, hwrite⟩ := Sys.inv_of_reach hx
  refine ⟨?_, hread.filled, hread.bytes, ?_, hwrite.fifo, hwrite.bytes, ?_⟩
  · intro d hw hready
    obtain ⟨hne, hn⟩ := harmed d hw
    obtain hwoken | ⟨hm | hh, -⟩ := hn hne
    · exact .inr (.inl hwoken)
    · exact .inl ⟨hm, hready⟩
    · exact .inr (.inr hh)
  · intro cx buf n hpush
    have hok := hwrite.ok
    rw [hpush] at hok
    exact hok
  · intro w hw
    obtain ⟨hn, hr⟩ := hwrite.whole w hw
    refine ⟨hn, fun hret => ?_⟩
    unfold Write.pushed
    rw [hr hret, List.take_length]

/-- The UART as `Uart::new` leaves it. -/
def Sys.new : Sys Nat where
  core := ⟨⟨true, true⟩, [], [], ⟨⟨none⟩, ⟨none⟩⟩, ⟨.idle, .idle⟩, [], [], []⟩
  reader := .idle
  writer := .idle
  handler := .idle
  reads := []
  writes := []

/-- A read is pending, and a byte arrives. -/
def waitingRead : Sys Nat :=
  (Lts.exec Sys.step .new
    [.read 4, .poll .rx 0, .step .rx, .step .rx, .step .rx, .arrive 7]).2

theorem async_lossless_waiting :
    waitingRead.wait .rx = some .pending ∧ (waitingRead.core.Interrupts .rx ∨
      (waitingRead.core.books.get .rx).Woken ∨ waitingRead.handler.wakes .rx = true) := by
  have hrun : (asyncRuns Nat []).Run .new (Lts.exec Sys.step .new
      [.read 4, .poll .rx 0, .step .rx, .step .rx, .step .rx, .arrive 7]).1 waitingRead :=
    .exec _ _ _ _
  have hreach : (asyncRuns Nat []).Reach (Lts.Any _) waitingRead :=
    hrun.reach (.init ⟨rfl, rfl, rfl, rfl, rfl, rfl, rfl, rfl, rfl⟩) fun _ _ => trivial
  exact ⟨rfl, (async_lossless Nat [] waitingRead hreach).1 .rx rfl rfl⟩

end Mc1322x.UartAsync
