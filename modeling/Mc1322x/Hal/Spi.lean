import Mc1322x.Hal.Util
import Mc1322x.Lib.Async

/-!
# SPI (`mc1322x-hal/src/spi.rs`)

`Port` is the SPI module with the ITC channel of its interrupt and the driver's static `WAKER`. The
module shifts one byte out and one in for each transfer that is started, and latches `SPI_INT` at
its end; `Port.log` lists the transfers. A blocking operation is a task that is polled until it is
done; an async one is polled at any time, and may be dropped at a wait (`Sys`). The accesses of
`poll_transfer_status` are one step.

`spi_exact`: an operation that is done returns the bytes of its own transfers, as long as `SPI_INT`
is clear when an operation starts. A transfer that is dropped leaves `SPI_INT` set, and the next
operation takes it for its own (`stale_byte`).
-/

namespace Mc1322x.Spi

open Mmio

/-- `SPI_START`. -/
def spiStart : UInt32 := (1 : UInt32) <<< 7

/-- `SPI_SCK_COUNT_SHIFT`: the place of `SCK_COUNT` in `SPI_CLK_CTRL`. -/
def spiSckCountShift : UInt32 := 8

/-- `SPI_INT`. -/
def spiInt : UInt32 := (1 : UInt32) <<< 0

/-- `DATA_LENGTH`: the bits of a word. -/
def dataLength : UInt32 := 8

/-- `SCK_COUNT`. -/
def sckCount : UInt32 := dataLength - 1

/-- The registers of the SPI, with the byte that it shifts and what it has shifted. -/
structure Port (Waker : Type) where
  /-- `SPI_TX_DATA`. -/
  txData : UInt32
  /-- `SPI_RX_DATA`. -/
  rxData : UInt32
  /-- `SPI_INT` of `SPI_STATUS`. -/
  int : Bool
  /-- The byte that is being shifted out. -/
  shifting : Option UInt8
  /-- The bytes shifted out and in by each transfer that has completed, oldest first. -/
  log : List (UInt8 × UInt8)
  /-- The ITC's SPI channel. -/
  enabled : Bool
  waker : WakerCell Waker
  /-- The waker of the task's context. -/
  cx : Waker
  /-- The operation that runs is an async one. -/
  async : Bool

variable {Waker : Type}

namespace Port

/-- The write of `SPI_CLK_CTRL` starts the transfer of the top byte of `SPI_TX_DATA`. -/
def writeClkCtrl (p : Port Waker) (v : UInt32) : Port Waker :=
  if v &&& spiStart ≠ 0 then { p with shifting := some (p.txData >>> (32 - dataLength)).toUInt8 }
  else p

/-- The write of `SPI_STATUS` clears `SPI_INT` where it writes 1. -/
def writeStatus (p : Port Waker) (v : UInt32) : Port Waker :=
  if v &&& spiInt ≠ 0 then { p with int := false } else p

/-- `start_transfer`. -/
def startTransfer (p : Port Waker) (tx : UInt8) : Port Waker :=
  writeClkCtrl { p with txData := tx.toUInt32 <<< 24 }
    ((sckCount <<< spiSckCountShift) ||| spiStart ||| dataLength)

/-- `poll_transfer_status`: `none` is pending. -/
def pollTransferStatus (p : Port Waker) : Option UInt8 × Port Waker :=
  if p.int = false then (none, p)
  else (some (p.rxData &&& 0xFF).toUInt8, p.writeStatus spiInt)

/-- One poll of a transfer: one turn of the loop of `transfer_word`, or the closure that
`transfer_word_async` polls. -/
def pollWord (p : Port Waker) : Option UInt8 × Port Waker :=
  if p.async then
    match pollTransferStatus { p with enabled := true } with
    | (some rx, p) => (some rx, p)
    | (none, p) => (none, { p with waker := p.waker.set p.cx })
  else p.pollTransferStatus

/-- A transfer ends, with `rx` in `SPI_RX_DATA`. -/
def complete (p : Port Waker) (rx : UInt32) : Option (Port Waker) :=
  p.shifting.map fun tx =>
    { p with shifting := none, int := true, rxData := rx, log := p.log ++ [(tx, rx.toUInt8)] }

/-- `spi_isr`, which is called while `SPI_INT` and the channel are set. -/
def isr (p : Port Waker) : Option (Port Waker) :=
  if p.int ∧ p.enabled then some { p with enabled := false, waker := p.waker.wake.2 } else none

end Port

/-! ## The operations -/

/-- The driver transfers words: it waits for the word shifted in for each word out. -/
abbrev bus : Bus := ⟨Empty, nofun, Empty, UInt8, fun _ => UInt8⟩

/-- `transfer_word`, and `transfer_word_async`. -/
def transferWord (tx : UInt8) : Prog bus UInt8 := Prog.await (B := bus) tx

/-- The words shifted in for some words. -/
def transferWords : List UInt8 → Prog bus (List UInt8)
  | [] => pure []
  | tx :: words => do
    let rx ← transferWord tx
    let rest ← transferWords words
    pure (rx :: rest)

/-- An operation of `SpiBus`, blocking or async. -/
inductive Op where
  | read (words : List UInt8)
  | write (words : List UInt8)
  | transfer (buffer words : List UInt8)
  | transferInPlace (words : List UInt8)

/-- The words that `transfer` shifts out for those that it reads. -/
def paddedWords (buffer words : List UInt8) : List UInt8 :=
  (List.range buffer.length).map fun i => words[i]?.getD 0xFF

/-- An operation: the words that it stores in the buffer for them. -/
def Op.prog : Op → Prog bus (List UInt8)
  | .read words => transferWords (words.map fun _ => 0xFF)
  | .write words => do
    let _ ← transferWords words
    pure []
  | .transfer buffer words => do
    let rxs ← transferWords (paddedWords buffer words)
    let _ ← transferWords (words.drop (min buffer.length words.length))
    pure rxs
  | .transferInPlace words => transferWords words

/-- The words that an operation shifts out. -/
def Op.words : Op → List UInt8
  | .read words => words.map fun _ => 0xFF
  | .write words | .transferInPlace words => words
  | .transfer buffer words =>
    paddedWords buffer words ++ words.drop (min buffer.length words.length)

/-- What an operation stores of the words shifted in. -/
def Op.result (op : Op) (rxs : List UInt8) : List UInt8 :=
  match op with
  | .read _ | .transferInPlace _ => rxs
  | .write _ => []
  | .transfer buffer _ => rxs.take buffer.length

/-! ## The system -/

/-- What happens beside the task. -/
inductive Event (Waker : Type) where
  /-- The transfer ends. -/
  | complete
  | isr
  /-- The task is next polled with another waker. -/
  | context (w : Waker)

/-- The port as it answers the driver; `miso k` is `SPI_RX_DATA` after transfer number `k`. -/
def device (Waker : Type) (miso : Nat → UInt32) : AsyncDevice bus (Port Waker) where
  read r := nomatch r
  write o := nomatch o
  start tx p := p.startTransfer tx
  poll _ _ p := p.pollWord
  Env := Event Waker
  env e p := match e with
    | .complete => p.complete (miso p.log.length)
    | .isr => p.isr
    | .context w => some { p with cx := w }

/-- An operation that has started. -/
structure Running where
  op : Op
  fiber : Fiber bus (List UInt8)
  /-- The transfers before it. -/
  before : List (UInt8 × UInt8)

/-- The SPI and the operation on it. -/
structure Sys (Waker : Type) where
  port : Port Waker
  /-- The operation that runs or is done; `none` once it is dropped. -/
  running : Option Running

/-- What happens: operations begin, go on and are dropped, and the hardware beside them. -/
inductive Act (Waker : Type) where
  | begin (async : Bool) (op : Op)
  /-- The operation goes on, or is polled. -/
  | step
  /-- The future of an async operation is dropped, at a wait. -/
  | drop
  | env (e : Event Waker)

/-- No operation runs. -/
def Sys.Free (s : Sys Waker) : Prop :=
  match s.running with
  | none | some ⟨_, .done _, _⟩ => True
  | _ => False

instance (s : Sys Waker) : Decidable s.Free := by
  unfold Sys.Free
  split <;> infer_instance

/-- One step; `none`: the step is not possible. An operation starts only once an abandoned transfer
has completed. -/
def Sys.step (miso : Nat → UInt32) (s : Sys Waker) : Act Waker → Option (Sys Waker)
  | .begin async op =>
    if s.Free ∧ s.port.shifting = none then
      some ⟨{ s.port with async := async }, some ⟨op, .run op.prog, s.port.log⟩⟩
    else none
  | .step => do
    let r ← s.running
    let (p, fiber) ← (device Waker miso).step (s.port, r.fiber) .step
    some ⟨p, some { r with fiber := fiber }⟩
  | .drop =>
    match s.running with
    | some ⟨_, .wait true _ _, _⟩ => if s.port.async then some { s with running := none } else none
    | _ => none
  | .env e => ((device Waker miso).env e s.port).map fun p => { s with port := p }

/-- The runs from a port that has transferred nothing. -/
def spi (Waker : Type) (miso : Nat → UInt32) : Lts :=
  .ofStep (fun s : Sys Waker => s.running = none) (Sys.step miso)

/-! ## The words shifted in -/

/-- A port that waits for each transfer; its state is the transfers so far. -/
def ideal (miso : Nat → UInt32) : Device bus (List (UInt8 × UInt8)) where
  read r := nomatch r
  write o := nomatch o
  wait tx t := ((miso t.length).toUInt8, t ++ [(tx, (miso t.length).toUInt8)])

/-- Between two transfers: none is under way, and `SPI_INT` is clear. -/
def Settled (p : Port Waker) (t : List (UInt8 × UInt8)) : Prop :=
  p.shifting = none ∧ p.int = false ∧ p.log = t

/-- In the transfer of `tx`: it is under way, or it has completed and `SPI_INT` is its own. -/
def InFlight (miso : Nat → UInt32) (tx : UInt8) (p : Port Waker) (t : List (UInt8 × UInt8)) : Prop :=
  (p.shifting = some tx ∧ p.int = false ∧ p.log = t) ∨
    (p.shifting = none ∧ p.int = true ∧ p.rxData = miso t.length ∧
      p.log = t ++ [(tx, (miso t.length).toUInt8)])

section Port

variable {miso : Nat → UInt32} {p p' : Port Waker} {t : List (UInt8 × UInt8)} {tx : UInt8}

/-- The top byte of the word that is written to `SPI_TX_DATA` is the byte to send. -/
theorem topByte (tx : UInt8) : ((tx.toUInt32 <<< 24) >>> 24).toUInt8 = tx := by
  rw [← UInt8.toNat_inj]
  have := tx.toNat_lt
  simp [Nat.shiftLeft_eq, Nat.shiftRight_eq_div_pow]
  omega

theorem startTransfer_eq (p : Port Waker) (tx : UInt8) :
    p.startTransfer tx = { p with txData := tx.toUInt32 <<< 24, shifting := some tx } := by
  have htop : ((tx.toUInt32 <<< 24) >>> (32 - dataLength)).toUInt8 = tx := topByte tx
  unfold Port.startTransfer Port.writeClkCtrl
  rw [if_pos (by decide), htop]

/-- The byte is the low one of `SPI_RX_DATA`. -/
theorem lowByte (v : UInt32) : (v &&& 0xFF).toUInt8 = v.toUInt8 := by
  have hand : v.toNat &&& 255 = v.toNat % 256 := Nat.and_two_pow_sub_one_eq_mod v.toNat 8
  rw [← UInt8.toNat_inj, UInt32.toNat_toUInt8, UInt32.toNat_and, UInt32.toNat_toUInt8]
  show (v.toNat &&& 255) % 2 ^ 8 = v.toNat % 2 ^ 8
  omega

theorem pollTransferStatus_ready (h : p.int = true) :
    p.pollTransferStatus = (some p.rxData.toUInt8, { p with int := false }) := by
  unfold Port.pollTransferStatus Port.writeStatus
  rw [if_neg (by simp [h]), if_pos (by decide), lowByte]

theorem pollWord_pending (h : p.int = false) :
    p.pollWord.1 = none ∧ p.pollWord.2.shifting = p.shifting ∧ p.pollWord.2.int = false ∧
      p.pollWord.2.log = p.log := by
  unfold Port.pollWord Port.pollTransferStatus
  cases p.async <;> simp [h]

theorem pollWord_ready (h : p.int = true) :
    p.pollWord.1 = some p.rxData.toUInt8 ∧ p.pollWord.2.shifting = p.shifting ∧
      p.pollWord.2.int = false ∧ p.pollWord.2.log = p.log := by
  unfold Port.pollWord
  by_cases ha : p.async = true
  · rw [if_pos ha, pollTransferStatus_ready (p := { p with enabled := true }) h]
    exact ⟨rfl, rfl, rfl, rfl⟩
  · rw [if_neg ha, pollTransferStatus_ready h]
    exact ⟨rfl, rfl, rfl, rfl⟩

/-- The driver refines the ideal port. -/
theorem device_refines : (device Waker miso).Refines (ideal miso) Settled (InFlight miso)
    (fun _ _ => True) where
  read r := nomatch r
  write o := nomatch o
  start tx p t h := by
    obtain ⟨-, hi, hl⟩ := h
    simp only [device, startTransfer_eq]
    exact .inl ⟨rfl, hi, hl⟩
  pending armed tx p p' t h hp := by
    rcases h with ⟨hs, hi, hl⟩ | ⟨-, hi, -, -⟩
    · obtain ⟨-, hs', hi', hl'⟩ := pollWord_pending hi
      have e : p.pollWord.2 = p' := congrArg Prod.snd hp
      rw [← e]
      exact .inl ⟨hs'.trans hs, hi', hl'.trans hl⟩
    · have hn : p.pollWord.1 = none := congrArg Prod.fst hp
      rw [(pollWord_ready hi).1] at hn
      cases hn
  resolved armed tx p p' t r h _ hp := by
    have hr : p.pollWord.1 = some r := congrArg Prod.fst hp
    have e : p.pollWord.2 = p' := congrArg Prod.snd hp
    rcases h with ⟨-, hi, -⟩ | ⟨hs, hi, hx, hl⟩
    · rw [(pollWord_pending hi).1] at hr
      cases hr
    · obtain ⟨hr', hs', hi', hl'⟩ := pollWord_ready hi
      rw [hr', hx] at hr
      cases hr
      rw [← e]
      exact ⟨rfl, hs'.trans hs, hi', hl'.trans hl⟩
  env e p p' t h he := by
    obtain ⟨hs, hi, hl⟩ := h
    cases e with
    | complete =>
      simp only [device, Port.complete, hs, Option.map_none] at he
      cases he
    | isr =>
      simp only [device, Port.isr, hi, Bool.false_eq_true, false_and, ↓reduceIte] at he
      cases he
    | context w =>
      cases he
      exact ⟨hs, hi, hl⟩
  env_mid e tx p p' t h he := by
    cases e with
    | complete =>
      rcases h with ⟨hs, hi, hl⟩ | ⟨hs, -, -, -⟩
      · simp only [device, Port.complete, hs, hl, Option.map_some] at he
        cases he
        -- The completion is where the device gets what the ideal port has from the start.
        exact .inr ⟨rfl, rfl, rfl, rfl⟩
      · simp only [device, Port.complete, hs, Option.map_none] at he
        cases he
    | isr =>
      simp only [device, Port.isr] at he
      split at he
      · cases he
        exact h
      · cases he
    | context w =>
      cases he
      exact h

end Port

/-- Words are transferred one after the other. -/
theorem eval_transferWords (miso : Nat → UInt32) (words : List UInt8) (t : List (UInt8 × UInt8)) :
    ∃ rxs : List UInt8, rxs.length = words.length ∧
      (ideal miso).eval (transferWords words) t = (rxs, t ++ words.zip rxs) := by
  induction words generalizing t with
  | nil => exact ⟨[], rfl, by simp [transferWords]⟩
  | cons tx words ih =>
    obtain ⟨rxs, hlen, he⟩ := ih (t ++ [(tx, (miso t.length).toUInt8)])
    refine ⟨(miso t.length).toUInt8 :: rxs, congrArg (· + 1) hlen, ?_⟩
    have hw : (ideal miso).eval (transferWord tx) t =
        ((miso t.length).toUInt8, t ++ [(tx, (miso t.length).toUInt8)]) := rfl
    rw [transferWords, Device.eval_bind, hw, Device.eval_bind, he]
    simp

/-- An operation stores what is shifted in for its words. -/
theorem eval_prog (miso : Nat → UInt32) (op : Op) (t : List (UInt8 × UInt8)) :
    ∃ rxs : List UInt8, rxs.length = op.words.length ∧
      (ideal miso).eval op.prog t = (op.result rxs, t ++ op.words.zip rxs) := by
  cases op with
  | read words => exact eval_transferWords miso _ t
  | transferInPlace words => exact eval_transferWords miso words t
  | write words =>
    obtain ⟨rxs, hlen, he⟩ := eval_transferWords miso words t
    refine ⟨rxs, hlen, ?_⟩
    rw [Op.prog, Device.eval_bind, he]
    rfl
  | transfer buffer words =>
    obtain ⟨rxs, hlen, he⟩ := eval_transferWords miso (paddedWords buffer words) t
    obtain ⟨rest, hlen', he'⟩ := eval_transferWords miso
      (words.drop (min buffer.length words.length)) (t ++ (paddedWords buffer words).zip rxs)
    have hbuf : rxs.length = buffer.length := by simp [hlen, paddedWords]
    refine ⟨rxs ++ rest, by simp [Op.words, hlen, hlen'], ?_⟩
    rw [Op.prog, Device.eval_bind, he, Device.eval_bind, he']
    simp only [Device.eval_pure, Op.result, Op.words]
    rw [List.zip_append hlen.symm, List.append_assoc, ← hbuf, List.take_left]

/-! ## The runs -/

/-- `SPI_INT` is clear where an operation with a word starts. -/
def Sys.Clear (s : Sys Waker) : Act Waker → Prop
  | .begin _ op => op.words = [] ∨ s.port.int = false
  | _ => True

/-- The operation has returned what was shifted in for its own words, in its own transfers. -/
def Running.Exact (r : Running) (p : Port Waker) (buffer : List UInt8) : Prop :=
  ∃ rxs : List UInt8, rxs.length = r.op.words.length ∧ p.log = r.before ++ r.op.words.zip rxs ∧
    buffer = r.op.result rxs

/-- The operation agrees with the ideal port, or has no word. -/
def Running.Agrees (miso : Nat → UInt32) (r : Running) (p : Port Waker) : Prop :=
  AsyncDevice.Refines.Agrees (ideal miso) Settled (InFlight miso) r.op.prog r.before (p, r.fiber) ∨
    (r.op.words = [] ∧ p.log = r.before ∧ p.shifting = none ∧
      (r.fiber = .run (.ret (r.op.result [])) ∨ r.fiber = .done (r.op.result [])))

section Runs

variable {miso : Nat → UInt32} {s s' : Sys Waker} {r : Running} {p : Port Waker}

/-- An operation without a word does nothing. -/
theorem prog_of_words_nil {op : Op} (h : op.words = []) : op.prog = .ret (op.result []) := by
  cases op with
  | read words =>
    rw [Op.prog, show words.map (fun _ => (0xFF : UInt8)) = [] from h]
    rfl
  | transferInPlace words =>
    rw [Op.prog, show words = [] from h]
    rfl
  | write words =>
    rw [Op.prog, show words = [] from h]
    rfl
  | transfer buffer words =>
    obtain ⟨h₁, h₂⟩ := List.append_eq_nil_iff.mp h
    rw [Op.prog, h₁, h₂]
    simp only [Op.result, List.take_nil]
    rfl

theorem Running.Agrees.env {p' : Port Waker} (h : r.Agrees miso p) {e : Event Waker}
    (he : (device Waker miso).env e p = some p') : r.Agrees miso p' := by
  rcases h with h | ⟨hw, hl, hs, hf⟩
  · refine .inl (AsyncDevice.Refines.Agrees.step (a := .env e) device_refines h trivial ?_)
    exact ((device Waker miso).step_env p r.fiber e).trans (congrArg (Option.map (·, r.fiber)) he)
  · refine .inr ⟨hw, ?_⟩
    cases e with
    | complete =>
      simp only [device, Port.complete, hs, Option.map_none] at he
      cases he
    | isr =>
      simp only [device, Port.isr] at he
      split at he
      · cases he
        exact ⟨hl, hs, hf⟩
      · cases he
    | context w =>
      cases he
      exact ⟨hl, hs, hf⟩

theorem Running.Agrees.step {p' : Port Waker} {fiber : Fiber bus (List UInt8)}
    (h : r.Agrees miso p) (hs : (device Waker miso).step (p, r.fiber) .step = some (p', fiber)) :
    Running.Agrees miso { r with fiber := fiber } p' := by
  rcases h with h | ⟨hw, hl, hsh, hf | hf⟩
  · refine .inl (AsyncDevice.Refines.Agrees.step (a := .step) device_refines h ?_ hs)
    simp only [AsyncDevice.Resolves]
    split
    · exact fun _ => trivial
    · trivial
  · rw [hf] at hs
    cases hs
    exact .inr ⟨hw, hl, hsh, .inr rfl⟩
  · rw [hf] at hs
    cases hs

theorem Sys.agrees_step (h : ∀ r, s.running = some r → r.Agrees miso s.port) {a : Act Waker}
    (hc : s.Clear a) (hs : s.step miso a = some s') :
    ∀ r, s'.running = some r → r.Agrees miso s'.port := by
  intro r hr
  cases a with
  | begin async op =>
    obtain ⟨⟨-, hshift⟩, e⟩ := Option.ite_none_right_eq_some.mp hs
    cases e
    cases hr
    -- With `SPI_INT` clear the port is settled, and an operation without words does not look.
    rcases hc with hw | hi
    · exact .inr ⟨hw, rfl, hshift, .inl (congrArg Fiber.run (prog_of_words_nil hw))⟩
    · exact .inl ⟨s.port.log, ⟨hshift, hi, rfl⟩, rfl⟩
  | step =>
    simp only [Sys.step, Option.bind_eq_bind, Option.bind_eq_some_iff] at hs
    obtain ⟨r₀, hr₀, ⟨p, fiber⟩, hst, e⟩ := hs
    cases e
    cases hr
    exact (h r₀ hr₀).step hst
  | drop =>
    simp only [Sys.step] at hs
    split at hs
    · split at hs
      · cases hs
        cases hr
      · cases hs
    · cases hs
  | env e =>
    obtain ⟨p, he, rfl⟩ := Option.map_eq_some_iff.mp hs
    exact (h r hr).env he

/-- **Transfers.** In every run in which `SPI_INT` is clear whenever an operation with a word starts,
an operation that is done has returned the bytes of its own transfers, and the poll that resolves
a transfer does so after that transfer has completed. -/
theorem spi_exact (hs : (spi Waker miso).Reach Sys.Clear s) :
    (∀ r buffer, s.running = some r → r.fiber = .done buffer → r.Exact s.port buffer) ∧
      ∀ r armed tx k rx, s.running = some r → r.fiber = .wait armed tx k →
        s.port.pollWord.1 = some rx →
        s.port.shifting = none ∧ ∃ log, s.port.log = log ++ [(tx, rx)] := by
  have hag : ∀ r, s.running = some r → r.Agrees miso s.port := by
    refine Lts.Reach.induct (I := fun s : Sys Waker =>
      ∀ r, s.running = some r → r.Agrees miso s.port) ?_ ?_ hs
    · intro s h0 r hr
      rw [show s.running = none from h0] at hr
      cases hr
    · exact fun _ _ _ ih hc hst => Sys.agrees_step ih hc hst
  refine ⟨?_, ?_⟩
  · intro r buffer hr hf
    rcases hag r hr with h | ⟨hw, hl, -, h⟩
    · rw [hf] at h
      obtain ⟨t, ⟨-, -, hl⟩, he⟩ := h
      obtain ⟨rxs, hlen, hp⟩ := eval_prog miso r.op r.before
      rw [hp] at he
      cases he
      exact ⟨rxs, hlen, hl, rfl⟩
    · rw [hf] at h
      rcases h with h | h
      · cases h
      · cases h
        exact ⟨[], by rw [hw], by rw [hw, hl, List.zip_nil_left, List.append_nil], rfl⟩
  · intro r armed tx k rx hr hf hp
    rcases hag r hr with h | ⟨-, -, -, h⟩
    · rw [hf] at h
      -- A poll that resolves has found `SPI_INT` set, which only its own transfer has done.
      obtain ⟨t, ⟨-, hi, -⟩ | ⟨hsh, hi, hx, hl⟩, -⟩ := h
      · rw [(pollWord_pending hi).1] at hp
        cases hp
      · rw [(pollWord_ready hi).1] at hp
        cases hp
        exact ⟨hsh, t, by rw [hl, hx]⟩
    · rw [hf] at h
      rcases h with h | h <;> cases h

end Runs

/-! ## Concrete runs -/

/-- The port at first. -/
def Sys.zero : Sys Nat :=
  ⟨⟨0, 0, false, none, [], false, ⟨none⟩, 0, false⟩, none⟩

/-- The byte 10 is shifted in first, then 11, and so on. -/
def countingMiso (k : Nat) : UInt32 := .ofNat (10 + k)

instance (s : Sys Nat) : (a : Act Nat) → Decidable (s.Clear a)
  | .begin _ op => inferInstanceAs (Decidable (op.words = [] ∨ s.port.int = false))
  | .step | .drop | .env _ => isTrue trivial

/-- An async operation of three words with room for two in its buffer: each word is started and
polled once before its transfer ends. -/
def Sys.threeWords : List (Sys Nat × Act Nat) × Sys Nat :=
  Lts.exec (Sys.step countingMiso) Sys.zero [.begin true (.transfer [0, 0] [1, 2, 3]), .step, .step,
    .env .complete, .env .isr, .step, .step, .step, .env .complete, .env .isr, .step, .step, .step,
    .env .complete, .env .isr, .step, .step]

/-- A blocking operation after it, the transfer of which ends after the first poll. -/
def Sys.thenOne : List (Sys Nat × Act Nat) × Sys Nat :=
  Lts.exec (Sys.step countingMiso) Sys.threeWords.2 [.begin false (.transferInPlace [7]), .step,
    .step, .env .complete, .step, .step]

/-- Each of the two gets the bytes of its own transfers. -/
theorem spi_exact_two_operations :
    (∃ r, Sys.threeWords.2.running = some r ∧ r.fiber = .done [10, 11] ∧
      r.Exact Sys.threeWords.2.port [10, 11]) ∧
    ∃ r, Sys.thenOne.2.running = some r ∧ r.fiber = .done [13] ∧
      r.Exact Sys.thenOne.2.port [13] := by
  have h₃ : (spi Nat countingMiso).Run Sys.zero Sys.threeWords.1 Sys.threeWords.2 := .exec _ _ _ _
  have h₁ : (spi Nat countingMiso).Run Sys.threeWords.2 Sys.thenOne.1 Sys.thenOne.2 :=
    .exec _ _ _ _
  have hc₃ : ∀ x ∈ Sys.threeWords.1, x.1.Clear x.2 := by decide
  have hc₁ : ∀ x ∈ Sys.thenOne.1, x.1.Clear x.2 := by decide
  have hr₃ := h₃.reach (.init rfl) hc₃
  have hr₁ := h₁.reach hr₃ hc₁
  exact ⟨⟨_, rfl, rfl, (spi_exact hr₃).1 _ _ rfl rfl⟩, _, rfl, rfl, (spi_exact hr₁).1 _ _ rfl rfl⟩

/-- An async read is dropped, its transfer completes, and a blocking operation follows. -/
def Sys.afterDrop : List (Sys Nat × Act Nat) × Sys Nat :=
  Lts.exec (Sys.step countingMiso) Sys.zero [.begin true (.read [0]), .step, .step, .drop,
    .env .complete, .begin false (.transferInPlace [7]), .step, .step, .step]

/-- It returns the byte of the transfer that was dropped, and its own is still under way. -/
theorem stale_byte : (spi Nat countingMiso).Reach (Lts.Any _) Sys.afterDrop.2 ∧
    Sys.afterDrop.2.port.shifting = some 7 ∧
    ∃ r, Sys.afterDrop.2.running = some r ∧ r.fiber = .done [10] ∧
      ¬ r.Exact Sys.afterDrop.2.port [10] := by
  have hr : (spi Nat countingMiso).Run Sys.zero Sys.afterDrop.1 Sys.afterDrop.2 := .exec _ _ _ _
  refine ⟨hr.reach (.init rfl) fun _ _ => trivial, rfl, _, rfl, rfl, ?_⟩
  rintro ⟨rxs, hlen, hlog, -⟩
  have hlen : rxs.length = 1 := hlen
  have hlog : [((0xFF : UInt8), (10 : UInt8))] = [(0xFF, 10)] ++ [(7 : UInt8)].zip rxs := hlog
  have := congrArg List.length hlog
  simp [hlen] at this

end Mc1322x.Spi
