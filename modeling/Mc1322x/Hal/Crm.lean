import Mathlib.Logic.Function.Basic
import Mc1322x.Hal.Util
import Mc1322x.Lib.Lts
import Mc1322x.Lib.Wakeup

/-!
# The CRM (`mc1322x-hal/src/delay.rs`, `gpio.rs` and `sleep.rs`)

`Delay::wait_rtc_ticks`, `KbiInput::wait_for_edge` on each of the four pins, and `sleep_with` share
`WU_CNTL` and `STATUS`. A wait is a list of register accesses (`Instr`); a task polls one future or
sleeps at a time. Each access outside of a critical section is a step, between which the handlers
run and the hardware latches events.
-/

namespace Mc1322x.Crm

/-! ## Registers -/

/-- A word with one bit. -/
def bit (n : Nat) : BitVec 32 := 1#32 <<< n

theorem getLsbD_bit {n k : Nat} (h : n < 32) : (bit n).getLsbD k = decide (k = n) := by
  unfold bit
  rw [BitVec.getLsbD_shiftLeft, BitVec.getLsbD_one]
  by_cases hk : k = n
  · simp [hk, h]
  · rw [decide_eq_false hk]
    by_cases hlt : k < n
    · simp [hlt]
    · have : ¬ k - n = 0 := by omega
      simp [this]

/-- What a wait is for: the RTC, or a pin of KBI4-7. -/
inductive Src where
  | rtc
  | kbi (n : Fin 4)
  deriving DecidableEq

namespace Src

/-- `RTC_WU_EN` and `EXT_WU_EN`, in `WU_CNTL`. -/
def en : Src → Nat
  | rtc => 1
  | kbi n => 4 + n

/-- `RTC_WU_IEN` and `EXT_WU_IEN`, in `WU_CNTL`. -/
def ien : Src → Nat
  | rtc => 17
  | kbi n => 20 + n

/-- `RTC_WU_EVT` and `EXT_WU_EVT`, in `STATUS`. -/
def evt : Src → Nat
  | rtc => 3
  | kbi n => 4 + n

/-- The bit of `WU_CNTL` that enables the event as a wake source. -/
def enBit (s : Src) : BitVec 32 := bit s.en

/-- The bit of `WU_CNTL` that enables its interrupt. -/
def ienBit (s : Src) : BitVec 32 := bit s.ien

/-- The bit of `STATUS` that latches it. -/
def evtBit (s : Src) : BitVec 32 := bit s.evt

end Src

/-- `EXT_WU_EDGE`. -/
def edgeBit (n : Fin 4) : BitVec 32 := bit (8 + n)

/-- `EXT_WU_POL`. -/
def polBit (n : Fin 4) : BitVec 32 := bit (12 + n)

/-- The registers of the CRM, and whether the ITC lets its interrupt through. -/
structure Regs where
  wuCntl : BitVec 32
  sleepCntl : BitVec 32
  status : BitVec 32
  wuTimeout : UInt32
  rtcTimeout : UInt32
  crmEnabled : Bool

/-! ## The waits -/

/-- An access of a wait, or of what comes before it. -/
inductive Instr where
  /-- `ensure_crm_interrupt_enabled`. -/
  | enableCrm
  /-- The read of the anchor. -/
  | anchor (ticks : UInt32)
  /-- A read of `WU_CNTL`, and then a write. -/
  | modify (f : BitVec 32 → BitVec 32)
  /-- A write of `STATUS`, which clears these bits. -/
  | clear (bits : BitVec 32)
  /-- A write of `RTC_TIMEOUT`. -/
  | timeout (remaining : UInt32)
  /-- The `poll_fn`, of which each poll is a critical section. -/
  | await
  /-- The check of `RTC_COUNT`. -/
  | elapsed (ticks anchor : UInt32)

/-- The edge that a KBI wait is for. -/
inductive Edge where
  | rising
  | falling
  deriving DecidableEq

/-- `wait_for_edge`, without the pull of the pin. -/
def waitForEdge (n : Fin 4) (edge : Edge) : List Instr :=
  [.modify (· &&& ~~~(Src.kbi n).enBit),
    .modify fun v => match edge with
      | .rising => v ||| edgeBit n ||| polBit n
      | .falling => (v ||| edgeBit n) &&& ~~~polBit n,
    .clear (Src.kbi n).evtBit,
    .enableCrm,
    .await]

/-- A round of the loop of `wait_rtc_ticks`. -/
def rtcRound (ticks anchor remaining : UInt32) : List Instr :=
  [.modify (· &&& ~~~(Src.rtc.enBit ||| Src.rtc.ienBit)),
    .clear Src.rtc.evtBit,
    .timeout remaining,
    .await,
    .elapsed ticks anchor]

/-- `wait_rtc_ticks`, up to its first round. -/
def waitRtcTicks (ticks : UInt32) : List Instr := [.enableCrm, .anchor ticks]

/-- A future of a wait, with what it has yet to do. -/
inductive Fut where
  | idle
  /-- Not polled yet. -/
  | called (rest : List Instr)
  | polled
  | pending (rest : List Instr)

/-- The future has been polled, and has armed its wait. -/
def Fut.isPending : Fut → Bool
  | pending _ => true
  | _ => false

/-- A poll of a future. -/
structure Poll (Waker : Type) where
  src : Src
  cx : Waker
  rest : List Instr
  /-- What has been read of `WU_CNTL` and not been written back. -/
  hand : Option (BitVec 32)
  /-- In the critical section, after the check of `STATUS`. -/
  checked : Bool

/-! ## Sleep -/

/-- `SleepMode`. -/
inductive SleepMode where
  | hibernate
  | doze
  deriving DecidableEq

/-- `RamRetention`. -/
inductive RamRetention where
  | kb8
  | kb32
  | kb64
  | kb96
  deriving DecidableEq

/-- Its value in `SLEEP_CNTL`. -/
def RamRetention.toNat : RamRetention → Nat
  | kb8 => 0
  | kb32 => 1
  | kb64 => 2
  | kb96 => 3

/-- `Retention`: what keeps its power during a sleep. -/
structure Retention where
  mcu : Bool
  gpioPads : Bool
  ram : RamRetention

/-- `KbiWake`: the level or the edge of a pin that wakes. -/
structure KbiWake where
  edge : Bool
  activeHigh : Bool

/-- `WakeSources`. -/
structure WakeSources where
  timer : Option UInt32
  rtc : Option UInt32
  kbi : Fin 4 → Option KbiWake

/-- `WakeReason`. -/
inductive WakeReason where
  | timer
  | rtc
  | kbi (n : Fin 4)
  | calDone
  | cop
  | unknown
  deriving DecidableEq

namespace WakeSources

/-- The `assert!`. -/
def any (sources : WakeSources) : Bool :=
  sources.timer.isSome || sources.rtc.isSome || (List.finRange 4).any fun n => (sources.kbi n).isSome

/-- The bits of a pin. -/
def kbiBits (n : Fin 4) : Option KbiWake → BitVec 32
  | none => 0
  | some kbi =>
    (Src.kbi n).enBit ||| (if kbi.edge then edgeBit n else 0) |||
      (if kbi.activeHigh then polBit n else 0)

/-- What `sleep_with` writes to `WU_CNTL`. -/
def wuCntl (sources : WakeSources) : BitVec 32 :=
  (List.finRange 4).foldl (fun w n => w ||| kbiBits n (sources.kbi n))
    ((if sources.timer.isSome then bit 0 else 0) |||
      (if sources.rtc.isSome then Src.rtc.enBit ||| Src.rtc.ienBit else 0))

/-- The sources of a wait are among them. -/
def lists (sources : WakeSources) : Src → Bool
  | .rtc => sources.rtc.isSome
  | .kbi n => (sources.kbi n).isSome

end WakeSources

/-- What `sleep_with` writes to `SLEEP_CNTL`. -/
def sleepCntl (mode : SleepMode) (retention : Retention) : BitVec 32 :=
  BitVec.ofNat 32 retention.ram.toNat <<< 4 |||
    (if retention.mcu then bit 6 ||| (if retention.gpioPads then bit 7 else 0) else 0) |||
    match mode with
    | .hibernate => bit 0
    | .doze => bit 1

/-- The reason in `STATUS`. -/
def wakeReason (raw : BitVec 32) : WakeReason :=
  if raw.getLsbD 3 then .rtc
  else if raw.getLsbD 1 || raw.getLsbD 2 then .timer
  else match (List.finRange 4).find? fun n : Fin 4 => raw.getLsbD (4 + n) with
    | some n => .kbi n
    | none =>
      if raw.getLsbD 9 then .calDone
      else if raw.getLsbD 10 then .cop
      else .unknown

/-- Where a `sleep_with` is. -/
inductive Stage where
  | timer
  | rtc
  | wuCntl
  | sleepCntl
  /-- In the loop that waits for `SLEEP_SYNC` to be set. -/
  | accept
  | beforePowerDown
  | powerDown
  /-- In the loop that waits for it to be set again, on wake. -/
  | wake
  | read
  | ack (raw : BitVec 32)

/-- A `sleep_with`, with what is known of it. -/
structure Sleep where
  mode : SleepMode
  sources : WakeSources
  retention : Retention
  stage : Stage
  /-- `STATUS` at the call. -/
  before : BitVec 32
  /-- The bits that the hardware has latched since, as long as the chip sleeps. -/
  raised : BitVec 32
  /-- `WU_CNTL` and `STATUS` as they would be without the writes of the call. -/
  wuCntl' : BitVec 32
  status' : BitVec 32

/-- A `sleep_with` that has returned. -/
structure Slept where
  call : Sleep
  reason : WakeReason
  /-- The registers after it. -/
  regs : Regs
  /-- The futures, none of which runs meanwhile. -/
  waits : Src → Fut

/-! ## The system -/

/-- What the task runs: a poll of a wait, or a sleep. -/
inductive Task (Waker : Type) where
  | poll (p : Poll Waker)
  | sleep (z : Sleep)

/-- The CRM with the waits on it, their wakers, and the sleep. -/
structure Sys (Waker : Type) where
  regs : Regs
  wakers : Src → WakerCell Waker
  books : Src → Wakeup Waker
  waits : Src → Fut
  /-- The poll or sleep that is running. -/
  task : Option (Task Waker)
  slept : List Slept

/-- What happens: the hardware latches events, a handler runs, or the task goes on by one access. -/
inductive Act (Waker : Type) where
  /-- The hardware sets bits of `STATUS`. -/
  | latch (bits : BitVec 32)
  /-- `rtc_isr` or one of `kbi4_isr` to `kbi7_isr`. -/
  | isr (s : Src)
  | waitForEdge (n : Fin 4) (edge : Edge)
  | waitRtcTicks (ticks : UInt32)
  | poll (s : Src) (cx : Waker)
  | drop (s : Src)
  | sleep (mode : SleepMode) (sources : WakeSources) (retention : Retention)
  /-- The next access of the task; `count` is what it reads if it reads `RTC_COUNT`. -/
  | step (count : UInt32)

variable {Waker : Type}

/-- No handler runs in a critical section. -/
def Task.locked : Task Waker → Bool
  | poll p => p.checked
  | sleep _ => false

/-- Bits of `STATUS` are set during a sleep, which counts them until its read of `STATUS`. -/
def Sleep.latch (z : Sleep) (bits : BitVec 32) : Sleep :=
  { z with
    raised := match z.stage with
      | .ack _ => z.raised
      | _ => z.raised ||| bits
    status' := z.status' ||| bits }

/-- A handler masks its source during a sleep. -/
def Sleep.mask (z : Sleep) (s : Src) : Sleep := { z with wuCntl' := z.wuCntl' &&& ~~~s.ienBit }

namespace Sys

/-- The sleep that is running. -/
def onSleep (x : Sys Waker) (f : Sleep → Sleep) : Option (Task Waker) :=
  x.task.map fun
    | .poll p => .poll p
    | .sleep z => .sleep (f z)

/-- The hardware sets bits of `STATUS`. -/
def latch (x : Sys Waker) (bits : BitVec 32) : Sys Waker :=
  { x with
    regs := { x.regs with status := x.regs.status ||| bits }
    task := x.onSleep (·.latch bits) }

/-- The handler masks its interrupt and wakes the waiter. -/
def isr (x : Sys Waker) (s : Src) : Sys Waker :=
  { x with
    regs := { x.regs with wuCntl := x.regs.wuCntl &&& ~~~s.ienBit }
    wakers := Function.update x.wakers s (x.wakers s).wake.2
    books := Function.update x.books s ((x.books s).wake (x.wakers s).wake.1)
    task := x.onSleep (·.mask s) }

/-- A new future. -/
def call (x : Sys Waker) (s : Src) (rest : List Instr) : Option (Sys Waker) :=
  match x.waits s with
  | .idle => some { x with waits := Function.update x.waits s (.called rest) }
  | _ => none

/-- A poll of a wait starts; `none`: there is none to poll. -/
def poll (x : Sys Waker) (s : Src) (cx : Waker) : Option (Sys Waker) :=
  match x.waits s with
  | .called rest | .pending rest =>
    some { x with
      books := Function.update x.books s .idle
      waits := Function.update x.waits s .polled
      task := some (.poll ⟨s, cx, rest, none, false⟩) }
  | _ => none

/-- The future of a wait is dropped; `none`: there is none. -/
def drop (x : Sys Waker) (s : Src) : Option (Sys Waker) :=
  match x.waits s with
  | .called _ | .pending _ =>
    some { x with
      books := Function.update x.books s .idle
      waits := Function.update x.waits s .idle }
  | _ => none

/-- The wait stores the waker and enables the interrupt. -/
def arm (x : Sys Waker) (p : Poll Waker) : Sys Waker :=
  { x with
    regs := { x.regs with wuCntl := x.regs.wuCntl ||| p.src.enBit ||| p.src.ienBit }
    wakers := Function.update x.wakers p.src ((x.wakers p.src).set p.cx)
    books := Function.update x.books p.src (.polled p.cx)
    waits := Function.update x.waits p.src (.pending p.rest)
    task := none }

/-- The poll goes on. -/
def goOn (x : Sys Waker) (p : Poll Waker) (rest : List Instr) : Sys Waker :=
  { x with task := some (.poll { p with rest := rest }) }

/-- A step of a poll. -/
def pollStep (x : Sys Waker) (p : Poll Waker) (count : UInt32) : Sys Waker :=
  match p.rest with
  | [] => { x with waits := Function.update x.waits p.src .idle, task := none }
  | .enableCrm :: rest =>
    { x with regs := { x.regs with crmEnabled := true } }.goOn p rest
  | .anchor ticks :: rest => x.goOn p (rtcRound ticks count (max ticks 1) ++ rest)
  | .modify f :: rest =>
    match p.hand with
    | none => x.goOn { p with hand := some x.regs.wuCntl } p.rest
    | some v => { x with regs := { x.regs with wuCntl := f v } }.goOn { p with hand := none } rest
  | .clear bits :: rest =>
    { x with regs := { x.regs with status := x.regs.status &&& ~~~bits } }.goOn p rest
  | .timeout remaining :: rest =>
    { x with regs := { x.regs with rtcTimeout := remaining } }.goOn p rest
  | .await :: rest =>
    if p.checked then x.arm p
    else if x.regs.status.getLsbD p.src.evt then x.goOn p rest
    else x.goOn { p with checked := true } p.rest
  | .elapsed ticks anchor :: rest =>
    let elapsed := count - anchor
    if ticks ≤ elapsed then x.goOn p rest
    else x.goOn p (rtcRound ticks anchor (ticks - elapsed) ++ rest)

/-- The sleep goes on. -/
def sleepOn (x : Sys Waker) (z : Sleep) (stage : Stage) : Sys Waker :=
  { x with task := some (.sleep { z with stage := stage }) }

/-- A step of `sleep_with`. What `before_power_down` does is left out. -/
def sleepStep (x : Sys Waker) (z : Sleep) : Option (Sys Waker) :=
  match z.stage with
  | .timer =>
    some ({ x with regs := { x.regs with
      wuTimeout := z.sources.timer.getD x.regs.wuTimeout } }.sleepOn z .rtc)
  | .rtc =>
    some ({ x with regs := { x.regs with
      rtcTimeout := z.sources.rtc.getD x.regs.rtcTimeout } }.sleepOn z .wuCntl)
  | .wuCntl =>
    some ({ x with regs := { x.regs with wuCntl := z.sources.wuCntl } }.sleepOn z .sleepCntl)
  | .sleepCntl =>
    some ({ x with regs := { x.regs with
      sleepCntl := sleepCntl z.mode z.retention } }.sleepOn z .accept)
  | .accept => some (if x.regs.status.getLsbD 0 then x.sleepOn z .beforePowerDown else x)
  | .beforePowerDown => some (x.sleepOn z .powerDown)
  | .powerDown =>
    some ({ x with regs := { x.regs with
      status := x.regs.status &&& ~~~bit 0 } }.sleepOn z .wake)
  | .wake =>
    -- Without `mcu`, the chip starts anew.
    if z.retention.mcu then some (if x.regs.status.getLsbD 0 then x.sleepOn z .read else x)
    else none
  | .read => some (x.sleepOn z (.ack x.regs.status))
  | .ack raw =>
    let regs := { x.regs with status := x.regs.status &&& ~~~raw }
    some { x with
      regs
      task := none
      slept := x.slept ++ [⟨z, wakeReason raw, regs, x.waits⟩] }

/-- One step; `none`: not possible. No handler runs in a critical section of the task, and nothing
else starts while a poll or sleep runs. -/
def step (x : Sys Waker) : Act Waker → Option (Sys Waker)
  | .latch bits => some (x.latch bits)
  | .isr s =>
    -- `irq` calls the handler where its event is latched.
    if x.task.any Task.locked || !x.regs.status.getLsbD s.evt then none else some (x.isr s)
  | .waitForEdge n edge => x.call (.kbi n) (waitForEdge n edge)
  | .waitRtcTicks ticks => x.call .rtc (waitRtcTicks ticks)
  | .poll s cx => if x.task.isSome then none else x.poll s cx
  | .drop s => if x.task.isSome then none else x.drop s
  | .sleep mode sources retention =>
    if x.task.isSome || !sources.any then none
    else some { x with task := some (.sleep
      ⟨mode, sources, retention, .timer, x.regs.status, 0, x.regs.wuCntl, x.regs.status⟩) }
  | .step count =>
    match x.task with
    | none => none
    | some (.poll p) => some (x.pollStep p count)
    | some (.sleep z) => x.sleepStep z

/-- Nothing has been called yet. -/
def init (regs : Regs) : Sys Waker :=
  ⟨regs, fun _ => ⟨none⟩, fun _ => .idle, fun _ => .idle, none, []⟩

end Sys

/-- The system, from any state of the registers. -/
def lts (Waker : Type) : Lts :=
  .ofStep (fun x : Sys Waker => ∃ regs, x = Sys.init regs) Sys.step

end Mc1322x.Crm
