/-!
# The COP watchdog (`mc1322x-hal/src/watchdog.rs`)

The COP resets the chip unless it is serviced in time. `Cop` is its control register, and the number
of times that it has been serviced.
-/

namespace Mc1322x.Watchdog

/-- The COP, without its count. -/
structure Cop where
  /-- `COP_CNTL`. -/
  cntl : UInt32
  /-- The writes of `SERVICE_KEY` to `COP_SERVICE` so far. -/
  services : Nat

/-- `COP_EN`. -/
def copEn : UInt32 := (1 : UInt32) <<< 0

/-- `COP_WP`. -/
def copWp : UInt32 := (1 : UInt32) <<< 2

/-- `TIMEOUT_SHIFT`: the place of `COP_TIMEOUT` in `COP_CNTL`. -/
def timeoutShift : UInt32 := 8

/-- `FIELD_MASK`: the seven bits of `COP_TIMEOUT` and `COP_COUNT`. -/
def fieldMask : UInt32 := 0x7F

/-- `STEP_SHIFT`: a step of the COP is `2 ^ 21` cycles of `REF_OSC`. -/
def stepShift : UInt32 := 21

/-- One of the 128 `COP_TIMEOUT` settings. -/
abbrev Timeout := Fin 128

section

variable (refOsc : UInt32)

/-- `REF_CYCLES_PER_MS`, of `REF_OSC`. -/
def refCyclesPerMs : UInt32 := refOsc / 1000

/-- The period in milliseconds, rounded down. -/
def Timeout.asMillis (t : Timeout) : UInt32 :=
  ((.ofNat t + 1) <<< stepShift) / refCyclesPerMs refOsc

/-- The shortest period that is at least `ms` milliseconds. -/
def Timeout.fromMillis (ms : UInt32) : Option Timeout :=
  if ms > 2 * Timeout.asMillis refOsc (Fin.last 127) then none
  else
    let cycles := ms * refCyclesPerMs refOsc
    let steps := cycles / ((1 : UInt32) <<< stepShift) +
      if cycles % ((1 : UInt32) <<< stepShift) = 0 then 0 else 1
    let steps := if steps = 0 then 1 else steps
    if h : steps.toNat - 1 < 128 then some ⟨steps.toNat - 1, h⟩ else none

end

/-- `service`. -/
def Cop.service (c : Cop) : Cop := { c with services := c.services + 1 }

/-- `Watchdog::stop`: `none` is `Locked`. -/
def Cop.stop (c : Cop) : Option Cop :=
  if c.cntl &&& copWp ≠ 0 then none
  else if c.cntl &&& copEn ≠ 0 then some { c with cntl := c.cntl &&& (fieldMask <<< timeoutShift) }
  else some c

/-- `Watchdog::start`. -/
def Cop.start (c : Cop) (timeout : Timeout) : Option Cop := do
  let c ← c.stop
  let timeout : UInt32 := .ofNat timeout <<< timeoutShift
  let c := { c with cntl := timeout }.service
  some { c with cntl := timeout ||| copEn }.service

/-- `HardwareWatchdog::start` with a timeout in whole seconds and milliseconds: `none` is a panic,
the timeout too long or the COP locked. -/
def Cop.hardwareStart (refOsc : UInt32) (c : Cop) (secs : UInt64) (subsecMillis : UInt32) :
    Option Cop := do
  let ms := secs.toNat * 1000 + subsecMillis.toNat
  let timeout ← Timeout.fromMillis refOsc (.ofNat (min ms (UInt32.size - 1)))
  c.start timeout

end Mc1322x.Watchdog
