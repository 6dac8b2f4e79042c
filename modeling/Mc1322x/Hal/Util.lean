/-!
# Helpers shared by the drivers (`mc1322x-hal/src/util.rs`)
-/

namespace Mc1322x

/-- A waker slot. -/
structure WakerCell (Waker : Type) where
  slot : Option Waker

namespace WakerCell

variable {Waker : Type}

/-- `set`: store a waker, replacing whatever was there. -/
def set (_c : WakerCell Waker) (waker : Waker) : WakerCell Waker := ⟨some waker⟩

/-- `wake`: take the stored waker, if any; the waker woken and the cell after it. -/
def wake (c : WakerCell Waker) : Option Waker × WakerCell Waker := (c.slot, ⟨none⟩)

end WakerCell

end Mc1322x
