/-!
# Waits that an interrupt ends

A poll that is pending stores the waker of its task in a slot and enables an interrupt; the handler
disables the interrupt and wakes the task in the slot. `Wakeup` are the books of one such wait: who
waits, and who has been woken since. `NotLost`: a task that waits has been woken, or is in the slot
with the interrupt enabled.
-/

/-- The books of a wait. -/
structure Wakeup (Waker : Type) where
  /-- The waker of the last poll, if it was pending. -/
  pending : Option Waker
  /-- The wakers woken since that poll. -/
  woken : List Waker

namespace Wakeup

variable {Waker : Type}

/-- Nobody waits. -/
def idle : Wakeup Waker := ⟨none, []⟩

/-- A poll with the waker `w` is pending. -/
def polled (w : Waker) : Wakeup Waker := ⟨some w, []⟩

/-- The handler wakes the task in the slot. -/
def wake (b : Wakeup Waker) (slot : Option Waker) : Wakeup Waker :=
  { b with woken := b.woken ++ slot.toList }

/-- Somebody waits, and has been woken. -/
def Woken (b : Wakeup Waker) : Prop := ∃ w ∈ b.woken, b.pending = some w

/-- No task waits without an interrupt that will wake it. -/
def NotLost (b : Wakeup Waker) (enabled : Prop) (slot : Option Waker) : Prop :=
  b.pending ≠ none → b.Woken ∨ enabled ∧ slot = b.pending

variable {b : Wakeup Waker} {enabled enabled' : Prop} {slot : Option Waker}

theorem notLost_polled {w : Waker} (h : enabled) : (polled w).NotLost enabled (some w) :=
  fun _ => .inr ⟨h, rfl⟩

theorem Woken.wake (h : b.Woken) (slot : Option Waker) : (b.wake slot).Woken := by
  obtain ⟨w, hw, hp⟩ := h
  exact ⟨w, List.mem_append_left _ hw, hp⟩

/-- Whoever waits is woken by the handler. -/
theorem NotLost.woken (h : b.NotLost enabled slot) (hp : b.pending ≠ none) :
    (b.wake slot).Woken := by
  obtain hw | ⟨-, rfl⟩ := h hp
  · exact hw.wake slot
  · obtain ⟨w, hw⟩ := Option.ne_none_iff_exists'.mp hp
    refine ⟨w, List.mem_append_right _ ?_, hw⟩
    rw [hw]
    exact List.mem_singleton.mpr rfl

theorem NotLost.wake (h : b.NotLost enabled slot) : (b.wake slot).NotLost enabled' none :=
  fun hp => .inl (h.woken hp)

theorem NotLost.mono (h : b.NotLost enabled slot) (he : enabled → enabled') :
    b.NotLost enabled' slot :=
  fun hp => (h hp).imp_right fun h => ⟨he h.1, h.2⟩

end Wakeup
