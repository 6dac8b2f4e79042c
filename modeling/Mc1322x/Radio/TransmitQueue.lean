import Mc1322x.Radio.Attribution
import Mc1322x.Radio.RadioHal

/-!
# The transmit queue

A step of the radio leaves the transmit queue, adds a frame at its end or takes the oldest one
(`Full.step_queue`); only an interrupt of the MACA takes one.
-/

namespace Mc1322x.Radio

variable {Waker : Type}

/-- The MACA ends a transmission. -/
def FullAct.sends : FullAct Waker → Bool
  | .base (.sent _) => true
  | _ => false

section

variable {s s' : Full Waker}

theorem startTransmit_queues (r : Driver Waker) (txInFlight : Bool) (data : List UInt8) :
    Quiet r (startTransmit r txInFlight data).2.2 ∨
      Queues r (startTransmit r txInFlight data).2.2 := by
  unfold startTransmit
  cases hc : claimFreePacket r.maca with
  | none => exact .inl ⟨rfl, rfl, rfl, .inl rfl⟩
  | some x =>
    obtain ⟨p, m⟩ := x
    obtain ⟨free, -, rfl⟩ := claimFreePacket_eq_some hc
    exact .inr ⟨⟨p, rfl⟩, rfl, rfl, .inl rfl⟩

theorem checkTransmit_quiet (r : Driver Waker) (txInFlight : Bool) :
    Quiet r (checkTransmit r txInFlight).2.2 := by
  unfold checkTransmit
  split
  · exact ⟨rfl, rfl, rfl, .inr rfl⟩
  · exact .refl r

theorem getReceived_quiet (r : Driver Waker) (room : Nat) :
    Quiet r (Radio.getReceived r room).2 := by
  unfold Radio.getReceived
  cases hp : popReceivePacket r with
  | none => exact .refl r
  | some x =>
    obtain ⟨h₁, h₂, h₃, h₄⟩ := popReceivePacket_quiet hp
    exact ⟨h₁, h₂, h₃, h₄⟩

/-- What a step does to the transmit queue: nothing, a frame is queued, or the oldest one is sent. -/
theorem Full.step_queue {a : FullAct Waker} (hs : s.step a = some s') :
    (a.sends = false ∧ Quiet s.sys.radio s'.sys.radio) ∨
      (a.sends = false ∧ Queues s.sys.radio s'.sys.radio) ∨
      (a.sends = true ∧ s'.sys.radio.maca.frames = s.sys.radio.maca.frames ∧
        ∃ q, s.sys.radio.maca.txQueue = q :: s'.sys.radio.maca.txQueue) := by
  cases a with
  | base a =>
    obtain ⟨sys, h, rfl⟩ := Full.step_base hs
    cases a with
    | poll i w =>
      obtain ⟨f, r, f', write, -, hp, rfl⟩ := Sys.step_spec h
      -- A poll leaves the queue as it is, or it queues the frame of its future.
      rcases Fut.poll_cases hp with hq | hq
      · exact .inl ⟨rfl, hq⟩
      · exact .inr (.inl ⟨rfl, hq⟩)
    | sent status =>
      obtain ⟨q, rest, hq, rfl⟩ := Sys.step_spec h
      exact .inr (.inr ⟨rfl, rfl, q, hq⟩)
    | _ => exact .inl ⟨rfl, Sys.step_quiet h (by simp) (by simp)⟩
  | setChannel channel =>
    obtain ⟨-, rfl⟩ := Full.step_setChannel hs
    exact .inl ⟨rfl, setChannelIndex_quiet _ _⟩
  | halSetChannel channel =>
    cases hs
    refine .inl ⟨rfl, ?_⟩
    simp only [Full.withRadio, Radio.halSetChannel]
    split
    · exact .refl _
    · exact setChannelIndex_quiet _ _
  | setState idle =>
    cases hs
    cases idle <;> exact .inl ⟨rfl, rfl, rfl, rfl, .inl rfl⟩
  | startTransmit data =>
    cases hs
    rcases startTransmit_queues s.sys.radio s.txInFlight data with hq | hq
    · exact .inl ⟨rfl, hq⟩
    · exact .inr (.inl ⟨rfl, hq⟩)
  | checkTransmit =>
    cases hs
    exact .inl ⟨rfl, checkTransmit_quiet _ _⟩
  | isBusy | checkReceive | startReceive =>
    cases hs
    exact .inl ⟨rfl, rfl, rfl, rfl, .inl rfl⟩
  | getReceived room =>
    cases hs
    exact .inl ⟨rfl, getReceived_quiet _ _⟩

/-- The frames in the transmit queue have been numbered. -/
theorem Full.frame_lt {C : Full Waker → FullAct Waker → Prop} {pool : List Ptr}
    (h : (full Waker (Full.Started pool)).Reach C s) :
    ∀ q ∈ s.sys.radio.maca.txQueue, q.frame < s.sys.radio.maca.frames := by
  refine Lts.Reach.induct (I := fun s : Full Waker =>
    ∀ q ∈ s.sys.radio.maca.txQueue, q.frame < s.sys.radio.maca.frames) ?_ ?_ h
  · rintro s ⟨⟨-, -, hq, -⟩, -⟩
    rw [hq]
    exact nofun
  · intro s a s' ih _ hs q hq
    rcases Full.step_queue hs with ⟨-, h⟩ | ⟨-, h⟩ | ⟨-, hf, q', hq'⟩
    · rw [h.frames]
      exact ih q (h.txQueue ▸ hq)
    · obtain ⟨p, htx⟩ := h.txQueue
      rw [h.frames]
      rw [htx] at hq
      rcases List.mem_append.mp hq with hq | hq
      · exact Nat.lt_succ_of_lt (ih q hq)
      · rw [List.mem_singleton.mp hq]
        exact Nat.lt_succ_self _
    · rw [hf]
      exact ih q (by rw [hq']; exact List.mem_cons_of_mem _ hq)

end

end Mc1322x.Radio
