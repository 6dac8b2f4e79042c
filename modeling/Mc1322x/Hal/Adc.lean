import Mathlib.Data.UInt
import Mathlib.Logic.Function.Basic
import Mc1322x.Hal.Util
import Mc1322x.Lib.Wakeup

/-!
# The ADC driver (`mc1322x-hal/src/adc.rs`)

`Statics` are `ADC_CACHE` and `ADC_WAKERS`, with the entries that the handler has read from the FIFO
so far. A sample in the cache carries its place among these (`Sample.number`), which the code does
not have.

* `drain` is one entry of `adc_isr`, `adcIsr` the handler.
* `Owns`: a sample is the entry of its number, with the tag of its channel.
* `adcIsr_cache`, `adcIsr_notLost`: what the handler does to a channel.
-/

namespace Mc1322x.Adc

/-- `ADC_CHANNELS`. -/
def adcChannels : UInt8 := 9

/-- A channel of the ADC: 0 to 7 are the pins, 8 is the internal reference. -/
abbrev Channel := Fin 9

/-- A channel as an index of the arrays, if it is one. -/
def channel? (channel : UInt8) : Option Channel :=
  if h : channel.toNat < adcChannels.toNat then some ⟨channel.toNat, h⟩ else none

/-- `IRQ_FIFO`. -/
def irqFifo : UInt16 := (1 : UInt16) <<< 15

/-- A sample in the cache. -/
structure Sample where
  value : UInt16
  /-- Which of the entries read from the FIFO it is. -/
  number : Nat
  deriving DecidableEq

/-- The last sample of each channel that has not been taken. -/
abbrev Cache := Channel → Option Sample

/-- Take and clear the sample of a channel in a copy of the cache. -/
def Cache.take (cache : Cache) (ch : Channel) : Option Sample × Cache :=
  (cache ch, Function.update cache ch none)

/-- The statics of the driver, and what `adc_isr` has read. -/
structure Statics (Waker : Type) where
  /-- `ADC_CACHE`. -/
  cache : Cache
  /-- `ADC_WAKERS`. -/
  wakers : Channel → WakerCell Waker
  /-- The entries read from the FIFO so far. -/
  drained : List UInt16

namespace Statics

variable {Waker : Type}

/-- The statics at the start. -/
def init : Statics Waker where
  cache _ := none
  wakers _ := ⟨none⟩
  drained := []

/-- `take_cached`, of a channel in range. -/
def takeCached (s : Statics Waker) (ch : Channel) : Option Sample × Statics Waker :=
  let (value, cache) := s.cache.take ch
  (value, { s with cache := cache })

/-- One entry of the FIFO in `adc_isr`. -/
def drain (s : Statics Waker) (sample : UInt16) : Statics Waker :=
  let channel := (sample >>> 12).toNat
  { s with
    cache :=
      if h : channel < adcChannels.toNat then
        Function.update s.cache ⟨channel, h⟩ (some ⟨sample &&& 0x0FFF, s.drained.length⟩)
      else s.cache
    drained := s.drained ++ [sample] }

/-- `adc_isr`, with what it reads from `ADC_IRQ` and from the FIFO until that is empty. It runs with
interrupts masked. The answer are the wakers woken. -/
def adcIsr (s : Statics Waker) (irq : UInt16) (fifo : List UInt16) :
    (Channel → Option Waker) × Statics Waker :=
  if irq &&& irqFifo = 0 then (fun _ => none, s)
  else
    let s := fifo.foldl drain s
    (fun ch => (s.wakers ch).wake.1, { s with wakers := fun ch => (s.wakers ch).wake.2 })

end Statics

/-! ## Samples -/

/-- The sample is the entry of its number, which carries the tag of the channel. -/
def Owns (drained : List UInt16) (ch : Channel) (v : Sample) : Prop :=
  ∃ e, drained[v.number]? = some e ∧ (e >>> 12).toNat = ch ∧ v.value = e &&& 0x0FFF

namespace Owns

variable {drained : List UInt16} {ch ch' : Channel} {v v' : Sample}

theorem lt (h : Owns drained ch v) : v.number < drained.length := by
  obtain ⟨e, he, -⟩ := h
  exact (List.getElem?_eq_some_iff.mp he).1

theorem append (h : Owns drained ch v) (l : List UInt16) : Owns (drained ++ l) ch v := by
  have hlt := h.lt
  obtain ⟨e, he, htag, hv⟩ := h
  exact ⟨e, by rw [List.getElem?_append_left hlt, he], htag, hv⟩

theorem value_lt (h : Owns drained ch v) : v.value < 4096 := by
  obtain ⟨e, -, -, hv⟩ := h
  rw [hv, UInt16.lt_iff_toNat_lt, UInt16.toNat_and]
  exact Nat.lt_succ_of_le Nat.and_le_right

/-- An entry has one channel. -/
theorem channel_eq (h : Owns drained ch v) (h' : Owns drained ch' v') (hn : v.number = v'.number) :
    ch = ch' := by
  obtain ⟨e, he, htag, -⟩ := h
  obtain ⟨e', he', htag', -⟩ := h'
  rw [hn, he'] at he
  cases he
  exact Fin.ext (htag.symm.trans htag')

end Owns

/-! ## The handler -/

namespace Statics

variable {Waker : Type} {s : Statics Waker} {ch : Channel} {v : Sample}

/-- Samples with tags above 8 do not change the cache. -/
theorem drain_of_tag {e : UInt16} (h : 8 < (e >>> 12).toNat) : (s.drain e).cache = s.cache :=
  dif_neg (Nat.not_lt.mpr h)

/-- An entry is cached for its channel, and no other channel changes. -/
theorem drain_cache (s : Statics Waker) (e : UInt16) (ch : Channel) :
    (s.drain e).cache ch =
      if (e >>> 12).toNat = ch then some ⟨e &&& 0x0FFF, s.drained.length⟩ else s.cache ch := by
  unfold drain
  dsimp only
  by_cases hlt : (e >>> 12).toNat < adcChannels.toNat
  · rw [dif_pos hlt]
    by_cases hch : (e >>> 12).toNat = ch
    · have heq : ch = ⟨(e >>> 12).toNat, hlt⟩ := Fin.ext hch.symm
      rw [if_pos hch, heq, Function.update_self]
    · rw [if_neg hch, Function.update_of_ne fun heq => hch (by rw [heq])]
  · have hch : ¬ (e >>> 12).toNat = ch := fun heq => hlt (by rw [heq]; exact ch.isLt)
    rw [dif_neg hlt, if_neg hch]

theorem drain_owns {e : UInt16} (h : (s.drain e).cache ch = some v) :
    s.cache ch = some v ∨ Owns (s.drain e).drained ch v ∧ s.drained.length ≤ v.number := by
  rw [drain_cache] at h
  split at h
  · rename_i htag
    cases h
    exact .inr ⟨⟨e, List.getElem?_concat_length, htag, rfl⟩, Nat.le_refl _⟩
  · exact .inl h

theorem foldl_drain_drained (fifo : List UInt16) (s : Statics Waker) :
    (fifo.foldl drain s).drained = s.drained ++ fifo := by
  induction fifo generalizing s with
  | nil => exact (List.append_nil _).symm
  | cons e fifo ih =>
    rw [List.foldl_cons, ih]
    exact List.append_assoc s.drained [e] fifo

theorem foldl_drain_wakers (fifo : List UInt16) (s : Statics Waker) :
    (fifo.foldl drain s).wakers = s.wakers := by
  induction fifo generalizing s with
  | nil => rfl
  | cons e fifo ih => exact ih (s.drain e)

theorem foldl_drain_cache (fifo : List UInt16) (s : Statics Waker)
    (h : (fifo.foldl drain s).cache ch = some v) :
    s.cache ch = some v ∨ Owns (s.drained ++ fifo) ch v ∧ s.drained.length ≤ v.number := by
  induction fifo generalizing s with
  | nil => exact .inl h
  | cons e fifo ih =>
    have hd : (s.drain e).drained = s.drained ++ [e] := rfl
    rcases ih (s.drain e) h with h | ⟨ho, hn⟩
    · refine (drain_owns h).imp_right fun ⟨ho, hn⟩ => ⟨?_, hn⟩
      rw [hd] at ho
      have := ho.append fifo
      rwa [List.append_assoc] at this
    · rw [hd, List.append_assoc] at ho
      rw [hd, List.length_append] at hn
      exact .inr ⟨ho, Nat.le_trans (Nat.le_add_right _ _) hn⟩

variable {irq : UInt16} {fifo : List UInt16}

theorem adcIsr_drained (s : Statics Waker) (irq : UInt16) (fifo : List UInt16) :
    ∃ l, (s.adcIsr irq fifo).2.drained = s.drained ++ l := by
  unfold adcIsr
  split
  · exact ⟨[], (List.append_nil _).symm⟩
  · exact ⟨fifo, foldl_drain_drained fifo s⟩

/-- A sample that the handler leaves in the cache was there before, or is an entry that it has
read. -/
theorem adcIsr_cache (h : (s.adcIsr irq fifo).2.cache ch = some v) :
    s.cache ch = some v ∨
      Owns (s.adcIsr irq fifo).2.drained ch v ∧ s.drained.length ≤ v.number := by
  unfold adcIsr at h ⊢
  split at h
  · exact .inl h
  · rename_i hirq
    rw [if_neg hirq]
    dsimp only
    rw [foldl_drain_drained]
    exact foldl_drain_cache fifo s h

/-- Whoever waits for a channel with no sample is woken when it gets one. -/
theorem adcIsr_notLost {b : Wakeup Waker} (h : b.NotLost (s.cache ch = none) (s.wakers ch).slot) :
    (b.wake ((s.adcIsr irq fifo).1 ch)).NotLost ((s.adcIsr irq fifo).2.cache ch = none)
      ((s.adcIsr irq fifo).2.wakers ch).slot := by
  unfold adcIsr
  split
  · have hb : b.wake none = b := by
      unfold Wakeup.wake
      rw [Option.toList_none, List.append_nil]
    rw [hb]
    exact h
  · dsimp only
    rw [foldl_drain_wakers]
    exact h.wake

end Statics

end Mc1322x.Adc
