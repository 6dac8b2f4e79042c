import Mc1322x.Hal.Adc
import Mc1322x.Lib.Lts

/-!
# Reads of the ADC with its interrupt handler

`Sys.step` has the calls of `read` and `read_async`, with a reader for each channel, in the steps of
their critical sections: to mask the interrupts, to copy the cache, to write it back or to register
the waker, and to unmask them. The readers of different channels and the handler come in any order.
A critical section holds the others and the handler back (`Sys.lock`).

`Sys.Sound` is the invariant. A copy of the cache is the cache as long as the section lasts; once a
reader has discarded what was cached, a sample cached for it is an entry read since it began
(`Sys.Fresh`); and a future that is pending is woken with the next sample (`Wakeup.NotLost`).

* `takeCached_steps`: the steps of a section together are `take_cached`.
* `samples_fresh_once`: what the reads return.
-/

namespace Mc1322x.Adc

/-- What a critical section does with the cache: discard the sample of the channel, or check for
one. -/
inductive Access where
  | discard
  | check
  deriving DecidableEq

/-- How far a critical section is. -/
inductive Stage where
  | enter
  | copy
  /-- With the copy of the cache. -/
  | store (cache : Cache)
  /-- With the sample taken. -/
  | leave (value : Option Sample)

/-- Where the reader of a channel is. A section is that of a poll of `read_async`, with the waker of
its context, or of `read`. -/
inductive Place (Waker : Type) where
  | idle
  /-- `read_async` has been called, and not been polled. -/
  | called
  | critical (access : Access) (cx : Option Waker) (stage : Stage)
  | pending

/-- A reader of one channel. -/
structure Reader (Waker : Type) where
  place : Place Waker
  /-- How many entries had been read from the FIFO when the read began. -/
  began : Nat
  /-- The waits of `read_async`. -/
  books : Wakeup Waker

/-- A read that has returned. -/
structure Return where
  channel : Channel
  sample : Sample
  began : Nat
  deriving DecidableEq

/-- The statics, with one reader for each channel and the critical section. -/
structure Sys (Waker : Type) where
  adc : Statics Waker
  /-- Whose critical section it is. -/
  lock : Option Channel
  readers : Channel → Reader Waker
  returned : List Return

/-- What happens: calls and polls of the readers, their accesses one by one, and `adc_isr`, which
drains any entries of the FIFO. -/
inductive Act (Waker : Type) where
  | read (channel : UInt8)
  | readAsync (channel : UInt8)
  | poll (ch : Channel) (cx : Waker)
  /-- The next step of the reader's critical section. -/
  | step (ch : Channel)
  /-- The future is dropped between polls. -/
  | drop (ch : Channel)
  | isr (irq : UInt16) (fifo : List UInt16)

namespace Sys

variable {Waker : Type}

/-- The reader of the channel becomes `r`. -/
def put (s : Sys Waker) (ch : Channel) (r : Reader Waker) : Sys Waker :=
  { s with readers := Function.update s.readers ch r }

/-- The reader goes on at another place. -/
def goto (s : Sys Waker) (ch : Channel) (place : Place Waker) : Sys Waker :=
  s.put ch { s.readers ch with place := place }

/-- A read begins. -/
def start (s : Sys Waker) (ch : Channel) (cx : Option Waker) : Sys Waker :=
  s.put ch { s.readers ch with
    place := .critical .discard cx .enter
    began := s.adc.drained.length }

/-- The write to the cache or, for a poll that finds no sample, to the channel's waker. -/
def store (s : Sys Waker) (ch : Channel) (access : Access) (cx : Option Waker) (cache : Cache) :
    Sys Waker :=
  match access, cx, cache ch with
  | .check, some cx, none =>
    { s with adc := { s.adc with
        wakers := Function.update s.adc.wakers ch ((s.adc.wakers ch).set cx) } }.put ch
      { s.readers ch with
        place := .critical .check (some cx) (.leave none)
        books := .polled cx }
  | _, _, _ =>
    let (value, cache) := cache.take ch
    { s with adc := { s.adc with cache := cache } }.goto ch (.critical access cx (.leave value))

/-- The end of a critical section: `read` spins, `read_async` is pending. -/
def leave (s : Sys Waker) (ch : Channel) (access : Access) (cx : Option Waker)
    (value : Option Sample) : Sys Waker :=
  let s := { s with lock := none }
  match access, value, cx with
  | .discard, _, cx => s.goto ch (.critical .check cx .enter)
  | .check, some v, _ =>
    put { s with returned := s.returned ++ [⟨ch, v, (s.readers ch).began⟩] } ch
      { s.readers ch with place := .idle, books := .idle }
  | .check, none, none => s.goto ch (.critical .check none .enter)
  | .check, none, some _ => s.goto ch .pending

/-- The next step of a critical section; `none`: the step is not possible. -/
def critical (s : Sys Waker) (ch : Channel) (access : Access) (cx : Option Waker) :
    Stage → Option (Sys Waker)
  | .enter =>
    if s.lock = none then
      some ({ s with lock := some ch }.goto ch (.critical access cx .copy))
    else none
  | .copy => some (s.goto ch (.critical access cx (.store s.adc.cache)))
  | .store cache => some (s.store ch access cx cache)
  | .leave value => some (s.leave ch access cx value)

/-- `adc_isr`, and the wakes of the futures that wait. -/
def isr (s : Sys Waker) (irq : UInt16) (fifo : List UInt16) : Sys Waker :=
  let (woken, adc) := s.adc.adcIsr irq fifo
  { s with
    adc := adc
    readers := fun ch => { s.readers ch with books := (s.readers ch).books.wake (woken ch) } }

/-- One step; `none`: the step is not possible. A read of a channel above 8 panics. -/
def step (s : Sys Waker) : Act Waker → Option (Sys Waker)
  | .read channel => match channel? channel with
    | none => none
    | some ch => match (s.readers ch).place with
      | .idle => some (s.start ch none)
      | _ => none
  | .readAsync channel => match channel? channel with
    | none => none
    | some ch => match (s.readers ch).place with
      | .idle => some (s.goto ch .called)
      | _ => none
  | .poll ch cx => match (s.readers ch).place with
    | .called => some (s.start ch (some cx))
    | .pending => some (s.goto ch (.critical .check (some cx) .enter))
    | _ => none
  | .step ch => match (s.readers ch).place with
    | .critical access cx stage => s.critical ch access cx stage
    | _ => none
  | .drop ch => match (s.readers ch).place with
    | .called | .pending =>
      some (s.put ch { s.readers ch with place := .idle, books := .idle })
    | _ => none
  | .isr irq fifo => if s.lock = none then some (s.isr irq fifo) else none

/-- Nothing has been called yet. -/
def init : Sys Waker where
  adc := .init
  lock := none
  readers _ := { place := .idle, began := 0, books := .idle }
  returned := []

end Sys

/-- The runs of the readers with the handler. -/
def runs (Waker : Type) : Lts := .ofStep (· = (Sys.init : Sys Waker)) Sys.step

/-! ## The invariant -/

namespace Sys

variable {Waker : Type}

/-- The numbers of the samples returned. -/
def numbers (s : Sys Waker) : List Nat := s.returned.map (·.sample.number)

/-- A sample cached for the channel is an entry read since the reader began. -/
def Fresh (s : Sys Waker) (ch : Channel) : Prop :=
  ∀ v, s.adc.cache ch = some v → (s.readers ch).began ≤ v.number

/-- A sample that its reader may return. -/
structure Due (s : Sys Waker) (ch : Channel) (v : Sample) : Prop where
  owns : Owns s.adc.drained ch v
  began : (s.readers ch).began ≤ v.number
  new : v.number ∉ s.numbers

/-- The reader of a channel at a stage of its critical section. -/
def AtStage (s : Sys Waker) (ch : Channel) (access : Access) (cx : Option Waker) : Stage → Prop
  | .enter => s.lock ≠ some ch
  | .copy => s.lock = some ch
  | .store cache => s.lock = some ch ∧ cache = s.adc.cache
  | .leave value => s.lock = some ch ∧ s.adc.cache ch = none ∧ (access = .check →
      (∀ v, value = some v → s.Due ch v) ∧
      (value = none → cx ≠ none → (s.readers ch).books.pending ≠ none))

/-- The reader of a channel at a place. -/
def At (s : Sys Waker) (ch : Channel) : Place Waker → Prop
  | .idle | .called => s.lock ≠ some ch
  | .critical access cx stage => (access = .check → s.Fresh ch) ∧ s.AtStage ch access cx stage
  | .pending => s.lock ≠ some ch ∧ s.Fresh ch ∧ (s.readers ch).books.pending ≠ none

/-- The invariant. -/
structure Sound (s : Sys Waker) : Prop where
  owns : ∀ ch v, s.adc.cache ch = some v → Owns s.adc.drained ch v ∧ v.number ∉ s.numbers
  began : ∀ ch, (s.readers ch).began ≤ s.adc.drained.length
  reader : ∀ ch, s.At ch (s.readers ch).place
  notLost : ∀ ch, (s.readers ch).books.NotLost (s.adc.cache ch = none) (s.adc.wakers ch).slot
  returned : ∀ r ∈ s.returned, Owns s.adc.drained r.channel r.sample ∧ r.began ≤ r.sample.number
  nodup : s.numbers.Nodup

theorem init_sound : (init : Sys Waker).Sound where
  owns _ _ h := by cases h
  began _ := Nat.le_refl 0
  reader _ := by
    intro h
    cases h
  notLost _ h := absurd rfl h
  returned _ h := by cases h
  nodup := List.nodup_nil

section Frame

variable {s s' : Sys Waker} {ch ch' : Channel}

/-- A reader that a step does not concern. -/
theorem At.frame (h : s.At ch (s.readers ch).place) (hr : s'.readers ch = s.readers ch)
    (hl : s'.lock = some ch ↔ s.lock = some ch)
    (hs : s.lock = some ch → s'.adc = s.adc ∧ s'.returned = s.returned)
    (hf : s.Fresh ch → s'.Fresh ch) : s'.At ch (s'.readers ch).place := by
  rw [hr]
  cases hp : (s.readers ch).place with
  | idle | called =>
    rw [hp] at h
    exact mt hl.mp h
  | pending =>
    rw [hp] at h
    obtain ⟨hn, hfr, hb⟩ := h
    exact ⟨mt hl.mp hn, hf hfr, by rwa [hr]⟩
  -- In its section a reader holds the lock, so the step was not one of the others.
  | critical access cx stage =>
    rw [hp] at h
    obtain ⟨hfr, h⟩ := h
    refine ⟨fun ha => hf (hfr ha), ?_⟩
    cases stage with
    | enter => exact mt hl.mp h
    | copy => exact hl.mpr h
    | store cache =>
      obtain ⟨hn, rfl⟩ := h
      exact ⟨hl.mpr hn, by rw [(hs hn).1]⟩
    | leave value =>
      obtain ⟨hn, hc, hv⟩ := h
      obtain ⟨ha, hret⟩ := hs hn
      refine ⟨hl.mpr hn, by rw [ha]; exact hc, fun hcheck => ?_⟩
      obtain ⟨hdue, hpend⟩ := hv hcheck
      refine ⟨fun v hv => ?_, fun hv hcx => by rw [hr]; exact hpend hv hcx⟩
      obtain ⟨ho, hbeg, hnew⟩ := hdue v hv
      exact ⟨by rwa [ha], by rwa [hr], by rwa [numbers, hret]⟩

/-- What a step of the reader of `ch` leaves as it is. -/
structure Frame (s s' : Sys Waker) (ch : Channel) : Prop where
  drained : s'.adc.drained = s.adc.drained
  cache : ∀ ch' v, s'.adc.cache ch' = some v → s.adc.cache ch' = some v
  other : ∀ ch' ≠ ch, s'.readers ch' = s.readers ch' ∧ s'.adc.wakers ch' = s.adc.wakers ch' ∧
    s'.adc.cache ch' = s.adc.cache ch' ∧ (s'.lock = some ch' ↔ s.lock = some ch')
  held : ∀ ch' ≠ ch, s.lock = some ch' → s'.adc = s.adc ∧ s'.returned = s.returned

theorem Sound.step_reader (h : s.Sound) (ch : Channel) (f : Frame s s' ch)
    (hbegan : (s'.readers ch).began ≤ s.adc.drained.length)
    (hat : s'.At ch (s'.readers ch).place)
    (hlost : (s'.readers ch).books.NotLost (s'.adc.cache ch = none) (s'.adc.wakers ch).slot)
    (hnew : ∀ ch v, s'.adc.cache ch = some v → v.number ∉ s'.numbers)
    (hret : ∀ r ∈ s'.returned, Owns s.adc.drained r.channel r.sample ∧ r.began ≤ r.sample.number)
    (hnodup : s'.numbers.Nodup) : s'.Sound where
  owns ch' v hv := by
    rw [f.drained]
    exact ⟨(h.owns ch' v (f.cache ch' v hv)).1, hnew ch' v hv⟩
  began ch' := by
    rw [f.drained]
    by_cases hch : ch' = ch
    · rw [hch]
      exact hbegan
    · rw [(f.other ch' hch).1]
      exact h.began ch'
  reader ch' := by
    by_cases hch : ch' = ch
    · rw [hch]
      exact hat
    · obtain ⟨hr, -, hc, hl⟩ := f.other ch' hch
      refine (h.reader ch').frame hr hl (f.held ch' hch) fun hf v hv => ?_
      rw [hr]
      exact hf v (hc ▸ hv)
  notLost ch' := by
    by_cases hch : ch' = ch
    · rw [hch]
      exact hlost
    · obtain ⟨hr, hw, hc, -⟩ := f.other ch' hch
      rw [hr, hw, hc]
      exact h.notLost ch'
  returned r hr := by
    rw [f.drained]
    exact hret r hr
  nodup := hnodup

/-- A step after which the reads returned are the same. -/
theorem Sound.step_same (h : s.Sound) (ch : Channel) (f : Frame s s' ch)
    (hret : s'.returned = s.returned)
    (hbegan : (s'.readers ch).began ≤ s.adc.drained.length)
    (hat : s'.At ch (s'.readers ch).place)
    (hlost : (s'.readers ch).books.NotLost (s'.adc.cache ch = none) (s'.adc.wakers ch).slot) :
    s'.Sound := by
  have hnum : s'.numbers = s.numbers := by rw [numbers, hret, numbers]
  refine h.step_reader ch f hbegan hat hlost (fun ch' v hv => ?_) (fun r hr => ?_) ?_
  · rw [hnum]
    exact (h.owns ch' v (f.cache ch' v hv)).2
  · exact h.returned r (hret ▸ hr)
  · rw [hnum]
    exact h.nodup

/-- A step that changes the reader and the lock. -/
theorem frame_put {lock : Option Channel} (hl : ∀ ch' ≠ ch, lock = some ch' ↔ s.lock = some ch')
    (r : Reader Waker) : Frame s (put { s with lock := lock } ch r) ch where
  drained := rfl
  cache _ _ h := h
  other ch' hch := ⟨Function.update_of_ne hch _ _, rfl, rfl, hl ch' hch⟩
  held _ _ _ := ⟨rfl, rfl⟩

@[simp] theorem put_readers_self (s : Sys Waker) (r : Reader Waker) :
    (s.put ch r).readers ch = r :=
  Function.update_self ..

theorem Sound.put_lock (h : s.Sound) {lock : Option Channel}
    (hl : ∀ ch' ≠ ch, lock = some ch' ↔ s.lock = some ch') {r : Reader Waker}
    (hbegan : r.began ≤ s.adc.drained.length)
    (hat : (put { s with lock := lock } ch r).At ch r.place)
    (hlost : r.books.NotLost (s.adc.cache ch = none) (s.adc.wakers ch).slot) :
    (put { s with lock := lock } ch r).Sound :=
  h.step_same ch (frame_put hl r) rfl (by rwa [put_readers_self]) (by rwa [put_readers_self])
    (by rwa [put_readers_self])

theorem Sound.goto_lock (h : s.Sound) {lock : Option Channel}
    (hl : ∀ ch' ≠ ch, lock = some ch' ↔ s.lock = some ch') {place : Place Waker}
    (hat : (goto { s with lock := lock } ch place).At ch place) :
    (goto { s with lock := lock } ch place).Sound :=
  h.put_lock hl (h.began ch) hat (h.notLost ch)

/-- A new place, in the same critical sections. -/
theorem Sound.goto (h : s.Sound) {place : Place Waker} (hat : (s.goto ch place).At ch place) :
    (s.goto ch place).Sound :=
  h.goto_lock (fun _ _ => Iff.rfl) hat

theorem Fresh.goto (h : s.Fresh ch) {lock : Option Channel} {place : Place Waker} :
    (goto { s with lock := lock } ch place).Fresh ch := by
  unfold Fresh
  unfold Sys.goto
  rw [put_readers_self]
  exact h

end Frame

/-! ## The steps -/

section Steps

variable {s s' : Sys Waker} {ch : Channel}

theorem Sound.start (h : s.Sound) (hl : s.lock ≠ some ch) (cx : Option Waker) :
    (s.start ch cx).Sound :=
  h.put_lock (fun _ _ => Iff.rfl) (Nat.le_refl _) ⟨fun ha => (by cases ha), hl⟩
    (h.notLost ch)

theorem Sound.drop (h : s.Sound) (hl : s.lock ≠ some ch) :
    (s.put ch { s.readers ch with place := .idle, books := .idle }).Sound :=
  h.put_lock (fun _ _ => Iff.rfl) (h.began ch) hl fun hp => absurd rfl hp

section Handler

variable {irq : UInt16} {fifo : List UInt16}

theorem Sound.fresh_isr (h : s.Sound) (hf : s.Fresh ch) : (s.isr irq fifo).Fresh ch := by
  intro v hv
  rcases Statics.adcIsr_cache hv with hv | ⟨-, hn⟩
  · exact hf v hv
  · exact Nat.le_trans (h.began ch) hn

theorem Sound.at_isr (h : s.Sound) (hl : s.lock = none) (ch : Channel) :
    (s.isr irq fifo).At ch (s.readers ch).place := by
  have hat := h.reader ch
  have hout : s.lock ≠ some ch := by
    rw [hl]
    exact fun hn => by cases hn
  cases hp : (s.readers ch).place with
  | idle | called => exact hout
  | pending =>
    rw [hp] at hat
    exact ⟨hout, h.fresh_isr hat.2.1, hat.2.2⟩
  | critical access cx stage =>
    rw [hp] at hat
    refine ⟨fun ha => h.fresh_isr (hat.1 ha), ?_⟩
    cases stage with
    | enter => exact hout
    | copy => exact absurd hat.2 hout
    | store cache => exact absurd hat.2.1 hout
    | leave value => exact absurd hat.2.1 hout

theorem Sound.numbers_lt (h : s.Sound) {n : Nat} (hn : n ∈ s.numbers) :
    n < s.adc.drained.length := by
  obtain ⟨r, hr, rfl⟩ := List.mem_map.mp hn
  exact (h.returned r hr).1.lt

/-- Samples stay entries of their channel. -/
theorem owns_isr {v : Sample} (h : Owns s.adc.drained ch v) :
    Owns (s.isr irq fifo).adc.drained ch v := by
  obtain ⟨l, hd⟩ := s.adc.adcIsr_drained irq fifo
  show Owns (s.adc.adcIsr irq fifo).2.drained ch v
  rw [hd]
  exact h.append l

/-- The handler comes outside of critical sections. -/
theorem Sound.isr (h : s.Sound) (hl : s.lock = none) : (s.isr irq fifo).Sound where
  owns ch v hv := by
    rcases Statics.adcIsr_cache hv with hv | ⟨ho, hn⟩
    · exact ⟨owns_isr (h.owns ch v hv).1, (h.owns ch v hv).2⟩
    · exact ⟨ho, fun hmem => absurd (h.numbers_lt hmem) (Nat.not_lt.mpr hn)⟩
  began ch := by
    obtain ⟨l, hd⟩ := s.adc.adcIsr_drained irq fifo
    show (s.readers ch).began ≤ (s.adc.adcIsr irq fifo).2.drained.length
    rw [hd, List.length_append]
    exact Nat.le_trans (h.began ch) (Nat.le_add_right _ _)
  reader ch := h.at_isr hl ch
  notLost ch := Statics.adcIsr_notLost (h.notLost ch)
  returned r hr := ⟨owns_isr (h.returned r hr).1, (h.returned r hr).2⟩
  nodup := h.nodup

end Handler

section Critical

variable {access : Access} {cx : Option Waker}

theorem at_goto_leave {value : Option Sample} (hl : s.lock = some ch) (hc : s.adc.cache ch = none)
    (hdue : access = .check → ∀ v, value = some v → s.Due ch v)
    (hpend : access = .check → value = none → cx ≠ none → (s.readers ch).books.pending ≠ none) :
    s.At ch (.critical access cx (.leave value)) :=
  ⟨fun _ v hv => (by rw [hc] at hv; cases hv), hl, hc, fun ha => ⟨hdue ha, hpend ha⟩⟩

/-- The sample is taken. -/
theorem Sound.store_take (h : s.Sound) (hl : s.lock = some ch) (hf : access = .check → s.Fresh ch)
    (hwait : access = .check → s.adc.cache ch = none → cx = none) :
    (Sys.goto { s with adc := { s.adc with cache := (s.adc.cache.take ch).2 } } ch
      (.critical access cx (.leave (s.adc.cache.take ch).1))).Sound := by
  -- Only the entry of the channel is taken, and the lock keeps the others out.
  have hcleared : (s.adc.cache.take ch).2 ch = none := Function.update_self ..
  have hother : ∀ ch' ≠ ch, (s.adc.cache.take ch).2 ch' = s.adc.cache ch' :=
    fun ch' hch => Function.update_of_ne hch _ _
  have hframe : Frame s (Sys.goto { s with adc := { s.adc with cache := (s.adc.cache.take ch).2 } }
      ch (.critical access cx (.leave (s.adc.cache.take ch).1))) ch := by
    refine ⟨rfl, fun ch' v hv => ?_, fun ch' hch => ?_, fun ch' hch hl' => ?_⟩
    · by_cases hch : ch' = ch
      · subst hch
        cases hcleared.symm.trans hv
      · exact (hother ch' hch).symm.trans hv
    · exact ⟨Function.update_of_ne hch _ _, rfl, hother ch' hch, Iff.rfl⟩
    · rw [hl] at hl'
      cases hl'
      exact absurd rfl hch
  refine h.step_same ch hframe rfl ?_ ?_ ?_
  all_goals
    unfold Sys.goto
    rw [put_readers_self]
  · exact h.began ch
  · refine at_goto_leave hl hcleared (fun ha v hv => ?_) fun ha hv hcx => absurd (hwait ha hv) hcx
    refine ⟨(h.owns ch v hv).1, ?_, (h.owns ch v hv).2⟩
    rw [put_readers_self]
    exact hf ha v hv
  · exact (h.notLost ch).mono fun _ => hcleared

/-- No sample, and the waker is registered. -/
theorem Sound.store_waker (h : s.Sound) (hl : s.lock = some ch) (hc : s.adc.cache ch = none)
    (cx : Waker) :
    (put { s with adc := { s.adc with
        wakers := Function.update s.adc.wakers ch ((s.adc.wakers ch).set cx) } } ch
      { s.readers ch with
        place := .critical .check (some cx) (.leave none)
        books := .polled cx }).Sound := by
  refine h.step_same ch ⟨rfl, fun _ _ hv => hv, fun ch' hch => ?_, fun ch' hch hl' => ?_⟩
    rfl ?_ ?_ ?_
  · exact ⟨Function.update_of_ne hch _ _, Function.update_of_ne hch _ _, rfl, Iff.rfl⟩
  · rw [hl] at hl'
    cases hl'
    exact absurd rfl hch
  all_goals rw [put_readers_self]
  · exact h.began ch
  · refine at_goto_leave hl hc (fun _ v hv => by cases hv) fun _ _ _ => ?_
    rw [put_readers_self]
    exact Option.some_ne_none cx
  · refine fun _ => .inr ⟨hc, ?_⟩
    show (Function.update s.adc.wakers ch _ ch).slot = some cx
    rw [Function.update_self]
    rfl

theorem Sound.store (h : s.Sound) (hl : s.lock = some ch) (hf : access = .check → s.Fresh ch) :
    (s.store ch access cx s.adc.cache).Sound := by
  cases access with
  | discard => exact h.store_take hl hf fun ha => by cases ha
  | check =>
    cases cx with
    | none => exact h.store_take hl hf fun _ _ => rfl
    | some cx =>
      unfold Sys.store
      cases hc : s.adc.cache ch with
      | none => exact h.store_waker hl hc cx
      | some v =>
        refine h.store_take hl hf fun _ hn => ?_
        rw [hc] at hn
        cases hn

/-- The read returns. -/
theorem Sound.leave_returned (h : s.Sound) {v : Sample} (hl : s.lock = some ch)
    (hc : s.adc.cache ch = none) (hv : s.Due ch v) :
    (put { s with
      lock := none
      returned := s.returned ++ [⟨ch, v, (s.readers ch).began⟩] } ch
      { s.readers ch with place := .idle, books := .idle }).Sound := by
  have hother : ∀ ch' ≠ ch, s.lock ≠ some ch' := by
    intro ch' hch hl'
    rw [hl] at hl'
    cases hl'
    exact hch rfl
  have hnum : ∀ r, numbers (put { s with
      lock := none
      returned := s.returned ++ [⟨ch, v, (s.readers ch).began⟩] } ch r) =
      s.numbers ++ [v.number] := fun _ => List.map_append
  refine h.step_reader ch ⟨rfl, fun _ _ hv => hv, fun ch' hch => ?_, fun ch' hch hl' => ?_⟩
    ?_ ?_ ?_ (fun ch' v' hv' => ?_) (fun r hr => ?_) ?_
  · exact ⟨Function.update_of_ne hch _ _, rfl, rfl, iff_of_false (fun hn => by cases hn)
      (hother ch' hch)⟩
  · exact absurd hl' (hother ch' hch)
  · rw [put_readers_self]
    exact h.began ch
  · rw [put_readers_self]
    exact fun hn => by cases hn
  · rw [put_readers_self]
    exact fun hn => absurd rfl hn
  · -- An entry that is still cached is one of another channel.
    rw [hnum, List.mem_append, List.mem_singleton]
    rintro (hmem | hn)
    · exact (h.owns ch' v' hv').2 hmem
    · rw [(h.owns ch' v' hv').1.channel_eq hv.owns hn] at hv'
      cases hc.symm.trans hv'
  · rcases List.mem_append.mp hr with hr | hr
    · exact h.returned r hr
    · rw [List.mem_singleton.mp hr]
      exact ⟨hv.owns, hv.began⟩
  · rw [hnum]
    rw [← List.concat_eq_append]
    exact h.nodup.concat hv.new

theorem Sound.leave (h : s.Sound) {value : Option Sample}
    (hat : s.At ch (.critical access cx (.leave value))) : (s.leave ch access cx value).Sound := by
  obtain ⟨-, hl, hc, hcheck⟩ := hat
  have hlock : ∀ ch' ≠ ch, (none : Option Channel) = some ch' ↔ s.lock = some ch' := by
    intro ch' hch
    rw [hl]
    exact iff_of_false (fun hn => by cases hn) fun hn => hch (by cases hn; rfl)
  -- The cache is empty when a section ends, so what comes into it later is fresh.
  have hfresh : s.Fresh ch := by
    intro v hv
    cases hc.symm.trans hv
  have hfree : (none : Option Channel) ≠ some ch := fun hn => by cases hn
  cases access with
  | discard => exact h.goto_lock hlock ⟨fun _ => hfresh.goto, hfree⟩
  | check =>
    obtain ⟨hdue, hpend⟩ := hcheck rfl
    cases value with
    | some v => exact h.leave_returned hl hc (hdue v rfl)
    | none =>
      cases cx with
      | none => exact h.goto_lock hlock ⟨fun _ => hfresh.goto, hfree⟩
      | some cx =>
        refine h.goto_lock hlock ⟨hfree, hfresh.goto, ?_⟩
        unfold Sys.goto
        rw [put_readers_self]
        exact hpend rfl (Option.some_ne_none cx)

/-- Each step of a critical section. -/
theorem Sound.critical (h : s.Sound) {stage : Stage}
    (hp : (s.readers ch).place = .critical access cx stage)
    (hs : s.critical ch access cx stage = some s') : s'.Sound := by
  have hat := h.reader ch
  rw [hp] at hat
  cases stage with
  | enter =>
    simp only [Sys.critical, Option.ite_none_right_eq_some, Option.some.injEq] at hs
    obtain ⟨hl, rfl⟩ := hs
    refine h.goto_lock (fun ch' hch => ?_) ⟨fun ha => (hat.1 ha).goto, rfl⟩
    rw [hl]
    exact iff_of_false (fun hn => hch (by cases hn; rfl)) fun hn => by cases hn
  | copy =>
    cases hs
    exact h.goto ⟨fun ha => (hat.1 ha).goto, hat.2, rfl⟩
  | store cache =>
    obtain ⟨hf, hl, rfl⟩ := hat
    cases hs
    exact h.store hl hf
  | leave value =>
    cases hs
    exact h.leave hat

end Critical

/-- What a step can do. -/
inductive Moves (s : Sys Waker) : Sys Waker → Prop
  | start (ch : Channel) (cx : Option Waker)
      (hp : (s.readers ch).place = .idle ∨ (s.readers ch).place = .called) : Moves s (s.start ch cx)
  | call (ch : Channel) (hp : (s.readers ch).place = .idle) : Moves s (s.goto ch .called)
  | poll (ch : Channel) (cx : Waker) (hp : (s.readers ch).place = .pending) :
      Moves s (s.goto ch (.critical .check (some cx) .enter))
  | critical {s' : Sys Waker} (ch : Channel) (access : Access) (cx : Option Waker) (stage : Stage)
      (hp : (s.readers ch).place = .critical access cx stage)
      (hs : s.critical ch access cx stage = some s') : Moves s s'
  | drop (ch : Channel)
      (hp : (s.readers ch).place = .called ∨ (s.readers ch).place = .pending) :
      Moves s (s.put ch { s.readers ch with place := .idle, books := .idle })
  | isr (irq : UInt16) (fifo : List UInt16) (hl : s.lock = none) : Moves s (s.isr irq fifo)

theorem step_moves {a : Act Waker} (hs : s.step a = some s') : s.Moves s' := by
  unfold Sys.step at hs
  cases a with dsimp only at hs
  | read channel =>
    split at hs
    · cases hs
    · split at hs <;> cases hs
      exact .start _ _ (.inl ‹_›)
  | readAsync channel =>
    split at hs
    · cases hs
    · split at hs <;> cases hs
      exact .call _ ‹_›
  | poll ch cx =>
    split at hs <;> cases hs
    · exact .start ch _ (.inr ‹_›)
    · exact .poll ch cx ‹_›
  | step ch =>
    split at hs
    · exact .critical ch _ _ _ ‹_› hs
    · cases hs
  | drop ch =>
    split at hs <;> cases hs
    · exact .drop ch (.inl ‹_›)
    · exact .drop ch (.inr ‹_›)
  | isr irq fifo =>
    split at hs <;> cases hs
    exact .isr irq fifo ‹_›

/-- A reader outside of its critical section. -/
theorem Sound.outside (h : s.Sound) (hp : (s.readers ch).place = .idle ∨
    (s.readers ch).place = .called ∨ (s.readers ch).place = .pending) : s.lock ≠ some ch := by
  have hat := h.reader ch
  rcases hp with hp | hp | hp <;> rw [hp] at hat
  · exact hat
  · exact hat
  · exact hat.1

theorem Sound.step (h : s.Sound) {a : Act Waker} (hs : s.step a = some s') : s'.Sound := by
  cases step_moves hs with
  | start ch cx hp => exact h.start (h.outside (hp.imp_right .inl)) cx
  | call ch hp => exact h.goto (h.outside (.inl hp))
  | poll ch cx hp =>
    have hat := h.reader ch
    rw [hp] at hat
    exact h.goto ⟨fun _ => hat.2.1.goto, hat.1⟩
  | critical ch access cx stage hp hs => exact h.critical hp hs
  | drop ch hp => exact h.drop (h.outside (.inr hp))
  | isr irq fifo hl => exact h.isr hl

theorem Sound.reach (h : (runs Waker).Reach (Lts.Any _) s) : s.Sound :=
  h.induct (fun _ hi => hi ▸ init_sound) fun _ _ _ hi _ hs => hi.step hs

end Steps

end Sys

/-- **Samples go to the right reader, fresh and once.** In every run of the readers with the
handler, each value that a read has returned is below 4096 and that of an entry with the tag of its
channel, which was read from the FIFO since the read began; no entry is returned twice; entries with
tags above 8 do not change the cache, so that each cached sample has the tag of its channel; and a
future that is pending while a sample is cached for its channel has been woken since it
registered. -/
theorem samples_fresh_once {Waker : Type} {s : Sys Waker} (h : (runs Waker).Reach (Lts.Any _) s) :
    (∀ r ∈ s.returned, r.sample.value < 4096 ∧ Owns s.adc.drained r.channel r.sample ∧
      r.began ≤ r.sample.number) ∧
    (s.returned.map (·.sample.number)).Nodup ∧
    (∀ e : UInt16, 8 < (e >>> 12).toNat → (s.adc.drain e).cache = s.adc.cache) ∧
    (∀ ch v, s.adc.cache ch = some v → Owns s.adc.drained ch v) ∧
    ∀ ch, (s.readers ch).place = .pending → s.adc.cache ch ≠ none →
      (s.readers ch).books.Woken := by
  have hsound := Sys.Sound.reach h
  refine ⟨fun r hr => ?_, hsound.nodup, fun e he => Statics.drain_of_tag he,
    fun ch v hv => (hsound.owns ch v hv).1, fun ch hp hc => ?_⟩
  · obtain ⟨ho, hb⟩ := hsound.returned r hr
    exact ⟨ho.value_lt, ho, hb⟩
  · have hat := hsound.reader ch
    rw [hp] at hat
    exact (hsound.notLost ch hat.2.2).resolve_right fun hn => hc hn.1

/-- A sample cached before the future's first poll is discarded; the future is pending when the next
one comes, with an entry of no channel. -/
def futureActs : List (Act Nat) :=
  [.isr irqFifo [0x3111], .readAsync 3, .poll 3 7] ++ List.replicate 8 (.step 3) ++
    [.isr irqFifo [0x3123, 0x9FFF], .read 4, .poll 3 7] ++ List.replicate 4 (.step 3)

/-- It returns the second entry. -/
theorem samples_fresh_once_second :
    (Lts.exec Sys.step Sys.init futureActs).2.returned = [⟨3, ⟨0x123, 1⟩, 1⟩] ∧
      ∀ r ∈ (Lts.exec Sys.step Sys.init futureActs).2.returned, r.sample.value < 4096 ∧
        Owns (Lts.exec Sys.step Sys.init futureActs).2.adc.drained r.channel r.sample ∧
        r.began ≤ r.sample.number :=
  ⟨by decide, (samples_fresh_once ((Lts.Run.exec (· = (Sys.init : Sys Nat)) Sys.step Sys.init
    futureActs).reach (.init rfl) fun _ _ => trivial)).1⟩

/-! ## The sections -/

namespace Sys

variable {Waker : Type} {ch : Channel}

theorem goto_goto (s : Sys Waker) (place place' : Place Waker) :
    (s.goto ch place).goto ch place' = s.goto ch place' := by
  unfold goto put
  simp only [Function.update_self, Function.update_idem]

/-- The end of a section does not depend on where its reader was. -/
theorem leave_goto (s : Sys Waker) (lock : Option Channel) (place : Place Waker) (access : Access)
    (cx : Option Waker) (value : Option Sample) :
    (goto { s with lock := lock } ch place).leave ch access cx value =
      s.leave ch access cx value := by
  cases access with
  | discard => exact goto_goto { s with lock := none } _ _
  | check =>
    cases value with
    | some v =>
      unfold leave goto put
      simp only [Function.update_self, Function.update_idem]
    | none => cases cx <;> exact goto_goto { s with lock := none } _ _

theorem step_goto (s : Sys Waker) (access : Access) (cx : Option Waker) (stage : Stage) :
    (s.goto ch (.critical access cx stage)).step (.step ch) =
      (s.goto ch (.critical access cx stage)).critical ch access cx stage := by
  unfold step goto
  dsimp only
  rw [put_readers_self]

end Sys

/-- The steps of a section of `read` are those of `take_cached`. -/
theorem takeCached_steps {Waker : Type} {s : Sys Waker} {ch : Channel} {access : Access}
    (hl : s.lock = none) (hp : (s.readers ch).place = .critical access none .enter) :
    ∃ tr, (runs Waker).Run s tr (Sys.leave { s with adc := (s.adc.takeCached ch).2 } ch access none
      (s.adc.takeCached ch).1) ∧ tr.map (·.2) = List.replicate 4 (.step ch) := by
  let locked : Sys Waker := { s with lock := some ch }
  let taken : Sys Waker := { s with adc := (s.adc.takeCached ch).2, lock := some ch }
  -- Enter, copy, store, leave: with the lock held no other step comes between.
  have henter : s.step (.step ch) = some (locked.goto ch (.critical access none .copy)) := by
    simp only [Sys.step, hp, Sys.critical, hl, ↓reduceIte]
    rfl
  have hcopy : (locked.goto ch (.critical access none .copy)).step (.step ch) =
      some (locked.goto ch (.critical access none (.store s.adc.cache))) := by
    rw [Sys.step_goto]
    exact congrArg some (Sys.goto_goto locked _ _)
  have hstore : (locked.goto ch (.critical access none (.store s.adc.cache))).step (.step ch) =
      some (taken.goto ch (.critical access none (.leave (s.adc.takeCached ch).1))) := by
    rw [Sys.step_goto]
    cases access <;> exact congrArg some (Sys.goto_goto taken _ _)
  have hleave : (taken.goto ch (.critical access none (.leave (s.adc.takeCached ch).1))).step
      (.step ch) = some (Sys.leave { s with adc := (s.adc.takeCached ch).2 } ch access none
        (s.adc.takeCached ch).1) := by
    rw [Sys.step_goto]
    exact congrArg some (Sys.leave_goto { s with adc := (s.adc.takeCached ch).2 } _ _ _ _ _)
  exact ⟨_, .cons henter (.cons hcopy (.cons hstore (.single hleave))), rfl⟩

end Mc1322x.Adc
