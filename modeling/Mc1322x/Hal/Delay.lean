import Mc1322x.Hal.CrmWaits
import Mc1322x.Lib.Word

/-!
# Async delays (`delay_ms` of `mc1322x-hal/src/delay.rs`)

`delay_ms` waits for the RTC ticks of its milliseconds with `wait_rtc_ticks`, beside everything else
that uses the CRM. The RTC ticks at any time; `RTC_COUNT` shows the low 32 bits of the ticks so far
(`Sys.now`). `Book` says of a delay when it has read them; no code reads it.

* `Left`: what a delay has yet to do, with what is known of the ticks there.
* `delay_never_short_iff`: no delay is short if and only if no delay has `2 ^ 32` ticks, where the
  number of ticks is cut to 32 bits; what is programmed fits if and only if `RTC_COUNT` has not come
  around since the anchor.
-/

namespace Mc1322x.Crm

/-- The ticks that `delay_ms` asks for. -/
def delayTicks (ms rtcFreq : UInt32) : UInt32 :=
  (max (ms.toUInt64 * rtcFreq.toUInt64 / 1000) 1).toUInt32

/-- The ticks of `ms` milliseconds, one at least. -/
def ticksOf (ms rtcFreq : UInt32) : Nat := max (ms.toNat * rtcFreq.toNat / 1000) 1

theorem delayTicks_toNat (ms rtcFreq : UInt32) :
    (delayTicks ms rtcFreq).toNat = ticksOf ms rtcFreq % 2 ^ 32 := by
  have hms := ms.toNat_lt
  have hfreq := rtcFreq.toNat_lt
  have hmul : ms.toNat * rtcFreq.toNat < 2 ^ 64 := by
    have := Nat.mul_lt_mul'' hms hfreq
    omega
  have hdiv : (ms.toUInt64 * rtcFreq.toUInt64 / 1000).toNat = ms.toNat * rtcFreq.toNat / 1000 := by
    rw [UInt64.toNat_div, UInt64.toNat_mul, UInt32.toNat_toUInt64, UInt32.toNat_toUInt64,
      Nat.mod_eq_of_lt hmul]
    rfl
  unfold delayTicks ticksOf
  rw [UInt64.toNat_toUInt32, Word.toNat_max64, hdiv]
  rfl

namespace Delay

/-! ## The system -/

/-- What is known of a delay. -/
structure Book where
  /-- The ticks of its milliseconds. -/
  due : Nat
  /-- The ticks that it waits for. -/
  ticks : UInt32
  /-- The ticks of the RTC when it read its anchor. -/
  anchor : Nat
  /-- The ticks of the RTC when it last read `RTC_COUNT`. -/
  read : Nat

/-- The CRM with the count of the RTC, and the delays on it. -/
structure Sys (Waker : Type) where
  crm : Crm.Sys Waker
  /-- The ticks of the RTC so far. -/
  now : Nat
  /-- Of the delay that is called last. -/
  book : Book
  /-- What has been written to `RTC_TIMEOUT`. -/
  programmed : List (Book × UInt32)
  /-- The delays that are complete, with the ticks of the RTC then. -/
  finished : List (Book × Nat)

/-- What happens: time, delays and their accesses, and everything else on the CRM. -/
inductive Act (Waker : Type) where
  | tick (n : Nat)
  /-- `delay_ms`, with the calibrated `rtc_freq`. -/
  | delayMs (ms rtcFreq : UInt32)
  /-- The next access of the task. -/
  | step
  /-- Everything else on the CRM. -/
  | other (a : Crm.Act Waker)

variable {Waker : Type}

/-- `RTC_COUNT`. -/
def Sys.count (x : Sys Waker) : UInt32 := .ofNat x.now

/-- The books at an access of the delay. -/
def Sys.observe (x : Sys Waker) : List Instr → Sys Waker
  | .anchor _ :: _ => { x with book := { x.book with anchor := x.now, read := x.now } }
  | .elapsed _ _ :: _ => { x with book := { x.book with read := x.now } }
  | .timeout remaining :: _ => { x with programmed := x.programmed ++ [(x.book, remaining)] }
  | [] => { x with finished := x.finished ++ [(x.book, x.now)] }
  | _ => x

/-- The books at an access of the task. -/
def Sys.access (x : Sys Waker) : Sys Waker :=
  match x.crm.task with
  | some (.poll p) => if p.src = .rtc then x.observe p.rest else x
  | _ => x

/-- One step; `none`: not possible. The waits for the RTC are those of the delays. -/
def Sys.step (x : Sys Waker) : Act Waker → Option (Sys Waker)
  | .tick n => some { x with now := x.now + n }
  | .delayMs ms rtcFreq =>
    (x.crm.step (.waitRtcTicks (delayTicks ms rtcFreq))).map fun crm =>
      { x with crm, book := ⟨ticksOf ms rtcFreq, delayTicks ms rtcFreq, 0, 0⟩ }
  | .step => (x.crm.step (.step x.count)).map fun crm => { x.access with crm }
  | .other a =>
    match a with
    | .waitRtcTicks _ | .step _ => none
    | a => (x.crm.step a).map fun crm => { x with crm }

/-- Before the first delay; `RTC_COUNT` shows anything. -/
def Sys.init (regs : Regs) (now : Nat) : Sys Waker := ⟨.init regs, now, ⟨1, 1, 0, 0⟩, [], []⟩

/-- The system, from any state of the registers and of the RTC. -/
def lts (Waker : Type) : Lts :=
  .ofStep (fun x : Sys Waker => ∃ regs now, x = Sys.init regs now) Sys.step

/-! ## What a delay has yet to do -/

/-- What a round programs: the ticks that are missing, by the counter. -/
def Book.Programs (b : Book) (remaining : UInt32) : Prop :=
  0 < remaining.toNat ∧ remaining.toNat + (b.read - b.anchor) % 2 ^ 32 = max b.ticks.toNat 1

/-- What a delay has yet to do, and what is known there. -/
inductive Left (now : Nat) (b : Book) : List Instr → Prop
  | start : Left now b [.enableCrm, .anchor b.ticks]
  | anchor : Left now b [.anchor b.ticks]
  /-- In a round. -/
  | round {remaining : UInt32} (k : Nat) : k < 5 → b.anchor ≤ b.read → b.read ≤ now →
      b.Programs remaining → Left now b ((rtcRound b.ticks (.ofNat b.anchor) remaining).drop k)
  | done : b.anchor ≤ b.read → b.read ≤ now → b.ticks.toNat ≤ (b.read - b.anchor) % 2 ^ 32 →
      Left now b []

theorem Left.mono {now now' : Nat} {b : Book} {rest : List Instr} (h : Left now b rest)
    (hn : now ≤ now') : Left now' b rest := by
  cases h with
  | start => exact .start
  | anchor => exact .anchor
  | round k hk ha hr hp => exact .round k hk ha (Nat.le_trans hr hn) hp
  | done ha hr hd => exact .done ha (Nat.le_trans hr hn) hd

/-! ## The invariant -/

/-- The delays that are called have less than `2 ^ 32` ticks. -/
def Book.Exact (b : Book) : Prop := b.ticks.toNat = b.due ∧ 0 < b.due

/-- What the delays keep: wherever a delay is, its book has the ticks that are left, and no delay
ends before them modulo `2 ^ 32`. -/
structure Inv (x : Sys Waker) : Prop where
  exact : x.book.Exact
  waits : ∀ rest, x.crm.waits .rtc = .called rest ∨ x.crm.waits .rtc = .pending rest →
    Left x.now x.book rest
  polled : ∀ p, x.crm.task = some (.poll p) → p.src = .rtc →
    x.crm.waits .rtc = .polled ∧ Left x.now x.book p.rest
  programmed : ∀ t ∈ x.programmed, t.1.Exact ∧ t.1.anchor ≤ t.1.read ∧ t.1.Programs t.2
  finished : ∀ d ∈ x.finished, d.1.Exact ∧ d.1.anchor ≤ d.1.read ∧ d.1.read ≤ d.2 ∧
    d.1.ticks.toNat ≤ (d.1.read - d.1.anchor) % 2 ^ 32

namespace Inv

variable {x : Sys Waker} {crm : Crm.Sys Waker} {p : Poll Waker} {b : Book}

theorem init (regs : Regs) (now : Nat) : Inv (Sys.init regs now : Sys Waker) where
  exact := ⟨rfl, Nat.one_pos⟩
  waits rest h := by rcases h with h | h <;> cases h
  polled := nofun
  programmed := nofun
  finished := nofun

/-- A step that leaves the delay alone. -/
theorem frame (hx : Inv x) (hw : crm.waits .rtc = x.crm.waits .rtc)
    (ht : ∀ p, crm.task = some (.poll p) → p.src = .rtc → x.crm.task = some (.poll p)) :
    Inv { x with crm := crm } where
  exact := hx.exact
  waits rest h := hx.waits rest (by rwa [← hw])
  polled p hp hs := by
    show crm.waits .rtc = .polled ∧ _
    rw [hw]
    exact hx.polled p (ht p hp hs) hs
  programmed := hx.programmed
  finished := hx.finished

/-- A step after which the delay waits, or is idle. -/
theorem waiting (hx : Inv x) (hb : b.Exact) (ht : crm.task = none)
    (hw : ∀ rest, crm.waits .rtc = .called rest ∨ crm.waits .rtc = .pending rest →
      Left x.now b rest) : Inv { x with crm := crm, book := b } where
  exact := hb
  waits := hw
  polled p hp := by
    rw [show crm.task = none from ht] at hp
    cases hp
  programmed := hx.programmed
  finished := hx.finished

/-- A step after which the delay runs. -/
theorem running (hx : Inv x) (hb : b.Exact) (ht : crm.task = some (.poll p))
    (hw : crm.waits .rtc = .polled) (hl : Left x.now b p.rest) :
    Inv { x with crm := crm, book := b } where
  exact := hb
  waits rest h := by
    rw [show crm.waits .rtc = _ from hw] at h
    rcases h with h | h <;> cases h
  polled q hq _ := by
    rw [show crm.task = _ from ht] at hq
    cases hq
    exact ⟨hw, hl⟩
  programmed := hx.programmed
  finished := hx.finished

theorem tick (hx : Inv x) (n : Nat) : Inv { x with now := x.now + n } where
  exact := hx.exact
  waits rest h := (hx.waits rest h).mono (Nat.le_add_right _ _)
  polled p hp hs := ⟨(hx.polled p hp hs).1, (hx.polled p hp hs).2.mono (Nat.le_add_right _ _)⟩
  programmed := hx.programmed
  finished := hx.finished

/-- A call of a delay. -/
theorem delayMs (hx : Inv x) {ms rtcFreq : UInt32} (hd : ticksOf ms rtcFreq < 2 ^ 32)
    (h : x.crm.step (.waitRtcTicks (delayTicks ms rtcFreq)) = some crm) :
    Inv { x with crm := crm, book := ⟨ticksOf ms rtcFreq, delayTicks ms rtcFreq, 0, 0⟩ } := by
  have hb : Book.Exact ⟨ticksOf ms rtcFreq, delayTicks ms rtcFreq, 0, 0⟩ := by
    refine ⟨?_, Nat.lt_of_lt_of_le Nat.one_pos (Nat.le_max_right _ 1)⟩
    rw [delayTicks_toNat, Nat.mod_eq_of_lt hd]
  simp only [Crm.Sys.step, Crm.Sys.call] at h
  split at h <;> cases h
  rename_i hidle
  refine ⟨hb, fun rest h => ?_, fun p hp hs => ?_, hx.programmed, hx.finished⟩
  · dsimp only at h
    rw [Function.update_self] at h
    rcases h with h | h <;> cases h
    exact .start
  · have hpolled := (hx.polled p hp hs).1
    rw [hidle] at hpolled
    cases hpolled

theorem rtc_ne_kbi (n : Fin 4) : Src.rtc ≠ .kbi n := fun h => by cases h

/-- The start of a poll. -/
theorem poll (hx : Inv x) {s : Src} {cx : Waker} (h : x.crm.step (.poll s cx) = some crm) :
    Inv { x with crm := crm } := by
  simp only [Crm.Sys.step] at h
  split at h
  · cases h
  unfold Crm.Sys.poll at h
  cases s with
  | rtc =>
    split at h <;> cases h
    · rename_i rest hw
      refine hx.running hx.exact rfl ?_ (hx.waits rest (.inl hw))
      dsimp only
      rw [Function.update_self]
    · rename_i rest hw
      refine hx.running hx.exact rfl ?_ (hx.waits rest (.inr hw))
      dsimp only
      rw [Function.update_self]
  | kbi n =>
    have hframe : ∀ rest, Inv { x with crm := { x.crm with
        books := Function.update x.crm.books (.kbi n) .idle
        waits := Function.update x.crm.waits (.kbi n) .polled
        task := some (.poll ⟨.kbi n, cx, rest, none, false⟩) } } := by
      intro rest
      refine hx.frame ?_ fun p hp hs => ?_
      · dsimp only
        rw [Function.update_of_ne (rtc_ne_kbi n)]
      · cases hp
        cases hs
    split at h <;> cases h
    · exact hframe _
    · exact hframe _

/-- A wait that is dropped is gone. -/
theorem drop (hx : Inv x) {s : Src} (h : x.crm.step (.drop s) = some crm) :
    Inv { x with crm := crm } := by
  simp only [Crm.Sys.step] at h
  split at h
  · cases h
  rename_i ht
  have ht : x.crm.task = none := by simpa using ht
  have hdrop : Inv { x with crm := { x.crm with
      books := Function.update x.crm.books s .idle
      waits := Function.update x.crm.waits s .idle } } := by
    cases s with
    | rtc =>
      refine hx.waiting hx.exact ht fun rest hw => ?_
      dsimp only at hw
      rw [Function.update_self] at hw
      rcases hw with hw | hw <;> cases hw
    | kbi n =>
      refine hx.frame ?_ fun p hp _ => hp
      dsimp only
      rw [Function.update_of_ne (rtc_ne_kbi n)]
  unfold Crm.Sys.drop at h
  split at h <;> cases h
  · exact hdrop
  · exact hdrop

/-- Everything else on the CRM. -/
theorem other (hx : Inv x) {a : Crm.Act Waker} (h : x.crm.step a = some crm)
    (ha : ∀ ticks, a ≠ .waitRtcTicks ticks) (hs : ∀ count, a ≠ .step count) :
    Inv { x with crm := crm } := by
  cases a with
  | latch bits =>
    cases h
    exact hx.frame rfl fun p hp _ => Wf.onSleep hp
  | isr s =>
    simp only [Crm.Sys.step] at h
    split at h <;> cases h
    exact hx.frame rfl fun p hp _ => Wf.onSleep hp
  | waitForEdge n edge =>
    simp only [Crm.Sys.step, Crm.Sys.call] at h
    split at h <;> cases h
    refine hx.frame ?_ fun p hp _ => hp
    dsimp only
    rw [Function.update_of_ne (rtc_ne_kbi n)]
  | waitRtcTicks ticks => exact absurd rfl (ha ticks)
  | poll s cx => exact hx.poll h
  | drop s => exact hx.drop h
  | sleep mode sources retention =>
    simp only [Crm.Sys.step] at h
    split at h <;> cases h
    refine hx.frame rfl fun p hp _ => ?_
    cases hp
  | step count => exact absurd rfl (hs count)

/-- An access of another wait. -/
theorem pollStep_other (hs : p.src ≠ .rtc) (count : UInt32) :
    (x.crm.pollStep p count).waits .rtc = x.crm.waits .rtc ∧
      ∀ q, (x.crm.pollStep p count).task = some (.poll q) → q.src ≠ .rtc := by
  have hgo : ∀ (regs : Regs) (p' : Poll Waker) (rest : List Instr), p'.src = p.src →
      (({ x.crm with regs := regs }).goOn p' rest).waits .rtc = x.crm.waits .rtc ∧
        ∀ q, (({ x.crm with regs := regs }).goOn p' rest).task = some (.poll q) → q.src ≠ .rtc := by
    intro regs p' rest hp'
    refine ⟨rfl, fun q hq => ?_⟩
    cases hq
    exact fun h => hs (hp'.symm.trans h)
  unfold Crm.Sys.pollStep
  split
  · exact ⟨Function.update_of_ne (Ne.symm hs) _ _, nofun⟩
  · exact hgo _ _ _ rfl
  · exact hgo _ _ _ rfl
  · split
    · exact hgo _ _ _ rfl
    · exact hgo _ _ _ rfl
  · exact hgo _ _ _ rfl
  · exact hgo _ _ _ rfl
  · split
    · exact ⟨Function.update_of_ne (Ne.symm hs) _ _, nofun⟩
    · split
      · exact hgo _ _ _ rfl
      · exact hgo _ _ _ rfl
  · dsimp only
    split
    · exact hgo _ _ _ rfl
    · exact hgo _ _ _ rfl

theorem program (hx : Inv x) {remaining : UInt32} (ha : x.book.anchor ≤ x.book.read)
    (hp : x.book.Programs remaining) :
    Inv { x with programmed := x.programmed ++ [(x.book, remaining)] } where
  exact := hx.exact
  waits := hx.waits
  polled := hx.polled
  programmed t ht := by
    rcases List.mem_append.mp ht with ht | ht
    · exact hx.programmed t ht
    · rw [List.mem_singleton.mp ht]
      exact ⟨hx.exact, ha, hp⟩
  finished := hx.finished

theorem finish (hx : Inv x) (ha : x.book.anchor ≤ x.book.read) (hr : x.book.read ≤ x.now)
    (hd : x.book.ticks.toNat ≤ (x.book.read - x.book.anchor) % 2 ^ 32) :
    Inv { x with finished := x.finished ++ [(x.book, x.now)] } where
  exact := hx.exact
  waits := hx.waits
  polled := hx.polled
  programmed := hx.programmed
  finished d h := by
    rcases List.mem_append.mp h with h | h
    · exact hx.finished d h
    · rw [List.mem_singleton.mp h]
      exact ⟨hx.exact, ha, hr, hd⟩

/-- The check of the ticks that have passed: nothing is missing, or a round programs the rest. -/
theorem elapsed (hx : Inv x) (hw : x.crm.waits .rtc = .polled)
    (hr : p.rest = [.elapsed x.book.ticks (.ofNat x.book.anchor)])
    (ha : x.book.anchor ≤ x.book.read) (hn : x.book.read ≤ x.now) :
    Inv { x with
      crm := x.crm.pollStep p x.count
      book := { x.book with read := x.now } } := by
  have hle : x.book.anchor ≤ x.now := Nat.le_trans ha hn
  have hcount : (x.count - .ofNat x.book.anchor).toNat = (x.now - x.book.anchor) % 2 ^ 32 :=
    Word.sub_ofNat32 hle
  simp only [Crm.Sys.pollStep, hr]
  by_cases hd : x.book.ticks ≤ x.count - .ofNat x.book.anchor
  · rw [if_pos hd]
    refine hx.running hx.exact rfl hw (.done hle (Nat.le_refl _) ?_)
    rw [← hcount]
    exact UInt32.le_iff_toNat_le.mp hd
  · rw [if_neg hd]
    have hlt : x.count - .ofNat x.book.anchor < x.book.ticks := UInt32.not_le.mp hd
    -- What is left is what the next round programs.
    have hsub : (x.book.ticks - (x.count - .ofNat x.book.anchor)).toNat =
        x.book.ticks.toNat - (x.now - x.book.anchor) % 2 ^ 32 := by
      rw [← hcount]
      exact UInt32.toNat_sub_of_le _ _ (UInt32.le_of_lt hlt)
    have hlt' := UInt32.lt_iff_toNat_lt.mp hlt
    rw [hcount] at hlt'
    refine hx.running hx.exact rfl hw (.round 0 (by decide) hle (Nat.le_refl _) ⟨?_, ?_⟩)
    · rw [hsub]
      omega
    · rw [hsub]
      show _ + (x.now - x.book.anchor) % 2 ^ 32 = max x.book.ticks.toNat 1
      omega

/-- An access of the delay. -/
theorem access (hx : Inv x) (ht : x.crm.task = some (.poll p)) (hs : p.src = .rtc) :
    Inv { x.observe p.rest with crm := x.crm.pollStep p x.count } := by
  obtain ⟨hw, hl⟩ := hx.polled p ht hs
  generalize hr : p.rest = rest at hl
  cases hl with
  | start =>
    simp only [Crm.Sys.pollStep, hr]
    exact hx.running hx.exact rfl hw .anchor
  | anchor =>
    simp only [Crm.Sys.pollStep, hr]
    refine hx.running hx.exact rfl hw (.round 0 (by decide) (Nat.le_refl _) (Nat.le_refl _) ?_)
    -- Nothing has elapsed at the anchor, so the first round has all ticks to wait for.
    have hmax : (max x.book.ticks 1).toNat = max x.book.ticks.toNat 1 := Word.toNat_max32 _ _
    refine ⟨?_, ?_⟩
    · rw [hmax]
      omega
    · rw [hmax]
      show _ + (x.now - x.now) % 2 ^ 32 = max x.book.ticks.toNat 1
      omega
  | done ha hn hd =>
    simp only [Crm.Sys.pollStep, hr]
    refine (hx.finish ha hn hd).waiting hx.exact rfl fun rest h => ?_
    dsimp only at h
    rw [hs, Function.update_self] at h
    rcases h with h | h <;> cases h
  | @round remaining k hk ha hn hp =>
    have hround : ∀ k < 5, Left x.now x.book
        ((rtcRound x.book.ticks (.ofNat x.book.anchor) remaining).drop k) :=
      fun k hk => .round k hk ha hn hp
    match k, hk with
    | 0, _ =>
      simp only [Crm.Sys.pollStep, hr, rtcRound, List.drop]
      cases p.hand with
      | none => exact hx.running hx.exact rfl hw (hround 0 (by decide))
      | some v => exact hx.running hx.exact rfl hw (hround 1 (by decide))
    | 1, _ =>
      simp only [Crm.Sys.pollStep, hr, rtcRound, List.drop]
      exact hx.running hx.exact rfl hw (hround 2 (by decide))
    | 2, _ =>
      simp only [Crm.Sys.pollStep, hr, rtcRound, List.drop]
      exact (hx.program ha hp).running hx.exact rfl hw (hround 3 (by decide))
    | 3, _ =>
      simp only [Crm.Sys.pollStep, hr, rtcRound, List.drop]
      by_cases hc : p.checked = true
      · rw [if_pos hc]
        refine hx.waiting hx.exact rfl fun rest h => ?_
        simp only [Crm.Sys.arm, hs, Function.update_self] at h
        rcases h with h | h <;> cases h
        rw [hr]
        exact hround 3 (by decide)
      · rw [if_neg hc]
        by_cases he : x.crm.regs.status.getLsbD p.src.evt = true
        · rw [if_pos he]
          exact hx.running hx.exact rfl hw (hround 4 (by decide))
        · rw [if_neg he]
          exact hx.running hx.exact rfl hw (hround 3 (by decide))
    | 4, _ => exact hx.elapsed hw hr ha hn

end Inv

/-- The calls of `delay_ms` are those allowed. -/
def Calls (ok : UInt32 → UInt32 → Prop) (_ : Sys Waker) : Act Waker → Prop
  | .delayMs ms rtcFreq => ok ms rtcFreq
  | _ => True

theorem Inv.step {x x' : Sys Waker} {a : Act Waker} (hx : Inv x)
    (hc : Calls (fun ms rtcFreq => ticksOf ms rtcFreq < 2 ^ 32) x a) (h : x.step a = some x') :
    Inv x' := by
  cases a with
  | tick n =>
    cases h
    exact hx.tick n
  | delayMs ms rtcFreq =>
    obtain ⟨crm, hcrm, rfl⟩ := Option.map_eq_some_iff.mp h
    exact hx.delayMs hc hcrm
  | other a =>
    simp only [Sys.step] at h
    split at h
    · cases h
    · cases h
    · rename_i hw hs
      obtain ⟨crm, hcrm, rfl⟩ := Option.map_eq_some_iff.mp h
      exact hx.other hcrm hw hs
  | step =>
    obtain ⟨crm, hcrm, rfl⟩ := Option.map_eq_some_iff.mp h
    simp only [Crm.Sys.step] at hcrm
    cases ht : x.crm.task with
    | none =>
      rw [ht] at hcrm
      cases hcrm
    | some task =>
      rw [ht] at hcrm
      cases task with
      | poll p =>
        cases hcrm
        simp only [Sys.access, ht]
        by_cases hs : p.src = .rtc
        · rw [if_pos hs]
          exact hx.access ht hs
        · rw [if_neg hs]
          obtain ⟨hw, htask⟩ := Inv.pollStep_other (x := x) hs x.count
          exact hx.frame hw fun q hq hq' => absurd hq' (htask q hq)
      | sleep z =>
        simp only [Sys.access, ht]
        obtain rfl | ⟨regs, stage, rfl, -⟩ | ⟨raw, regs, -, -, rfl⟩ := sleepStep_cases hcrm
        · exact hx
        · exact hx.frame rfl (by rintro q ⟨⟩)
        · exact hx.frame rfl (by rintro q ⟨⟩)

/-! ## Delays that are short -/

/-- The ticks still missing at the last read of `RTC_COUNT`. -/
def Book.missing (b : Book) : Nat := b.due - (b.read - b.anchor)

/-- Every delay that is complete has had its ticks. What has been programmed is one tick at least,
and no more than is missing, if and only if `RTC_COUNT` has not come around since the anchor. -/
structure NeverShort (x : Sys Waker) : Prop where
  finished : ∀ d ∈ x.finished, d.1.due ≤ d.2 - d.1.anchor
  programmed : ∀ t ∈ x.programmed, (1 ≤ t.2.toNat ∧ t.2.toNat ≤ t.1.missing) ↔
    t.1.read - t.1.anchor < 2 ^ 32

theorem Inv.neverShort {x : Sys Waker} (hx : Inv x) : NeverShort x where
  finished d hd := by
    obtain ⟨⟨hticks, -⟩, ha, hr, hle⟩ := hx.finished d hd
    have hmod := Nat.mod_le (d.1.read - d.1.anchor) (2 ^ 32)
    omega
  programmed t ht := by
    obtain ⟨⟨hticks, hpos⟩, ha, hone, hsum⟩ := hx.programmed t ht
    have hlt := t.1.ticks.toNat_lt
    unfold Book.missing
    by_cases h : t.1.read - t.1.anchor < 2 ^ 32
    · rw [Nat.mod_eq_of_lt h] at hsum
      exact iff_of_true (by omega) h
    · exact iff_of_false (by omega) h

/-- The delay awaits the RTC event, with its anchor at zero; the ticks that it waits for have
passed. -/
structure Awaiting (ms rtcFreq : UInt32) (p : Poll Waker) (x : Sys Waker) : Prop where
  task : x.crm.task = some (.poll p)
  src : p.src = .rtc
  checked : p.checked = false
  rest : p.rest = [.await, .elapsed (delayTicks ms rtcFreq) (.ofNat 0)]
  now : x.now = ticksOf ms rtcFreq % 2 ^ 32
  book : x.book = ⟨ticksOf ms rtcFreq, delayTicks ms rtcFreq, 0, 0⟩

section Short

variable {ms rtcFreq : UInt32}

/-- The first poll writes `RTC_TIMEOUT`, and then the ticks pass. -/
theorem awaiting_reached (cx : Waker) (ms rtcFreq : UInt32) :
    ∃ x p, (lts Waker).Reach (Calls fun m f => m = ms ∧ f = rtcFreq) x ∧
      Awaiting ms rtcFreq p x := by
  have hstep : ∀ {x x' : Sys Waker} (a : Act Waker),
      (lts Waker).Reach (Calls fun m f => m = ms ∧ f = rtcFreq) x →
      Calls (fun m f => m = ms ∧ f = rtcFreq) x a → x.step a = some x' →
      (lts Waker).Reach (Calls fun m f => m = ms ∧ f = rtcFreq) x' :=
    fun _ hx hc h => .step hx hc h
  have h0 : (lts Waker).Reach (Calls fun m f => m = ms ∧ f = rtcFreq) (Sys.init resetRegs 0) :=
    .init ⟨_, _, rfl⟩
  have h1 := hstep (.delayMs ms rtcFreq) h0 ⟨rfl, rfl⟩ rfl
  have h2 := hstep (.other (.poll .rtc cx)) h1 trivial rfl
  have h3 := hstep .step h2 trivial rfl
  have h4 := hstep .step h3 trivial rfl
  have h5 := hstep .step h4 trivial rfl
  have h6 := hstep .step h5 trivial rfl
  have h7 := hstep .step h6 trivial rfl
  have h8 := hstep .step h7 trivial rfl
  have h9 := hstep (.tick (ticksOf ms rtcFreq % 2 ^ 32)) h8 trivial rfl
  exact ⟨_, _, h9, rfl, rfl, rfl, rfl, Nat.zero_add _, rfl⟩

namespace Awaiting

variable {p : Poll Waker} {x : Sys Waker}

theorem latch (h : Awaiting ms rtcFreq p x) :
    ∃ x', x.step (.other (.latch Src.rtc.evtBit)) = some x' ∧ Awaiting ms rtcFreq p x' ∧
      x'.crm.regs.status.getLsbD Src.rtc.evt = true := by
  refine ⟨_, rfl, ⟨?_, h.src, h.checked, h.rest, h.now, h.book⟩, ?_⟩
  · simp only [Crm.Sys.latch, Crm.Sys.onSleep, h.task, Option.map_some]
  · show (x.crm.regs.status ||| Src.rtc.evtBit).getLsbD Src.rtc.evt = true
    rw [Src.evtBit, getLsbD_or_bit Src.rtc.evt_lt, decide_eq_true rfl, Bool.or_true]

/-- The elapsed ticks are enough for the number that is cut to 32 bits. -/
theorem elapsed (h : Awaiting ms rtcFreq p x) : delayTicks ms rtcFreq ≤ x.count - .ofNat 0 := by
  have hmod := Nat.mod_lt (ticksOf ms rtcFreq) (show 0 < 2 ^ 32 by decide)
  rw [UInt32.le_iff_toNat_le, Sys.count, Word.sub_ofNat32 (Nat.zero_le _), delayTicks_toNat, h.now]
  omega

/-- With the event latched, the accesses that are left are the check of `STATUS`, the read of
`RTC_COUNT` and the end of the delay. -/
theorem finish (h : Awaiting ms rtcFreq p x)
    (he : x.crm.regs.status.getLsbD Src.rtc.evt = true)
    {ok : Sys Waker → Act Waker → Prop} (hok : ∀ y, ok y .step) (hx : (lts Waker).Reach ok x) :
    ∃ x', (lts Waker).Reach ok x' ∧ ({ x.book with read := x.now }, x.now) ∈ x'.finished := by
  have h1 : x.step .step = some { x with
      crm := x.crm.goOn p [.elapsed (delayTicks ms rtcFreq) (.ofNat 0)] } := by
    simp only [Sys.step, Crm.Sys.step, Crm.Sys.pollStep, Sys.access, h.task, h.src, h.rest,
      h.checked, he, Bool.false_eq_true, if_false, if_true, Sys.observe, Option.map_some]
  have h2 : Sys.step { x with
      crm := x.crm.goOn p [.elapsed (delayTicks ms rtcFreq) (.ofNat 0)] } .step = some { x with
        crm := x.crm.goOn p []
        book := { x.book with read := x.now } } := by
    have hle : delayTicks ms rtcFreq ≤ UInt32.ofNat x.now - .ofNat 0 := h.elapsed
    simp only [Sys.step, Crm.Sys.step, Crm.Sys.pollStep, Crm.Sys.goOn, Sys.access, h.src,
      Sys.count, if_pos hle, if_true, Sys.observe, Option.map_some]
  have h3 : Sys.step { x with
      crm := x.crm.goOn p []
      book := { x.book with read := x.now } } .step = some { x with
        crm := { x.crm with waits := Function.update x.crm.waits .rtc .idle, task := none }
        book := { x.book with read := x.now }
        finished := x.finished ++ [({ x.book with read := x.now }, x.now)] } := by
    simp only [Sys.step, Crm.Sys.step, Crm.Sys.pollStep, Crm.Sys.goOn, Sys.access, h.src, if_true,
      Sys.observe, Option.map_some]
  exact ⟨_, .step (.step (.step hx (hok _) h1) (hok _) h2) (hok _) h3,
    List.mem_append_right _ (List.mem_singleton.mpr rfl)⟩

end Awaiting

/-- A delay of `2 ^ 32` ticks or more: it completes once the ticks that are left of that, modulo
`2 ^ 32`, have passed. -/
theorem short_run (cx : Waker) (hd : 2 ^ 32 ≤ ticksOf ms rtcFreq) :
    ∃ x, (lts Waker).Reach (Calls fun m f => m = ms ∧ f = rtcFreq) x ∧
      ∃ d ∈ x.finished, d.2 - d.1.anchor < d.1.due := by
  obtain ⟨x₀, p, hx₀, ha₀⟩ := awaiting_reached cx ms rtcFreq
  obtain ⟨x, hlatch, ha, he⟩ := ha₀.latch
  have hx : (lts Waker).Reach (Calls fun m f => m = ms ∧ f = rtcFreq) x :=
    .step hx₀ (show Calls _ x₀ (.other _) from trivial) hlatch
  obtain ⟨x', hx', hmem⟩ := ha.finish he (fun _ => trivial) hx
  refine ⟨x', hx', _, hmem, ?_⟩
  have hmod := Nat.mod_lt (ticksOf ms rtcFreq) (show 0 < 2 ^ 32 by decide)
  rw [ha.book, ha.now]
  dsimp only
  omega

end Short

/-- **Delays.** The calls of `delay_ms` are those that `ok` allows, with any calibration, from any
state of the CRM and any count of the RTC, beside everything else that happens on the CRM. In every
run each delay has its ticks when it completes, and each `RTC_TIMEOUT` that is written less than
`2 ^ 32` ticks after the anchor is one that fits, if and only if every delay that is allowed has
less than `2 ^ 32` ticks. -/
theorem delay_never_short_iff (cx : Waker) (ok : UInt32 → UInt32 → Prop) :
    (∀ x, (lts Waker).Reach (Calls ok) x → NeverShort x) ↔
      ∀ ms rtcFreq, ok ms rtcFreq → ticksOf ms rtcFreq < 2 ^ 32 := by
  constructor
  · intro h ms rtcFreq hok
    -- A delay of 2^32 ticks or more is cut, and a run ends it too early.
    refine Decidable.byContradiction fun hd => ?_
    obtain ⟨x, hx, d, hmem, hshort⟩ := short_run cx (Nat.le_of_not_lt hd)
    have hx' : (lts Waker).Reach (Calls ok) x := hx.mono fun s a ha => by
      cases a with
      | delayMs m f =>
        obtain ⟨rfl, rfl⟩ := ha
        exact hok
      | _ => trivial
    exact absurd ((h x hx').finished d hmem) (Nat.not_le_of_lt hshort)
  · intro hok x hx
    have hinv : Inv x := by
      refine hx.induct (I := Inv) ?_ fun s a s' hi hc hs => hi.step ?_ hs
      · rintro s ⟨regs, now, rfl⟩
        exact Inv.init regs now
      · cases a with
        | delayMs m f => exact hok m f hc
        | _ => trivial
    exact hinv.neverShort

/-- `2 ^ 31` milliseconds at 2 kHz, which have `2 ^ 32` ticks. -/
theorem delay_short : ¬ ∀ x, (lts Nat).Reach (Lts.Any _) x →
    ∀ d ∈ x.finished, d.1.due ≤ d.2 - d.1.anchor := by
  intro h
  obtain ⟨x, hx, d, hmem, hshort⟩ := short_run (0 : Nat)
    (show 2 ^ 32 ≤ ticksOf 2147483648 2000 by decide)
  exact absurd (h x (hx.mono fun _ _ _ => trivial) d hmem) (Nat.not_le_of_lt hshort)

end Delay

end Mc1322x.Crm
