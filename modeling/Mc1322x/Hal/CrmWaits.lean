import Mc1322x.Hal.Crm

/-!
# Waits on the CRM

What holds of the futures that are pending, whatever the handlers and the other futures do.

* `Same`: a step of a future, or a handler of another wait, leaves the bits of a wait as they are, in
  `WU_CNTL` and in what has been read of it.
* `Wf`: the futures do only what the source has them do, and who waits is in the slot.
* `arming_kept`: a wait stays enabled until its event, and its interrupt until its handler has run.
-/

namespace Mc1322x.Crm

/-! ## Bits -/

namespace Src

theorem en_lt (s : Src) : s.en < 32 := by
  cases s with
  | rtc => decide
  | kbi n => exact show 4 + n.val < 32 by omega

theorem ien_lt (s : Src) : s.ien < 32 := by
  cases s with
  | rtc => decide
  | kbi n => exact show 20 + n.val < 32 by omega

theorem evt_lt (s : Src) : s.evt < 32 := by
  cases s with
  | rtc => decide
  | kbi n => exact show 4 + n.val < 32 by omega

theorem en_ne_ien (s s' : Src) : s.en ≠ s'.ien := by
  cases s <;> cases s' <;> simp only [en, ien] <;> omega

theorem en_ne {s s' : Src} (h : s ≠ s') : s.en ≠ s'.en := by
  cases s <;> cases s' <;> simp only [en] <;> grind

theorem ien_ne {s s' : Src} (h : s ≠ s') : s.ien ≠ s'.ien := by
  cases s <;> cases s' <;> simp only [ien] <;> grind

theorem evt_ne {s s' : Src} (h : s ≠ s') : s.evt ≠ s'.evt := by
  cases s <;> cases s' <;> simp only [evt] <;> grind

end Src

theorem getLsbD_or_bit {n : Nat} (hn : n < 32) (w : BitVec 32) (k : Nat) :
    (w ||| bit n).getLsbD k = (w.getLsbD k || decide (k = n)) := by
  rw [BitVec.getLsbD_or, getLsbD_bit hn]

theorem getLsbD_and_not {w v : BitVec 32} (k : Nat) :
    (w &&& ~~~v).getLsbD k = (w.getLsbD k && !v.getLsbD k) := by
  rw [BitVec.getLsbD_and, BitVec.getLsbD_not]
  cases h : w.getLsbD k with
  | false => rfl
  | true => simp [BitVec.lt_of_getLsbD h]

theorem getLsbD_and_not_bit {n : Nat} (hn : n < 32) (w : BitVec 32) (k : Nat) :
    (w &&& ~~~bit n).getLsbD k = (w.getLsbD k && !decide (k = n)) := by
  rw [getLsbD_and_not, getLsbD_bit hn]

/-- The two enables of a wait are the same in both words. -/
structure Same (s : Src) (w w' : BitVec 32) : Prop where
  en : w'.getLsbD s.en = w.getLsbD s.en
  ien : w'.getLsbD s.ien = w.getLsbD s.ien

namespace Same

variable {s : Src} {w w' w'' : BitVec 32}

theorem refl (s : Src) (w : BitVec 32) : Same s w w := ⟨rfl, rfl⟩

theorem trans (h : Same s w w') (h' : Same s w' w'') : Same s w w'' :=
  ⟨h'.en.trans h.en, h'.ien.trans h.ien⟩

theorem set {n : Nat} (hn : n < 32) (he : s.en ≠ n) (hi : s.ien ≠ n) : Same s w (w ||| bit n) := by
  constructor
  · rw [getLsbD_or_bit hn, decide_eq_false he, Bool.or_false]
  · rw [getLsbD_or_bit hn, decide_eq_false hi, Bool.or_false]

theorem clear {n : Nat} (hn : n < 32) (he : s.en ≠ n) (hi : s.ien ≠ n) :
    Same s w (w &&& ~~~bit n) := by
  constructor
  · rw [getLsbD_and_not_bit hn, decide_eq_false he, Bool.not_false, Bool.and_true]
  · rw [getLsbD_and_not_bit hn, decide_eq_false hi, Bool.not_false, Bool.and_true]

end Same

/-! ## What the futures do -/

/-- An access of a future for `s` leaves the other waits alone. -/
def Instr.Local (s : Src) : Instr → Prop
  | .modify f => ∀ s' ≠ s, ∀ w, Same s' w (f w)
  | .clear bits => ∀ s' ≠ s, bits.getLsbD s'.evt = false
  | .anchor _ | .elapsed _ _ => s = .rtc
  | _ => True

/-- The CRM interrupt is enabled before the first wait. -/
def enables : List Instr → Bool
  | .enableCrm :: _ => true
  | .modify _ :: rest | .clear _ :: rest | .timeout _ :: rest => enables rest
  | _ => false

theorem evtBit_local {s s' : Src} (h : s' ≠ s) : s.evtBit.getLsbD s'.evt = false := by
  rw [Src.evtBit, getLsbD_bit s.evt_lt, decide_eq_false (Src.evt_ne h)]

theorem same_edge {n : Fin 4} {s : Src} (w : BitVec 32) :
    Same s w (w ||| edgeBit n) ∧ Same s w (w ||| polBit n) ∧ Same s w (w &&& ~~~polBit n) := by
  have he : s.en ≠ 8 + n.val ∧ s.en ≠ 12 + n.val := by
    cases s <;> simp only [Src.en] <;> omega
  have hi : s.ien ≠ 8 + n.val ∧ s.ien ≠ 12 + n.val := by
    cases s <;> simp only [Src.ien] <;> omega
  exact ⟨.set (by omega) he.1 hi.1, .set (by omega) he.2 hi.2, .clear (by omega) he.2 hi.2⟩

theorem waitForEdge_local (n : Fin 4) (edge : Edge) :
    ∀ i ∈ waitForEdge n edge, i.Local (.kbi n) := by
  simp only [waitForEdge, List.forall_mem_cons]
  refine ⟨fun s hs w => .clear (Src.en_lt _) (Src.en_ne hs) (Src.en_ne_ien _ _).symm,
    fun s _ w => ?_, fun s hs => evtBit_local hs, trivial, trivial, nofun⟩
  cases edge with
  | rising => exact (same_edge w).1.trans (same_edge _).2.1
  | falling => exact (same_edge w).1.trans (same_edge _).2.2

theorem rtcRound_local (ticks anchor remaining : UInt32) :
    ∀ i ∈ rtcRound ticks anchor remaining, i.Local .rtc := by
  simp only [rtcRound, List.forall_mem_cons]
  refine ⟨fun s hs w => ?_, fun s hs => evtBit_local hs, trivial, trivial, rfl, nofun⟩
  have hw : w &&& ~~~(Src.rtc.enBit ||| Src.rtc.ienBit) =
      w &&& ~~~Src.rtc.enBit &&& ~~~Src.rtc.ienBit := by
    ext k
    simp [Bool.and_assoc]
  dsimp only
  rw [hw]
  exact (Same.clear (Src.en_lt _) (Src.en_ne hs) (Src.en_ne_ien _ _).symm).trans
    (.clear (Src.ien_lt _) (Src.en_ne_ien _ _) (Src.ien_ne hs))

/-- These accesses are what a future for `s` may do, where the CRM interrupt is enabled or not. -/
structure Ready (crmEnabled : Bool) (s : Src) (rest : List Instr) : Prop where
  isLocal : ∀ i ∈ rest, i.Local s
  enables : enables rest = true ∨ crmEnabled = true

theorem ready_waitForEdge (crmEnabled : Bool) (n : Fin 4) (edge : Edge) :
    Ready crmEnabled (.kbi n) (waitForEdge n edge) := ⟨waitForEdge_local n edge, .inl rfl⟩

theorem ready_waitRtcTicks (crmEnabled : Bool) (ticks : UInt32) :
    Ready crmEnabled .rtc (waitRtcTicks ticks) := by
  refine ⟨?_, .inl rfl⟩
  simp only [waitRtcTicks, List.forall_mem_cons]
  exact ⟨trivial, rfl, nofun⟩

namespace Ready

variable {e e' : Bool} {s : Src} {i : Instr} {rest : List Instr}

theorem tail (h : Ready e s (i :: rest))
    (he : Crm.enables (i :: rest) = true → Crm.enables rest = true ∨ e' = true)
    (hr : e = true → e' = true) : Ready e' s rest :=
  ⟨fun j hj => h.isLocal j (List.mem_cons_of_mem i hj), h.enables.elim he fun h => .inr (hr h)⟩

theorem mono (h : Ready e s rest) (hr : e = true → e' = true) : Ready e' s rest :=
  ⟨h.isLocal, h.enables.imp_right hr⟩

/-- A round of the RTC wait before the rest. -/
theorem round (h : Ready e s (i :: rest)) (hs : s = .rtc) (he : Crm.enables (i :: rest) = false)
    (ticks anchor remaining : UInt32) : Ready e s (rtcRound ticks anchor remaining ++ rest) := by
  refine ⟨?_, .inr (h.enables.resolve_left (by simp [he]))⟩
  rw [List.forall_mem_append, hs]
  refine ⟨rtcRound_local _ _ _, ?_⟩
  rw [← hs]
  exact fun j hj => h.isLocal j (List.mem_cons_of_mem i hj)

end Ready

variable {Waker : Type} {x x' : Sys Waker} {p p' : Poll Waker} {s : Src} {w : BitVec 32}
  {count : UInt32}

/-- `WU_CNTL`, or what the poll that is running has read of it and has not written back. -/
def Sys.Word (x : Sys Waker) (w : BitVec 32) : Prop :=
  w = x.regs.wuCntl ∨ ∃ p, x.task = some (.poll p) ∧ p.hand = some w

/-- What an access of a poll does, where the poll goes on. -/
structure Moves (x : Sys Waker) (p p' : Poll Waker) (regs : Regs) : Prop where
  src : p'.src = p.src
  ready : Ready regs.crmEnabled p.src p'.rest
  word : ∀ s ≠ p.src, ∀ w', w' = regs.wuCntl ∨ p'.hand = some w' → ∃ w, x.Word w ∧ Same s w w'
  status : ∀ s ≠ p.src, x.regs.status.getLsbD s.evt = true → regs.status.getLsbD s.evt = true
  crmEnabled : x.regs.crmEnabled = true → regs.crmEnabled = true

/-- A poll that leaves the word and its hand alone. -/
theorem moves_of_eq (ht : x.task = some (.poll p)) {regs : Regs} (hs : p'.src = p.src)
    (hr : Ready regs.crmEnabled p.src p'.rest) (hw : regs.wuCntl = x.regs.wuCntl)
    (hh : p'.hand = p.hand)
    (hst : ∀ s ≠ p.src, x.regs.status.getLsbD s.evt = true → regs.status.getLsbD s.evt = true)
    (he : x.regs.crmEnabled = true → regs.crmEnabled = true) : Moves x p p' regs := by
  refine ⟨hs, hr, fun s _ w' h => ⟨w', ?_, .refl s w'⟩, hst, he⟩
  rcases h with h | h
  · exact .inl (h.trans hw)
  · exact .inr ⟨p, ht, hh ▸ h⟩

/-- A step of a poll: the future ends, or the poll goes on, or the wait is armed. -/
theorem pollStep_cases (count : UInt32) (ht : x.task = some (.poll p))
    (hr : Ready x.regs.crmEnabled p.src p.rest) :
    x.pollStep p count = { x with waits := Function.update x.waits p.src .idle, task := none } ∨
    (∃ p' regs, x.pollStep p count = { x with regs := regs, task := some (.poll p') } ∧
      Moves x p p' regs) ∨
    (x.pollStep p count = x.arm p ∧ ∃ rest, p.rest = .await :: rest) := by
  have hid : ∀ s ≠ p.src, x.regs.status.getLsbD s.evt = true → x.regs.status.getLsbD s.evt = true :=
    fun _ _ h => h
  cases hrest : p.rest with
  | nil =>
    left
    unfold Sys.pollStep
    rw [hrest]
  | cons i rest =>
    rw [hrest] at hr
    right
    unfold Sys.pollStep
    rw [hrest]
    cases i with
    | enableCrm =>
      exact .inl ⟨_, _, rfl, moves_of_eq ht rfl (hr.tail (fun _ => .inr rfl) fun _ => rfl) rfl rfl
        hid fun _ => rfl⟩
    | anchor ticks =>
      -- The anchor is in hand: the first round starts, with all ticks to come.
      have hround := hr.round (hr.isLocal _ List.mem_cons_self) rfl ticks count (max ticks 1)
      exact .inl ⟨_, _, rfl, moves_of_eq ht rfl hround rfl rfl hid id⟩
    | modify f =>
      -- A `modify` is two accesses: with nothing in hand it reads, else it writes.
      cases hh : p.hand with
      | none =>
        refine .inl ⟨_, x.regs, rfl, rfl, hr, fun s _ w' h => ⟨w', .inl ?_, .refl s w'⟩, hid, id⟩
        rcases h with h | h
        · exact h
        · cases h
          rfl
      | some v =>
        refine .inl ⟨_, _, rfl, rfl, hr.tail .inl id, fun s hs w' h => ?_, hid, id⟩
        rcases h with h | h
        · exact ⟨v, .inr ⟨p, ht, hh⟩, h ▸ hr.isLocal _ List.mem_cons_self s hs v⟩
        · cases h
    | clear bits =>
      refine .inl ⟨_, _, rfl, moves_of_eq ht rfl (hr.tail .inl id) rfl rfl (fun s hs h => ?_) id⟩
      rw [getLsbD_and_not, h, hr.isLocal _ List.mem_cons_self s hs]
      rfl
    | timeout remaining =>
      exact .inl ⟨_, _, rfl, moves_of_eq ht rfl (hr.tail .inl id) rfl rfl hid id⟩
    | await =>
      dsimp only
      by_cases hc : p.checked = true
      · rw [if_pos hc]
        exact .inr ⟨rfl, rest, rfl⟩
      rw [if_neg hc]
      by_cases he : x.regs.status.getLsbD p.src.evt = true
      · rw [if_pos he]
        exact .inl ⟨_, _, rfl, moves_of_eq ht rfl (hr.tail nofun id) rfl rfl hid id⟩
      · rw [if_neg he]
        exact .inl ⟨_, _, rfl, moves_of_eq ht rfl hr rfl rfl hid id⟩
    | elapsed ticks anchor =>
      dsimp only
      by_cases he : ticks ≤ count - anchor
      · rw [if_pos he]
        exact .inl ⟨_, _, rfl, moves_of_eq ht rfl (hr.tail nofun id) rfl rfl hid id⟩
      · have hround := hr.round (hr.isLocal _ List.mem_cons_self) rfl ticks anchor
          (ticks - (count - anchor))
        rw [if_neg he]
        exact .inl ⟨_, _, rfl, moves_of_eq ht rfl hround rfl rfl hid id⟩

/-! ## What a step does -/

/-- What the step `a` of the system does. -/
inductive Effect (x : Sys Waker) (a : Act Waker) : Sys Waker → Prop
  | latch (bits : BitVec 32) : Effect x a (x.latch bits)
  | isr {s : Src} : x.regs.status.getLsbD s.evt = true → Effect x a (x.isr s)
  | call {s : Src} {rest : List Instr} : x.waits s = .idle → (∀ e, Ready e s rest) →
      Effect x a { x with waits := Function.update x.waits s (.called rest) }
  | poll {s : Src} {rest : List Instr} (cx : Waker) : x.task = none →
      x.waits s = .called rest ∨ x.waits s = .pending rest →
      Effect x a { x with
        books := Function.update x.books s .idle
        waits := Function.update x.waits s .polled
        task := some (.poll ⟨s, cx, rest, none, false⟩) }
  | drop (s : Src) : x.task = none →
      Effect x a { x with
        books := Function.update x.books s .idle
        waits := Function.update x.waits s .idle }
  | sleep (mode : SleepMode) (sources : WakeSources) (retention : Retention) :
      a = .sleep mode sources retention → x.task = none →
      Effect x a { x with task := some (.sleep
        ⟨mode, sources, retention, .timer, x.regs.status, 0, x.regs.wuCntl, x.regs.status⟩) }
  | pollStep {p : Poll Waker} (count : UInt32) : x.task = some (.poll p) →
      Effect x a (x.pollStep p count)
  | sleepStep {z : Sleep} {x' : Sys Waker} : x.task = some (.sleep z) → x.sleepStep z = some x' →
      Effect x a x'

theorem call_effect {a : Act Waker} {rest : List Instr} (hr : ∀ e, Ready e s rest)
    (h : x.call s rest = some x') : Effect x a x' := by
  unfold Sys.call at h
  split at h <;> cases h
  rename_i hs
  exact .call hs hr

theorem step_effect {a : Act Waker} (h : x.step a = some x') : Effect x a x' := by
  cases a with
  | latch bits =>
    cases h
    exact .latch bits
  | isr s =>
    simp only [Sys.step] at h
    split at h <;> cases h
    rename_i hs
    have hs : x.task.any Task.locked = false ∧ x.regs.status.getLsbD s.evt = true := by
      simpa using hs
    exact .isr hs.2
  | waitForEdge n edge => exact call_effect (fun e => ready_waitForEdge e n edge) h
  | waitRtcTicks ticks => exact call_effect (fun e => ready_waitRtcTicks e ticks) h
  | poll s cx =>
    simp only [Sys.step] at h
    split at h
    · cases h
    rename_i ht
    have ht : x.task = none := by simpa using ht
    unfold Sys.poll at h
    split at h <;> cases h
    · rename_i hs
      exact .poll cx ht (.inl hs)
    · rename_i hs
      exact .poll cx ht (.inr hs)
  | drop s =>
    simp only [Sys.step] at h
    split at h
    · cases h
    rename_i ht
    have ht : x.task = none := by simpa using ht
    unfold Sys.drop at h
    split at h <;> cases h <;> exact .drop s ht
  | sleep mode sources retention =>
    simp only [Sys.step] at h
    split at h <;> cases h
    rename_i hs
    have hs : x.task = none ∧ sources.any = true := by simpa using hs
    exact .sleep mode sources retention rfl hs.1
  | step count =>
    simp only [Sys.step] at h
    split at h
    · cases h
    · cases h
      exact .pollStep count ‹_›
    · exact .sleepStep ‹_› h

/-- `WU_CNTL` has been written. -/
def Stage.written : Stage → Bool
  | .timer | .rtc | .wuCntl => false
  | _ => true

/-- What a sleep knows of `STATUS`: where it has read it, what it has read. -/
def Sleep.word (z : Sleep) (status : BitVec 32) : BitVec 32 :=
  match z.stage with
  | .ack raw => raw
  | _ => status

/-- What an access of a sleep does, where the sleep goes on. -/
structure Sinks (x : Sys Waker) (z : Sleep) (regs : Regs) (stage : Stage) : Prop where
  crmEnabled : regs.crmEnabled = x.regs.crmEnabled
  status : ∀ k ≠ 0, ({ z with stage := stage }.word regs.status).getLsbD k =
    (z.word x.regs.status).getLsbD k
  wuCntl : (stage.written = z.stage.written ∧ regs.wuCntl = x.regs.wuCntl) ∨
    (stage.written = true ∧ regs.wuCntl = z.sources.wuCntl)

/-- A step of a sleep: it spins, or goes on, or returns. -/
theorem sleepStep_cases {z : Sleep} (h : x.sleepStep z = some x') :
    x' = x ∨
    (∃ regs stage, x' = { x with regs := regs, task := some (.sleep { z with stage := stage }) } ∧
      Sinks x z regs stage) ∨
    ∃ raw regs, z.stage = .ack raw ∧ regs = { x.regs with status := x.regs.status &&& ~~~raw } ∧
      x' = { x with
        regs := regs
        task := none
        slept := x.slept ++ [⟨z, wakeReason raw, regs, x.waits⟩] } := by
  unfold Sys.sleepStep at h
  cases hz : z.stage with
  | ack raw =>
    rw [hz] at h
    cases h
    exact .inr (.inr ⟨raw, _, rfl, rfl, rfl⟩)
  | wuCntl =>
    rw [hz] at h
    cases h
    refine .inr (.inl ⟨_, _, rfl, rfl, fun k _ => ?_, .inr ⟨rfl, rfl⟩⟩)
    simp only [Sleep.word, hz]
  | powerDown =>
    rw [hz] at h
    cases h
    refine .inr (.inl ⟨_, _, rfl, rfl, fun k hk => ?_, .inl ⟨by rw [hz]; rfl, rfl⟩⟩)
    simp only [Sleep.word, hz]
    -- Only the bit of the power-down is cleared here; the others are acknowledged at the end.
    rw [getLsbD_and_not_bit (by decide), decide_eq_false hk, Bool.not_false, Bool.and_true]
  | accept =>
    rw [hz] at h
    cases h
    split
    · refine .inr (.inl ⟨x.regs, _, rfl, rfl, fun k _ => ?_, .inl ⟨by rw [hz]; rfl, rfl⟩⟩)
      simp only [Sleep.word, hz]
    · exact .inl rfl
  | wake =>
    rw [hz] at h
    dsimp only at h
    split at h <;> cases h
    split
    · refine .inr (.inl ⟨x.regs, _, rfl, rfl, fun k _ => ?_, .inl ⟨by rw [hz]; rfl, rfl⟩⟩)
      simp only [Sleep.word, hz]
    · exact .inl rfl
  | timer | rtc | sleepCntl | beforePowerDown | read =>
    rw [hz] at h
    cases h
    refine .inr (.inl ⟨_, _, rfl, rfl, fun k _ => ?_, .inl ⟨by rw [hz]; rfl, rfl⟩⟩)
    simp only [Sleep.word, hz]

/-! ## Well-formed states -/

/-- The futures do only what they may, and one that is pending has its waker in the slot, unless it
has been woken. -/
structure Wf (x : Sys Waker) : Prop where
  ready : ∀ s rest, x.waits s = .called rest ∨ x.waits s = .pending rest →
    Ready x.regs.crmEnabled s rest
  pending : ∀ s rest, x.waits s = .pending rest → x.regs.crmEnabled = true ∧
    (x.books s).pending ≠ none ∧ (x.books s).NotLost True (x.wakers s).slot
  polled : ∀ p, x.task = some (.poll p) →
    x.waits p.src = .polled ∧ Ready x.regs.crmEnabled p.src p.rest

namespace Wf

theorem init (regs : Regs) : Wf (Sys.init regs : Sys Waker) where
  ready := by
    rintro s rest (h | h)
    · cases h
    · cases h
  pending := nofun
  polled := nofun

/-- A step that leaves the futures alone. -/
theorem frame (hx : Wf x) (hw : x'.waits = x.waits)
    (he : x.regs.crmEnabled = true → x'.regs.crmEnabled = true)
    (hs : ∀ s, (x.books s).NotLost True (x.wakers s).slot →
      (x'.books s).pending = (x.books s).pending ∧ (x'.books s).NotLost True (x'.wakers s).slot)
    (ht : ∀ p, x'.task = some (.poll p) →
      x.waits p.src = .polled ∧ Ready x'.regs.crmEnabled p.src p.rest) : Wf x' where
  ready s rest h := by
    rw [hw] at h
    exact (hx.ready s rest h).mono he
  pending s rest h := by
    rw [hw] at h
    obtain ⟨hc, hp, hn⟩ := hx.pending s rest h
    obtain ⟨hb, hn'⟩ := hs s hn
    exact ⟨he hc, hb ▸ hp, hn'⟩
  polled p h := by
    rw [hw]
    exact ht p h

/-- A step that changes one future. -/
theorem update (hx : Wf x) {f : Fut} (hw : x'.waits = Function.update x.waits s f)
    (he : x'.regs.crmEnabled = x.regs.crmEnabled)
    (hs : ∀ s' ≠ s, x'.books s' = x.books s' ∧ x'.wakers s' = x.wakers s')
    (hr : ∀ rest, f = .called rest ∨ f = .pending rest → Ready x.regs.crmEnabled s rest)
    (hp : ∀ rest, f = .pending rest → x.regs.crmEnabled = true ∧
      (x'.books s).pending ≠ none ∧ (x'.books s).NotLost True (x'.wakers s).slot)
    (ht : ∀ p, x'.task = some (.poll p) →
      x'.waits p.src = .polled ∧ Ready x.regs.crmEnabled p.src p.rest) : Wf x' where
  ready s' rest h := by
    rw [he]
    by_cases hs' : s' = s
    · subst hs'
      rw [hw, Function.update_self] at h
      exact hr rest h
    · rw [hw, Function.update_of_ne hs'] at h
      exact hx.ready s' rest h
  pending s' rest h := by
    rw [he]
    by_cases hs' : s' = s
    · subst hs'
      rw [hw, Function.update_self] at h
      exact hp rest h
    · rw [hw, Function.update_of_ne hs'] at h
      rw [(hs s' hs').1, (hs s' hs').2]
      exact hx.pending s' rest h
  polled p h := by
    rw [he]
    exact ht p h

theorem onSleep {f : Sleep → Sleep} (h : x.onSleep f = some (.poll p)) :
    x.task = some (.poll p) := by
  unfold Sys.onSleep at h
  cases ht : x.task with
  | none =>
    rw [ht] at h
    cases h
  | some t =>
    rw [ht] at h
    cases t <;> cases h
    rfl

theorem isr (hx : Wf x) (s : Src) : Wf (x.isr s) := by
  refine hx.frame rfl id (fun s' hn => ?_) fun p h => hx.polled p (onSleep h)
  by_cases hs : s' = s
  · subst hs
    simp only [Sys.isr, Function.update_self]
    exact ⟨rfl, hn.wake⟩
  · simp only [Sys.isr, Function.update_of_ne hs]
    exact ⟨trivial, hn⟩

theorem pollStep (hx : Wf x) (ht : x.task = some (.poll p)) : Wf (x.pollStep p count) := by
  obtain ⟨hp, hr⟩ := hx.polled p ht
  obtain h | ⟨p', regs, h, hm⟩ | ⟨h, rest, hrest⟩ := pollStep_cases count ht hr
  · rw [h]
    refine hx.update rfl rfl (fun _ _ => ⟨rfl, rfl⟩) ?_ nofun nofun
    rintro rest (h | h)
    · cases h
    · cases h
  · rw [h]
    refine hx.frame rfl hm.crmEnabled (fun s hn => ⟨rfl, hn⟩) fun q hq => ?_
    cases hq
    rw [hm.src]
    exact ⟨hp, hm.ready⟩
  · have he : x.regs.crmEnabled = true := by
      refine hr.enables.resolve_left ?_
      rw [hrest]
      nofun
    rw [h]
    refine hx.update rfl rfl (fun s hs => ?_) (fun rest h => ?_) (fun rest _ => ⟨he, ?_⟩) nofun
    · simp only [Sys.arm, Function.update_of_ne hs]
      exact ⟨trivial, trivial⟩
    · rcases h with h | h
      · cases h
      · cases h
        exact hr
    · simp only [Sys.arm, Function.update_self]
      exact ⟨Option.some_ne_none _, Wakeup.notLost_polled trivial⟩

theorem effect {a : Act Waker} (hx : Wf x) (h : Effect x a x') : Wf x' := by
  have hkeep : ∀ s, (x.books s).NotLost True (x.wakers s).slot →
      (x.books s).pending = (x.books s).pending ∧ (x.books s).NotLost True (x.wakers s).slot :=
    fun _ hn => ⟨rfl, hn⟩
  cases h with
  | latch bits => exact hx.frame rfl id hkeep fun p h => hx.polled p (onSleep h)
  | isr _ => exact hx.isr _
  | @call s rest hs hr =>
    refine hx.update rfl rfl (fun _ _ => ⟨rfl, rfl⟩) (fun rest' h => ?_) nofun fun p h => ?_
    · rcases h with h | h <;> cases h
      exact hr _
    · obtain ⟨hp, hr⟩ := hx.polled p h
      have hne : p.src ≠ s := by
        rintro rfl
        cases hp.symm.trans hs
      exact ⟨(Function.update_of_ne hne _ _).trans hp, hr⟩
  | @poll s rest cx ht hs =>
    refine hx.update rfl rfl (fun s' hs' => ⟨Function.update_of_ne hs' _ _, rfl⟩) ?_ nofun
      fun p h => ?_
    · rintro rest (h | h)
      · cases h
      · cases h
    · cases h
      exact ⟨Function.update_self _ _ _, hx.ready s rest hs⟩
  | drop s ht =>
    refine hx.update rfl rfl (fun s' hs' => ⟨Function.update_of_ne hs' _ _, rfl⟩) ?_ nofun
      fun p h => ?_
    · rintro rest (h | h)
      · cases h
      · cases h
    · rw [ht] at h
      cases h
  | sleep mode sources retention ha ht => exact hx.frame rfl id hkeep nofun
  | pollStep count ht => exact hx.pollStep ht
  | sleepStep ht h =>
    obtain rfl | ⟨regs, stage, rfl, hs⟩ | ⟨raw, regs, -, rfl, rfl⟩ := sleepStep_cases h
    · exact hx
    · refine hx.frame rfl (fun he => hs.crmEnabled.trans he) hkeep fun p hp => ?_
      cases hp
    · refine hx.frame rfl id hkeep fun p hp => ?_
      cases hp

end Wf

/-! ## Enables -/

/-- In a word, a wait is enabled, and so is its interrupt, unless the handler has run. A sleep may
have disabled the interrupt. -/
structure Armed (x : Sys Waker) (s : Src) (w : BitVec 32) : Prop where
  en : w.getLsbD s.en = true
  ien : x.slept = [] → w.getLsbD s.ien = true ∨
    x.regs.status.getLsbD s.evt = true ∧ (x.books s).Woken

/-- Every wait that is pending is armed, in `WU_CNTL` and in what may be written back to it. -/
def Kept (x : Sys Waker) : Prop :=
  ∀ s rest, x.waits s = .pending rest → ∀ w, x.Word w → Armed x s w

namespace Kept

theorem init (regs : Regs) : Kept (Sys.init regs : Sys Waker) := nofun

theorem armed {w' : BitVec 32} (h : Armed x s w) (hs : Same s w w') (hz : x'.slept = x.slept)
    (he : x.regs.status.getLsbD s.evt = true → x'.regs.status.getLsbD s.evt = true)
    (hw : (x.books s).Woken → (x'.books s).Woken) : Armed x' s w' where
  en := hs.en.trans h.en
  ien hn := by
    rw [hs.ien]
    exact (h.ien (hz ▸ hn)).imp_right fun h => ⟨he h.1, hw h.2⟩

/-- The words after a step that leaves `WU_CNTL` alone and ends no poll. -/
theorem word_of_eq (h : x'.Word w) (hr : x'.regs.wuCntl = x.regs.wuCntl)
    (ht : ∀ p, x'.task = some (.poll p) → x.task = some (.poll p)) : x.Word w := by
  rcases h with h | ⟨p, hp, hh⟩
  · exact .inl (h.trans hr)
  · exact .inr ⟨p, ht p hp, hh⟩

/-- A step that changes one future, which is not pending then. -/
theorem update (hk : Kept x) {f : Fut} (hw : x'.waits = Function.update x.waits s f)
    (hf : ∀ rest, f ≠ .pending rest) (hr : x'.regs = x.regs) (hz : x'.slept = x.slept)
    (hb : ∀ s' ≠ s, x'.books s' = x.books s')
    (ht : ∀ p v, x'.task = some (.poll p) → p.hand = some v → x.task = some (.poll p)) :
    Kept x' := by
  intro s' rest hp w h
  rw [hw] at hp
  by_cases hs : s' = s
  · subst hs
    rw [Function.update_self] at hp
    exact (hf rest hp).elim
  · rw [Function.update_of_ne hs] at hp
    have hword : x.Word w := by
      rcases h with h | ⟨p, hp, hh⟩
      · exact .inl (by rw [h, hr])
      · exact .inr ⟨p, ht p w hp hh, hh⟩
    exact armed (hk s' rest hp w hword) (.refl s' w) hz (by rw [hr]; exact id)
      (by rw [hb s' hs]; exact id)

theorem latch (hk : Kept x) (bits : BitVec 32) : Kept (x.latch bits) := by
  intro s rest hp w h
  have hword : x.Word w := word_of_eq h rfl fun p => Wf.onSleep
  refine armed (hk s rest hp w hword) (.refl s w) rfl (fun he => ?_) id
  simp only [Sys.latch, BitVec.getLsbD_or, he, Bool.true_or]

theorem isr (hx : Wf x) (hk : Kept x) {s₀ : Src} (he : x.regs.status.getLsbD s₀.evt = true) :
    Kept (x.isr s₀) := by
  intro s rest hp w' h
  -- What is in the hand has been read before.
  obtain ⟨w, hw, hsame⟩ : ∃ w, x.Word w ∧ (w' = w ∨ w' = w &&& ~~~s₀.ienBit) := by
    rcases h with h | ⟨p, hp, hh⟩
    · exact ⟨_, .inl rfl, .inr h⟩
    · exact ⟨w', .inr ⟨p, Wf.onSleep hp, hh⟩, .inl rfl⟩
  have ha := hk s rest hp w hw
  by_cases hs : s = s₀
  · subst hs
    obtain ⟨-, hne, hn⟩ := hx.pending s rest hp
    refine ⟨?_, fun _ => .inr ⟨he, ?_⟩⟩
    · rcases hsame with rfl | rfl
      · exact ha.en
      · rw [Src.ienBit, getLsbD_and_not_bit s.ien_lt, decide_eq_false (Src.en_ne_ien s s), ha.en]
        rfl
    · simp only [Sys.isr, Function.update_self]
      exact hn.woken hne
  · have hsame' : Same s w w' := by
      rcases hsame with rfl | rfl
      · exact .refl s w'
      · exact .clear s₀.ien_lt (Src.en_ne_ien s s₀) (Src.ien_ne hs)
    refine armed ha hsame' rfl id ?_
    simp only [Sys.isr, Function.update_of_ne hs]
    exact id

theorem pollStep (hx : Wf x) (hk : Kept x) (ht : x.task = some (.poll p)) :
    Kept (x.pollStep p count) := by
  obtain ⟨hp, hr⟩ := hx.polled p ht
  obtain h | ⟨p', regs, h, hm⟩ | ⟨h, rest, hrest⟩ := pollStep_cases count ht hr
  · rw [h]
    exact hk.update rfl nofun rfl rfl (fun _ _ => rfl) nofun
  · rw [h]
    intro s rest hs w' hw'
    have hne : s ≠ p.src := by
      rintro rfl
      cases hp.symm.trans hs
    have hword : w' = regs.wuCntl ∨ p'.hand = some w' := by
      rcases hw' with hw' | ⟨q, hq, hh⟩
      · exact .inl hw'
      · cases hq
        exact .inr hh
    obtain ⟨w, hw, hsame⟩ := hm.word s hne w' hword
    exact armed (hk s rest hs w hw) hsame rfl (hm.status s hne) id
  · rw [h]
    intro s rest hs w' hw'
    have hw' : w' = x.regs.wuCntl ||| p.src.enBit ||| p.src.ienBit := by
      rcases hw' with hw' | ⟨q, hq, -⟩
      · exact hw'
      · cases hq
    rw [hw']
    by_cases hne : s = p.src
    · subst hne
      refine ⟨?_, fun _ => .inl ?_⟩
      · rw [Src.enBit, Src.ienBit, getLsbD_or_bit (Src.ien_lt _), getLsbD_or_bit (Src.en_lt _)]
        simp
      · rw [Src.ienBit, getLsbD_or_bit (Src.ien_lt _)]
        simp
    · have hs : x.waits s = .pending rest := by
        rw [← hs]
        exact (Function.update_of_ne hne _ _).symm
      refine armed (hk s rest hs _ (.inl rfl)) (Same.trans (.set (Src.en_lt _) (Src.en_ne hne)
        (Src.en_ne_ien _ _).symm) (.set (Src.ien_lt _) (Src.en_ne_ien _ _) (Src.ien_ne hne))) rfl id ?_
      simp only [Sys.arm, Function.update_of_ne hne]
      exact id

/-- The steps of a system that does not sleep. -/
theorem effect {a : Act Waker} (hx : Wf x) (hk : Kept x) (h : Effect x a x')
    (hz : ∀ z, x.task ≠ some (.sleep z)) : Kept x' := by
  cases h with
  | latch bits => exact hk.latch bits
  | isr he => exact hk.isr hx he
  | call hs hr => exact hk.update rfl nofun rfl rfl (fun _ _ => rfl) fun p v h _ => h
  | poll cx ht hs =>
    refine hk.update rfl nofun rfl rfl (fun s' hs' => Function.update_of_ne hs' _ _) ?_
    intro p v h hh
    cases h
    cases hh
  | drop s ht =>
    exact hk.update rfl nofun rfl rfl (fun s' hs' => Function.update_of_ne hs' _ _) fun p v h _ => h
  | sleep mode sources retention ha ht =>
    intro s rest hp w hw
    exact armed (hk s rest hp w (word_of_eq hw rfl nofun)) (.refl s w) rfl id id
  | pollStep count ht => exact hk.pollStep hx ht
  | sleepStep ht _ => exact (hz _ ht).elim

end Kept

/-! ## Runs -/

/-- Not a call of `sleep_with`. -/
def Act.Awake : Act Waker → Prop
  | .sleep _ _ _ => False
  | _ => True

/-- What holds in the runs without a sleep. -/
structure Awake (x : Sys Waker) : Prop where
  wf : Wf x
  kept : Kept x
  slept : x.slept = []
  task : ∀ z, x.task ≠ some (.sleep z)

theorem onSleep_sleep {f : Sleep → Sleep} {z : Sleep} (h : x.onSleep f = some (.sleep z)) :
    ∃ z, x.task = some (.sleep z) := by
  unfold Sys.onSleep at h
  cases ht : x.task with
  | none =>
    rw [ht] at h
    cases h
  | some t =>
    rw [ht] at h
    cases t <;> cases h
    exact ⟨_, rfl⟩

/-- A poll does not sleep. -/
theorem pollStep_awake (count : UInt32) (hx : Wf x) (ht : x.task = some (.poll p)) :
    (x.pollStep p count).slept = x.slept ∧ ∀ z, (x.pollStep p count).task ≠ some (.sleep z) := by
  obtain h | ⟨p', regs, h, -⟩ | ⟨h, -⟩ := pollStep_cases count ht (hx.polled p ht).2
  · rw [h]
    refine ⟨rfl, fun z hz => ?_⟩
    cases hz
  · rw [h]
    refine ⟨rfl, fun z hz => ?_⟩
    cases hz
  · rw [h]
    refine ⟨rfl, fun z hz => ?_⟩
    cases hz

theorem Awake.effect {a : Act Waker} (hx : Awake x) (ha : a.Awake) (h : Effect x a x') :
    Awake x' := by
  have hwf := hx.wf.effect h
  have hk := hx.kept.effect hx.wf h hx.task
  cases h with
  | latch bits | isr _ =>
    refine ⟨hwf, hk, hx.slept, fun z hz => ?_⟩
    obtain ⟨z, hz⟩ := onSleep_sleep hz
    exact hx.task z hz
  | call _ _ | drop _ _ => exact ⟨hwf, hk, hx.slept, hx.task⟩
  | poll _ _ _ =>
    refine ⟨hwf, hk, hx.slept, fun z hz => ?_⟩
    cases hz
  | sleep mode sources retention he _ =>
    rw [he] at ha
    exact ha.elim
  | pollStep count ht =>
    obtain ⟨hslept, htask⟩ := pollStep_awake count hx.wf ht
    exact ⟨hwf, hk, hslept.trans hx.slept, htask⟩
  | sleepStep ht _ => exact (hx.task _ ht).elim

theorem awake_of_reach (h : (lts Waker).Reach (fun _ a => a.Awake) x) : Awake x := by
  refine h.induct (I := Awake) ?_ fun x a x' hx ha h => hx.effect ha (step_effect h)
  rintro _ ⟨regs, rfl⟩
  refine ⟨.init regs, .init regs, rfl, fun z hz => ?_⟩
  cases hz

theorem Fut.isPending_iff {f : Fut} : f.isPending = true ↔ ∃ rest, f = .pending rest := by
  cases f with
  | pending rest => exact ⟨fun _ => ⟨rest, rfl⟩, fun _ => rfl⟩
  | idle | called _ | polled => exact ⟨nofun, nofun⟩

/-- **No arming is lost.** In every run of the waits and handlers, a future that is pending is
enabled in `WU_CNTL`. As long as its event is not latched, so is its interrupt; where it is latched,
the interrupt is pending, or the future's waker has been woken. -/
theorem arming_kept (h : (lts Waker).Reach (fun _ a => a.Awake) x) (s : Src)
    (hp : (x.waits s).isPending = true) :
    x.regs.wuCntl.getLsbD s.en = true ∧
    (x.regs.status.getLsbD s.evt = false → x.regs.wuCntl.getLsbD s.ien = true) ∧
    (x.regs.status.getLsbD s.evt = true →
      x.regs.wuCntl.getLsbD s.ien = true ∧ x.regs.crmEnabled = true ∨ (x.books s).Woken) := by
  have hx := awake_of_reach h
  obtain ⟨rest, hp⟩ := Fut.isPending_iff.mp hp
  obtain ⟨he, -⟩ := hx.wf.pending s rest hp
  have ha := hx.kept s rest hp _ (.inl rfl)
  refine ⟨ha.en, fun hn => ?_, fun _ => ?_⟩
  · refine (ha.ien hx.slept).resolve_right fun h => ?_
    rw [hn] at h
    cases h.1
  · exact (ha.ien hx.slept).imp (fun h => ⟨h, he⟩) And.right

/-- The CRM after a reset. -/
def resetRegs : Regs := ⟨0, 0, 0, 0, 0, false⟩

/-- KBI4. -/
def kbi4 : Fin 4 := ⟨0, Nat.succ_pos 3⟩

/-- A wait on KBI4 that is pending. -/
def kbiWait : List (Act Unit) :=
  [.waitForEdge kbi4 .rising, .poll (.kbi kbi4) ()] ++ List.replicate 8 (.step 0)

/-- A wait on KBI4 is pending, and a delay has read `WU_CNTL`. An edge comes, the handler runs, and
the delay writes back what it has read. -/
def staleWrite : List (Act Unit) :=
  kbiWait ++ [.waitRtcTicks 5, .poll .rtc (), .step 0, .step 100, .step 0, .latch (bit 4),
    .isr (.kbi kbi4), .step 0]

theorem arming_kept_staleWrite :
    let x := (Lts.exec Sys.step (Sys.init resetRegs) staleWrite).2
    (x.waits (.kbi kbi4)).isPending = true ∧ x.regs.status.getLsbD (Src.kbi kbi4).evt = true ∧
      x.regs.wuCntl.getLsbD (Src.kbi kbi4).en = true ∧
      (x.regs.wuCntl.getLsbD (Src.kbi kbi4).ien = true ∧ x.regs.crmEnabled = true ∨
        (x.books (.kbi kbi4)).Woken) := by
  have hrun : (lts Unit).Run (Sys.init resetRegs)
      (Lts.exec Sys.step (Sys.init resetRegs) staleWrite).1
      (Lts.exec Sys.step (Sys.init resetRegs) staleWrite).2 := .exec _ _ _ _
  have hawake : ∀ a ∈ staleWrite, a.Awake := by simp [staleWrite, kbiWait, Act.Awake]
  have hreach : (lts Unit).Reach (fun _ a => a.Awake)
      (Lts.exec Sys.step (Sys.init resetRegs) staleWrite).2 :=
    hrun.reach (.init ⟨resetRegs, rfl⟩) fun _ hy => hawake _ (Lts.Run.mem_exec hy)
  have hstate : ((Lts.exec Sys.step (Sys.init resetRegs) staleWrite).2.waits (.kbi kbi4)).isPending =
      true ∧ (Lts.exec Sys.step (Sys.init resetRegs) staleWrite).2.regs.status.getLsbD
        (Src.kbi kbi4).evt = true := by
    decide +kernel
  have hkept := arming_kept hreach (.kbi kbi4) hstate.1
  exact ⟨hstate.1, hstate.2, hkept.1, hkept.2.2 hstate.2⟩

end Mc1322x.Crm
