import Mc1322x.Hal.CrmWaits

/-!
# Sleep on the CRM

What `sleep_with` does to the waits that are pending, and what its reason is worth.

* `sleeps_disarm_iff`: a sleep writes all of `WU_CNTL`, so it disarms every pending wait that is not
  one of its sources.
* `reasons_truthful_iff`: a sleep does not clear `STATUS` before, so its reason may be an event from
  before the call.
-/

namespace Mc1322x.Crm

/-! ## What a sleep enables -/

theorem getLsbD_foldl_or {α : Type} (f : α → BitVec 32) (l : List α) (w : BitVec 32) (k : Nat) :
    (l.foldl (fun w a => w ||| f a) w).getLsbD k =
      (w.getLsbD k || l.any fun a => (f a).getLsbD k) := by
  induction l generalizing w with
  | nil => simp
  | cons a l ih => rw [List.foldl_cons, ih, BitVec.getLsbD_or, List.any_cons, Bool.or_assoc]

theorem kbiBits_en (n : Fin 4) (kbi : Option KbiWake) (s : Src) :
    (WakeSources.kbiBits n kbi).getLsbD s.en = (kbi.isSome && decide (s = .kbi n)) := by
  have hedge : (edgeBit n).getLsbD s.en = false := by
    rw [edgeBit, getLsbD_bit (by omega)]
    cases s <;> simp only [Src.en] <;> exact decide_eq_false (by omega)
  have hpol : (polBit n).getLsbD s.en = false := by
    rw [polBit, getLsbD_bit (by omega)]
    cases s <;> simp only [Src.en] <;> exact decide_eq_false (by omega)
  have hen : (Src.kbi n).enBit.getLsbD s.en = decide (s = .kbi n) := by
    rw [Src.enBit, getLsbD_bit (Src.en_lt _)]
    by_cases hs : s = .kbi n
    · rw [hs, decide_eq_true rfl, decide_eq_true rfl]
    · rw [decide_eq_false hs, decide_eq_false (Src.en_ne hs)]
  cases kbi with
  | none => simp [WakeSources.kbiBits]
  | some kbi =>
    simp only [WakeSources.kbiBits, BitVec.getLsbD_or, hen, Option.isSome_some, Bool.true_and]
    cases kbi.edge <;> cases kbi.activeHigh <;> simp [hedge, hpol]

/-- A sleep enables its sources only. -/
theorem wuCntl_en (sources : WakeSources) (s : Src) :
    sources.wuCntl.getLsbD s.en = sources.lists s := by
  have htimer : (bit 0).getLsbD s.en = false := by
    rw [getLsbD_bit (by decide)]
    cases s <;> simp only [Src.en] <;> exact decide_eq_false (by omega)
  have hrtc : (Src.rtc.enBit ||| Src.rtc.ienBit).getLsbD s.en = decide (s = .rtc) := by
    rw [BitVec.getLsbD_or, Src.enBit, Src.ienBit, getLsbD_bit (Src.en_lt _),
      getLsbD_bit (Src.ien_lt _), decide_eq_false (Src.en_ne_ien s .rtc), Bool.or_false]
    by_cases hs : s = .rtc
    · rw [hs, decide_eq_true rfl, decide_eq_true rfl]
    · rw [decide_eq_false hs, decide_eq_false (Src.en_ne hs)]
  have hbase : ((if sources.timer.isSome then bit 0 else 0) |||
      (if sources.rtc.isSome then Src.rtc.enBit ||| Src.rtc.ienBit else 0)).getLsbD s.en =
      (sources.rtc.isSome && decide (s = .rtc)) := by
    rw [BitVec.getLsbD_or]
    cases sources.timer.isSome <;> cases sources.rtc.isSome <;> simp [htimer, hrtc]
  unfold WakeSources.wuCntl
  rw [getLsbD_foldl_or, hbase]
  simp only [kbiBits_en]
  cases s with
  | rtc => simp [WakeSources.lists]
  | kbi n =>
    simp only [WakeSources.lists, reduceCtorEq, decide_false, Bool.and_false, Bool.false_or,
      Src.kbi.injEq]
    rw [Bool.eq_iff_iff, List.any_eq_true]
    constructor
    · rintro ⟨m, -, hm⟩
      obtain ⟨hm, rfl⟩ : (sources.kbi m).isSome = true ∧ n = m := by simpa using hm
      exact hm
    · exact fun hn => ⟨n, List.mem_finRange n, by simpa using hn⟩

/-! ## Waits that are not among the sources -/

variable {Waker : Type} {x x' : Sys Waker} {z : Sleep} {s : Src}

/-- The call leaves the bits of every pending wait that is not one of its sources as they would be
without it. -/
def Slept.Unaffected (r : Slept) : Prop :=
  ∀ s, (r.waits s).isPending = true → r.call.sources.lists s = false →
    Same s r.call.wuCntl' r.regs.wuCntl ∧
      r.regs.status.getLsbD s.evt = r.call.status'.getLsbD s.evt

/-- Every pending wait is one of the sources. -/
def Slept.Alone (r : Slept) : Prop :=
  ∀ s, (r.waits s).isPending = true → r.call.sources.lists s = true

theorem Slept.Alone.unaffected {r : Slept} (h : r.Alone) : r.Unaffected := by
  intro s hp hl
  rw [h s hp] at hl
  cases hl

/-- What holds of a sleep that is running. -/
structure Sleeps (x : Sys Waker) (z : Sleep) : Prop where
  /-- Without the sleep, the waits would be enabled. -/
  without : ∀ s, (x.waits s).isPending = true → z.wuCntl'.getLsbD s.en = true
  /-- The sources are enabled, and nothing else. -/
  written : z.stage.written = true → ∀ s, x.regs.wuCntl.getLsbD s.en = z.sources.lists s

/-- The waits are armed, as long as no sleep has disarmed one. -/
structure Sound (x : Sys Waker) : Prop where
  kept : (∀ z, x.task ≠ some (.sleep z)) → Kept x
  sleeps : ∀ z, x.task = some (.sleep z) → Sleeps x z

theorem Sound.init (regs : Regs) : Sound (Sys.init regs : Sys Waker) where
  kept _ := .init regs
  sleeps z hz := by cases hz

theorem onSleep_eq {f : Sleep → Sleep} (h : x.onSleep f = some (.sleep z)) :
    ∃ z', x.task = some (.sleep z') ∧ z = f z' := by
  unfold Sys.onSleep at h
  cases ht : x.task with
  | none =>
    rw [ht] at h
    cases h
  | some t =>
    rw [ht] at h
    cases t <;> cases h
    exact ⟨_, rfl, rfl⟩

theorem onSleep_ne {f : Sleep → Sleep} (h : ∀ z, x.onSleep f ≠ some (.sleep z)) (z : Sleep) :
    x.task ≠ some (.sleep z) := by
  intro hz
  refine h (f z) ?_
  unfold Sys.onSleep
  rw [hz]
  rfl

/-- The handlers leave the enables of the waits alone. -/
theorem mask_en (w : BitVec 32) (s s' : Src) :
    (w &&& ~~~s'.ienBit).getLsbD s.en = w.getLsbD s.en := by
  rw [Src.ienBit, getLsbD_and_not_bit s'.ien_lt, decide_eq_false (Src.en_ne_ien s s'),
    Bool.not_false, Bool.and_true]

namespace Sleeps

theorem latch (h : Sleeps x z) (bits : BitVec 32) : Sleeps (x.latch bits) (z.latch bits) :=
  ⟨h.without, h.written⟩

theorem isr (h : Sleeps x z) (s' : Src) : Sleeps (x.isr s') (z.mask s') where
  without s hp := (mask_en _ s s').trans (h.without s hp)
  written hw s := (mask_en _ s s').trans (h.written hw s)

theorem frame {f : Fut} (h : Sleeps x z) (hf : f.isPending = false) :
    Sleeps { x with waits := Function.update x.waits s f } z where
  without s' hp := by
    dsimp only at hp
    by_cases hs : s' = s
    · subst hs
      rw [Function.update_self, hf] at hp
      cases hp
    · rw [Function.update_of_ne hs] at hp
      exact h.without s' hp
  written := h.written

/-- At its call, a sleep finds the waits enabled. -/
theorem start (hk : Kept x) (mode : SleepMode) (sources : WakeSources) (retention : Retention) :
    Sleeps x ⟨mode, sources, retention, .timer, x.regs.status, 0, x.regs.wuCntl, x.regs.status⟩ where
  without s hp := by
    obtain ⟨rest, hp⟩ := Fut.isPending_iff.mp hp
    exact (hk s rest hp _ (.inl rfl)).en
  written hw := by cases hw

theorem goOn (h : Sleeps x z) {regs : Regs} {stage : Stage} (hs : Sinks x z regs stage) :
    Sleeps { x with regs := regs, task := some (.sleep { z with stage := stage }) }
      { z with stage := stage } where
  without := h.without
  written hw s := by
    obtain ⟨hst, hr⟩ | ⟨-, hr⟩ := hs.wuCntl
    · exact (congrArg (·.getLsbD s.en) hr).trans (h.written (hst ▸ hw) s)
    · exact (congrArg (·.getLsbD s.en) hr).trans (wuCntl_en z.sources s)

end Sleeps

/-- A sleep returns with its sources enabled, and nothing else. -/
theorem kept_return {raw : BitVec 32} (h : Sleeps x z) (hz : z.stage = .ack raw) (regs : Regs)
    (hr : regs.wuCntl = x.regs.wuCntl) {r : Slept} (hc : r.call = z) (hw : r.waits = x.waits)
    (ha : r.Alone) : Kept { x with regs := regs, task := none, slept := x.slept ++ [r] } := by
  intro s rest hp w hword
  have hp' : (r.waits s).isPending = true := by
    rw [hw, Fut.isPending_iff]
    exact ⟨rest, hp⟩
  rcases hword with hword | ⟨p, hp, -⟩
  · refine ⟨?_, fun hn => ?_⟩
    · rw [hword]
      dsimp only
      rw [hr, h.written (by rw [hz]; rfl) s, ← hc]
      exact ha s hp'
    · simp at hn
  · cases hp

/-- A step keeps the waits armed, unless it ends a sleep that has disarmed one. -/
theorem Sound.effect {a : Act Waker} (hwf : Wf x) (hx : Sound x) (h : Effect x a x')
    (ha : ∀ r ∈ x'.slept, r.Alone) : Sound x' := by
  cases h with
  | latch bits =>
    refine ⟨fun hz => (hx.kept (onSleep_ne hz)).latch bits, fun z hz => ?_⟩
    obtain ⟨z', hz', rfl⟩ := onSleep_eq hz
    exact (hx.sleeps z' hz').latch bits
  | @isr s he =>
    refine ⟨fun hz => (hx.kept (onSleep_ne hz)).isr hwf he, fun z hz => ?_⟩
    obtain ⟨z', hz', rfl⟩ := onSleep_eq hz
    exact (hx.sleeps z' hz').isr s
  | call hs hr =>
    refine ⟨fun hz => ?_, fun z hz => (hx.sleeps z hz).frame rfl⟩
    exact (hx.kept hz).update rfl nofun rfl rfl (fun _ _ => rfl) fun p v h _ => h
  | @poll s rest cx ht hs =>
    have hz : ∀ z, x.task ≠ some (.sleep z) := by simp [ht]
    refine ⟨fun _ => (hx.kept hz).effect (a := a) hwf (.poll cx ht hs) hz, fun z hz => ?_⟩
    cases hz
  | drop s ht =>
    have hz : ∀ z, x.task ≠ some (.sleep z) := by simp [ht]
    refine ⟨fun _ => (hx.kept hz).effect (a := a) hwf (.drop s ht) hz, fun z h => (hz z h).elim⟩
  | sleep mode sources retention he ht =>
    have hz : ∀ z, x.task ≠ some (.sleep z) := by simp [ht]
    refine ⟨fun h => (h _ rfl).elim, fun z hz' => ?_⟩
    cases hz'
    have hs := Sleeps.start (hx.kept hz) mode sources retention
    exact ⟨hs.without, fun hw => by cases hw⟩
  | pollStep count ht =>
    have hz : ∀ z, x.task ≠ some (.sleep z) := by simp [ht]
    refine ⟨fun _ => (hx.kept hz).pollStep hwf ht, fun z h => ?_⟩
    exact ((pollStep_awake count hwf ht).2 z h).elim
  | @sleepStep z x' ht h =>
    obtain rfl | ⟨regs, stage, rfl, hs⟩ | ⟨raw, regs, hz, hr, rfl⟩ := sleepStep_cases h
    · exact hx
    · refine ⟨fun h => (h _ rfl).elim, fun z' hz => ?_⟩
      cases hz
      exact (hx.sleeps z ht).goOn hs
    · -- The sleep returns, and has rewritten `WU_CNTL`: it was alone, so no wait is lost.
      have ha := ha _ (List.mem_append_right _ List.mem_cons_self)
      have hr : regs.wuCntl = x.regs.wuCntl := by rw [hr]
      refine ⟨fun _ => kept_return (hx.sleeps z ht) hz regs hr rfl rfl ha, fun z hz => ?_⟩
      cases hz

/-- A step adds the sleep that it ends. -/
theorem slept_cases {a : Act Waker} (hwf : Wf x) (h : Effect x a x') :
    x'.slept = x.slept ∨
    ∃ z raw regs, x.task = some (.sleep z) ∧ z.stage = .ack raw ∧
      regs = { x.regs with status := x.regs.status &&& ~~~raw } ∧
      x'.slept = x.slept ++ [⟨z, wakeReason raw, regs, x.waits⟩] := by
  cases h with
  | latch _ | isr _ | call _ _ | poll _ _ _ | drop _ _ | sleep _ _ _ _ _ => exact .inl rfl
  | pollStep count ht => exact .inl (pollStep_awake count hwf ht).1
  | sleepStep ht h =>
    obtain rfl | ⟨regs, stage, rfl, -⟩ | ⟨raw, regs, hz, hr, rfl⟩ := sleepStep_cases h
    · exact .inl rfl
    · exact .inl rfl
    · exact .inr ⟨_, raw, regs, ht, hz, hr, rfl⟩

/-- In a run, the waits are armed until a sleep disarms one; and it disarms those that are not among
its sources. -/
structure Disarms (x : Sys Waker) : Prop where
  wf : Wf x
  sound : (∀ r ∈ x.slept, r.Alone) → Sound x
  alone : (∀ r ∈ x.slept, r.Unaffected) → ∀ r ∈ x.slept, r.Alone

/-- A sleep that finds the waits armed and leaves them as they are has them among its sources. -/
theorem alone_of_unaffected (h : Sleeps x z) {raw : BitVec 32} (hz : z.stage = .ack raw)
    {r : Slept} (hc : r.call = z) (hr : r.regs.wuCntl = x.regs.wuCntl) (hw : r.waits = x.waits)
    (hu : r.Unaffected) : r.Alone := by
  intro s hp
  cases hl : r.call.sources.lists s with
  | true => rfl
  | false =>
    have hen : r.regs.wuCntl.getLsbD s.en = true := by
      rw [(hu s hp hl).1.en, hc]
      exact h.without s (hw ▸ hp)
    rw [hr, h.written (by rw [hz]; rfl) s, ← hc, hl] at hen
    cases hen

theorem Disarms.effect {a : Act Waker} (hx : Disarms x) (h : Effect x a x') : Disarms x' := by
  obtain hs | ⟨z, raw, regs, ht, hz, hr, hs⟩ := slept_cases hx.wf h
  · refine ⟨hx.wf.effect h, fun ha => ?_, fun hu => ?_⟩
    · exact (hx.sound (hs ▸ ha)).effect hx.wf h ha
    · rw [hs] at hu ⊢
      exact hx.alone hu
  · refine ⟨hx.wf.effect h, fun ha => ?_, fun hu => ?_⟩
    · refine (hx.sound fun r hr => ha r ?_).effect hx.wf h ha
      rw [hs]
      exact List.mem_append_left _ hr
    · rw [hs, List.forall_mem_append, List.forall_mem_singleton] at hu ⊢
      have ha := hx.alone hu.1
      exact ⟨ha, alone_of_unaffected ((hx.sound ha).sleeps z ht) hz rfl (by rw [hr]) rfl hu.2⟩

theorem disarms_of_reach (h : (lts Waker).Reach (lts Waker).Any x) : Disarms x := by
  refine h.induct (I := Disarms) ?_ fun x a x' hx _ h => hx.effect (step_effect h)
  rintro _ ⟨regs, rfl⟩
  exact ⟨.init regs, fun _ => .init regs, fun _ _ hr => by cases hr⟩

/-- **Sleeping disarms other waits.** In every run, the calls of `sleep_with` that have returned
have left the pending waits that are not among their sources as they would be without them exactly
if there has been no such wait at any of them. -/
theorem sleeps_disarm_iff (h : (lts Waker).Reach (lts Waker).Any x) :
    (∀ r ∈ x.slept, r.Unaffected) ↔ ∀ r ∈ x.slept, r.Alone :=
  ⟨(disarms_of_reach h).alone, fun ha r hr => (ha r hr).unaffected⟩

/-- The edge comes, and the wait ends. -/
def kbiEdge : List (Act Unit) :=
  [.latch (bit 4), .isr (.kbi kbi4), .poll (.kbi kbi4) (), .step 0, .step 0]

/-- A sleep that a timer wakes. -/
def timerSleep : List (Act Unit) :=
  [.sleep .hibernate ⟨some 100, none, fun _ => none⟩ ⟨true, true, .kb96⟩] ++
    List.replicate 4 (.step 0) ++ [.latch (bit 0)] ++ List.replicate 3 (.step 0) ++
    [.latch (bit 0 ||| bit 1)] ++ List.replicate 3 (.step 0)

/-- The state after these. -/
def after (as : List (Act Unit)) : Sys Unit := (Lts.exec Sys.step (Sys.init resetRegs) as).2

theorem reach_after (as : List (Act Unit)) : (lts Unit).Reach (lts Unit).Any (after as) := by
  have hrun : (lts Unit).Run (Sys.init resetRegs) _ (after as) := .exec _ _ _ _
  exact hrun.reach (.init ⟨resetRegs, rfl⟩) fun _ _ => trivial

theorem sleeps_disarm_iff_edge :
    let x := after (kbiWait ++ kbiEdge ++ timerSleep)
    x.slept.length = 1 ∧ ∀ r ∈ x.slept, r.Unaffected := by
  have hidle : (after (kbiWait ++ kbiEdge ++ timerSleep)).slept.all (fun r =>
      !(r.waits .rtc).isPending && (List.finRange 4).all fun n => !(r.waits (.kbi n)).isPending) =
        true := by
    decide +kernel
  refine ⟨by decide +kernel, (sleeps_disarm_iff (reach_after _)).mpr fun r hr s hp => ?_⟩
  have hr := List.all_eq_true.mp hidle r hr
  rw [Bool.and_eq_true, List.all_eq_true] at hr
  cases s with
  | rtc => simp [hp] at hr
  | kbi n =>
    have hn := hr.2 n (List.mem_finRange n)
    simp [hp] at hn

/-- A sleep that only a timer wakes disables a wait on KBI4. -/
theorem timerSleep_disarms :
    ∃ x, (lts Unit).Reach (lts Unit).Any x ∧ ¬ ∀ r ∈ x.slept, r.Unaffected := by
  have hkbi : (after (kbiWait ++ timerSleep)).slept.any (fun r =>
      (r.waits (.kbi kbi4)).isPending && !r.call.sources.lists (.kbi kbi4) &&
        r.call.wuCntl'.getLsbD (Src.kbi kbi4).en && !r.regs.wuCntl.getLsbD (Src.kbi kbi4).en) = true := by
    decide +kernel
  refine ⟨_, reach_after (kbiWait ++ timerSleep), fun hu => ?_⟩
  obtain ⟨r, hr, h⟩ := List.any_eq_true.mp hkbi
  simp only [Bool.and_eq_true, Bool.not_eq_true'] at h
  obtain ⟨⟨⟨hp, hl⟩, hen⟩, hen'⟩ := h
  have hsame := (hu r hr (.kbi kbi4) hp hl).1.en
  rw [hen, hen'] at hsame
  cases hsame

/-! ## Reasons -/

namespace WakeReason

/-- The events of a reason are in this word. -/
def latched (status : BitVec 32) : WakeReason → Bool
  | rtc => status.getLsbD 3
  | timer => status.getLsbD 1 || status.getLsbD 2
  | kbi n => status.getLsbD (4 + n)
  | calDone => status.getLsbD 9
  | cop => status.getLsbD 10
  | unknown => false

/-- The order in which `sleep_with` looks for them. -/
def rank : WakeReason → Nat
  | rtc => 0
  | timer => 1
  | kbi n => 2 + n
  | calDone => 6
  | cop => 7
  | unknown => 8

theorem rank_inj {a b : WakeReason} (h : a.rank = b.rank) : a = b := by
  cases a <;> cases b <;> simp only [rank] at h <;> first | rfl | omega | skip
  exact congrArg kbi (Fin.ext (by omega))

theorem rank_lt {a : WakeReason} {status : BitVec 32} (h : a.latched status = true) :
    a.rank < unknown.rank := by
  cases a with
  | unknown => cases h
  | _ => simp only [rank]; omega

theorem latched_or {w v u : BitVec 32} (h : ∀ k ≠ 0, w.getLsbD k = (v ||| u).getLsbD k)
    (a : WakeReason) : a.latched w = (a.latched v || a.latched u) := by
  cases a with
  | rtc => simp only [latched, h 3 (by decide), BitVec.getLsbD_or]
  | calDone => simp only [latched, h 9 (by decide), BitVec.getLsbD_or]
  | cop => simp only [latched, h 10 (by decide), BitVec.getLsbD_or]
  | timer =>
    simp only [latched, h 1 (by decide), h 2 (by decide), BitVec.getLsbD_or]
    cases v.getLsbD 1 <;> cases v.getLsbD 2 <;> simp
  | kbi n => simp [latched, h (4 + n.val) (by omega)]
  | unknown => rfl

end WakeReason

/-- The pin that is found is the first. -/
theorem find?_finRange {n : Nat} {p : Fin n → Bool} {i : Fin n}
    (h : (List.finRange n).find? p = some i) : p i = true ∧ ∀ j, p j = true → i ≤ j := by
  obtain ⟨hp, k, hk, hi, hlt⟩ := List.find?_eq_some_iff_getElem.mp h
  refine ⟨hp, fun j hj => Nat.le_of_not_lt fun hji => ?_⟩
  rw [List.getElem_finRange] at hi
  have hjk : j.val < k := by
    rw [← hi] at hji
    exact hji
  have hnj := hlt j.val hjk
  rw [List.getElem_finRange] at hnj
  simp [hj] at hnj

/-- What is latched comes after what is not. -/
theorem rank_gt (status : BitVec 32) {a : WakeReason} (b : WakeReason) (hb : ¬ b.latched status = true)
    (ha : a.latched status = true) (h : b.rank ≤ a.rank) : b.rank < a.rank :=
  Nat.lt_of_le_of_ne h fun he => hb (WakeReason.rank_inj he ▸ ha)

/-- The reason is the first of those in `STATUS`. -/
theorem wakeReason_first (raw : BitVec 32) :
    (wakeReason raw = .unknown ∨ (wakeReason raw).latched raw = true) ∧
    ∀ a : WakeReason, a.latched raw = true → (wakeReason raw).rank ≤ a.rank := by
  unfold wakeReason
  by_cases hrtc : raw.getLsbD 3 = true
  · rw [if_pos hrtc]
    exact ⟨.inr hrtc, fun a _ => Nat.zero_le _⟩
  -- Each test that fails leaves the reasons of a higher rank.
  have h₁ : ∀ a : WakeReason, a.latched raw = true → WakeReason.rtc.rank < a.rank :=
    fun a h => rank_gt raw .rtc hrtc h (Nat.zero_le _)
  rw [if_neg hrtc]
  by_cases htimer : (raw.getLsbD 1 || raw.getLsbD 2) = true
  · rw [if_pos htimer]
    exact ⟨.inr htimer, h₁⟩
  have h₂ : ∀ a : WakeReason, a.latched raw = true → WakeReason.timer.rank < a.rank :=
    fun a h => rank_gt raw .timer htimer h (h₁ a h)
  rw [if_neg htimer]
  cases hkbi : (List.finRange 4).find? fun n : Fin 4 => raw.getLsbD (4 + n) with
  | some n =>
    obtain ⟨hn, hfirst⟩ := find?_finRange hkbi
    refine ⟨.inr hn, fun a h => ?_⟩
    have hlt := h₂ a h
    cases a with
    | kbi m =>
      have hnm : n.val ≤ m.val := hfirst m h
      simp only [WakeReason.rank]
      omega
    | _ =>
      simp only [WakeReason.rank] at hlt ⊢
      omega
  | none =>
    have hkbi : ∀ n : Fin 4, raw.getLsbD (4 + n) ≠ true := fun n =>
      List.find?_eq_none.mp hkbi n (List.mem_finRange n)
    have h₆ : ∀ a : WakeReason, a.latched raw = true → WakeReason.calDone.rank ≤ a.rank := by
      intro a h
      have hlt := h₂ a h
      cases a with
      | kbi m => exact absurd h (hkbi m)
      | _ =>
        simp only [WakeReason.rank] at hlt ⊢
        omega
    dsimp only
    by_cases hcal : raw.getLsbD 9 = true
    · rw [if_pos hcal]
      exact ⟨.inr hcal, h₆⟩
    have h₇ : ∀ a : WakeReason, a.latched raw = true → WakeReason.calDone.rank < a.rank :=
      fun a h => rank_gt raw .calDone hcal h (h₆ a h)
    rw [if_neg hcal]
    by_cases hcop : raw.getLsbD 10 = true
    · rw [if_pos hcop]
      exact ⟨.inr hcop, h₇⟩
    · rw [if_neg hcop]
      exact ⟨.inl rfl, fun a h => rank_gt raw .cop hcop h (h₇ a h)⟩

/-- What the reason names has occurred since the call. -/
def Slept.Truthful (r : Slept) : Prop := r.reason = .unknown ∨ r.reason.latched r.call.raised = true

/-- No reason that was latched at the call comes before all that have occurred since. -/
def Slept.Fresh (r : Slept) : Prop :=
  ∀ a : WakeReason, a.latched r.call.before = true →
    ∃ b : WakeReason, b.latched r.call.raised = true ∧ b.rank ≤ a.rank

/-- The reason is read from what was latched before the call and what has been since. -/
def Slept.Reads (r : Slept) : Prop :=
  ∃ raw : BitVec 32, r.reason = wakeReason raw ∧
    ∀ k ≠ 0, raw.getLsbD k = (r.call.before ||| r.call.raised).getLsbD k

theorem Slept.Reads.truthful_iff {r : Slept} (h : r.Reads) : r.Truthful ↔ r.Fresh := by
  obtain ⟨raw, hreason, hraw⟩ := h
  obtain ⟨hlatched, hfirst⟩ := wakeReason_first raw
  rw [← hreason] at hlatched hfirst
  have hor := WakeReason.latched_or hraw
  constructor
  · intro ht a ha
    have hle := hfirst a (by rw [hor, ha, Bool.true_or])
    rcases ht with ht | ht
    · rw [ht] at hle
      exact absurd (WakeReason.rank_lt ha) (Nat.not_lt.mpr hle)
    · exact ⟨_, ht, hle⟩
  · intro hf
    rcases hlatched with hl | hl
    · exact .inl hl
    · right
      rw [hor, Bool.or_eq_true] at hl
      rcases hl with hl | hl
      · -- An old event comes first only with a fresh one of the same rank.
        obtain ⟨b, hb, hle⟩ := hf _ hl
        have hge := hfirst b (by rw [hor, hb, Bool.or_true])
        rw [WakeReason.rank_inj (Nat.le_antisymm hge hle)]
        exact hb
      · exact hl

/-- What the sleep that is running reads, and what the others have read. -/
structure Knows (x : Sys Waker) : Prop where
  wf : Wf x
  word : ∀ z, x.task = some (.sleep z) → ∀ k ≠ 0,
    (z.word x.regs.status).getLsbD k = (z.before ||| z.raised).getLsbD k
  reads : ∀ r ∈ x.slept, r.Reads

/-- What the hardware latches is read, unless it has been read before. -/
theorem word_latch {status bits : BitVec 32} {k : Nat}
    (h : (z.word status).getLsbD k = (z.before ||| z.raised).getLsbD k) :
    ((z.latch bits).word (status ||| bits)).getLsbD k =
      ((z.latch bits).before ||| (z.latch bits).raised).getLsbD k := by
  unfold Sleep.word Sleep.latch at *
  cases hz : z.stage with
  | ack raw =>
    rw [hz] at h
    exact h
  | _ =>
    rw [hz] at h
    simp only [BitVec.getLsbD_or] at h ⊢
    rw [h, Bool.or_assoc]

theorem Knows.effect {a : Act Waker} (hx : Knows x) (h : Effect x a x') : Knows x' := by
  refine ⟨hx.wf.effect h, ?_, ?_⟩
  · cases h with
    | latch bits =>
      intro z hz k hk
      obtain ⟨z', hz', rfl⟩ := onSleep_eq hz
      exact word_latch (hx.word z' hz' k hk)
    | isr _ =>
      intro z hz k hk
      obtain ⟨z', hz', rfl⟩ := onSleep_eq hz
      exact hx.word z' hz' k hk
    | call _ _ | drop _ _ => exact hx.word
    | poll _ _ _ =>
      intro z hz
      cases hz
    | sleep mode sources retention _ _ =>
      intro z hz k _
      cases hz
      simp [Sleep.word]
    | pollStep count ht =>
      intro z hz
      exact ((pollStep_awake count hx.wf ht).2 z hz).elim
    | sleepStep ht h =>
      obtain rfl | ⟨regs, stage, rfl, hs⟩ | ⟨raw, regs, -, -, rfl⟩ := sleepStep_cases h
      · exact hx.word
      · intro z hz k hk
        cases hz
        exact (hs.status k hk).trans (hx.word _ ht k hk)
      · intro z hz
        cases hz
  · obtain hs | ⟨z, raw, regs, ht, hz, -, hs⟩ := slept_cases hx.wf h
    · rw [hs]
      exact hx.reads
    · rw [hs, List.forall_mem_append, List.forall_mem_singleton]
      -- The sleep that returns has read `STATUS` after its wake-up.
      refine ⟨hx.reads, raw, rfl, fun k hk => ?_⟩
      have hword := hx.word z ht k hk
      unfold Sleep.word at hword
      rw [hz] at hword
      exact hword

theorem knows_of_reach (h : (lts Waker).Reach (lts Waker).Any x) : Knows x := by
  refine h.induct (I := Knows) ?_ fun x a x' hx _ h => hx.effect (step_effect h)
  rintro _ ⟨regs, rfl⟩
  exact ⟨.init regs, fun z hz => (by cases hz), fun _ hr => by cases hr⟩

/-- **Stale reasons.** In every run, a call of `sleep_with` returns a reason that has occurred since
exactly if what was latched at the call comes after something that has. -/
theorem reasons_truthful_iff (h : (lts Waker).Reach (lts Waker).Any x) :
    ∀ r ∈ x.slept, (r.Truthful ↔ r.Fresh) :=
  fun r hr => ((knows_of_reach h).reads r hr).truthful_iff

/-- The timer comes before the event of KBI4 that the wait has left. -/
theorem reasons_truthful_iff_edge :
    let x := after (kbiWait ++ kbiEdge ++ timerSleep)
    x.slept.length = 1 ∧ ∀ r ∈ x.slept, r.Truthful := by
  have htimer : (after (kbiWait ++ kbiEdge ++ timerSleep)).slept.all (fun r =>
      !r.call.before.getLsbD 3 && WakeReason.timer.latched r.call.raised) = true := by
    decide +kernel
  refine ⟨by decide +kernel, fun r hr => ?_⟩
  have h := List.all_eq_true.mp htimer r hr
  rw [Bool.and_eq_true, Bool.not_eq_true'] at h
  refine (reasons_truthful_iff (reach_after _) r hr).mpr fun a ha => ⟨.timer, h.2, ?_⟩
  cases a with
  | rtc => exact absurd ha (by rw [WakeReason.latched, h.1]; decide)
  | _ => simp only [WakeReason.rank]; omega

/-- A delay that ends, and leaves its event in `STATUS`. -/
def rtcDelay : List (Act Unit) :=
  [.waitRtcTicks 5, .poll .rtc (), .step 0, .step 100] ++ List.replicate 6 (.step 0) ++
    [.latch (bit 3), .isr .rtc, .poll .rtc (), .step 0, .step 105, .step 0]

/-- The timer ends a sleep, and the reason is the delay before it. -/
theorem rtcDelay_stale :
    ∃ x, (lts Unit).Reach (lts Unit).Any x ∧ ¬ ∀ r ∈ x.slept, r.Truthful := by
  have hrtc : (after (rtcDelay ++ timerSleep)).slept.any (fun r =>
      decide (r.reason = .rtc) && !WakeReason.rtc.latched r.call.raised) = true := by
    decide +kernel
  refine ⟨_, reach_after (rtcDelay ++ timerSleep), fun ht => ?_⟩
  obtain ⟨r, hr, h⟩ := List.any_eq_true.mp hrtc
  rw [Bool.and_eq_true, decide_eq_true_eq, Bool.not_eq_true'] at h
  rcases ht r hr with hu | hl
  · rw [h.1] at hu
    cases hu
  · rw [h.1, h.2] at hl
    cases hl

end Mc1322x.Crm
