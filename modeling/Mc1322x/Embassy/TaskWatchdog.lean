import Mc1322x.Hal.Watchdog
import Mc1322x.Lib.Lts
import Mc1322x.Lib.Slots

/-!
# The task watchdog (`mc1322x-embassy/src/task_watchdog.rs`)

`State` is the task table, an array of slots; each call is one critical section and reads the clock
once. `Watches` is the abstract table: a finite map from the registered ids to the last reset of the
count, the limit and the setup phase (`Watch`), with the documented rules (`Watches.step`).
`table_refines`: over every run with the clock going forward, the slots hold the map of the calls.
-/

namespace Mc1322x.TaskWatchdog

open Watchdog (Cop)

/-- What the table uses of `embassy-time`, whose instants and durations are counts of 64 bits. -/
structure Time where
  /-- The difference of two instants; `none` is a panic. -/
  since : UInt64 → UInt64 → Option UInt64
  /-- `Duration::checked_mul`. -/
  checkedMul : UInt64 → UInt32 → Option UInt64
  /-- The whole seconds of a duration. -/
  asSecs : UInt64 → UInt64
  /-- The milliseconds that are left. -/
  subsecMillis : UInt64 → UInt32

/-- The difference to a later instant panics, and a product that does not fit is none. -/
structure Time.Lawful (T : Time) : Prop where
  since : ∀ a b, T.since a b = if b ≤ a then some (a - b) else none
  checkedMul : ∀ d n, T.checkedMul d n =
    if d.toNat * n.toNat < 2 ^ 64 then some (.ofNat (d.toNat * n.toNat)) else none

/-- `Duration::MAX`. -/
def durationMax : UInt64 := .ofNat (2 ^ 64 - 1)

/-- How a task's start-up, before its first `feed`, is monitored. -/
inductive Setup where
  /-- Same as afterwards. -/
  | none
  /-- With this limit instead. -/
  | bounded (limit : UInt64)
  /-- Not at all. -/
  | unbounded
  deriving DecidableEq

/-- How a task is monitored. -/
structure TaskConfig where
  timeout : UInt64
  retries : UInt8
  setup : Setup

/-- `TaskConfig::new`, and `From<Duration>`. -/
def TaskConfig.new (timeout : UInt64) : TaskConfig := ⟨timeout, 0, .none⟩

/-- `TaskConfig::retries`. -/
def TaskConfig.withRetries (c : TaskConfig) (retries : UInt8) : TaskConfig :=
  { c with retries := retries }

/-- `TaskConfig::setup_timeout`. -/
def TaskConfig.setupTimeout (c : TaskConfig) (setupTimeout : UInt64) : TaskConfig :=
  { c with setup := .bounded setupTimeout }

/-- `TaskConfig::unbounded_setup`. -/
def TaskConfig.unboundedSetup (c : TaskConfig) : TaskConfig := { c with setup := .unbounded }

/-- `Task`: an entry of the table. -/
structure Task (I : Type) where
  id : I
  lastFeed : UInt64
  /-- `(retries + 1) * timeout`. -/
  limit : UInt64
  /-- Still before the first feed, if the task has a setup phase. -/
  setup : Setup

/-- `State`: the COP, the two intervals and the table of `N` slots. -/
structure State (I : Type) (N : Nat) where
  cop : Cop
  hardwareTimeout : UInt64
  checkInterval : UInt64
  tasks : Vector (Option (Task I)) N

variable {I : Type} [DecidableEq I] {N : Nat}

/-- `WatchdogRunner::new`. -/
def State.new (cop : Cop) (hardwareTimeout checkInterval : UInt64) : State I N :=
  ⟨cop, hardwareTimeout, checkInterval, .replicate N none⟩

section Calls

variable (T : Time)

/-- `Task::new`. A limit that does not fit is `Duration::MAX`. -/
def Task.new (id : I) (config : TaskConfig) (now : UInt64) : Task I where
  id := id
  lastFeed := now
  limit := (T.checkedMul config.timeout (config.retries.toUInt32 + 1)).getD durationMax
  setup := config.setup

/-- `Task::feed`. -/
def Task.feed (t : Task I) (now : UInt64) : Task I := { t with lastFeed := now, setup := .none }

/-- `Task::is_starved`; `none` is a panic. -/
def Task.isStarved (t : Task I) (now : UInt64) : Option Bool :=
  match t.setup with
  | .none => (T.since now t.lastFeed).map (decide <| t.limit ≤ ·)
  | .bounded setupTimeout => (T.since now t.lastFeed).map (decide <| setupTimeout ≤ ·)
  | .unbounded => some false

/-- The slot that `State::task` finds. -/
def State.task (s : State I N) (id : I) : Option (Fin N) := Slots.index? (·.id) s.tasks id

/-- `register_task`: over the task's own entry, else in the first free slot, else an error. -/
def State.registerTask (s : State I N) (id : I) (config : TaskConfig) (now : UInt64) :
    Except Unit Unit × State I N :=
  let task := Task.new T id config now
  match s.task id with
  | some i => (.ok (), { s with tasks := s.tasks.set i (some task) i.isLt })
  | none =>
    match Slots.hole? s.tasks with
    | some i => (.ok (), { s with tasks := s.tasks.set i (some task) i.isLt })
    | none => (.error (), s)

/-- `deregister_task`. An identifier that is not in the table is ignored. -/
def State.deregisterTask (s : State I N) (id : I) : State I N :=
  match s.task id with
  | some i => { s with tasks := s.tasks.set i none i.isLt }
  | none => s

/-- `feed`. An identifier that is not in the table is ignored. -/
def State.feed (s : State I N) (id : I) (now : UInt64) : State I N :=
  match s.task id with
  | some i => { s with tasks := s.tasks.set i ((s.tasks.get i).map (·.feed now)) i.isLt }
  | none => s

/-- Whether a task has starved, up to the first one. -/
def anyStarved (now : UInt64) : List (Option (Task I)) → Option Bool
  | [] => some false
  | none :: slots => anyStarved now slots
  | some task :: slots => do
    if ← task.isStarved T now then some true else anyStarved now slots

/-- `check_tasks`; `none` is a panic. -/
def State.checkTasks (s : State I N) (now : UInt64) : Option (Bool × State I N) := do
  let starved ← anyStarved T now s.tasks.toList
  some (starved, if starved then s else { s with cop := s.cop.service })

/-- `start`, with the check interval; `none` is a panic. -/
def State.start (refOsc : UInt32) (s : State I N) (now : UInt64) : Option (UInt64 × State I N) := do
  let tasks := s.tasks.map (Option.map ({ · with lastFeed := now }))
  let cop ← s.cop.hardwareStart refOsc (T.asSecs s.hardwareTimeout) (T.subsecMillis s.hardwareTimeout)
  some (s.checkInterval, { s with tasks := tasks, cop := cop })

end Calls

/-! ## The system -/

/-- The methods of the table. -/
inductive Call (I : Type) where
  | registerTask (id : I) (config : TaskConfig)
  | deregisterTask (id : I)
  | feed (id : I)
  | start
  | checkTasks

/-- The table, with the clock that it is called at. -/
structure Sys (I : Type) (N : Nat) where
  state : State I N
  /-- The time of the last call. -/
  now : UInt64

/-- A call; `none` is a panic. -/
def State.call (T : Time) (refOsc : UInt32) (s : State I N) (now : UInt64) :
    Call I → Option (State I N)
  | .registerTask id config => some (s.registerTask T id config now).2
  | .deregisterTask id => some (s.deregisterTask id)
  | .feed id => some (s.feed id now)
  | .start => (s.start T refOsc now).map (·.2)
  | .checkTasks => (s.checkTasks T now).map (·.2)

/-- A call at a time; `none`: the clock would go back, or the call panics. -/
def Sys.step (T : Time) (refOsc : UInt32) (s : Sys I N) (x : UInt64 × Call I) : Option (Sys I N) :=
  if s.now ≤ x.1 then (s.state.call T refOsc x.1 x.2).map ({ state := ·, now := x.1 }) else none

/-- The runs from a new table. -/
def watchdog (T : Time) (refOsc : UInt32) (I : Type) [DecidableEq I] (N : Nat) : Lts :=
  .ofStep (fun s : Sys I N => ∃ cop hardwareTimeout checkInterval,
    s.state = .new cop hardwareTimeout checkInterval) (Sys.step T refOsc)

/-! ## The abstract table -/

/-- A registered id. -/
structure Watch where
  /-- The last reset of the count. -/
  reset : Nat
  limit : Nat
  setup : Setup

/-- A watch from now on. The limit is that of `Task::new`, exactly, up to the longest duration. -/
def Watch.new (config : TaskConfig) (now : Nat) : Watch where
  reset := now
  limit := min ((config.retries.toNat + 1) * config.timeout.toNat) durationMax.toNat
  setup := config.setup

/-- The limit now; `none`: not monitored. -/
def Watch.current (w : Watch) : Option Nat :=
  match w.setup with
  | .none => some w.limit
  | .bounded setupTimeout => some setupTimeout.toNat
  | .unbounded => none

/-- The abstract table: a finite map of the tasks that are watched. -/
abbrev Watches (I : Type) := Finmap fun _ : I => Watch

/-- The documented rule of each call, on a table for `N` ids. -/
def Watches.step (N : Nat) (m : Watches I) : UInt64 × Call I → Watches I
  | (now, .registerTask id config) =>
    if id ∈ m ∨ m.keys.card < N then m.insert id (.new config now.toNat) else m
  | (_, .deregisterTask id) => m.erase id
  | (now, .feed id) =>
    match m.lookup id with
    | some w => m.insert id { w with reset := now.toNat, setup := .none }
    | none => m
  | (now, .start) => m.mapValues ({ · with reset := now.toNat })
  | (_, .checkTasks) => m

/-- The table after some calls. -/
def watches (N : Nat) (cs : List (UInt64 × Call I)) : Watches I := cs.foldl (Watches.step N) ∅

/-- What a slot says of its task. -/
def Task.watch (t : Task I) : Watch := ⟨t.lastFeed.toNat, t.limit.toNat, t.setup⟩

/-- No id is in two slots, and the slots hold the table. -/
abbrev State.Holds (s : State I N) (m : Watches I) : Prop :=
  Slots.Represents Task.id Task.watch s.tasks m

/-- The task has gone without a reset for its limit. -/
def Watch.Starved (w : Watch) (now : Nat) : Prop := ∃ limit, w.current = some limit ∧
  limit ≤ now - w.reset

section Refinement

variable {T : Time} {s : State I N} {m : Watches I}

omit [DecidableEq I] in
theorem Task.watch_new (hT : T.Lawful) (id : I) (config : TaskConfig) (now : UInt64) :
    (Task.new T id config now).watch = .new config now.toNat := by
  have hr : (config.retries.toUInt32 + 1).toNat = config.retries.toNat + 1 := by
    rw [UInt32.toNat_add]
    have := config.retries.toNat_lt
    simp
    omega
  have hlimit : (Task.new T id config now).limit.toNat =
      min ((config.retries.toNat + 1) * config.timeout.toNat) durationMax.toNat := by
    simp only [Task.new, hT.checkedMul, hr]
    have hmax : durationMax.toNat = 2 ^ 64 - 1 := rfl
    rw [Nat.mul_comm, hmax]
    split
    · rename_i h
      rw [Option.getD_some, UInt64.toNat_ofNat_of_lt' h]
      omega
    · rw [Option.getD_none, hmax]
      omega
  simp only [Task.watch, Watch.new, hlimit]
  rfl

/-! ### The calls -/

/-- `register_task` fails exactly on a full table without the id, and keeps it. -/
theorem State.Holds.registerTask (h : s.Holds m) (hT : T.Lawful) (id : I) (config : TaskConfig)
    (now : UInt64) :
    (s.registerTask T id config now = (.error (), s) ∧ id ∉ m ∧ m.keys.card = N) ∨
      ((s.registerTask T id config now).1 = .ok () ∧ (id ∈ m ∨ m.keys.card < N) ∧
        (s.registerTask T id config now).2.Holds (m.insert id (.new config now.toNat))) := by
  have hw := Task.watch_new hT id config now
  unfold State.registerTask State.task
  cases hi : Slots.index? Task.id s.tasks id with
  | some i =>
    obtain ⟨a, ha, hid, hl⟩ := h.index?_eq_some hi
    refine .inr ⟨rfl, .inl (Finmap.mem_iff.mpr ⟨_, hl⟩), ?_⟩
    rw [← hw]
    refine h.set (b := Task.new T id config now) ?_ ?_
    · intro b hb
      cases ha.symm.trans hb
      exact hid
    · intro hn
      rw [ha] at hn
      cases hn
  | none =>
    have hmem := h.index?_eq_none.mp hi
    cases hh : Slots.hole? s.tasks with
    | some i =>
      have hn := Slots.of_hole?_eq_some hh
      refine .inr ⟨rfl, .inr ?_, ?_⟩
      · refine lt_of_le_of_ne h.card_le fun e => ?_
        exact h.full_iff.mpr e i hn
      · rw [← hw]
        refine h.set (b := Task.new T id config now) ?_ fun _ => hmem
        intro b hb
        rw [hn] at hb
        cases hb
    | none => exact .inl ⟨rfl, hmem, h.full_iff.mp (Slots.hole?_eq_none_iff.mp hh)⟩

theorem State.Holds.deregisterTask (h : s.Holds m) (id : I) :
    (s.deregisterTask id).Holds (m.erase id) := by
  unfold State.deregisterTask State.task
  cases hi : Slots.index? Task.id s.tasks id with
  | some i =>
    obtain ⟨a, ha, hid, -⟩ := h.index?_eq_some hi
    rw [← hid]
    exact h.clear ha
  | none =>
    rw [Finmap.erase_eq_self (h.index?_eq_none.mp hi)]
    exact h

theorem State.Holds.feed (h : s.Holds m) (id : I) (now : UInt64) :
    (s.feed id now).Holds (Watches.step N m (now, .feed id)) := by
  unfold State.feed State.task
  simp only [Watches.step]
  cases hi : Slots.index? Task.id s.tasks id with
  | some i =>
    obtain ⟨a, ha, hid, hl⟩ := h.index?_eq_some hi
    have hget : s.tasks.get i = some a := ha
    simp only [hl, hget, Option.map_some]
    rw [← hid]
    refine h.set (b := a.feed now) ?_ ?_
    · intro b hb
      cases ha.symm.trans hb
      rfl
    · intro hn
      rw [ha] at hn
      cases hn
  | none =>
    rw [Finmap.lookup_eq_none.mpr (h.index?_eq_none.mp hi)]
    exact h

theorem State.Holds.start (h : s.Holds m) {refOsc : UInt32} {now : UInt64}
    {x : UInt64 × State I N} (hs : s.start T refOsc now = some x) :
    x.2.Holds (Watches.step N m (now, .start)) := by
  simp only [State.start, Option.bind_eq_bind, Option.bind_eq_some_iff] at hs
  obtain ⟨cop, -, hs⟩ := hs
  cases hs
  exact h.map (fun _ => rfl) fun _ => rfl

omit [DecidableEq I] in
/-- The clock has not been before the last reset: no subtraction panics. -/
theorem Task.isStarved_eq (hT : T.Lawful) {a : Task I} {now : UInt64} (ha : a.lastFeed ≤ now) :
    ∃ b, a.isStarved T now = some b ∧ (b = true ↔ a.watch.Starved now.toNat) := by
  have hsub : (now - a.lastFeed).toNat = now.toNat - a.lastFeed.toNat :=
    UInt64.toNat_sub_of_le _ _ ha
  unfold Task.isStarved Watch.Starved Watch.current Task.watch
  cases hs : a.setup with
  | none =>
    simp only [hT.since, if_pos ha, Option.map_some]
    refine ⟨_, rfl, ?_⟩
    simp [UInt64.le_iff_toNat_le, hsub]
  | bounded limit =>
    simp only [hT.since, if_pos ha, Option.map_some]
    refine ⟨_, rfl, ?_⟩
    simp [UInt64.le_iff_toNat_le, hsub]
  | unbounded => exact ⟨false, rfl, by simp⟩

omit [DecidableEq I] in
theorem anyStarved_eq (hT : T.Lawful) {now : UInt64} {l : List (Option (Task I))}
    (hl : ∀ a, some a ∈ l → a.lastFeed ≤ now) :
    ∃ b, anyStarved T now l = some b ∧
      (b = true ↔ ∃ a, some a ∈ l ∧ a.watch.Starved now.toNat) := by
  induction l with
  | nil => exact ⟨false, rfl, by simp⟩
  | cons slot l ih =>
    obtain ⟨b, hb, hiff⟩ := ih fun a ha => hl a (List.mem_cons_of_mem _ ha)
    cases slot with
    | none => exact ⟨b, hb, by rw [hiff]; simp⟩
    | some a =>
      obtain ⟨c, hc, hciff⟩ := Task.isStarved_eq hT (hl a (List.mem_cons_self ..))
      simp only [anyStarved, hc, Option.bind_eq_bind, Option.bind_some]
      cases c with
      | true => exact ⟨true, rfl, by simp [hciff.mp rfl]⟩
      | false =>
        refine ⟨b, hb, ?_⟩
        have hn : ¬ a.watch.Starved now.toNat := fun h => Bool.false_ne_true (hciff.mpr h)
        rw [hiff]
        simp [hn]

/-- `check_tasks` services the COP exactly when no id has starved. -/
theorem State.Holds.checkTasks (h : s.Holds m) (hT : T.Lawful) {now : UInt64}
    (hnow : ∀ id w, m.lookup id = some w → w.reset ≤ now.toNat) :
    ∃ starved, s.checkTasks T now =
        some (starved, if starved then s else { s with cop := s.cop.service }) ∧
      (starved = true ↔ ∃ id w, m.lookup id = some w ∧ w.Starved now.toNat) := by
  have hmem : ∀ a, some a ∈ s.tasks.toList ↔ ∃ i : Fin N, s.tasks[i] = some a := by
    intro a
    rw [Vector.mem_toList_iff, Vector.mem_iff_getElem]
    constructor
    · rintro ⟨i, hi, e⟩
      exact ⟨⟨i, hi⟩, e⟩
    · rintro ⟨i, e⟩
      exact ⟨i, i.isLt, e⟩
  have hlookup : ∀ a, some a ∈ s.tasks.toList → m.lookup a.id = some a.watch := by
    intro a ha
    obtain ⟨i, hi⟩ := (hmem a).mp ha
    exact (h.lookup _ _).mpr ⟨i, a, hi, rfl, rfl⟩
  obtain ⟨b, hb, hiff⟩ := anyStarved_eq hT (l := s.tasks.toList)
    fun a ha => UInt64.le_iff_toNat_le.mpr (hnow _ _ (hlookup a ha))
  refine ⟨b, ?_, hiff.trans ?_⟩
  · unfold State.checkTasks
    rw [hb]
    rfl
  · constructor
    · rintro ⟨a, ha, hs⟩
      exact ⟨_, _, hlookup a ha, hs⟩
    · rintro ⟨id, w, hw, hs⟩
      obtain ⟨i, a, hi, -, rfl⟩ := (h.lookup id w).mp hw
      exact ⟨a, (hmem a).mpr ⟨i, hi⟩, hs⟩

/-! ### The runs -/

/-- Every call keeps the slots on the table, by its rule. -/
theorem State.Holds.call (h : s.Holds m) (hT : T.Lawful)
    {refOsc : UInt32} {now : UInt64} {c : Call I} {s' : State I N}
    (hs : s.call T refOsc now c = some s') : s'.Holds (Watches.step N m (now, c)) := by
  cases c with
  | registerTask id config =>
    cases hs
    rcases h.registerTask hT id config now with ⟨he, hid, hfull⟩ | ⟨-, hc, hh⟩
    · rw [he]
      have hc : ¬ (id ∈ m ∨ m.keys.card < N) := by
        rintro (hc | hc)
        · exact hid hc
        · omega
      simp only [Watches.step, if_neg hc]
      exact h
    · simp only [Watches.step, if_pos hc]
      exact hh
  | deregisterTask id =>
    cases hs
    exact h.deregisterTask id
  | feed id =>
    cases hs
    exact h.feed id now
  | start =>
    obtain ⟨x, hx, rfl⟩ := Option.map_eq_some_iff.mp hs
    exact h.start hx
  | checkTasks =>
    obtain ⟨x, hx, rfl⟩ := Option.map_eq_some_iff.mp hs
    simp only [State.checkTasks, Option.bind_eq_bind, Option.bind_eq_some_iff] at hx
    obtain ⟨starved, -, hx⟩ := hx
    cases hx
    cases starved <;> exact h

/-- No reset of a count is later than the call before. -/
theorem Watches.reset_le {m : Watches I} {now : Nat} {x : UInt64 × Call I} {id : I} {w : Watch}
    (h : ∀ id w, m.lookup id = some w → w.reset ≤ now) (hn : now ≤ x.1.toNat)
    (hw : (Watches.step N m x).lookup id = some w) : w.reset ≤ x.1.toNat := by
  have hold : ∀ id w, m.lookup id = some w → w.reset ≤ x.1.toNat :=
    fun id w hw => (h id w hw).trans hn
  -- A call resets to its own time, and leaves the other ids.
  have hinsert : ∀ (id' : I) (w' : Watch), w'.reset ≤ x.1.toNat →
      (m.insert id' w').lookup id = some w → w.reset ≤ x.1.toNat := by
    intro id' w' hw' hl
    by_cases he : id = id'
    · rw [he, Finmap.lookup_insert] at hl
      cases hl
      exact hw'
    · rw [Finmap.lookup_insert_of_ne _ he] at hl
      exact hold id w hl
  obtain ⟨now', c⟩ := x
  cases c with
  | registerTask id' config =>
    simp only [Watches.step] at hw
    split at hw
    · exact hinsert id' _ (le_refl _) hw
    · exact hold id w hw
  | deregisterTask id' =>
    by_cases he : id = id'
    · rw [he] at hw
      simp only [Watches.step, Finmap.lookup_erase] at hw
      cases hw
    · simp only [Watches.step, Finmap.lookup_erase_ne he] at hw
      exact hold id w hw
  | feed id' =>
    simp only [Watches.step] at hw
    split at hw
    · exact hinsert id' _ (le_refl _) hw
    · exact hold id w hw
  | start =>
    simp only [Watches.step, Finmap.lookup_mapValues, Option.map_eq_some_iff] at hw
    obtain ⟨w', -, rfl⟩ := hw
    exact le_refl _
  | checkTasks => exact hold id w hw

/-- **The table.** Over every run, the slots hold the table of the calls and no id twice, and no
count is reset later than the call before. In every state reached `register_task` fails exactly for
a new id on a full table, and changes nothing; and `check_tasks`, at any time from then on, does not
panic and services the COP exactly when every count that is monitored is below its limit. -/
theorem table_refines {T : Time} (hT : T.Lawful) {refOsc : UInt32} {s₀ s : Sys I N}
    {tr : List (Sys I N × (UInt64 × Call I))}
    (h0 : ∃ cop hardwareTimeout checkInterval, s₀.state = .new cop hardwareTimeout checkInterval)
    (hr : (watchdog T refOsc I N).Run s₀ tr s) :
    let m := watches N (tr.map (·.2))
    s.state.Holds m ∧ (∀ id w, m.lookup id = some w → w.reset ≤ s.now.toNat) ∧
      (∀ id config now,
        ((s.state.registerTask T id config now).1 = .error () ↔ id ∉ m ∧ m.keys.card = N) ∧
        ((s.state.registerTask T id config now).1 = .error () →
          (s.state.registerTask T id config now).2 = s.state)) ∧
      ∀ now, s.now ≤ now → ∃ starved,
        s.state.checkTasks T now = some (starved,
          if starved then s.state else { s.state with cop := s.state.cop.service }) ∧
        (starved = false ↔ ∀ id w limit, m.lookup id = some w → w.current = some limit →
          now.toNat - w.reset < limit) := by
  intro m
  -- Over the run: the slots hold the table of the calls so far.
  have hinv : s.state.Holds m ∧ ∀ id w, m.lookup id = some w → w.reset ≤ s.now.toNat := by
    refine Lts.Run.induct (I := fun (tr : List (Sys I N × (UInt64 × Call I))) (s : Sys I N) =>
      s.state.Holds (watches N (tr.map (·.2))) ∧
        ∀ id w, (watches N (tr.map (·.2))).lookup id = some w → w.reset ≤ s.now.toNat) ?_ ?_ hr
    · obtain ⟨cop, hardwareTimeout, checkInterval, e⟩ := h0
      refine ⟨?_, ?_⟩
      · rw [e]
        exact .empty
      · intro id w hw
        cases hw
    · rintro tr t ⟨now, c⟩ u - ⟨hh, hn⟩ hst
      obtain ⟨hle, hst⟩ := Option.ite_none_right_eq_some.mp hst
      obtain ⟨s', hs', rfl⟩ := Option.map_eq_some_iff.mp hst
      have hm : watches N ((tr ++ [(t, (now, c))]).map (·.2)) =
          Watches.step N (watches N (tr.map (·.2))) (now, c) := by
        simp [watches]
      rw [hm]
      exact ⟨hh.call hT hs', fun id w => Watches.reset_le hn (UInt64.le_iff_toNat_le.mp hle)⟩
  obtain ⟨hh, hn⟩ := hinv
  refine ⟨hh, hn, ?_, ?_⟩
  · intro id config now
    rcases hh.registerTask hT id config now with ⟨he, hid, hfull⟩ | ⟨hok, hc, -⟩
    · rw [he]
      exact ⟨iff_of_true rfl ⟨hid, hfull⟩, fun _ => rfl⟩
    · rw [hok]
      refine ⟨iff_of_false nofun ?_, nofun⟩
      rintro ⟨hid, hfull⟩
      rcases hc with hc | hc
      · exact hid hc
      · omega
  · intro now hle
    obtain ⟨starved, hs, hiff⟩ := hh.checkTasks hT
      fun id w hw => (hn id w hw).trans (UInt64.le_iff_toNat_le.mp hle)
    refine ⟨starved, hs, ?_⟩
    rw [← Bool.not_eq_true, hiff]
    simp only [Watch.Starved, not_exists, not_and, Nat.not_le]
    exact ⟨fun h id w limit hw hl => h id w hw limit hl,
      fun h id w hw limit hl => h id w limit hw hl⟩

end Refinement

/-! ## A concrete run -/

/-- `embassy-time` at 1000 ticks a second. -/
def Time.millis : Time where
  since a b := if b ≤ a then some (a - b) else none
  checkedMul d n :=
    if d.toNat * n.toNat < 2 ^ 64 then some (.ofNat (d.toNat * n.toNat)) else none
  asSecs d := d / 1000
  subsecMillis d := (d % 1000).toUInt32

theorem Time.millis_lawful : Time.millis.Lawful := ⟨fun _ _ => rfl, fun _ _ => rfl⟩

/-- Two tasks are registered, one is fed, and the COP is started and serviced. -/
def Sys.twoTasks : List (Sys Nat 2 × (UInt64 × Call Nat)) × Sys Nat 2 :=
  Lts.exec (Sys.step .millis 24000000) ⟨.new ⟨0, 0⟩ 5000 1000, 0⟩
    [(0, .registerTask 7 ((TaskConfig.new 10).withRetries 2)),
      (3, .registerTask 8 ((TaskConfig.new 10).setupTimeout 50)), (4, .start), (9, .feed 7),
      (20, .checkTasks)]

theorem table_refines_two_tasks : Sys.twoTasks.2.state.cop.services = 3 ∧
    (watches 2 (Sys.twoTasks.1.map (·.2))).keys.card = 2 ∧
    Sys.twoTasks.2.state.Holds (watches 2 (Sys.twoTasks.1.map (·.2))) := by
  have hr : (watchdog .millis 24000000 Nat 2).Run ⟨.new ⟨0, 0⟩ 5000 1000, 0⟩ Sys.twoTasks.1
    Sys.twoTasks.2 := .exec _ _ _ _
  exact ⟨by decide +kernel, by decide +kernel,
    (table_refines Time.millis_lawful ⟨_, _, _, rfl⟩ hr).1⟩

end Mc1322x.TaskWatchdog
