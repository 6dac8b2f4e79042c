import Mc1322x.Hal.I2c

/-!
# A transaction on the wire

What a transaction comes to on the bus, without registers and polls (`Wire.transact`), and what
follows for its history.

* **Framing** (`transact_follows`): the STARTs and the bytes sent are those of `script`, up to the
  first byte that fails.
* **Verdict** (`transact_verdict`): the first byte that fails is the last one, and gives the error.
* **Placement** (`transact_placed`): the bytes received after each START are in the buffers of its
  run, in order.
* **Reads** (`transact_reads`): with a slave that responds, the requested bytes of a run are
  acknowledged, and one more is received behind them.
-/

namespace Mc1322x.I2c

/-- The error that a byte on the wire means. -/
def Event.error : Event → Option Error
  | .address _ _ .nack => some (.noAcknowledge .address)
  | .send _ .nack => some (.noAcknowledge .data)
  | .address _ _ .lost | .send _ .lost | .recv _ _ true => some .arbitrationLost
  | _ => none

/-- What the driver makes of it. -/
def Event.result (event : Event) : Except Error Unit :=
  match event.error with
  | some e => .error e
  | none => .ok ()

namespace Wire

variable (w : Wire)

/-- The START of an operation, if it has one, behind the byte that is still received. -/
def begun (address : UInt8) (prev : Option Bool) (h : List Event) (isRead : Bool) :
    List Event × Except Error Unit :=
  if prev = some isRead then ([], .ok ())
  else
    let tail := if prev = some true then [w.event false h .receive] else []
    let event := w.event false (h ++ tail) (.address prev.isSome (addressByte address isRead))
    (tail ++ [event], event.result)

/-- The bytes of a write are sent, up to the first that fails. -/
def sendAll (h : List Event) : List UInt8 → List Event × Except Error Unit
  | [] => ([], .ok ())
  | byte :: data =>
    let event := w.event false h (.data byte)
    match event.result with
    | .error e => ([event], .error e)
    | .ok () =>
      let (events, result) := sendAll (h ++ [event]) data
      (event :: events, result)

/-- As many bytes as the buffer holds, all acknowledged. -/
def recvAll (h : List Event) : List UInt8 → List Event × List UInt8
  | [] => ([], [])
  | _ :: data =>
    let event := w.event false h .receive
    let (events, data) := recvAll (h ++ [event]) data
    (event :: events, w.data h :: data)

/-- The transfer of an operation. After the last one, the byte that is received behind a buffer is
not acknowledged; behind an empty buffer it completes or not (`late`). -/
def performed (isLast late : Bool) (h : List Event) :
    Operation → List Event × Operation × Except Error Unit
  | .write buf =>
    let (events, result) := w.sendAll h buf
    (events, .write buf, result)
  | .read buf =>
    let (events, data) := w.recvAll h buf
    if !isLast then (events, .read data, .ok ())
    else if buf.isEmpty then
      (if late then [w.event false h .receive] else [], .read data, .ok ())
    else
      let event := w.event true (h ++ events) .receive
      (events ++ [event], .read data, event.result)

/-- One operation: what happens on the bus, the operation with its buffer, and the result. -/
def served (address : UInt8) (isLast late : Bool) (prev : Option Bool) (h : List Event)
    (operation : Operation) : List Event × Operation × Except Error Unit :=
  match w.begun address prev h operation.isRead with
  | (started, .error e) => (started, operation, .error e)
  | (started, .ok ()) =>
    let (events, done, result) := w.performed isLast late (h ++ started) operation
    (started ++ events, done, result)

/-- The operations from one on, up to the STOP. -/
def transact (address : UInt8) (late : Bool) : Option Bool → List Event → List Operation →
    List Event × List Operation × Except Error Unit
  | _, _, [] => ([], [], .ok ())
  | prev, h, operation :: operations =>
    match w.served address operations.isEmpty late prev h operation with
    | (events, done, .error e) => (events, done :: operations, .error e)
    | (events, done, .ok ()) =>
      let (rest, operations, result) :=
        transact address late (some operation.isRead) (h ++ events) operations
      (events ++ rest, done :: operations, result)

end Wire

/-! ## Specification -/

/-- What the master sends. -/
inductive Action where
  | start (repeated : Bool) (byte : UInt8)
  | send (byte : UInt8)
  | stop
  deriving DecidableEq

/-- What the master does for it; `none`: the slave sends. -/
def Event.action : Event → Option Action
  | .address repeated byte _ => some (.start repeated byte)
  | .send byte _ => some (.send byte)
  | .recv _ _ _ => none
  | .stop => some .stop

/-- What the master sends for one operation. -/
def Operation.script (address : UInt8) (prev : Option Bool) (operation : Operation) : List Action :=
  (if prev = some operation.isRead then []
    else [.start prev.isSome (addressByte address operation.isRead)]) ++
  match operation with
  | .read _ => []
  | .write buf => buf.map .send

/-- What the master is to send: a START for the first operation, a repeated START where the type of
the operation changes, and the bytes to write. -/
def script (address : UInt8) : Option Bool → List Operation → List Action
  | _, [] => []
  | prev, operation :: operations =>
    operation.script address prev ++ script address (some operation.isRead) operations

/-- The master has sent the script, or, where it ended with an error, the beginning of it. -/
def Follows (events : List Event) (result : Except Error Unit) (script : List Action) : Prop :=
  events.filterMap Event.action <+: script ∧
    (result = .ok () → events.filterMap Event.action = script)

/-- Without an error no byte has failed; an error is that of the last byte, the first to fail. -/
def Verdict (events : List Event) : Except Error Unit → Prop
  | .ok () => ∀ e ∈ events, e.error = none
  | .error err => ∃ before last, events = before ++ [last] ∧ last.error = some err ∧
      ∀ e ∈ before, e.error = none

/-- A byte received, and whether the master did not acknowledge it. -/
def Event.received : Event → Option (UInt8 × Bool)
  | .recv byte nack _ => some (byte, nack)
  | _ => none

/-- Put `body` in front of the first group, and `pre` before it where it starts there. -/
def extend {α : Type} (joins : Bool) (pre body : List α) (groups : List (List α)) : List (List α) :=
  if joins then (body ++ groups.headD []) :: groups.tail
  else pre :: (body ++ groups.headD []) :: groups.tail

/-- The bytes received before the first START, and after each one. -/
def segments : List Event → List (List (UInt8 × Bool))
  | [] => [[]]
  | .address _ _ _ :: events => [] :: segments events
  | event :: events => extend true [] event.received.toList (segments events)

/-- The operations before the first START, and after each one. -/
def runs : Option Bool → List Operation → List (List Operation)
  | _, [] => [[]]
  | prev, operation :: operations =>
    extend (prev = some operation.isRead) [] [operation]
      (runs (some operation.isRead) operations)

/-- The buffer of a read. -/
def Operation.buffer : Operation → List UInt8
  | .read buf => buf
  | .write _ => []

/-- The buffers of the read operations, one after the other. -/
def buffers (operations : List Operation) : List UInt8 := operations.flatMap Operation.buffer

/-- A buffer with data stored into it from its start on. -/
def stored (buf data : List UInt8) : List UInt8 := data.take buf.length ++ buf.drop data.length

/-- The last operation reads at least one byte. -/
def EndsInRead (operations : List Operation) : Prop :=
  ∃ buf, operations.getLast? = some (.read buf) ∧ buf ≠ []

/-- How the bytes of a run of reads are acknowledged, from the number of bytes requested, and
whether the run is the last one (`nacked`: with a byte requested at its end). The requested bytes
are acknowledged. One more byte is received behind them; at the end of the last run it is the one
that is not acknowledged. -/
def Acknowledged (requested : Nat) (isLast nacked : Prop) (nacks : List Bool) : Prop :=
  nacks.take requested = .replicate requested false ∧
    (¬ isLast → nacks.length = requested + 1) ∧
    (isLast → nacked → nacks = .replicate requested false ++ [true])

/-- What an operation keeps: its type with the length of its buffer, or the bytes to write. -/
def Operation.shape : Operation → Nat ⊕ List UInt8
  | .read buf => .inl buf.length
  | .write buf => .inr buf

/-! ## Verdict -/

theorem Verdict.single (event : Event) : Verdict [event] event.result := by
  unfold Event.result
  cases h : event.error with
  | none => simpa [Verdict] using h
  | some e => exact ⟨[], event, rfl, h, by simp⟩

theorem Verdict.append {before events : List Event} {result : Except Error Unit}
    (hb : Verdict before (.ok ())) (h : Verdict events result) :
    Verdict (before ++ events) result := by
  cases result with
  | ok _ =>
    intro e he
    rcases List.mem_append.mp he with he | he
    · exact hb e he
    · exact h e he
  | error err =>
    obtain ⟨before', last, rfl, hlast, hbefore⟩ := h
    refine ⟨before ++ before', last, by rw [List.append_assoc], hlast, ?_⟩
    intro e he
    rcases List.mem_append.mp he with he | he
    · exact hb e he
    · exact hbefore e he

section

variable (w : Wire) (address : UInt8) (prev : Option Bool) (isLast late isRead : Bool)

theorem begun_verdict (h : List Event) :
    Verdict (w.begun address prev h isRead).1 (w.begun address prev h isRead).2 := by
  unfold Wire.begun
  split
  · simp [Verdict]
  · refine Verdict.append ?_ (Verdict.single _)
    split <;> simp [Verdict, Wire.event, Event.error]

theorem sendAll_verdict (h : List Event) (data : List UInt8) :
    Verdict (w.sendAll h data).1 (w.sendAll h data).2 := by
  induction data generalizing h with
  | nil => simp [Wire.sendAll, Verdict]
  | cons byte data ih =>
    have hs := Verdict.single (w.event false h (.data byte))
    unfold Wire.sendAll
    simp only
    split
    · rename_i e he
      rwa [he] at hs
    · rename_i he
      rw [he] at hs
      exact Verdict.append hs (ih _)

theorem recvAll_verdict (h : List Event) (buf : List UInt8) :
    Verdict (w.recvAll h buf).1 (.ok ()) := by
  induction buf generalizing h with
  | nil => simp [Wire.recvAll, Verdict]
  | cons byte buf ih =>
    have hb : Verdict [w.event false h .receive] (.ok ()) := by
      simp [Verdict, Wire.event, Event.error]
    exact hb.append (ih _)

theorem performed_verdict (h : List Event) (operation : Operation) :
    Verdict (w.performed isLast late h operation).1
      (w.performed isLast late h operation).2.2 := by
  cases operation with
  | write buf => exact sendAll_verdict w h buf
  | read buf =>
    unfold Wire.performed
    simp only
    split
    · exact recvAll_verdict w h buf
    · split
      · cases late <;> simp [Verdict, Wire.event, Event.error]
      · exact (recvAll_verdict w h buf).append (Verdict.single _)

theorem served_verdict (h : List Event) (operation : Operation) :
    Verdict (w.served address isLast late prev h operation).1
      (w.served address isLast late prev h operation).2.2 := by
  have hb := begun_verdict w address prev operation.isRead h
  unfold Wire.served
  split
  · rename_i he
    rwa [he] at hb
  · rename_i he
    rw [he] at hb
    exact hb.append (performed_verdict w isLast late _ operation)

/-- The first byte that fails is the last one, and gives the error. -/
theorem transact_verdict (h : List Event) (operations : List Operation) :
    Verdict (w.transact address late prev h operations).1
      (w.transact address late prev h operations).2.2 := by
  induction operations generalizing prev h with
  | nil => simp [Wire.transact, Verdict]
  | cons operation operations ih =>
    have hs := served_verdict w address prev operations.isEmpty late h operation
    unfold Wire.transact
    split
    · rename_i he
      rwa [he] at hs
    · rename_i he
      rw [he] at hs
      exact hs.append (ih _ _)

/-! ## Framing -/

theorem Follows.of_eq {events : List Event} {result : Except Error Unit} {script : List Action}
    (h : events.filterMap Event.action = script) : Follows events result script :=
  ⟨h ▸ List.prefix_refl _, fun _ => h⟩

theorem Follows.append {before events : List Event} {result : Except Error Unit}
    {first rest : List Action} (hb : Follows before (.ok ()) first)
    (h : Follows events result rest) :
    Follows (before ++ events) result (first ++ rest) := by
  unfold Follows
  rw [List.filterMap_append, hb.2 rfl, List.prefix_append_right_inj]
  exact ⟨h.1, fun hr => by rw [h.2 hr]⟩

/-- After an error nothing more is sent. -/
theorem Follows.error {events : List Event} {e : Error} {first : List Action} (rest : List Action)
    (h : Follows events (.error e) first) : Follows events (.error e) (first ++ rest) :=
  ⟨h.1.trans (List.prefix_append _ _), nofun⟩

theorem begun_follows (h : List Event) :
    Follows (w.begun address prev h isRead).1 (w.begun address prev h isRead).2
      (if prev = some isRead then [] else [.start prev.isSome (addressByte address isRead)]) := by
  unfold Wire.begun
  split
  · exact .of_eq rfl
  · refine .of_eq ?_
    split <;> rfl

theorem sendAll_follows (h : List Event) (data : List UInt8) :
    Follows (w.sendAll h data).1 (w.sendAll h data).2 (data.map .send) := by
  induction data generalizing h with
  | nil => exact .of_eq rfl
  | cons byte data ih =>
    unfold Wire.sendAll
    simp only
    split
    · rename_i e _
      have hb : Follows [w.event false h (.data byte)] (.error e) [.send byte] := .of_eq rfl
      exact hb.error _
    · have hb : Follows [w.event false h (.data byte)] (.ok ()) [.send byte] := .of_eq rfl
      exact hb.append (ih _)

theorem recvAll_action (h : List Event) (buf : List UInt8) :
    (w.recvAll h buf).1.filterMap Event.action = [] := by
  induction buf generalizing h with
  | nil => rfl
  | cons byte buf ih => exact ih _

theorem performed_follows (h : List Event) (operation : Operation) :
    Follows (w.performed isLast late h operation).1 (w.performed isLast late h operation).2.2
      (match operation with
        | .read _ => []
        | .write buf => buf.map .send) := by
  cases operation with
  | write buf => exact sendAll_follows w h buf
  | read buf =>
    have hr := recvAll_action w h buf
    unfold Wire.performed
    simp only
    split
    · exact .of_eq hr
    · split
      · cases late <;> exact .of_eq rfl
      · refine .of_eq ?_
        rw [List.filterMap_append, hr]
        rfl

theorem served_follows (h : List Event) (operation : Operation) :
    Follows (w.served address isLast late prev h operation).1
      (w.served address isLast late prev h operation).2.2 (operation.script address prev) := by
  have hb := begun_follows w address prev operation.isRead h
  unfold Wire.served Operation.script
  split
  · rename_i he
    rw [he] at hb
    exact hb.error _
  · rename_i he
    rw [he] at hb
    exact hb.append (performed_follows w isLast late _ operation)

/-- The STARTs and the bytes sent are those of the script, up to the first byte that fails. -/
theorem transact_follows (h : List Event) (operations : List Operation) :
    Follows (w.transact address late prev h operations).1
      (w.transact address late prev h operations).2.2 (script address prev operations) := by
  induction operations generalizing prev h with
  | nil => exact .of_eq rfl
  | cons operation operations ih =>
    have hs := served_follows w address prev operations.isEmpty late h operation
    unfold Wire.transact script
    split
    · rename_i he
      rw [he] at hs
      exact hs.error _
    · rename_i he
      rw [he] at hs
      exact hs.append (ih _ _)

theorem stop_not_mem_script (operations : List Operation) :
    Action.stop ∉ script address prev operations := by
  induction operations generalizing prev with
  | nil => simp [script]
  | cons operation operations ih =>
    have hop : Action.stop ∉ operation.script address prev := by
      unfold Operation.script
      cases operation <;> split <;> simp
    rw [script, List.mem_append]
    rintro (h | h)
    · exact hop h
    · exact ih _ h

/-- The STOP is still to come. -/
theorem transact_stop (h : List Event) (operations : List Operation) :
    Event.stop ∉ (w.transact address late prev h operations).1 := by
  intro hm
  have hs := (transact_follows w address prev late h operations).1
  have hscript := hs.subset (List.mem_filterMap.mpr ⟨_, hm, rfl⟩)
  exact stop_not_mem_script address prev operations hscript

/-! ## Placement -/

section Groups

variable {α : Type}

theorem extend_getD_zero (pre body : List α) (groups : List (List α)) :
    (extend true pre body groups).getD 0 [] = body ++ groups.getD 0 [] := by
  cases groups <;> rfl

theorem extend_getD_succ (pre body : List α) (groups : List (List α)) (i : Nat) :
    (extend true pre body groups).getD (i + 1) [] = groups.getD (i + 1) [] := by
  cases groups <;> rfl

theorem extend_false (pre body : List α) (groups : List (List α)) :
    extend false pre body groups = pre :: extend true pre body groups := rfl

end Groups

theorem segments_ne_nil (events : List Event) : segments events ≠ [] := by
  cases events with
  | nil => nofun
  | cons event events => cases event <;> nofun

/-- Events without a START extend the first segment. -/
theorem segments_append {events : List Event} (hp : ∀ r b x, Event.address r b x ∉ events)
    (pre : List (UInt8 × Bool)) (rest : List Event) :
    segments (events ++ rest) =
      extend true pre (events.filterMap Event.received) (segments rest) := by
  induction events with
  | nil =>
    show segments rest = (segments rest).headD [] :: (segments rest).tail
    cases hs : segments rest with
    | nil => exact (segments_ne_nil rest hs).elim
    | cons _ _ => rfl
  | cons event events ih =>
    have ih := ih fun r b x h => hp r b x (List.mem_cons_of_mem _ h)
    cases event with
    | address r b x => exact (hp r b x List.mem_cons_self).elim
    | _ =>
      simp only [List.cons_append, segments, ih, extend, ↓reduceIte]
      rfl

theorem sendAll_received (h : List Event) (data : List UInt8) :
    (w.sendAll h data).1.filterMap Event.received = [] := by
  induction data generalizing h with
  | nil => rfl
  | cons byte data ih =>
    unfold Wire.sendAll
    simp only
    split
    · rfl
    · exact ih _

theorem recvAll_received (h : List Event) (buf : List UInt8) :
    (w.recvAll h buf).1.filterMap Event.received = (w.recvAll h buf).2.map (·, false) ∧
      (w.recvAll h buf).2.length = buf.length := by
  induction buf generalizing h with
  | nil => exact ⟨rfl, rfl⟩
  | cons byte buf ih =>
    obtain ⟨hr, hl⟩ := ih (h ++ [w.event false h .receive])
    exact ⟨congrArg ((w.data h, false) :: ·) hr, congrArg (· + 1) hl⟩

/-- The bytes behind those that go into the buffer. -/
def IsTail (isLast : Bool) (operation : Operation) (tail : List (UInt8 × Bool)) : Prop :=
  (isLast = false → tail = []) ∧
    (isLast = true → operation.buffer ≠ [] → ∃ byte, tail = [(byte, true)])

theorem performed_received (h : List Event) (operation : Operation) :
    ∃ tail, IsTail isLast operation tail ∧
      (w.performed isLast late h operation).1.filterMap Event.received =
        (w.performed isLast late h operation).2.1.buffer.map (·, false) ++ tail ∧
      (w.performed isLast late h operation).2.1.shape = operation.shape := by
  cases operation with
  | write buf =>
    refine ⟨[], ⟨fun _ => rfl, fun _ hb => (hb rfl).elim⟩, ?_, rfl⟩
    exact sendAll_received w h buf
  | read buf =>
    obtain ⟨hr, hl⟩ := recvAll_received w h buf
    have hs : (Operation.read (w.recvAll h buf).2).shape = (Operation.read buf).shape := by
      simp only [Operation.shape, hl]
    unfold Wire.performed
    simp only
    split
    · rename_i hlast
      simp only [Bool.not_eq_eq_eq_not, Bool.not_true] at hlast
      refine ⟨[], ⟨fun _ => rfl, fun h => ?_⟩, by simpa [Operation.buffer] using hr, hs⟩
      rw [hlast] at h
      cases h
    · rename_i hlast
      simp only [Bool.not_eq_eq_eq_not, Bool.not_true, Bool.not_eq_false] at hlast
      split
      · rename_i hb
        have hb : buf = [] := List.isEmpty_iff.mp hb
        -- A last read with an empty buffer: the byte on the wire is received only if it is late.
        refine ⟨(if late then [w.event false h .receive] else []).filterMap Event.received,
          ⟨fun h => ?_, fun _ hne => (hne hb).elim⟩, ?_, hs⟩
        · rw [hlast] at h
          cases h
        · rw [hb]
          rfl
      · refine ⟨[(w.data (h ++ (w.recvAll h buf).1), true)], ⟨fun h => ?_, fun _ _ => ⟨_, rfl⟩⟩, ?_,
          hs⟩
        · rw [hlast] at h
          cases h
        · rw [List.filterMap_append, hr]
          rfl

theorem performed_plain (h : List Event) (operation : Operation) (r : Bool) (b : UInt8)
    (x : Reply) : Event.address r b x ∉ (w.performed isLast late h operation).1 := by
  intro hm
  have hf := (performed_follows w isLast late h operation).1.subset
    (List.mem_filterMap.mpr ⟨_, hm, rfl⟩)
  cases operation with
  | read buf => cases hf
  | write buf => simp at hf

/-- The byte that is still received belongs to the run before. -/
theorem begun_segments (hj : prev ≠ some isRead) (h rest : List Event) :
    segments ((w.begun address prev h isRead).1 ++ rest) =
      (if prev = some true then [(w.data h, false)] else []) :: segments rest := by
  unfold Wire.begun
  rw [if_neg hj]
  by_cases hp : prev = some true
  · simp only [hp, ↓reduceIte]
    rfl
  · simp only [hp, ↓reduceIte]
    rfl

theorem extend_true_nil (pre : List (UInt8 × Bool)) (events : List Event) :
    extend true pre [] (segments events) = segments events := by
  have hs : segments ([] ++ events) = _ :=
    segments_append (fun _ _ _ => List.not_mem_nil) pre events
  exact hs.symm

/-- How an operation shows in the segments: the bytes for its buffer, unless its START failed, with
the tail behind them. -/
theorem served_received (h : List Event) (operation : Operation) :
    ∃ body,
      (∀ rest, segments ((w.served address isLast late prev h operation).1 ++ rest) =
        extend (prev = some operation.isRead) (if prev = some true then [(w.data h, false)] else [])
          body (segments rest)) ∧
      (w.served address isLast late prev h operation).2.1.shape = operation.shape ∧
      ((w.served address isLast late prev h operation).2.2 ≠ .ok () ∧ body = [] ∧
          (w.served address isLast late prev h operation).2.1 = operation ∨
        ∃ tail, IsTail isLast operation tail ∧
          body = (w.served address isLast late prev h operation).2.1.buffer.map (·, false) ++
            tail) := by
  have hseg := begun_segments w address prev operation.isRead
  cases hb : w.begun address prev h operation.isRead with
  | mk started result =>
    obtain ⟨tail, ht, hr, hs⟩ := performed_received w isLast late (h ++ started)
      operation
    have hplain := performed_plain w isLast late (h ++ started) operation
    cases result with
    | error e =>
      have hj : prev ≠ some operation.isRead := by
        intro hj
        rw [Wire.begun, if_pos hj] at hb
        cases hb
      simp only [Wire.served, hb]
      refine ⟨[], fun rest => ?_, trivial, .inl ⟨nofun, rfl, trivial⟩⟩
      have hseg := hseg hj h rest
      rw [hb] at hseg
      rw [hseg, decide_eq_false hj, extend_false, extend_true_nil]
    | ok _ =>
      simp only [Wire.served, hb]
      refine ⟨_, fun rest => ?_, hs, .inr ⟨tail, ht, hr⟩⟩
      rw [List.append_assoc]
      by_cases hj : prev = some operation.isRead
      · rw [Wire.begun, if_pos hj] at hb
        cases hb
        rw [decide_eq_true hj]
        exact segments_append hplain _ rest
      · have hseg := hseg hj h
        rw [hb] at hseg
        rw [hseg, segments_append hplain [] rest, decide_eq_false hj]
        rfl

/-- The bytes received are in the buffers: those after each START in the buffers of its run, one
after the other. -/
def Placed (prev : Option Bool) (operations done : List Operation) (events : List Event) : Prop :=
  ∀ i, buffers ((runs prev done).getD i []) =
    stored (buffers ((runs prev operations).getD i [])) (((segments events).getD i []).map Prod.fst)

theorem stored_nil (buf : List UInt8) : stored buf [] = buf := by
  simp [stored]

theorem stored_append {buf data : List UInt8} (h : data.length = buf.length)
    (buf' data' : List UInt8) :
    stored (buf ++ buf') (data ++ data') = data ++ stored buf' data' := by
  simp [stored, ← h, List.take_append, List.drop_append, List.take_of_length_le,
    List.drop_of_length_le]

theorem Operation.isRead_of_shape {a b : Operation} (h : a.shape = b.shape) :
    a.isRead = b.isRead ∧ a.buffer.length = b.buffer.length := by
  cases a <;> cases b <;> simp_all [Operation.shape, Operation.isRead, Operation.buffer]

theorem Placed.extend {prev : Option Bool} {operation done : Operation}
    {operations rest : List Operation} {events tail : List Event} {pre body : List (UInt8 × Bool)}
    (hs : segments events = I2c.extend (prev = some operation.isRead) pre body (segments tail))
    (hshape : done.shape = operation.shape)
    (h : Placed (some operation.isRead) operations rest tail)
    (hfit : ∀ buf data, buf = buffers ((runs (some operation.isRead) operations).getD 0 []) →
      data = ((segments tail).getD 0 []).map Prod.fst →
      stored (operation.buffer ++ buf) (body.map Prod.fst ++ data) =
        done.buffer ++ stored buf data) :
    Placed prev (operation :: operations) (done :: rest) events := by
  have hread := (Operation.isRead_of_shape hshape).1
  have hhead := hfit _ _ rfl rfl
  rw [← h 0] at hhead
  intro i
  simp only [runs, hs, hread]
  -- The operation continues the run before it, or its START opens one.
  cases hj : decide (prev = some operation.isRead) with
  | true =>
    cases i with
    | zero =>
      simp only [extend_getD_zero, List.map_append]
      exact hhead.symm
    | succ i =>
      simp only [extend_getD_succ]
      exact h (i + 1)
  | false =>
    simp only [extend_false]
    cases i with
    | zero => simp [buffers, stored]
    | succ i =>
      simp only [List.getD_cons_succ]
      cases i with
      | zero =>
        simp only [extend_getD_zero, List.map_append]
        exact hhead.symm
      | succ i =>
        simp only [extend_getD_succ]
        exact h (i + 1)

theorem Placed.none (prev : Option Bool) (operations : List Operation) :
    Placed prev operations operations [] := by
  intro i
  cases i with
  | zero => exact (stored_nil _).symm
  | succ i => exact (stored_nil _).symm

/-- The bytes for an operation fill its buffer; only the last operation has a tail. -/
theorem stored_body {operation done : Operation} {isLast : Bool} {buf data : List UInt8}
    {tail : List (UInt8 × Bool)} (hlen : done.buffer.length = operation.buffer.length)
    (ht : IsTail isLast operation tail) (hlast : isLast = true → buf = [] ∧ data = []) :
    stored (operation.buffer ++ buf) ((done.buffer.map (·, false) ++ tail).map Prod.fst ++ data) =
      done.buffer ++ stored buf data := by
  have hfst : (done.buffer.map (·, false)).map Prod.fst = done.buffer := by
    rw [List.map_map]
    exact List.map_id _
  rw [List.map_append, hfst]
  cases isLast with
  | false =>
    rw [ht.1 rfl, List.map_nil, List.append_nil]
    exact stored_append hlen buf data
  | true =>
    obtain ⟨rfl, rfl⟩ := hlast rfl
    simp [stored, ← hlen]

/-- The bytes received after each START are in the buffers of its run, in order. -/
theorem transact_placed (h : List Event) (operations : List Operation) :
    Placed prev operations (w.transact address late prev h operations).2.1
      (w.transact address late prev h operations).1 := by
  induction operations generalizing prev h with
  | nil => exact Placed.none prev []
  | cons operation operations ih =>
    obtain ⟨body, hseg, hshape, hbody⟩ := served_received w address prev operations.isEmpty late
      h operation
    have hlen := (Operation.isRead_of_shape hshape).2
    have hlast : operations.isEmpty = true →
        buffers ((runs (some operation.isRead) operations).getD 0 []) = [] := by
      intro he
      rw [List.isEmpty_iff.mp he]
      rfl
    unfold Wire.transact
    -- With an error nothing follows; else the rest is placed behind what is stored here.
    split
    · rename_i events done e he
      rw [he] at hseg hshape hbody hlen
      have hseg := hseg []
      rw [List.append_nil] at hseg
      refine Placed.extend hseg hshape (Placed.none _ operations) ?_
      rintro buf data rfl rfl
      obtain ⟨-, rfl, rfl⟩ | ⟨tail, ht, rfl⟩ := hbody
      · simp only [segments, List.getD_cons_zero, List.map_nil, List.append_nil, stored_nil]
      · exact stored_body hlen ht fun he => ⟨hlast he, rfl⟩
    · rename_i events done he
      rw [he] at hseg hshape hbody hlen
      refine Placed.extend (hseg _) hshape (ih _ _) ?_
      rintro buf data rfl rfl
      obtain ⟨hne, -⟩ | ⟨tail, ht, rfl⟩ := hbody
      · exact (hne rfl).elim
      · refine stored_body hlen ht fun he => ⟨hlast he, ?_⟩
        rw [List.isEmpty_iff.mp he]
        rfl

theorem transact_shape (h : List Event) (operations : List Operation) :
    (w.transact address late prev h operations).2.1.map Operation.shape =
      operations.map Operation.shape := by
  induction operations generalizing prev h with
  | nil => rfl
  | cons operation operations ih =>
    obtain ⟨-, -, hshape, -⟩ := served_received w address prev operations.isEmpty late
      h operation
    unfold Wire.transact
    split
    · rename_i he
      rw [he] at hshape
      rw [List.map_cons, List.map_cons, hshape]
    · rename_i he
      rw [he] at hshape
      rw [List.map_cons, List.map_cons, hshape, ih]

/-! ## The end of a read -/

/-- A slave that acknowledges every byte, on a bus without other masters. -/
def Wire.Responsive (w : Wire) : Prop :=
  (∀ h byte, w.reply h byte = .ack) ∧ ∀ h, w.nackLost h = false

theorem Wire.Responsive.result {w : Wire} (hw : w.Responsive) (txak : Bool) (h : List Event)
    (x : Transfer) : (w.event txak h x).result = .ok () := by
  cases x <;> simp [Wire.event, Event.result, Event.error, hw.1, hw.2]

theorem Wire.Responsive.sendAll {w : Wire} (hw : w.Responsive) (h : List Event)
    (data : List UInt8) : (w.sendAll h data).2 = .ok () := by
  induction data generalizing h with
  | nil => rfl
  | cons byte data ih =>
    unfold Wire.sendAll
    simp only [hw.result]
    exact ih _

theorem Wire.Responsive.served {w : Wire} (hw : w.Responsive) (h : List Event)
    (operation : Operation) :
    (w.served address isLast late prev h operation).2.2 = .ok () := by
  have hb : (w.begun address prev h operation.isRead).2 = .ok () := by
    unfold Wire.begun
    split
    · rfl
    · exact hw.result ..
  have hp : ∀ h, (w.performed isLast late h operation).2.2 = .ok () := by
    intro h
    cases operation with
    | write buf => exact hw.sendAll h buf
    | read buf =>
      unfold Wire.performed
      simp only
      split
      · rfl
      · split
        · rfl
        · exact hw.result ..
  unfold Wire.served
  split
  · rename_i he
    rw [he] at hb
    cases hb
  · exact hp _

theorem Acknowledged.imp {n : Nat} {isLast isLast' nacked nacked' : Prop} {nacks : List Bool}
    (h : Acknowledged n isLast nacked nacks) (hl : isLast ↔ isLast') (hn : nacked' → nacked) :
    Acknowledged n isLast' nacked' nacks :=
  ⟨h.1, fun h' => h.2.1 fun h'' => h' (hl.mp h''), fun h' h'' => h.2.2 (hl.mpr h') (hn h'')⟩

theorem Acknowledged.prepend {m n : Nat} {isLast nacked : Prop} {nacks : List Bool}
    (h : Acknowledged n isLast nacked nacks) :
    Acknowledged (m + n) isLast nacked (.replicate m false ++ nacks) := by
  obtain ⟨htake, hlen, hlast⟩ := h
  refine ⟨?_, fun hl => ?_, fun hl hn => ?_⟩
  · rw [List.take_append, List.length_replicate, Nat.add_sub_cancel_left, htake,
      List.take_of_length_le (by simp), List.replicate_append_replicate]
  · rw [List.length_append, List.length_replicate, hlen hl]
    omega
  · rw [hlast hl hn, ← List.append_assoc, List.replicate_append_replicate]

/-- The run that goes on from `prev` (`i = 0`), or a later one, is of reads. -/
def Reading (prev : Option Bool) (operations : List Operation) (i : Nat) : Prop :=
  i = 0 ∧ prev = some true ∨
    ((runs prev operations).getD i []).head?.map Operation.isRead = some true

theorem runs_ne_nil (operations : List Operation) : runs prev operations ≠ [] := by
  cases operations with
  | nil => nofun
  | cons operation operations =>
    unfold runs extend
    split <;> nofun

theorem extend_true_length {α : Type} (pre body : List α) {groups : List (List α)}
    (h : groups ≠ []) : (extend true pre body groups).length = groups.length := by
  cases groups with
  | nil => exact (h rfl).elim
  | cons _ _ => rfl

theorem map_snd_body (done : Operation) (tail : List (UInt8 × Bool)) :
    (done.buffer.map (·, false) ++ tail).map Prod.snd =
      .replicate done.buffer.length false ++ tail.map Prod.snd := by
  rw [List.map_append, List.map_map]
  exact congrArg (· ++ _) List.map_const'

/-- A read at the end of the list. -/
theorem acknowledged_last {buf : List UInt8} {tail : List (UInt8 × Bool)}
    (ht : IsTail true (.read buf) tail) (m : Nat) :
    Acknowledged m True (EndsInRead [.read buf]) (.replicate m false ++ tail.map Prod.snd) := by
  refine ⟨?_, fun hl => (hl trivial).elim, ?_⟩
  · rw [List.take_append, List.length_replicate, Nat.sub_self, List.take_zero, List.append_nil,
      List.take_of_length_le (by simp)]
  · rintro - ⟨buf', hlast, hne⟩
    cases hlast
    obtain ⟨byte, rfl⟩ := ht.2 rfl hne
    rfl

/-- A read in front of the rest of its run. -/
theorem acknowledged_cons {operation done : Operation} {operations : List Operation}
    {tail next : List (UInt8 × Bool)} (hread : operation.isRead = true)
    (hlen : done.buffer.length = operation.buffer.length)
    (ht : IsTail operations.isEmpty operation tail) (hnil : operations = [] → next = [])
    (hrest : Acknowledged (buffers ((runs (some true) operations).getD 0 [])).length
      (0 + 1 = (runs (some true) operations).length) (EndsInRead operations)
      (next.map Prod.snd)) :
    Acknowledged (buffers (operation :: (runs (some true) operations).getD 0 [])).length
      (0 + 1 = (runs (some true) operations).length) (EndsInRead (operation :: operations))
      ((done.buffer.map (·, false) ++ tail ++ next).map Prod.snd) := by
  have hn : (buffers (operation :: (runs (some true) operations).getD 0 [])).length =
      done.buffer.length + (buffers ((runs (some true) operations).getD 0 [])).length := by
    rw [buffers, List.flatMap_cons, List.length_append, hlen, buffers]
  rw [hn, List.map_append, map_snd_body]
  cases operations with
  | nil =>
    rw [hnil rfl, List.map_nil, List.append_nil]
    cases operation with
    | write buf => cases hread
    | read buf =>
      have hlast := acknowledged_last ht done.buffer.length
      exact ⟨hlast.1, fun hl => (hl rfl).elim, fun _ => hlast.2.2 trivial⟩
  | cons second operations =>
    -- A read that is not the last has no byte behind its buffer.
    rw [ht.1 rfl, List.map_nil, List.append_nil]
    have hends : EndsInRead (operation :: second :: operations) =
        EndsInRead (second :: operations) := by
      unfold EndsInRead
      rw [List.getLast?_cons_cons]
    rw [hends]
    exact hrest.prepend

/-- A run behind the first one is made of the operations behind the first one. -/
theorem EndsInRead.of_later {isRead : Bool} {operation : Operation} {operations : List Operation}
    {i : Nat} (hi : Reading (some isRead) operations (i + 1))
    (h : EndsInRead (operation :: operations)) : EndsInRead operations := by
  obtain ⟨buf, hl, hb⟩ := h
  cases operations with
  | nil =>
    obtain ⟨hz, -⟩ | hp := hi
    · cases hz
    · cases i <;> cases hp
  | cons second operations => exact ⟨buf, by rw [← hl, List.getLast?_cons_cons], hb⟩

/-- Every run of reads is acknowledged. -/
def Acks (prev : Option Bool) (operations : List Operation)
    (segments : List (List (UInt8 × Bool))) : Prop :=
  ∀ i, Reading prev operations i →
    Acknowledged (buffers ((runs prev operations).getD i [])).length
      (i + 1 = (runs prev operations).length) (EndsInRead operations)
      ((segments.getD i []).map Prod.snd)

/-- One operation more: `pre` is the byte that was still received before its START. -/
theorem Acks.extend {prev : Option Bool} {operation done : Operation}
    {operations : List Operation} {groups : List (List (UInt8 × Bool))} {byte : UInt8}
    {tail : List (UInt8 × Bool)} (hlen : done.buffer.length = operation.buffer.length)
    (ht : IsTail operations.isEmpty operation tail)
    (hnil : operations = [] → groups.getD 0 [] = [])
    (h : Acks (some operation.isRead) operations groups) :
    Acks prev (operation :: operations) (I2c.extend (prev = some operation.isRead)
      (if prev = some true then [(byte, false)] else [])
      (done.buffer.map (·, false) ++ tail) groups) := by
  have hne := extend_true_length [] [operation] (runs_ne_nil (some operation.isRead) operations)
  have hpos := List.length_pos_iff.mpr (runs_ne_nil (some operation.isRead) operations)
  -- The run that the operation belongs to, from the operation on.
  have hrun : operation.isRead = true →
      Acknowledged
        (buffers ([operation] ++ (runs (some operation.isRead) operations).getD 0 [])).length
        (0 + 1 = (runs (some operation.isRead) operations).length)
        (EndsInRead (operation :: operations))
        ((done.buffer.map (·, false) ++ tail ++ groups.getD 0 []).map Prod.snd) := by
    intro hread
    rw [hread] at h ⊢
    exact acknowledged_cons hread hlen ht hnil (h 0 (.inl ⟨rfl, rfl⟩))
  intro i hi
  simp only [runs]
  rw [Reading, runs] at hi
  by_cases hj : prev = some operation.isRead
  · rw [decide_eq_true hj] at hi ⊢
    rw [hne]
    cases i with
    | zero =>
      simp only [extend_getD_zero] at hi ⊢
      refine hrun ?_
      obtain ⟨-, hp⟩ | hp := hi
      · rw [hj] at hp
        exact Option.some.inj hp
      · exact Option.some.inj hp
    | succ i =>
      simp only [extend_getD_succ] at hi ⊢
      have hi' : Reading (some operation.isRead) operations (i + 1) := by
        obtain ⟨hz, -⟩ | hp := hi
        · cases hz
        · exact .inr hp
      exact (h (i + 1) hi').imp .rfl (EndsInRead.of_later hi')
  · rw [decide_eq_false hj, extend_false] at hi ⊢
    rw [extend_false, List.length_cons, hne]
    cases i with
    | zero =>
      obtain ⟨-, rfl⟩ | hp := hi
      · exact ⟨rfl, fun _ => rfl, fun hl => absurd hl (by omega)⟩
      · cases hp
    | succ i =>
      obtain ⟨hz, -⟩ | hp := hi
      · cases hz
      rw [List.getD_cons_succ] at hp
      simp only [List.getD_cons_succ]
      cases i with
      | zero =>
        simp only [extend_getD_zero] at hp ⊢
        exact (hrun (Option.some.inj hp)).imp (by omega) id
      | succ i =>
        simp only [extend_getD_succ] at hp ⊢
        exact (h (i + 1) (.inr hp)).imp (by omega) (EndsInRead.of_later (.inr hp))

/-- With a slave that responds, the requested bytes of a run are acknowledged, and one more is
received behind them. -/
theorem transact_reads {w : Wire} (hw : w.Responsive) (h : List Event)
    (operations : List Operation) :
    Acks prev operations (segments (w.transact address late prev h operations).1) := by
  induction operations generalizing prev h with
  | nil =>
    rintro i (⟨rfl, -⟩ | hi)
    · exact ⟨rfl, fun hl => (hl rfl).elim, fun _ ⟨_, hlast, _⟩ => nomatch hlast⟩
    · cases i <;> cases hi
  | cons operation operations ih =>
    -- A slave that responds lets no operation fail.
    have hok := hw.served address prev operations.isEmpty late h operation
    obtain ⟨body, hseg, hshape, hbody⟩ := served_received w address prev operations.isEmpty late
      h operation
    obtain ⟨hne, -⟩ | ⟨tail, ht, rfl⟩ := hbody
    · exact (hne hok).elim
    have hlen := (Operation.isRead_of_shape hshape).2
    cases hs : w.served address operations.isEmpty late prev h operation with
    | mk events rest =>
    obtain ⟨done, result⟩ := rest
    rw [hs] at hok hseg hlen
    cases hok
    simp only [Wire.transact, hs, hseg]
    refine Acks.extend hlen ht ?_ (ih _ _)
    rintro rfl
    rfl

end

end Mc1322x.I2c
