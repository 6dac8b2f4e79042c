import Mc1322x.Ssl.Link

/-!
# Frames

The frames that loader and host send are those that the other one reads. `encode` is a frame, as
both sides write it; `readFrame_runs` and `Host.readFrame_runs` are how either side reads one, after
anything without `SOF`.
-/

namespace Mc1322x.Ssl

open Proc Bytes

/-- A frame. -/
def encode (command : List UInt8) : List UInt8 :=
  [sof] ++ le 2 command.length ++ command ++ [sum command]

/-! ## The loader -/

namespace Loader

section Read

variable {S : Sig} {σ : Type} {uart : Uart S} {h : Handler S σ} {stream : σ → List UInt8}
  {Kept : σ → σ → Prop} {s : σ}

theorem fill_runs (H : uart.Reads h stream Kept) (len : Nat) (buf : List UInt8)
    (hlen : len - buf.length ≤ (stream s).length) :
    ∃ t, Runs h (fill uart len buf) s (buf ++ (stream s).take (len - buf.length)) t ∧
      stream t = (stream s).drop (len - buf.length) ∧ Kept s t := by
  -- Each read makes the rest of the buffer smaller.
  induction hd : len - buf.length using Nat.strongRecOn generalizing buf s with
  | ind d ih =>
    by_cases hlt : buf.length < len
    · obtain ⟨k, t, hk, hkd, hrun, hst, hkept⟩ := H.piece (by omega) hlen
      have hbl : (buf ++ (stream s).take k).length = buf.length + k := by
        rw [List.length_append, List.length_take]
        omega
      have hrest : len - (buf ++ (stream s).take k).length = len - (buf.length + k) := by rw [hbl]
      obtain ⟨t', hrun', hst', hkept'⟩ := ih (len - (buf.length + k)) (by omega)
        (buf ++ (stream s).take k) (s := t) (by rw [hst, List.length_drop]; omega) hrest
      have hsum : k + (len - (buf.length + k)) = d := by omega
      refine ⟨t', .iterate_next (y := buf ++ (stream s).take k) (t := t) ?_ ?_, ?_,
        H.trans hkept hkept'⟩
      · rw [if_pos hlt]
        exact hrun.bind .pure
      · rw [hst, List.append_assoc, ← List.take_add, hsum] at hrun'
        exact hrun'
      · rw [hst', hst, List.drop_drop, hsum]
    · have h0 : d = 0 := by omega
      subst h0
      refine ⟨s, .iterate_exit ?_, rfl, H.refl s⟩
      rw [if_neg hlt, List.take_zero, List.append_nil]
      exact .pure

theorem readExact_runs (H : uart.Reads h stream Kept) {bytes rest : List UInt8}
    (hs : stream s = bytes ++ rest) :
    ∃ t, Runs h (readExact uart bytes.length) s bytes t ∧ stream t = rest ∧ Kept s t := by
  obtain ⟨t, hrun, hst, hkept⟩ := fill_runs (s := s) H bytes.length []
    (by rw [hs, List.length_append]; simp)
  refine ⟨t, ?_, ?_, hkept⟩
  · simpa [hs, readExact] using hrun
  · simpa [hs] using hst

/-- One byte. -/
theorem read_one (H : uart.Reads h stream Kept) {b : UInt8} {rest : List UInt8}
    (hs : stream s = b :: rest) :
    ∃ t, Runs h (uart.read 1) s [b] t ∧ stream t = rest ∧ Kept s t := by
  obtain ⟨k, t, hk, hk1, hrun, hst, hkept⟩ := H.piece (n := 1) (s := s) (by omega) (by simp [hs])
  have he : k = 1 := by omega
  subst he
  exact ⟨t, by simpa [hs] using hrun, by simpa [hs] using hst, hkept⟩

/-- The scan ignores what comes before the next `SOF`. -/
theorem scan_runs (H : uart.Reads h stream Kept) {gap rest : List UInt8} (hgap : sof ∉ gap)
    (hs : stream s = gap ++ sof :: rest) :
    ∃ t, Runs h (scan uart) s () t ∧ stream t = rest ∧ Kept s t := by
  induction gap generalizing s with
  | nil =>
    obtain ⟨t, hrun, hst, hkept⟩ := read_one H hs
    exact ⟨t, .iterate_exit (hrun.bind .pure), hst, hkept⟩
  | cons b gap ih =>
    obtain ⟨t, hrun, hst, hkept⟩ := read_one H hs
    obtain ⟨t', hrun', hst', hkept'⟩ := ih (fun hm => hgap (List.mem_cons_of_mem b hm)) hst
    have hb : b ≠ sof := fun e => hgap (e ▸ List.mem_cons_self)
    refine ⟨t', .iterate_next (hrun.bind ?_) hrun', hst', H.trans hkept hkept'⟩
    rw [if_neg (by simp), if_neg (by simpa using hb)]
    exact .pure

/-- The scan does not end where there is no `SOF`. -/
theorem scan_silent (H : uart.Reads h stream Kept) {t : σ} (hs : sof ∉ stream s) :
    ¬ Runs h (scan uart) s () t := by
  refine fun hr => Runs.iterate_induct (I := fun _ s => sof ∉ stream s) (Q := fun _ _ => False) ?_
    hr hs
  intro _ s x t hs hb
  obtain ⟨l, t₁, hread, hb⟩ := hb.of_bind
  cases e : stream s with
  | nil => exact (H.silent (by omega) e hread).elim
  | cons b rest =>
    obtain ⟨t₂, hrun, hst, -⟩ := read_one H e
    obtain ⟨rfl, rfl⟩ := hread.det hrun
    have hb' : b ≠ sof := fun e' => hs (by rw [e, e']; exact List.mem_cons_self)
    rw [if_neg (by simp), if_neg (by simpa using hb')] at hb
    obtain ⟨rfl, rfl⟩ := hb.det .pure
    exact fun hm => hs (by rw [e]; exact List.mem_cons_of_mem b (hst ▸ hm))

/-- A frame is read with its command, after anything without `SOF`. -/
theorem readFrame_runs (H : uart.Reads h stream Kept) {bufLen : Nat} {gap command rest : List UInt8}
    (hgap : sof ∉ gap) (h0 : command ≠ []) (hlen : command.length ≤ bufLen)
    (hbuf : bufLen < 256 ^ 2) (hs : stream s = gap ++ encode command ++ rest) :
    ∃ t, Runs h (readFrame uart bufLen) s (some command) t ∧ stream t = rest ∧ Kept s t := by
  have hs' : stream s =
      gap ++ sof :: (le 2 command.length ++ (command ++ ([sum command] ++ rest))) := by
    simp [hs, encode]
  obtain ⟨t₁, hrun₁, hst₁, hk₁⟩ := scan_runs H hgap hs'
  obtain ⟨t₂, hrun₂, hst₂, hk₂⟩ := readExact_runs H hst₁
  obtain ⟨t₃, hrun₃, hst₃, hk₃⟩ := readExact_runs H hst₂
  obtain ⟨t₄, hrun₄, hst₄, hk₄⟩ := readExact_runs H hst₃
  have hpos : command.length ≠ 0 := fun e => h0 (List.eq_nil_of_length_eq_zero e)
  refine ⟨t₄, ?_, hst₄, H.trans hk₁ (H.trans hk₂ (H.trans hk₃ hk₄))⟩
  rw [length_le] at hrun₂
  refine hrun₁.bind (hrun₂.bind ?_)
  simp only [ofLe_le (Nat.lt_of_le_of_lt hlen hbuf)]
  rw [if_neg (by omega)]
  refine hrun₃.bind (hrun₄.bind ?_)
  rw [if_neg (by simp)]
  exact .pure

/-- The scan finds a frame whose length is rejected, and its command and sum stay to be read. -/
theorem readFrame_rejects (H : uart.Reads h stream Kept) {bufLen : Nat}
    {gap command rest : List UInt8} (hgap : sof ∉ gap) (hlen : command.length < 256 ^ 2)
    (hrej : command.length = 0 ∨ bufLen < command.length)
    (hs : stream s = gap ++ encode command ++ rest) :
    ∃ t, Runs h (readFrame uart bufLen) s none t ∧
      stream t = command ++ [sum command] ++ rest ∧ Kept s t := by
  have hs' : stream s =
      gap ++ sof :: (le 2 command.length ++ (command ++ [sum command] ++ rest)) := by
    simp [hs, encode]
  obtain ⟨t₁, hrun₁, hst₁, hk₁⟩ := scan_runs H hgap hs'
  obtain ⟨t₂, hrun₂, hst₂, hk₂⟩ := readExact_runs H hst₁
  refine ⟨t₂, ?_, hst₂, H.trans hk₁ hk₂⟩
  rw [length_le] at hrun₂
  refine hrun₁.bind (hrun₂.bind ?_)
  simp only [ofLe_le hlen]
  rw [if_pos hrej]
  exact .pure

theorem readFrame_silent (H : uart.Reads h stream Kept) {bufLen : Nat} {a : Option (List UInt8)}
    {t : σ} (hs : sof ∉ stream s) : ¬ Runs h (readFrame uart bufLen) s a t := by
  intro hr
  obtain ⟨_, _, hscan, -⟩ := hr.of_bind
  exact scan_silent H hs hscan

end Read

section Send

variable {ρ : Type} {rom : Nvm.Rom ρ} {pieces : Nat → Nat} {s t u : Link ρ}

/-- From `s` to `t`, the loader has sent these bytes and done nothing else. -/
def Sends (s t : Link ρ) (bytes : List UInt8) : Prop :=
  ∃ log, Link.calls log = [] ∧
    t = { s with toHost := s.toHost ++ bytes, log := s.log ++ log }

theorem Sends.trans {bytes bytes' : List UInt8} (h : Sends s t bytes) (h' : Sends t u bytes') :
    Sends s u (bytes ++ bytes') := by
  obtain ⟨l, hl, rfl⟩ := h
  obtain ⟨l', hl', rfl⟩ := h'
  exact ⟨l ++ l', by rw [Link.calls_append, hl, hl']; rfl, by simp⟩

theorem Sends.toHost {bytes : List UInt8} (h : Sends s t bytes) :
    t.toHost = s.toHost ++ bytes := by
  obtain ⟨_, -, rfl⟩ := h
  rfl

/-- The state after a write of the loader. -/
def written (s : Link ρ) (bytes : List UInt8) : Link ρ :=
  { s with toHost := s.toHost ++ bytes, log := s.log ++ [.sent bytes] }

theorem written_sends (s : Link ρ) (bytes : List UInt8) : Sends s (written s bytes) bytes :=
  ⟨[.sent bytes], rfl, rfl⟩

theorem writeAll_runs {bytes : List UInt8} :
    Runs (Link.loaderHandler rom pieces) (uart1.writeAll bytes) s () (written s bytes) :=
  .call rfl

variable (rom pieces s)

/-- `send_frame` sends a frame; the last write is its checksum. -/
theorem sendFrame_runs (command : List UInt8) :
    ∃ t, Runs (Link.loaderHandler rom pieces) (sendFrame uart1 command) s () (written t
      [sum command]) ∧ Sends s (written t [sum command]) (encode command) := by
  refine ⟨_, writeAll_runs.bind (writeAll_runs.bind (writeAll_runs.bind writeAll_runs)), ?_⟩
  exact (((written_sends s _).trans (written_sends _ _)).trans (written_sends _ _)).trans
    (written_sends _ _)

/-- `send_read_response` sends a frame whose length fits. -/
theorem sendReadResponse_runs (status : UInt8) (data : List UInt8) :
    ∃ t, Runs (Link.loaderHandler rom pieces) (sendReadResponse uart1 status data) s () t ∧
      Sends s t (encode ([Cmd.readResponse, status] ++ le 2 data.length ++ data)) := by
  refine ⟨_, writeAll_runs.bind (writeAll_runs.bind (writeAll_runs.bind (writeAll_runs.bind
    writeAll_runs))), ?_⟩
  -- The frame is in the five pieces that are written.
  have hl : ([Cmd.readResponse, status] ++ le 2 data.length ++ data).length =
      ([Cmd.readResponse, status] ++ le 2 data.length).length + data.length := List.length_append
  rw [encode, hl, ← List.append_assoc ([sof] ++ _)]
  exact ((((written_sends s _).trans (written_sends _ _)).trans (written_sends _ _)).trans
    (written_sends _ _)).trans (written_sends _ _)

end Send

end Loader

/-! ## The host -/

namespace Host

variable {ρ : Type} {s : Link ρ}

theorem toBytes_eq {x n : Nat} (h : x < 256 ^ n) : toBytes x n = .ok (le n x) := if_pos h

theorem toNat_sum_eq_checksum (command : List UInt8) :
    (sum command).toNat = checksum command := by
  rw [toNat_sum, checksum]
  exact (Nat.and_two_pow_sub_one_eq_mod _ 8).symm

/-- `build_frame` gives the same frame as the loader. -/
theorem buildFrame_eq {command : List UInt8} (h : command.length < 256 ^ 2) :
    buildFrame command = .ok (encode command) := by
  rw [buildFrame, toBytes_eq h, ← toNat_sum_eq_checksum, UInt8.ofNat_toNat]
  rfl

/-- The state after the host has read these bytes, with the rest left on the link. -/
def taken (s : Link ρ) (bytes rest : List UInt8) : Link ρ :=
  { s with toHost := rest, received := s.received ++ bytes }

theorem serRead_runs (bytes rest : List UInt8) (hs : s.toHost = bytes ++ rest) :
    Runs Link.hostHandler (serRead bytes.length) s bytes (taken s bytes rest) := by
  refine .call (Link.serRead_iff.mpr ⟨?_, ?_, ?_⟩)
  · rw [hs, List.length_append]
    omega
  · simp [hs]
  · simp [hs, taken]

/-- A frame is read with its command, after anything without `SOF`. -/
theorem readFrame_runs {gap command rest : List UInt8} (hgap : sof ∉ gap)
    (hlen : command.length < 256 ^ 2) (hs : s.toHost = gap ++ encode command ++ rest) :
    Runs Link.hostHandler readFrame s command (taken s (gap ++ encode command) rest) := by
  induction gap generalizing s with
  | nil =>
    -- What is left of the stream after each of the four reads.
    let r₃ := [sum command] ++ rest
    let r₂ := command ++ r₃
    let r₁ := le 2 command.length ++ r₂
    let s₁ := taken s [sof] r₁
    let s₂ := taken s₁ (le 2 command.length) r₂
    let s₃ := taken s₂ command r₃
    have h₁ : Runs Link.hostHandler (serRead 1) s [sof] s₁ :=
      serRead_runs [sof] r₁ (by simp [hs, encode, r₁, r₂, r₃])
    have h₂ : Runs Link.hostHandler (serRead 2) s₁ (le 2 command.length) s₂ := by
      have := serRead_runs (s := s₁) (le 2 command.length) r₂ rfl
      rwa [length_le] at this
    have h₃ : Runs Link.hostHandler (serRead command.length) s₂ command s₃ :=
      serRead_runs command r₃ rfl
    have h₄ : Runs Link.hostHandler (serRead 1) s₃ [sum command] (taken s₃ [sum command] rest) :=
      serRead_runs [sum command] rest rfl
    have ht : taken s₃ [sum command] rest = taken s ([] ++ encode command) rest := by
      simp [taken, encode, s₁, s₂, s₃]
    refine .iterate_exit (h₁.bind ?_)
    rw [if_neg (by simp)]
    refine h₂.bind ?_
    rw [if_neg (by simp)]
    simp only [ofLe_le hlen]
    refine h₃.bind ?_
    rw [if_neg (by simp)]
    refine h₄.bind ?_
    rw [if_neg (by simp), if_neg (by simp [toNat_sum_eq_checksum]), ← ht]
    exact .pure
  | cons b gap ih =>
    have hb : b ≠ sof := fun e => hgap (e ▸ List.mem_cons_self)
    have h₁ := serRead_runs (s := s) [b] (gap ++ encode command ++ rest) (by simp [hs])
    have h₂ := ih (s := taken s [b] _) (fun hm => hgap (List.mem_cons_of_mem b hm)) rfl
    have ht : taken (taken s [b] (gap ++ encode command ++ rest)) (gap ++ encode command) rest =
        taken s (b :: gap ++ encode command) rest := by
      simp [taken]
    rw [ht] at h₂
    refine .iterate_next (h₁.bind ?_) h₂
    rw [if_pos (by simpa using hb)]
    exact .pure

/-- Where there is no `SOF`, the host reads all that there is and waits. -/
theorem readFrame_waits {bytes : List UInt8} (hs : s.toHost = bytes) (hb : sof ∉ bytes) :
    Waits Link.hostHandler readFrame s (taken s bytes []) := by
  induction bytes generalizing s with
  | nil =>
    have ht : taken s [] [] = s := by
      cases s
      simp_all [taken]
    rw [ht]
    refine .of_body (Waits.bind (.call ?_))
    simp [Link.hostHandler, hs]
  | cons b bytes ih =>
    have hne : b ≠ sof := fun e => hb (e ▸ List.mem_cons_self)
    have h₁ := serRead_runs (s := s) [b] bytes hs
    have h₂ := ih (s := taken s [b] bytes) rfl fun hm => hb (List.mem_cons_of_mem b hm)
    have ht : taken (taken s [b] bytes) bytes [] = taken s (b :: bytes) [] := by simp [taken]
    rw [ht] at h₂
    refine .iterate_next (h₁.bind ?_) h₂
    rw [if_pos (by simpa using hne)]
    exact .pure

end Host

/-! ## Sequences of frames -/

/-- What one side sends: a frame, or other bytes. -/
inductive Item where
  | text (bytes : List UInt8)
  | frame (command : List UInt8)

namespace Item

/-- The bytes of an item. -/
def bytes : Item → List UInt8
  | text bytes => bytes
  | frame command => encode command

/-- The command of a frame. -/
def command? : Item → Option (List UInt8)
  | text _ => none
  | frame command => some command

/-- Bytes outside of frames have no `SOF`. -/
def Quiet : Item → Prop
  | text bytes => sof ∉ bytes
  | frame _ => True

end Item

/-- The bytes of some items. -/
def stream (items : List Item) : List UInt8 := items.flatMap Item.bytes

/-- The commands in their frames. -/
def commands (items : List Item) : List (List UInt8) := items.filterMap Item.command?

/-- A program that reads a frame with a command that is `Ok` with the result `res` of it, after
anything without `SOF`. -/
structure ReadsFrames {S : Sig} {σ α : Type} (p : Proc S α) (h : Handler S σ)
    (stream : σ → List UInt8) (Kept : σ → σ → Prop) (Ok : List UInt8 → Prop)
    (res : List UInt8 → α) : Prop where
  refl : ∀ s, Kept s s
  trans : ∀ {s t v}, Kept s t → Kept t v → Kept s v
  frame : ∀ {gap command rest s}, sof ∉ gap → Ok command →
    stream s = gap ++ encode command ++ rest →
    ∃ t, Runs h p s (res command) t ∧ stream t = rest ∧ Kept s t

/-- Such a program reads the commands of a stream in order, and leaves no `SOF` after the last. -/
theorem ReadsFrames.times {S : Sig} {σ α : Type} {p : Proc S α} {h : Handler S σ}
    {bytes : σ → List UInt8} {Kept : σ → σ → Prop} {Ok : List UInt8 → Prop} {res : List UInt8 → α}
    (H : ReadsFrames p h bytes Kept Ok res) {items : List Item} {gap : List UInt8} {s : σ}
    {n : Nat} (hgap : sof ∉ gap) (hq : ∀ i ∈ items, i.Quiet) (hok : ∀ c ∈ commands items, Ok c)
    (hs : bytes s = gap ++ stream items) (hn : n ≤ (commands items).length) :
    ∃ t, Runs h (times n p) s (((commands items).take n).map res) t ∧ Kept s t ∧
      (n = (commands items).length → sof ∉ bytes t) := by
  induction items generalizing gap s n with
  | nil =>
    have h0 : n = 0 := Nat.le_zero.mp hn
    subst h0
    refine ⟨s, .pure, H.refl s, fun _ => ?_⟩
    rwa [hs, stream, List.flatMap_nil, List.append_nil]
  | cons i items ih =>
    have hq' : ∀ i ∈ items, i.Quiet := fun j hj => hq j (List.mem_cons_of_mem i hj)
    cases i with
    | text b =>
      have hb : sof ∉ b := hq _ List.mem_cons_self
      have hgap' : sof ∉ gap ++ b := by simpa using ⟨hgap, hb⟩
      have hs' : bytes s = gap ++ b ++ stream items := by
        rw [hs, List.append_assoc]
        rfl
      exact ih hgap' hq' hok hs' hn
    | frame command =>
      have hc : commands (.frame command :: items) = command :: commands items := rfl
      rw [hc] at hok hn ⊢
      cases n with
      | zero => exact ⟨s, .pure, H.refl s, nofun⟩
      | succ n =>
        have hs' : bytes s = gap ++ encode command ++ stream items := by
          rw [hs, List.append_assoc]
          rfl
        have hnil : sof ∉ ([] : List UInt8) := List.not_mem_nil
        obtain ⟨t, hrun, hst, hk⟩ := H.frame hgap (hok command List.mem_cons_self) hs'
        obtain ⟨t', hrun', hk', hlast⟩ := ih hnil hq'
          (fun c hc => hok c (List.mem_cons_of_mem command hc)) hst (n := n) (by simpa using hn)
        refine ⟨t', hrun.bind (hrun'.bind .pure), H.trans hk hk', fun e => hlast ?_⟩
        simpa using e

theorem Loader.readsFrames {S : Sig} {σ : Type} {uart : Uart S} {h : Handler S σ}
    {bytes : σ → List UInt8} {Kept : σ → σ → Prop} (H : uart.Reads h bytes Kept) {bufLen : Nat}
    (hbuf : bufLen < 256 ^ 2) :
    ReadsFrames (readFrame uart bufLen) h bytes Kept
      (fun c => 1 ≤ c.length ∧ c.length ≤ bufLen) some where
  refl := H.refl
  trans := H.trans
  frame := by
    intro gap command rest s hgap ⟨h1, hlen⟩ hs
    exact readFrame_runs H hgap (List.ne_nil_of_length_pos h1) hlen hbuf hs

theorem Host.readsFrames {ρ : Type} :
    ReadsFrames readFrame Link.hostHandler (Link.toHost (ρ := ρ)) (fun _ _ => True)
      (·.length < 256 ^ 2) id where
  refl _ := trivial
  trans _ _ := trivial
  frame := by
    intro gap command rest s hgap hlen hs
    exact ⟨_, readFrame_runs hgap hlen hs, rfl, trivial⟩

/-! ## Both directions -/

/-- The bytes that the host writes for some items. -/
def Host.sends : List Item → Except Raised (List UInt8)
  | [] => return []
  | .text bytes :: items => do return bytes ++ (← sends items)
  | .frame command :: items => do
    let frame ← buildFrame command
    return frame ++ (← sends items)

theorem Host.sends_eq {items : List Item} (h : ∀ c ∈ commands items, c.length < 256 ^ 2) :
    sends items = .ok (stream items) := by
  induction items with
  | nil => rfl
  | cons i items ih =>
    cases i with
    | text b =>
      rw [sends, ih h]
      rfl
    | frame command =>
      have hc : commands (.frame command :: items) = command :: commands items := rfl
      rw [hc] at h
      rw [sends, buildFrame_eq (h _ List.mem_cons_self),
        ih fun c hc => h c (List.mem_cons_of_mem command hc)]
      rfl

namespace Loader

/-- A call of `send_confirm` or `send_read_response`, or a diagnostic text. -/
inductive Message where
  | confirm (status : UInt8)
  | readResponse (status : UInt8) (data : List UInt8)
  | text (bytes : List UInt8)

namespace Message

/-- How the loader sends a message. -/
def send {S : Sig} (uart : Uart S) : Message → Proc S Unit
  | confirm status => sendConfirm uart status
  | readResponse status data => sendReadResponse uart status data
  | text bytes => debugPuts uart bytes

/-- The command of a message, or its text. -/
def item : Message → Item
  | confirm status => .frame [Cmd.confirm, status]
  | readResponse status data => .frame ([Cmd.readResponse, status] ++ le 2 data.length ++ data)
  | text bytes => .text bytes

end Message

/-- The messages one after the other. -/
def sendAll {S : Sig} (uart : Uart S) : List Message → Proc S Unit
  | [] => return ()
  | m :: ms => do
    m.send uart
    sendAll uart ms

section SendAll

variable {ρ : Type} (rom : Nvm.Rom ρ) (pieces : Nat → Nat) (s : Link ρ)

theorem send_runs (m : Message) :
    ∃ t, Runs (Link.loaderHandler rom pieces) (m.send uart1) s () t ∧ Sends s t m.item.bytes := by
  cases m with
  | confirm status =>
    obtain ⟨t, hrun, hs⟩ := sendFrame_runs rom pieces s [Cmd.confirm, status]
    exact ⟨_, hrun, hs⟩
  | readResponse status data => exact sendReadResponse_runs rom pieces s status data
  | text bytes => exact ⟨_, writeAll_runs, written_sends s bytes⟩

theorem sendAll_runs (ms : List Message) :
    ∃ t, Runs (Link.loaderHandler rom pieces) (sendAll uart1 ms) s () t ∧
      Sends s t (stream (ms.map Message.item)) := by
  induction ms generalizing s with
  | nil => exact ⟨s, .pure, [], rfl, by simp [stream]⟩
  | cons m ms ih =>
    obtain ⟨t, hrun, hs⟩ := send_runs rom pieces s m
    obtain ⟨t', hrun', hs'⟩ := ih t
    exact ⟨t', hrun.bind hrun', hs.trans hs'⟩

end SendAll

end Loader

/-- Host to loader: for every way in which the bytes arrive, calls of `read_frame` return the
commands sent, in order, then none, and send nothing. Loader to host: in every order in which the
two run, calls of the host's `read_frame` return the commands sent, in order, then none; every run
comes to an end. The length of a frame has to fit into its two bytes, as it does in every message of
the loader. -/
theorem frames_round_trip {ρ : Type} (arrive room : Nat → Nat) (hfair : Uart.Fair arrive)
    (items : List Item) (hquiet : ∀ i ∈ items, i.Quiet)
    (hlen : ∀ c ∈ commands items, 1 ≤ c.length ∧ c.length ≤ maxChunk + 8)
    (rom : Nvm.Rom ρ) (pieces : Nat → Nat) (messages : List Loader.Message)
    (hquiet' : ∀ m ∈ messages, m.item.Quiet)
    (hlen' : ∀ c ∈ commands (messages.map Loader.Message.item), c.length < 256 ^ 2)
    (s : Link ρ) (hs : sof ∉ s.toHost) :
    (∃ bytes, Host.sends items = .ok bytes ∧ ∀ w : Uart.Hw, w.stream = bytes → ∀ n,
      (n ≤ (commands items).length →
        ∃ w', Runs (Uart.registers arrive room)
          (times n (Loader.readFrame Uart.fifo (maxChunk + 8))) w
          (((commands items).take n).map some) w' ∧ w'.sent = w.sent) ∧
      ((commands items).length < n → ∀ r w', ¬ Runs (Uart.registers arrive room)
        (times n (Loader.readFrame Uart.fifo (maxChunk + 8))) w r w')) ∧
    ∀ n, ∃ N, ∀ k (d : Session ρ Unit (List (List UInt8))),
      Steps (Session.Step rom pieces) k
        ⟨Loader.sendAll Loader.uart1 messages, times n Host.readFrame, s⟩ d →
      k ≤ N ∧
      (∀ r, d.right = .ret r → n ≤ (commands (messages.map Loader.Message.item)).length ∧
        r = (commands (messages.map Loader.Message.item)).take n) ∧
      (n ≤ (commands (messages.map Loader.Message.item)).length →
        Stuck (Session.Step rom pieces) d → ∃ r, d.right = .ret r) := by
  have hbuf : maxChunk + 8 < 256 ^ 2 := by decide
  refine ⟨⟨stream items, Host.sends_eq fun c hc => ?_, fun w hw n => ?_⟩, fun n => ?_⟩
  · exact Nat.lt_of_le_of_lt (hlen c hc).2 hbuf
  · have hu := Uart.read_piece room hfair
    have hnil : sof ∉ [] := List.not_mem_nil
    have hr := Loader.readsFrames hu hbuf
    refine ⟨fun hn => ?_, fun hn r w' => ?_⟩
    · obtain ⟨w', hrun, hsent, -⟩ := hr.times hnil hquiet hlen hw hn
      exact ⟨w', hrun, hsent⟩
    · obtain ⟨v, hrun, -, hlast⟩ := hr.times hnil hquiet hlen hw le_rfl
      exact hrun.times_silent (fun a u => Loader.readFrame_silent hu (hlast rfl)) hn
  · obtain ⟨t₁, hsend, hsends⟩ := Loader.sendAll_runs rom pieces s messages
    have hleft : Net.Reaches _ Link.hostHandler ⟨_, times n Host.readFrame, s⟩ ⟨_, _, t₁⟩ :=
      Net.end_left hsend
    have hq : ∀ i ∈ messages.map Loader.Message.item, i.Quiet := by
      simpa using hquiet'
    by_cases hn : n ≤ (commands (messages.map Loader.Message.item)).length
    · obtain ⟨t, hrun, -, -⟩ := Host.readsFrames.times hs hq hlen' hsends.toHost hn
      rw [List.map_id] at hrun
      obtain ⟨N, hN⟩ := Steps.of_reach (hleft.trans (Net.end_right hrun))
      refine ⟨N, fun k d hd => ?_⟩
      obtain ⟨hk, hreach, hstop⟩ := Session.settles hN Net.stuck_ret hd
      refine ⟨hk, fun r hr => ⟨hn, ?_⟩, fun _ hst => ?_⟩
      · have := Net.ret_right hreach hr
        cases this
        rfl
      · rw [hstop hst]
        exact ⟨_, rfl⟩
    · obtain ⟨t, hrun, -, hlast⟩ := Host.readsFrames.times hs hq hlen' hsends.toHost le_rfl
      have hw := Waits.times hrun (Host.readFrame_waits rfl (hlast rfl)) (by omega : _ < n)
      -- One frame too many is asked for: the host waits for a byte that does not come.
      obtain ⟨q', hright, hq', hstuck⟩ := Net.stuck_right (a := ()) hw
      obtain ⟨N, hN⟩ := Steps.of_reach (hleft.trans hright)
      refine ⟨N, fun k d hd => ?_⟩
      obtain ⟨hk, hreach, -⟩ := Session.settles hN hstuck hd
      refine ⟨hk, fun r hr => ?_, fun h => absurd h hn⟩
      exact absurd (Net.ret_right hreach hr) (hq' r)

/-- The theorem for two commands with a text between them, and for a confirm after a text. -/
theorem frames_round_trip_two :
    (∃ w', Runs (Uart.registers (fun _ => 1) fun _ => 1)
      (times 2 (Loader.readFrame Uart.fifo (maxChunk + 8)))
      ⟨[], encode [0x05, 0x55] ++ ([0x00] ++ encode [0x55]), [], 0⟩
      [some [0x05, 0x55], some [0x55]] w' ∧ w'.sent = []) ∧
    ∃ N, ∀ k (d : Session (Nat → UInt8) Unit (List (List UInt8))),
      Steps (Session.Step (Nvm.Rom.ideal ⟨0, 1, 0, 1⟩) fun _ => 1) k
        ⟨Loader.sendAll Loader.uart1 [.text [0x0D], .confirm Status.success],
          times 1 Host.readFrame, Link.ready fun _ => 0⟩ d →
      k ≤ N ∧ ∀ r, d.right = .ret r → r = [[Cmd.confirm, Status.success]] := by
  obtain ⟨⟨bytes, hbytes, hloader⟩, hhost⟩ := frames_round_trip (fun _ => 1) (fun _ => 1)
    (fun t => ⟨t, le_rfl, Nat.one_pos⟩) [.frame [0x05, 0x55], .text [0x00], .frame [0x55]]
    (by simp [Item.Quiet, sof]) (by decide) (Nvm.Rom.ideal ⟨0, 1, 0, 1⟩) (fun _ => 1)
    [.text [0x0D], .confirm Status.success] (by simp [Item.Quiet, Loader.Message.item, sof])
    (by decide) (Link.ready fun _ => 0) List.not_mem_nil
  refine ⟨?_, ?_⟩
  · cases hbytes
    exact (hloader _ rfl 2).1 (by decide)
  · obtain ⟨N, hN⟩ := hhost 1
    exact ⟨N, fun k d hd => ⟨(hN k d hd).1, fun r hr => ((hN k d hd).2.1 r hr).2⟩⟩

end Mc1322x.Ssl
