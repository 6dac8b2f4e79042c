import Mathlib.Data.List.GetD
import Mc1322x.Ssl.Framing

/-!
# The loader as a function

`romCall` is the call of the ROM that a command asks for, and `reply` is the answer to the command,
with the ROM after it.

`handle_replied`: the loader makes this call and sends this answer, after at most a text that is no
frame. This is the only walk through the four handlers; what a host gets of it (`Loader.Answers`)
and what is said of any frame (`Loader.Dispatched`) follow from it.
-/

namespace Mc1322x.Ssl

open Proc Bytes

/-- A call of the ROM: its error, and the state after it. -/
def Call.perform (rom : Nvm.Rom ρ) : Call → ρ → UInt32 × ρ
  | .erase nvm bits, r => rom.erase nvm bits r
  | .write nvm src address, r => rom.write nvm src address r
  | .read nvm address len, r => ((rom.read nvm address len r).1.1, (rom.read nvm address len r).2)

namespace Loader

/-- A flash that is driven through the ROM. -/
abbrev flash (sys : Nvm.Sys) (checks : Nvm.Checks) (nvm : Nvm) : Nvm.NorFlash sig :=
  nvm.norFlash sys checks romCalls

/-- A length that the loader accepts. -/
def Accepted (c : List UInt8) : Prop := 1 ≤ c.length ∧ c.length ≤ maxChunk + 8

instance (c : List UInt8) : Decidable (Accepted c) := inferInstanceAs (Decidable (_ ∧ _))

/-! ## What a frame asks for -/

/-- The call of the ROM that a frame asks for. -/
def romCall (nvm : Nvm) (frame : List UInt8) : Option Call :=
  let len := frame.length
  let id := frame.headD 0
  let address := u32At frame 1
  let dataLen := u16At frame 5
  if id = Cmd.eraseRequest ∧ len = 5 then
    if address = 0xFFFFFFFF then some (.erase nvm (Nvm.sectorBitfield 0 31))
    else if address.toNat < Nvm.capacity then
      some (.erase nvm (Nvm.sectorBitfield (address.toNat / Nvm.sectorSize) 1))
    else none
  else if id = Cmd.writeRequest ∧ 7 ≤ len then
    if len = 7 + dataLen ∧ address.toNat + dataLen ≤ Nvm.capacity then
      some (.write nvm (frame.drop 7) address)
    else none
  else if id = Cmd.commitRequest ∧ len = 6 then
    (signature (frame.getD 5 0)).map fun signature =>
      .write nvm (signature ++ le 4 address.toNat) 0
  else if id = Cmd.readRequest ∧ len = 7 then
    if address.toNat + min dataLen maxChunk ≤ Nvm.capacity then
      some (.read nvm address (min dataLen maxChunk))
    else none
  else none

/-- The frames that ask for a call. -/
theorem romCall_cases {nvm : Nvm} {frame : List UInt8} {call : Call}
    (h : romCall nvm frame = some call) :
    (frame.headD 0 = Cmd.eraseRequest ∧ frame.length = 5 ∧ u32At frame 1 = 0xFFFFFFFF ∧
      call = .erase nvm (Nvm.sectorBitfield 0 31)) ∨
    (frame.headD 0 = Cmd.eraseRequest ∧ frame.length = 5 ∧ u32At frame 1 ≠ 0xFFFFFFFF ∧
      (u32At frame 1).toNat < Nvm.capacity ∧
      call = .erase nvm (Nvm.sectorBitfield ((u32At frame 1).toNat / Nvm.sectorSize) 1)) ∨
    (frame.headD 0 = Cmd.writeRequest ∧ frame.length = 7 + u16At frame 5 ∧
      (u32At frame 1).toNat + u16At frame 5 ≤ Nvm.capacity ∧
      call = .write nvm (frame.drop 7) (u32At frame 1)) ∨
    (frame.headD 0 = Cmd.commitRequest ∧ frame.length = 6 ∧
      ∃ sig, signature (frame.getD 5 0) = some sig ∧
        call = .write nvm (sig ++ le 4 (u32At frame 1).toNat) 0) ∨
    (frame.headD 0 = Cmd.readRequest ∧ frame.length = 7 ∧
      call = .read nvm (u32At frame 1) (min (u16At frame 5) maxChunk)) := by
  unfold romCall at h
  dsimp only at h
  split at h
  · rename_i he
    split at h
    · rename_i ha
      cases h
      exact .inl ⟨he.1, he.2, ha, rfl⟩
    · rename_i ha
      split at h <;> cases h
      rename_i hcap
      exact .inr (.inl ⟨he.1, he.2, ha, hcap, rfl⟩)
  split at h
  · rename_i hw
    split at h <;> cases h
    rename_i hl
    exact .inr (.inr (.inl ⟨hw.1, hl.1, hl.2, rfl⟩))
  split at h
  · rename_i hcm
    obtain ⟨sig, hsig, rfl⟩ := Option.map_eq_some_iff.mp h
    exact .inr (.inr (.inr (.inl ⟨hcm.1, hcm.2, sig, hsig, rfl⟩)))
  split at h
  · rename_i hr
    split at h <;> cases h
    exact .inr (.inr (.inr (.inr ⟨hr.1, hr.2, rfl⟩)))
  · cases h

section

variable (nvm : Nvm) {frame : List UInt8}

theorem romCall_erase (hid : frame.headD 0 = Cmd.eraseRequest)
    (hlen : frame.length = 5) :
    romCall nvm frame =
      if u32At frame 1 = 0xFFFFFFFF then some (.erase nvm (Nvm.sectorBitfield 0 31))
      else if (u32At frame 1).toNat < Nvm.capacity then
        some (.erase nvm (Nvm.sectorBitfield ((u32At frame 1).toNat / Nvm.sectorSize) 1))
      else none := if_pos ⟨hid, hlen⟩

theorem romCall_write (hid : frame.headD 0 = Cmd.writeRequest)
    (hlen : 7 ≤ frame.length) :
    romCall nvm frame =
      if frame.length = 7 + u16At frame 5 ∧
          (u32At frame 1).toNat + u16At frame 5 ≤ Nvm.capacity then
        some (.write nvm (frame.drop 7) (u32At frame 1))
      else none := by
  unfold romCall
  rw [if_neg fun h => absurd (hid.symm.trans h.1) (by decide), if_pos ⟨hid, hlen⟩]

theorem romCall_commit (hid : frame.headD 0 = Cmd.commitRequest) (hlen : frame.length = 6) :
    romCall nvm frame = (signature (frame.getD 5 0)).map fun signature =>
      .write nvm (signature ++ le 4 (u32At frame 1).toNat) 0 := by
  unfold romCall
  rw [if_neg fun h => absurd (hid.symm.trans h.1) (by decide),
    if_neg fun h => absurd (hid.symm.trans h.1) (by decide), if_pos ⟨hid, hlen⟩]

theorem romCall_read (hid : frame.headD 0 = Cmd.readRequest) (hlen : frame.length = 7) :
    romCall nvm frame =
      if (u32At frame 1).toNat + min (u16At frame 5) maxChunk ≤ Nvm.capacity then
        some (.read nvm (u32At frame 1) (min (u16At frame 5) maxChunk))
      else none := by
  unfold romCall
  rw [if_neg fun h => absurd (hid.symm.trans h.1) (by decide),
    if_neg fun h => absurd (hid.symm.trans h.1) (by decide),
    if_neg fun h => absurd (hid.symm.trans h.1) (by decide), if_pos ⟨hid, hlen⟩]

end

/-- The response to a frame: a Read Response to a read, and a Confirm to anything else. -/
def response (frame : List UInt8) (status : UInt8) (data : List UInt8) : List UInt8 :=
  if frame.headD 0 = Cmd.readRequest ∧ frame.length = 7 then
    [Cmd.readResponse, status] ++ le 2 data.length ++ data
  else [Cmd.confirm, status]

section

variable {ρ : Type} (sys : Nvm.Sys) (rom : Nvm.Rom ρ) (nvm : Nvm)

/-- The status of a command that fails. -/
def failure (command : List UInt8) : UInt8 :=
  let len := command.length
  let id := command.headD 0
  if id = Cmd.eraseRequest ∧ len = 5 then Status.execError
  else if id = Cmd.writeRequest ∧ 7 ≤ len then Status.writeError
  else if id = Cmd.commitRequest ∧ len = 6 then
    if (signature (command.getD 5 0)).isSome then Status.writeError else Status.execError
  else if id = Cmd.readRequest ∧ len = 7 then Status.readError
  else Status.execError

/-- The answer to a command, and the ROM after it. -/
def reply (r : ρ) (command : List UInt8) : List UInt8 × ρ :=
  match romCall nvm command with
  | none => (response command (failure command) [], r)
  | some (.read nvm address len) =>
    let ((err, data), r') := rom.read nvm address len r
    if err = sys.gNvmErrNoError then (response command Status.success data, r')
    else (response command Status.readError [], r')
  | some call =>
    let (err, r') := call.perform rom r
    if err = sys.gNvmErrNoError then (response command Status.success [], r')
    else (response command (failure command) [], r')

/-- The state after a call of the ROM. -/
def called (rom : Nvm.Rom ρ) (s : Link ρ) (call : Call) : Link ρ :=
  { s with rom := (call.perform rom s.rom).2,
           log := s.log ++ [.called call (call.perform rom s.rom).1] }

/-- The state after a call of the ROM, if there is one. -/
def after (s : Link ρ) : Option Call → Link ρ
  | none => s
  | some call => called rom s call

/-- There is a call, and it succeeds. -/
def Succeeds (s : Link ρ) (call : Option Call) : Prop :=
  ∃ c, call = some c ∧ (c.perform rom s.rom).1 = sys.gNvmErrNoError

end

theorem failure_ne (command : List UInt8) : failure command ≠ Status.success := by
  unfold failure
  dsimp only
  repeat' split
  all_goals decide

/-- A command has an answer that says success. -/
def Succeeded (answer : List UInt8) : Prop := answer.getD 1 0 = Status.success

instance (answer : List UInt8) : Decidable (Succeeded answer) :=
  inferInstanceAs (Decidable (_ = _))

/-! ## What the loader sends -/

section Send

variable {ρ : Type} (rom : Nvm.Rom ρ) (pieces : Nat → Nat) (s : Link ρ)

/-- A frame whose length is accepted is read, and leaves the rest on the link. -/
theorem uart1_readFrame {gap command rest : List UInt8} (hgap : sof ∉ gap) (ha : Accepted command)
    (hs : s.toLoader = gap ++ encode command ++ rest) :
    ∃ reads, Runs (Link.loaderHandler rom pieces) (readFrame uart1 (maxChunk + 8)) s (some command)
      { s with toLoader := rest, reads := reads } := by
  obtain ⟨t, hrun, hst, hk⟩ := readFrame_runs (Link.uart1_reads rom pieces) hgap
    (List.ne_nil_of_length_pos ha.1) ha.2 (by decide) hs
  rw [hst] at hk
  exact ⟨t.reads, hk ▸ hrun⟩

/-- The log ends with bytes sent. -/
def EndsSent (log : List Event) : Prop := ∃ l b bs, log = l ++ [.sent (b :: bs)]

theorem sendConfirm_runs (status : UInt8) :
    ∃ t, Runs (Link.loaderHandler rom pieces) (sendConfirm uart1 status) s () t ∧
      Sends s t (encode [Cmd.confirm, status]) ∧ EndsSent t.log := by
  obtain ⟨t, hrun, hs⟩ := sendFrame_runs rom pieces s [Cmd.confirm, status]
  exact ⟨_, hrun, hs, t.log, _, [], rfl⟩

/-- `send_read_response` ends with its checksum. -/
theorem sendReadResponse_ends (status : UInt8) (data : List UInt8) :
    ∃ t, Runs (Link.loaderHandler rom pieces) (sendReadResponse uart1 status data) s () t ∧
      Sends s t (encode ([Cmd.readResponse, status] ++ le 2 data.length ++ data)) ∧
      EndsSent t.log := by
  obtain ⟨t, hrun, ht⟩ := sendReadResponse_runs rom pieces s status data
  have hrun' : Runs (Link.loaderHandler rom pieces) (sendReadResponse uart1 status data) s () _ :=
    writeAll_runs.bind (writeAll_runs.bind (writeAll_runs.bind (writeAll_runs.bind writeAll_runs)))
  obtain ⟨-, rfl⟩ := hrun.det hrun'
  exact ⟨_, hrun, ht, _, _, [], rfl⟩

/-- What a failed write prints has no `SOF`. -/
theorem quiet_writeErr (v : UInt32) :
    sof ∉ ascii "WRITE_ERR code=0x" ++ (hexU32 v ++ ascii "\r\n") := by
  have hdigit : ∀ i, digits.getD i 0 ≠ sof := by
    intro i
    by_cases h : i < 16
    · have : ∀ i < 16, digits.getD i 0 ≠ sof := by decide
      exact this i h
    · rw [List.getD_eq_default _ _ (by exact Nat.le_of_not_lt h)]
      decide
  have hhex : sof ∉ hexU32 v := by
    simp only [hexU32, List.mem_flatMap, not_exists, not_and]
    intro shift _ hm
    rcases List.mem_cons.mp hm with h | h
    · exact hdigit _ h.symm
    · exact hdigit _ (List.mem_singleton.mp h).symm
  simp only [List.mem_append, not_or]
  exact ⟨by decide, hhex, by decide⟩

theorem writeErr_runs (e : Nvm.Error) :
    ∃ t, Runs (Link.loaderHandler rom pieces) (writeErr uart1 e) s () t ∧
      Sends s t (ascii "WRITE_ERR code=0x" ++ (hexU32 (writeErrCode e) ++ ascii "\r\n")) := by
  refine ⟨_, writeAll_runs.bind (writeAll_runs.bind writeAll_runs), ?_⟩
  exact (written_sends s _).trans ((written_sends _ _).trans (written_sends _ _))

end Send

/-! ## Calls through the driver -/

section Replies

variable {ρ : Type} {sys : Nvm.Sys} {rom : Nvm.Rom ρ} {nvm : Nvm} {checks : Nvm.Checks}
  {pieces : Nat → Nat} {s t : Link ρ} {command : List UInt8}

theorem isOk_checkRom {err : UInt32} : (Nvm.checkRom sys err).isOk ↔ err = sys.gNvmErrNoError := by
  unfold Nvm.checkRom
  split
  · rename_i h
    exact ⟨fun _ => h, fun _ => rfl⟩
  · rename_i h
    exact ⟨fun h' => Bool.noConfusion h', fun h' => absurd h' h⟩

theorem succeeds_some {call : Call} : Succeeds sys rom s (some call) ↔
    (Nvm.checkRom sys (call.perform rom s.rom).1).isOk = true := by
  rw [isOk_checkRom]
  constructor
  · rintro ⟨_, ⟨⟩, h⟩
    exact h
  · exact fun h => ⟨call, rfl, h⟩

theorem not_succeeds_none : ¬ Succeeds sys rom s none := nofun

/-- A call through the driver: what it answers, and the state after it. -/
def Through {α : Type} (sys : Nvm.Sys) (rom : Nvm.Rom ρ) (pieces : Nat → Nat) (s : Link ρ)
    (call : Option Call) (p : Proc sig (Except Nvm.Error α)) : Prop :=
  ∃ r, Runs (Link.loaderHandler rom pieces) p s r (after rom s call) ∧
    (r.isOk = true ↔ Succeeds sys rom s call)

/-- A call that the driver's check rejects. -/
theorem through_rejected {α : Type} (e : Nvm.Error) :
    Through (α := α) sys rom pieces s none (pure (.error e)) := by
  refine ⟨.error e, .pure, ?_⟩
  exact ⟨(fun h => nomatch h), fun h => (not_succeeds_none h).elim⟩

theorem erase_through (hc : checks.Lawful) (first last : UInt32) :
    Through sys rom pieces s
      (if first ≤ last ∧ last.toNat ≤ Nvm.capacity ∧ Nvm.sectorSize ∣ first.toNat ∧
          Nvm.sectorSize ∣ last.toNat then
        some (.erase nvm (Nvm.sectorBitfield (first.toNat / Nvm.sectorSize)
          ((last - first).toNat / Nvm.sectorSize)))
      else none)
      ((flash sys checks nvm).erase first last) := by
  by_cases h : checks.erase Nvm.capacity Nvm.sectorSize first last = .ok ()
  · rw [if_pos (hc.erase.mp h)]
    refine ⟨_, Nvm.erase_runs h (.call rfl), ?_⟩
    rw [succeeds_some]
    exact Iff.rfl
  · rw [if_neg fun hn => h (hc.erase.mpr hn)]
    change Through _ _ _ _ _ (Nvm.erase sys checks romCalls nvm first last)
    unfold Nvm.erase
    cases he : checks.erase Nvm.capacity Nvm.sectorSize first last with
    | error kind => exact through_rejected (.bounds kind)
    | ok _ => exact (h he).elim

theorem write_through (hc : checks.Lawful) (address : UInt32) (data : List UInt8) :
    Through sys rom pieces s
      (if address.toNat + data.length ≤ Nvm.capacity then some (.write nvm data address) else none)
      ((flash sys checks nvm).write address data) := by
  by_cases h : checks.write Nvm.capacity 1 address data.length = .ok ()
  · rw [if_pos (hc.write.mp h).1]
    refine ⟨_, Nvm.write_runs h (.call rfl), ?_⟩
    rw [succeeds_some]
    exact Iff.rfl
  · rw [if_neg fun hn => h (hc.write.mpr ⟨hn, Nat.one_dvd _, Nat.one_dvd _⟩)]
    change Through _ _ _ _ _ (Nvm.write sys checks romCalls nvm address data)
    unfold Nvm.write
    cases he : checks.write Nvm.capacity 1 address data.length with
    | error kind => exact through_rejected (.bounds kind)
    | ok _ => exact (h he).elim

/-- What the ROM gives of a range, if it is in the flash and the ROM reports no error. -/
def given (sys : Nvm.Sys) (rom : Nvm.Rom ρ) (nvm : Nvm) (r : ρ) (address : UInt32) (len : Nat) :
    Option (List UInt8) :=
  if address.toNat + len ≤ Nvm.capacity ∧ (rom.read nvm address len r).1.1 = sys.gNvmErrNoError then
    some (rom.read nvm address len r).1.2
  else none

/-- A read through the driver. -/
theorem read_through (hc : checks.Lawful) (address : UInt32) (len : Nat) :
    ∃ r, Runs (Link.loaderHandler rom pieces) ((flash sys checks nvm).read address len) s r
        (after rom s
          (if address.toNat + len ≤ Nvm.capacity then some (.read nvm address len) else none)) ∧
      r.toOption = given sys rom nvm s.rom address len := by
  change ∃ r, Runs _ (Nvm.read sys checks romCalls nvm address len) s r _ ∧ _
  unfold Nvm.read given
  cases h : checks.read Nvm.capacity 1 address len with
  | ok _ =>
    have hb := (hc.read.mp h).1
    rw [if_pos hb]
    refine ⟨_, Runs.bind (.call rfl) .pure, ?_⟩
    unfold Nvm.checkRom
    by_cases he : (rom.read nvm address len s.rom).1.1 = sys.gNvmErrNoError
    · rw [if_pos he, if_pos ⟨hb, he⟩]
      rfl
    · rw [if_neg he, if_neg fun h => he h.2]
      rfl
  | error kind =>
    have hb : ¬ address.toNat + len ≤ Nvm.capacity := fun hb => by
      cases h.symm.trans (hc.read.mpr ⟨hb, Nat.one_dvd _, Nat.one_dvd _⟩)
    rw [if_neg hb, if_neg fun h => hb h.1]
    exact ⟨_, .pure, rfl⟩

theorem length_signature {secure : UInt8} {sig : List UInt8} (h : signature secure = some sig) :
    sig.length = 4 := by
  unfold signature at h
  split at h
  · cases h
    rfl
  · split at h <;> cases h
    rfl

theorem sectorStart_toNat (address : UInt32) :
    (address - address % 4096).toNat = address.toNat - address.toNat % 4096 := by
  rw [UInt32.toNat_sub_of_le]
  · rw [UInt32.toNat_mod]
    rfl
  · rw [UInt32.le_iff_toNat_le, UInt32.toNat_mod]
    exact Nat.mod_le _ _

/-- The range of a sector that is erased is accepted where the sector is in the flash. A range that
wraps around is not. -/
theorem sector_range (address : UInt32) :
    (address.toNat < Nvm.capacity →
      let first := address - address % 4096
      let last := first + 4096
      (first ≤ last ∧ last.toNat ≤ Nvm.capacity ∧ Nvm.sectorSize ∣ first.toNat ∧
        Nvm.sectorSize ∣ last.toNat) ∧
      first.toNat / Nvm.sectorSize = address.toNat / Nvm.sectorSize ∧
      (last - first).toNat / Nvm.sectorSize = 1) ∧
    (Nvm.capacity ≤ address.toNat →
      let first := address - address % 4096
      let last := first + 4096
      ¬ (first ≤ last ∧ last.toNat ≤ Nvm.capacity)) := by
  have hcap : Nvm.capacity = 131072 := rfl
  have hsize : Nvm.sectorSize = 4096 := rfl
  have hlt := address.toNat_lt
  have hfirst := sectorStart_toNat address
  have hlast : (address - address % 4096 + 4096).toNat =
      (address.toNat - address.toNat % 4096 + 4096) % 2 ^ 32 := by
    rw [UInt32.toNat_add, hfirst]
    rfl
  constructor
  · intro ha
    have hle : address - address % 4096 ≤ address - address % 4096 + 4096 := by
      rw [UInt32.le_iff_toNat_le, hfirst, hlast]
      omega
    refine ⟨⟨hle, ?_, ?_, ?_⟩, ?_, ?_⟩
    · rw [hlast, hcap]
      omega
    · rw [hfirst, hsize]
      omega
    · rw [hlast, hsize]
      omega
    · rw [hfirst, hsize]
      omega
    · rw [UInt32.toNat_sub_of_le _ _ hle, hlast, hfirst, hsize]
      omega
  · -- The sum wraps only to 0, and then the end is below the start.
    intro ha first last ⟨hle, hl⟩
    rw [UInt32.le_iff_toNat_le, hfirst, hlast] at hle
    rw [hlast, hcap] at hl
    omega

/-- What a frame asks the erase of. -/
theorem erase_call (address : UInt32) :
    (let first := address - address % 4096
     let last := first + 4096
     if first ≤ last ∧ last.toNat ≤ Nvm.capacity ∧ Nvm.sectorSize ∣ first.toNat ∧
          Nvm.sectorSize ∣ last.toNat then
        some (Call.erase nvm (Nvm.sectorBitfield (first.toNat / Nvm.sectorSize)
          ((last - first).toNat / Nvm.sectorSize)))
      else none) =
    if address.toNat < Nvm.capacity then
      some (.erase nvm (Nvm.sectorBitfield (address.toNat / Nvm.sectorSize) 1))
    else none := by
  obtain ⟨hin, hout⟩ := sector_range address
  by_cases ha : address.toNat < Nvm.capacity
  · obtain ⟨hrange, hfirst, hcount⟩ := hin ha
    rw [if_pos ha]
    dsimp only
    rw [if_pos hrange, hfirst, hcount]
  · rw [if_neg ha]
    exact if_neg fun h => hout (Nat.le_of_not_lt ha) ⟨h.1, h.2.1⟩

/-! ## One command -/

/-- The loader has sent the answer of `reply`, after at most a text without `SOF`. -/
def Replied (sys : Nvm.Sys) (rom : Nvm.Rom ρ) (nvm : Nvm) (command : List UInt8) (s t : Link ρ) :
    Prop :=
  ∃ text, sof ∉ text ∧
    Sends (after rom s (romCall nvm command)) t
      (text ++ encode (reply sys rom nvm s.rom command).1) ∧
    EndsSent t.log

/-- The state of the ROM after a reply. -/
theorem reply_rom (sys : Nvm.Sys) (rom : Nvm.Rom ρ) (nvm : Nvm) (s : Link ρ)
    (command : List UInt8) :
    (reply sys rom nvm s.rom command).2 = (after rom s (romCall nvm command)).rom := by
  unfold reply
  cases romCall nvm command with
  | none => rfl
  | some call =>
    cases call with
    | read nvm address len =>
      dsimp only
      split <;> rfl
    | erase nvm bits =>
      dsimp only
      split <;> rfl
    | write nvm src address =>
      dsimp only
      split <;> rfl

/-- Only a read asks for a call that reads. -/
theorem isRead_of_romCall {address : UInt32} {len : Nat} {nvm' : Nvm}
    (h : romCall nvm command = some (.read nvm' address len)) :
    command.headD 0 = Cmd.readRequest ∧ command.length = 7 := by
  obtain ⟨-, -, -, hb⟩ | ⟨-, -, -, -, hb⟩ | ⟨-, -, -, hb⟩ | ⟨-, -, sig, -, hb⟩ | ⟨hid, hlen, -⟩ :=
    romCall_cases h
  · cases hb
  · cases hb
  · cases hb
  · cases hb
  · exact ⟨hid, hlen⟩

/-- A Confirm is the response to anything but a read. -/
theorem response_confirm {frame : List UInt8}
    (hf : ¬ (frame.headD 0 = Cmd.readRequest ∧ frame.length = 7)) (status : UInt8)
    (data : List UInt8) : response frame status data = [Cmd.confirm, status] := if_neg hf

/-- What anything but a read is answered. -/
theorem reply_confirm (hf : ¬ (command.headD 0 = Cmd.readRequest ∧ command.length = 7))
    {ok : Bool} (hok : ok = true ↔ Succeeds sys rom s (romCall nvm command)) :
    (reply sys rom nvm s.rom command).1 =
      [Cmd.confirm, if ok then Status.success else failure command] := by
  unfold reply
  cases hcall : romCall nvm command with
  | none =>
    rw [hcall] at hok
    have : ok = false := Bool.eq_false_iff.mpr fun h => not_succeeds_none (hok.mp h)
    subst this
    exact response_confirm hf _ _
  | some call =>
    -- A call that reads is left out, so that one shape of answer remains.
    have hread : ∀ nvm' address len, call ≠ .read nvm' address len := by
      rintro nvm' address len rfl
      exact hf (isRead_of_romCall hcall)
    have hs : ok = true ↔ (call.perform rom s.rom).1 = sys.gNvmErrNoError := by
      rw [hok, hcall, succeeds_some, isOk_checkRom]
    have key : (if (call.perform rom s.rom).1 = sys.gNvmErrNoError then
          (response command Status.success [], (call.perform rom s.rom).2)
        else (response command (failure command) [], (call.perform rom s.rom).2)).1 =
        [Cmd.confirm, if ok then Status.success else failure command] := by
      by_cases he : (call.perform rom s.rom).1 = sys.gNvmErrNoError
      · rw [if_pos he, if_pos (hs.mpr he)]
        exact response_confirm hf _ _
      · rw [if_neg he, if_neg fun h => he (hs.mp h)]
        exact response_confirm hf _ _
    cases call with
    | read nvm' address len => exact (hread _ _ _ rfl).elim
    | erase nvm' bits => exact key
    | write nvm' src address => exact key

/-- A call through the driver, confirmed. -/
theorem Through.replied {α : Type} {p : Proc sig (Except Nvm.Error α)}
    (hp : Through sys rom pieces s (romCall nvm command) p)
    (hf : ¬ (command.headD 0 = Cmd.readRequest ∧ command.length = 7)) {failed : UInt8}
    (hfailed : failed = failure command) :
    ∃ t, Runs (Link.loaderHandler rom pieces)
        (do
          let r ← p
          sendConfirm uart1 (if r.isOk then Status.success else failed)) s () t ∧
      Replied sys rom nvm command s t := by
  subst hfailed
  obtain ⟨r, hrun, hr⟩ := hp
  obtain ⟨t, hsend, ht, hends⟩ := sendConfirm_runs rom pieces (after rom s (romCall nvm command))
    (if r.isOk then Status.success else failure command)
  refine ⟨t, hrun.bind hsend, [], List.not_mem_nil, ?_, hends⟩
  rw [reply_confirm hf hr]
  exact ht

/-- A command that asks for nothing. -/
theorem replied_none (hcall : romCall nvm command = none)
    (hf : ¬ (command.headD 0 = Cmd.readRequest ∧ command.length = 7)) {failed : UInt8}
    (hfailed : failed = failure command) :
    ∃ t, Runs (Link.loaderHandler rom pieces) (sendConfirm uart1 failed) s () t ∧
      Replied sys rom nvm command s t := by
  have h : Through (α := Unit) sys rom pieces s (romCall nvm command)
      (pure (.error .unsupportedFlash)) := by
    rw [hcall]
    exact through_rejected _
  exact h.replied hf hfailed

theorem handleErase_replied (hc : checks.Lawful) (hid : command.headD 0 = Cmd.eraseRequest)
    (hlen : command.length = 5) :
    ∃ t, Runs (Link.loaderHandler rom pieces) (handleErase uart1 (flash sys checks nvm) command)
        s () t ∧ Replied sys rom nvm command s t := by
  have hread : ¬ (command.headD 0 = Cmd.readRequest ∧ command.length = 7) := by
    rintro ⟨-, h⟩
    omega
  have hfailed : Status.execError = failure command := (if_pos ⟨hid, hlen⟩).symm
  have hcall := romCall_erase nvm hid hlen
  unfold handleErase
  dsimp only
  -- The address of all ones erases the flash but its last sector.
  by_cases ha : u32At command 1 = 0xFFFFFFFF
  · rw [if_pos ha] at hcall ⊢
    have h : Through sys rom pieces s (romCall nvm command)
        ((flash sys checks nvm).erase 0 (31 * 4096)) := by
      rw [hcall]
      exact erase_through hc 0 (31 * 4096)
    exact h.replied hread hfailed
  · rw [if_neg ha] at hcall ⊢
    have h : Through sys rom pieces s (romCall nvm command)
        ((flash sys checks nvm).erase (u32At command 1 - u32At command 1 % 4096)
          (u32At command 1 - u32At command 1 % 4096 + 4096)) := by
      rw [hcall, ← erase_call]
      exact erase_through hc _ _
    exact h.replied hread hfailed

theorem handleWrite_replied (hc : checks.Lawful) (hid : command.headD 0 = Cmd.writeRequest)
    (hlen : 7 ≤ command.length) :
    ∃ t, Runs (Link.loaderHandler rom pieces) (handleWrite uart1 (flash sys checks nvm) command)
        s () t ∧ Replied sys rom nvm command s t := by
  have hread : ¬ (command.headD 0 = Cmd.readRequest ∧ command.length = 7) := by
    rintro ⟨h, -⟩
    exact absurd (hid.symm.trans h) (by decide)
  have hfailed : Status.writeError = failure command := by
    unfold failure
    rw [if_neg fun h => absurd (hid.symm.trans h.1) (by decide), if_pos ⟨hid, hlen⟩]
  have hcall := romCall_write nvm hid hlen
  unfold handleWrite
  dsimp only
  by_cases hl : command.length = 7 + u16At command 5
  · have hdata : (command.drop 7).take (u16At command 5) = command.drop 7 := by
      refine List.take_of_length_le ?_
      rw [List.length_drop]
      omega
    have hdlen : (command.drop 7).length = u16At command 5 := by
      rw [List.length_drop]
      omega
    rw [if_neg (fun h => h hl), hdata]
    have h : Through sys rom pieces s (romCall nvm command)
        ((flash sys checks nvm).write (u32At command 1) (command.drop 7)) := by
      rw [hcall, if_congr (and_iff_right hl) rfl rfl, ← hdlen]
      exact write_through hc _ _
    obtain ⟨r, hrun, hr⟩ := h
    -- A write that fails prints its error before the Confirm.
    cases r with
    | ok _ =>
      obtain ⟨t, hsend, ht, hends⟩ := sendConfirm_runs rom pieces
        (after rom s (romCall nvm command)) Status.success
      refine ⟨t, hrun.bind hsend, [], List.not_mem_nil, ?_, hends⟩
      rw [reply_confirm hread hr]
      exact ht
    | error e =>
      obtain ⟨t₁, hprint, ht₁⟩ := writeErr_runs rom pieces (after rom s (romCall nvm command)) e
      obtain ⟨t, hsend, ht, hends⟩ := sendConfirm_runs rom pieces t₁ Status.writeError
      refine ⟨t, hrun.bind (hprint.bind hsend), _, quiet_writeErr (writeErrCode e), ?_, hends⟩
      rw [reply_confirm hread hr]
      rw [hfailed] at ht
      exact ht₁.trans ht
  · -- A frame of another length than it announces makes no call.
    rw [if_pos hl]
    rw [if_neg fun h => hl h.1] at hcall
    exact replied_none hcall hread hfailed

theorem handleCommit_replied (hc : checks.Lawful) (hid : command.headD 0 = Cmd.commitRequest)
    (hlen : command.length = 6) :
    ∃ t, Runs (Link.loaderHandler rom pieces) (handleCommit uart1 (flash sys checks nvm) command)
        s () t ∧ Replied sys rom nvm command s t := by
  have hread : ¬ (command.headD 0 = Cmd.readRequest ∧ command.length = 7) := by
    rintro ⟨-, h⟩
    omega
  have hfailure : failure command =
      if (signature (command.getD 5 0)).isSome then Status.writeError else Status.execError := by
    unfold failure
    rw [if_neg fun h => absurd (hid.symm.trans h.1) (by decide),
      if_neg fun h => absurd (hid.symm.trans h.1) (by decide), if_pos ⟨hid, hlen⟩]
  have hcall := romCall_commit nvm hid hlen
  unfold handleCommit
  dsimp only
  cases hsig : signature (command.getD 5 0) with
  | none =>
    rw [hsig] at hcall hfailure
    exact replied_none hcall hread hfailure.symm
  | some sig =>
    rw [hsig] at hcall hfailure
    -- The eight bytes of the header fit, so the driver lets the write through.
    have hfits : (0 : UInt32).toNat + (sig ++ le 4 (u32At command 1).toNat).length ≤
        Nvm.capacity := by
      rw [List.length_append, length_signature hsig, length_le]
      decide
    have hw : Through sys rom pieces s _
        ((flash sys checks nvm).write 0 (sig ++ le 4 (u32At command 1).toNat)) :=
      write_through hc _ _
    rw [if_pos hfits] at hw
    have h : Through sys rom pieces s (romCall nvm command)
        ((flash sys checks nvm).write 0 (sig ++ le 4 (u32At command 1).toNat)) := by
      rw [hcall]
      exact hw
    exact h.replied hread hfailure.symm

/-- What a read is answered. -/
theorem reply_given (sys : Nvm.Sys) (rom : Nvm.Rom ρ) (nvm : Nvm) (r : ρ)
    (hid : command.headD 0 = Cmd.readRequest) (hlen : command.length = 7) :
    (reply sys rom nvm r command).1 =
      (given sys rom nvm r (u32At command 1) (min (u16At command 5) maxChunk)).elim
        (response command Status.readError []) (response command Status.success) := by
  have hfailure : failure command = Status.readError := by
    unfold failure
    rw [if_neg fun h => absurd (hid.symm.trans h.1) (by decide),
      if_neg fun h => absurd (hid.symm.trans h.1) (by decide),
      if_neg fun h => absurd (hid.symm.trans h.1) (by decide), if_pos ⟨hid, hlen⟩]
  unfold reply given
  rw [romCall_read nvm hid hlen]
  by_cases hb : (u32At command 1).toNat + min (u16At command 5) maxChunk ≤ Nvm.capacity
  · rw [if_pos hb]
    dsimp only
    by_cases he : (rom.read nvm (u32At command 1) (min (u16At command 5) maxChunk) r).1.1 =
        sys.gNvmErrNoError
    · rw [if_pos he, if_pos ⟨hb, he⟩]
      rfl
    · rw [if_neg he, if_neg fun h => he h.2]
      rfl
  · rw [if_neg hb, if_neg fun h => hb h.1, hfailure]
    rfl

theorem handleRead_replied (hc : checks.Lawful) (hid : command.headD 0 = Cmd.readRequest)
    (hlen : command.length = 7) :
    ∃ t, Runs (Link.loaderHandler rom pieces) (handleRead uart1 (flash sys checks nvm) command)
        s () t ∧ Replied sys rom nvm command s t := by
  have hresponse : ∀ status data, response command status data =
      [Cmd.readResponse, status] ++ le 2 data.length ++ data := fun _ _ => if_pos ⟨hid, hlen⟩
  obtain ⟨r, hrun, hr⟩ : ∃ r, Runs (Link.loaderHandler rom pieces)
      ((flash sys checks nvm).read (u32At command 1) (min (u16At command 5) maxChunk)) s r
        (after rom s (romCall nvm command)) ∧ r.toOption = _ := by
    rw [romCall_read nvm hid hlen]
    exact read_through hc _ _
  have hreply := reply_given sys rom nvm s.rom hid hlen
  rw [← hr] at hreply
  unfold handleRead
  dsimp only
  cases r with
  | ok data =>
    obtain ⟨t, hsend, ht, hends⟩ := sendReadResponse_ends rom pieces
      (after rom s (romCall nvm command)) Status.success data
    refine ⟨t, hrun.bind hsend, [], List.not_mem_nil, ?_, hends⟩
    rw [hreply]
    change Sends _ _ ([] ++ encode (response command Status.success data))
    rw [hresponse]
    exact ht
  | error e =>
    obtain ⟨t, hsend, ht, hends⟩ := sendReadResponse_ends rom pieces
      (after rom s (romCall nvm command)) Status.readError []
    refine ⟨t, hrun.bind hsend, [], List.not_mem_nil, ?_, hends⟩
    rw [hreply]
    change Sends _ _ ([] ++ encode (response command Status.readError []))
    rw [hresponse]
    exact ht

/-- What the response says: success where there is a call and it succeeds. -/
theorem reply_response (sys : Nvm.Sys) (rom : Nvm.Rom ρ) (nvm : Nvm) (s : Link ρ)
    (command : List UInt8) :
    ∃ status data, (reply sys rom nvm s.rom command).1 = response command status data ∧
      (status = Status.success ↔ Succeeds sys rom s (romCall nvm command)) := by
  unfold reply
  cases hcall : romCall nvm command with
  | none =>
    exact ⟨_, _, rfl, fun h => (failure_ne command h).elim, fun h => (not_succeeds_none h).elim⟩
  | some call =>
    have hs : Succeeds sys rom s (some call) ↔ (call.perform rom s.rom).1 = sys.gNvmErrNoError := by
      rw [succeeds_some, isOk_checkRom]
    rw [hs]
    -- The status of a failed read is not that of the other commands.
    have key : ∀ (failed : UInt8) (data : List UInt8) (r : ρ), failed ≠ Status.success →
        ∃ status data', (if (call.perform rom s.rom).1 = sys.gNvmErrNoError then
            (response command Status.success data, r)
          else (response command failed [], r)).1 = response command status data' ∧
        (status = Status.success ↔ (call.perform rom s.rom).1 = sys.gNvmErrNoError) := by
      intro failed data r hf
      by_cases h : (call.perform rom s.rom).1 = sys.gNvmErrNoError
      · rw [if_pos h]
        exact ⟨_, _, rfl, fun _ => h, fun _ => rfl⟩
      · rw [if_neg h]
        exact ⟨_, _, rfl, fun h' => (hf h').elim, fun h' => (h h').elim⟩
    cases call with
    | erase nvm' bits => exact key _ [] _ (failure_ne command)
    | write nvm' src address => exact key _ [] _ (failure_ne command)
    | read nvm' address len => exact key _ _ _ (by decide)

end Replies

section Handle

variable {ρ : Type} (sys : Nvm.Sys) (rom : Nvm.Rom ρ) (nvm : Nvm) {checks : Nvm.Checks}
  (pieces : Nat → Nat) (s : Link ρ)

/-- The loader answers every command as `reply` does. -/
theorem handle_replied (hc : checks.Lawful) (command : List UInt8) :
    ∃ t, Runs (Link.loaderHandler rom pieces) (handle uart1 (flash sys checks nvm) command) s () t ∧
      Replied sys rom nvm command s t := by
  unfold handle
  dsimp only
  split
  · rename_i h
    exact handleErase_replied hc h.1 h.2
  split
  · rename_i h
    exact handleWrite_replied hc h.1 h.2
  split
  · rename_i h
    exact handleCommit_replied hc h.1 h.2
  split
  · rename_i h
    exact handleRead_replied hc h.1 h.2
  · rename_i h₁ h₂ h₃ h₄
    have hcall : romCall nvm command = none := by
      unfold romCall
      rw [if_neg h₁, if_neg h₂, if_neg h₃, if_neg h₄]
    have hfailure : Status.execError = failure command := by
      unfold failure
      rw [if_neg h₁, if_neg h₂, if_neg h₃, if_neg h₄]
    exact replied_none hcall h₄ hfailure

/-- One round of the command loop takes a command off the link and answers it. -/
theorem serve_replied (hc : checks.Lawful) {command : List UInt8} (ha : Accepted command)
    (hs : s.toLoader = encode command) :
    ∃ reads t, Runs (Link.loaderHandler rom pieces) (serve uart1 (flash sys checks nvm)) s () t ∧
      Replied sys rom nvm command { s with toLoader := [], reads := reads } t := by
  have hs' : s.toLoader = [] ++ encode command ++ [] := by rw [hs, List.nil_append, List.append_nil]
  obtain ⟨reads, hread⟩ := uart1_readFrame rom pieces s List.not_mem_nil ha hs'
  obtain ⟨t, hrun, ht⟩ :=
    handle_replied sys rom nvm pieces { s with toLoader := [], reads := reads } hc command
  exact ⟨reads, t, hread.bind hrun, ht⟩

end Handle

section Replied

variable {ρ : Type} {sys : Nvm.Sys} {rom : Nvm.Rom ρ} {nvm : Nvm} {s t : Link ρ}
  {command : List UInt8}

/-- The loader reads nothing while it answers. -/
theorem Replied.toLoader (h : Replied sys rom nvm command s t) : t.toLoader = s.toLoader := by
  obtain ⟨_, -, ⟨_, -, rfl⟩, -⟩ := h
  cases romCall nvm command <;> rfl

theorem Replied.toHost (h : Replied sys rom nvm command s t) :
    ∃ text, sof ∉ text ∧
      t.toHost = s.toHost ++ (text ++ encode (reply sys rom nvm s.rom command).1) := by
  obtain ⟨text, htext, ht, -⟩ := h
  refine ⟨text, htext, ?_⟩
  rw [ht.toHost]
  cases romCall nvm command <;> rfl

theorem Replied.rom_eq (h : Replied sys rom nvm command s t) :
    t.rom = (reply sys rom nvm s.rom command).2 := by
  obtain ⟨_, -, ⟨_, -, rfl⟩, -⟩ := h
  rw [reply_rom]

theorem Replied.ends (h : Replied sys rom nvm command s t) : EndsSent t.log := h.choose_spec.2.2

end Replied

end Loader

end Mc1322x.Ssl
