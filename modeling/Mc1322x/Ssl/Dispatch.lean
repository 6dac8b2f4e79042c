import Mc1322x.Lib.Checked
import Mc1322x.Ssl.Reply

/-!
# One round of the command loop

What the loader does with any frame. `handleChecked` is `Loader.handle` with the checks of a build
that checks its arithmetic; slices are checked in every build.

* `handle_dispatched`: the loader makes the call of the ROM that a frame asks for, and sends one
  response, which says whether the call has succeeded.
* `handleChecked_eq`: the checks pass, but for an erase whose sector ends above the last address.
-/

namespace Mc1322x

open Checked Proc

namespace Nvm

section

variable (sys : Sys) (checks : Checks) {S : Sig} (rom : RomCalls S) (nvm : Nvm)

/-- `sectorBitfield`, with checks. -/
def sectorBitfieldChecked (firstSector count : Nat) : Except Panic UInt32 :=
  (List.range count).foldlM (fun bits i => do return bits ||| (← shl 1 (firstSector + i))) 0

/-- `erase`, with checks. -/
def eraseChecked (first last : UInt32) : ExceptT Panic (Proc S) (Except Error Unit) :=
  match checks.erase capacity sectorSize first last with
  | .error kind => return .error (.bounds kind)
  | .ok () => do
    let firstSector := first.toNat / sectorSize
    let count := (← sub last first).toNat / sectorSize
    let bits ← sectorBitfieldChecked firstSector count
    let err ← rom.erase nvm bits
    return checkRom sys err

end

end Nvm

namespace Ssl.Loader

open Bytes

/-- `u32::from_le_bytes` of the four bytes from `i` on, with checks. -/
def u32AtChecked (frame : List UInt8) (i : Nat) : Except Panic UInt32 := do
  let a ← index frame i
  let b ← index frame (i + 1)
  let c ← index frame (i + 2)
  let d ← index frame (i + 3)
  return .ofNat (ofLe [a, b, c, d])

/-- `u16::from_le_bytes` of the two bytes from `i` on, with checks. -/
def u16AtChecked (frame : List UInt8) (i : Nat) : Except Panic Nat := do
  let a ← index frame i
  let b ← index frame (i + 1)
  return ofLe [a, b]

section Checked

variable {S : Sig} (uart : Uart S) (sys : Nvm.Sys) (checks : Nvm.Checks) (rom : Nvm.RomCalls S)
  (nvm : Nvm)

/-- The Erase Request, with the checks of its arithmetic. -/
def handleEraseChecked (frame : List UInt8) : ExceptT Panic (Proc S) Unit := do
  let address ← u32AtChecked frame 1
  let r ←
    if address = 0xFFFFFFFF then nvm.eraseChecked sys checks rom 0 (31 * 4096)
    else do
      let sectorStart ← sub address (address % 4096)
      let sectorEnd ← add sectorStart 4096
      nvm.eraseChecked sys checks rom sectorStart sectorEnd
  sendConfirm uart (if r.isOk then Status.success else Status.execError)

/-- The Write Request, with the checks of its slice and its call. -/
def handleWriteChecked (frame : List UInt8) : ExceptT Panic (Proc S) Unit := do
  let address ← u32AtChecked frame 1
  let dataLen ← u16AtChecked frame 5
  let ok ←
    if frame.length ≠ 7 + dataLen then pure false
    else do
      let data ← slice frame 7 (7 + dataLen)
      match ← nvm.write sys checks rom address data with
      | .ok () => pure true
      | .error e => do
        writeErr uart e
        pure false
  sendConfirm uart (if ok then Status.success else Status.writeError)

/-- The Commit Request, with the checks of its call. -/
def handleCommitChecked (frame : List UInt8) : ExceptT Panic (Proc S) Unit := do
  let imageLen ← u32AtChecked frame 1
  let secure ← index frame 5
  match signature secure with
  | none => sendConfirm uart Status.execError
  | some signature => do
    let r ← nvm.write sys checks rom 0 (signature ++ le 4 imageLen.toNat)
    sendConfirm uart (if r.isOk then Status.success else Status.writeError)

/-- The Read Request, with the check of the slice of its buffer. -/
def handleReadChecked (frame : List UInt8) : ExceptT Panic (Proc S) Unit := do
  let address ← u32AtChecked frame 1
  let dataLen := min (← u16AtChecked frame 5) maxChunk
  let _ ← slice (List.replicate maxChunk (0 : UInt8)) 0 dataLen
  match ← nvm.read sys checks rom address dataLen with
  | .ok data => sendReadResponse uart Status.success data
  | .error _ => sendReadResponse uart Status.readError []

/-- The `match` on a frame, with checks. -/
def handleChecked (frame : List UInt8) : ExceptT Panic (Proc S) Unit := do
  let len := frame.length
  let id ← index frame 0
  if id = Cmd.eraseRequest ∧ len = 5 then handleEraseChecked uart sys checks rom nvm frame
  else if id = Cmd.writeRequest ∧ 7 ≤ len then handleWriteChecked uart sys checks rom nvm frame
  else if id = Cmd.commitRequest ∧ len = 6 then handleCommitChecked uart sys checks rom nvm frame
  else if id = Cmd.readRequest ∧ len = 7 then handleReadChecked uart sys checks rom nvm frame
  else sendConfirm uart Status.execError

/-- One round of the command loop, with checks. -/
def serveChecked : ExceptT Panic (Proc S) Unit := do
  match ← readFrame uart (maxChunk + 8) with
  | none => return ()
  | some frame => handleChecked uart sys checks rom nvm frame

end Checked

section Dispatch

variable {ρ : Type} (sys : Nvm.Sys) (rom : Nvm.Rom ρ) (nvm : Nvm)

/-- The loader has made the call that the frame asks for, and sent one response, after at most a
text without `SOF`. The response says whether there was a call that succeeded. -/
def Dispatched (frame : List UInt8) (s t : Link ρ) : Prop :=
  ∃ text status data, sof ∉ text ∧
    (status = Status.success ↔ Succeeds sys rom s (romCall nvm frame)) ∧
    Sends (after rom s (romCall nvm frame)) t (text ++ encode (response frame status data))

/-- The loader answers every frame, without the checks of its arithmetic. -/
theorem handle_dispatched {checks : Nvm.Checks} (pieces : Nat → Nat) (s : Link ρ)
    (hc : checks.Lawful) (frame : List UInt8) :
    ∃ t, Runs (Link.loaderHandler rom pieces) (handle uart1 (flash sys checks nvm) frame) s () t ∧
      Dispatched sys rom nvm frame s t := by
  obtain ⟨t, hrun, text, htext, hsends, -⟩ := handle_replied sys rom nvm pieces s hc frame
  obtain ⟨status, data, hreply, hstatus⟩ := reply_response sys rom nvm s frame
  rw [hreply] at hsends
  exact ⟨t, hrun, text, status, data, htext, hstatus, hsends⟩

end Dispatch

/-! ## The checks -/

/-- An erase of the last sector of the address space, which ends above the last address. -/
def Overflows (frame : List UInt8) : Prop :=
  frame.headD 0 = Cmd.eraseRequest ∧ frame.length = 5 ∧
    2 ^ 32 - 4096 ≤ (u32At frame 1).toNat ∧ u32At frame 1 ≠ 0xFFFFFFFF

instance (frame : List UInt8) : Decidable (Overflows frame) :=
  inferInstanceAs (Decidable (_ ∧ _ ∧ _ ∧ _))

section Checks

variable {frame : List UInt8}

theorem u32AtChecked_eq {i : Nat} (h : i + 4 ≤ frame.length) :
    u32AtChecked frame i = .ok (u32At frame i) := by
  have hd : (frame.drop i).take 4 = [frame[i], frame[i + 1], frame[i + 2], frame[i + 3]] := by
    rw [List.drop_eq_getElem_cons (by omega), List.take_succ_cons,
      List.drop_eq_getElem_cons (by omega), List.take_succ_cons,
      List.drop_eq_getElem_cons (by omega), List.take_succ_cons,
      List.drop_eq_getElem_cons (by omega), List.take_succ_cons, List.take_zero]
  unfold u32AtChecked u32At
  rw [hd, index_eq (by omega), index_eq (by omega), index_eq (by omega), index_eq (by omega)]
  rfl

theorem u16AtChecked_eq {i : Nat} (h : i + 2 ≤ frame.length) :
    u16AtChecked frame i = .ok (u16At frame i) := by
  have hd : (frame.drop i).take 2 = [frame[i], frame[i + 1]] := by
    rw [List.drop_eq_getElem_cons (by omega), List.take_succ_cons,
      List.drop_eq_getElem_cons (by omega), List.take_succ_cons, List.take_zero]
  unfold u16AtChecked u16At
  rw [hd, index_eq (by omega), index_eq (by omega)]
  rfl

theorem sectorBitfieldChecked_eq {firstSector count : Nat} (h : firstSector + count ≤ 32) :
    Nvm.sectorBitfieldChecked firstSector count = .ok (Nvm.sectorBitfield firstSector count) := by
  induction count with
  | zero => rfl
  | succ count ih =>
    have ih := ih (by omega)
    unfold Nvm.sectorBitfieldChecked at ih ⊢
    rw [List.range_succ, List.foldlM_append, ih]
    unfold Nvm.sectorBitfield
    rw [List.range_succ, List.foldl_append]
    have hs : shl 1 (firstSector + count) = .ok ((1 : UInt32) <<< .ofNat (firstSector + count)) :=
      shl_eq (show firstSector + count < 32 by omega)
    simp only [List.foldlM_cons, List.foldlM_nil, List.foldl_cons, List.foldl_nil, hs]
    rfl

variable {S : Sig} {α β : Type}

/-- A check that passes. -/
theorem liftM_ok_bind (a : α) (f : α → ExceptT Panic (Proc S) β) :
    ((liftM (Except.ok a : Except Panic α) : ExceptT Panic (Proc S) α) >>= f) = f a := rfl

/-- A check that fails ends the program. -/
theorem liftM_error_bind (e : Panic) (f : α → ExceptT Panic (Proc S) β) :
    ((liftM (Except.error e : Except Panic α) : ExceptT Panic (Proc S) α) >>= f) = throw e := rfl

variable {uart : Uart S} {sys : Nvm.Sys} {checks : Nvm.Checks} {rom : Nvm.RomCalls S} {nvm : Nvm}

/-- The driver's checks are enough for the rest of an erase. -/
theorem eraseChecked_eq (hc : checks.Lawful) (first last : UInt32) :
    nvm.eraseChecked sys checks rom first last =
      ExceptT.lift (nvm.erase sys checks rom first last) := by
  unfold Nvm.eraseChecked Nvm.erase
  cases h : checks.erase Nvm.capacity Nvm.sectorSize first last with
  | error kind => rfl
  | ok _ =>
    obtain ⟨hle, hl, hf, hl'⟩ := hc.erase.mp h
    -- The sectors of an accepted range are below 32, so that no shift overflows.
    have hcount : first.toNat / Nvm.sectorSize + (last - first).toNat / Nvm.sectorSize ≤ 32 := by
      have hle' := UInt32.le_iff_toNat_le.mp hle
      rw [UInt32.toNat_sub_of_le _ _ hle]
      unfold Nvm.capacity Nvm.sectorCount Nvm.sectorSize at *
      omega
    dsimp only
    rw [sub_eq hle, liftM_ok_bind, sectorBitfieldChecked_eq hcount, liftM_ok_bind,
      ExceptT.lift_bind]
    rfl

theorem sub_mod_eq (address : UInt32) :
    sub address (address % 4096) = .ok (address - address % 4096) := by
  refine sub_eq ?_
  rw [UInt32.le_iff_toNat_le, UInt32.toNat_mod]
  exact Nat.mod_le _ _

/-- The end of the sector is above the last address for the addresses of the last sector only. -/
theorem sectorEnd_le (address : UInt32) :
    (address - address % 4096).toNat + (4096 : UInt32).toNat < 2 ^ 32 ↔
      address.toNat < 2 ^ 32 - 4096 := by
  have hlt := address.toNat_lt
  have h4 : (4096 : UInt32).toNat = 4096 := rfl
  rw [sectorStart_toNat, h4]
  omega

theorem handleEraseChecked_eq (hc : checks.Lawful) (hlen : frame.length = 5) :
    handleEraseChecked uart sys checks rom nvm frame =
      if 2 ^ 32 - 4096 ≤ (u32At frame 1).toNat ∧ u32At frame 1 ≠ 0xFFFFFFFF then
        throw .overflow
      else ExceptT.lift (handleErase uart (nvm.norFlash sys checks rom) frame) := by
  unfold handleEraseChecked handleErase
  rw [u32AtChecked_eq (by omega), liftM_ok_bind]
  dsimp only
  by_cases ha : u32At frame 1 = 0xFFFFFFFF
  · rw [if_pos ha, if_neg fun h => h.2 ha, if_pos ha, eraseChecked_eq hc, ExceptT.lift_bind]
    rfl
  · rw [if_neg ha, if_neg ha, sub_mod_eq, liftM_ok_bind]
    -- The sector before the last one ends below 2 ^ 32, and the last one does not.
    by_cases ho : 2 ^ 32 - 4096 ≤ (u32At frame 1).toNat
    · have hend : 2 ^ 32 ≤ (u32At frame 1 - u32At frame 1 % 4096).toNat + (4096 : UInt32).toNat :=
        Nat.le_of_not_lt fun h => absurd ((sectorEnd_le _).mp h) (Nat.not_lt.mpr ho)
      rw [if_pos ⟨ho, ha⟩, add_overflow hend, liftM_error_bind]
    · rw [if_neg fun h => ho h.1, add_eq ((sectorEnd_le _).mpr (Nat.lt_of_not_le ho)),
        liftM_ok_bind, eraseChecked_eq hc, ExceptT.lift_bind]
      rfl

theorem handleWriteChecked_eq (hlen : 7 ≤ frame.length) :
    handleWriteChecked uart sys checks rom nvm frame =
      ExceptT.lift (handleWrite uart (nvm.norFlash sys checks rom) frame) := by
  unfold handleWriteChecked handleWrite
  rw [u32AtChecked_eq (by omega), liftM_ok_bind, u16AtChecked_eq (by omega), liftM_ok_bind]
  dsimp only
  by_cases hl : frame.length = 7 + u16At frame 5
  · have hslice : slice frame 7 (7 + u16At frame 5) = .ok ((frame.drop 7).take (u16At frame 5)) := by
      rw [slice_eq (by omega) (by omega), List.drop_take, Nat.add_sub_cancel_left]
    rw [if_neg (fun h => h hl), if_neg (fun h => h hl), hslice, liftM_ok_bind, ExceptT.lift_bind]
    refine congrArg (_ >>= ·) (funext fun r => ?_)
    cases r with
    | ok _ => rfl
    | error e =>
      dsimp only
      rw [ExceptT.lift_bind]
      rfl
  · rw [if_pos hl, if_pos hl]
    rfl

theorem handleCommitChecked_eq (hlen : frame.length = 6) :
    handleCommitChecked uart sys checks rom nvm frame =
      ExceptT.lift (handleCommit uart (nvm.norFlash sys checks rom) frame) := by
  have hsecure : index frame 5 = .ok (frame.getD 5 0) := by
    rw [index_eq (by omega)]
    simp [hlen]
  unfold handleCommitChecked handleCommit
  rw [u32AtChecked_eq (by omega), liftM_ok_bind, hsecure, liftM_ok_bind]
  dsimp only
  cases signature (frame.getD 5 0) with
  | none => rfl
  | some sig =>
    dsimp only
    rw [ExceptT.lift_bind]
    rfl

theorem handleReadChecked_eq (hlen : frame.length = 7) :
    handleReadChecked uart sys checks rom nvm frame =
      ExceptT.lift (handleRead uart (nvm.norFlash sys checks rom) frame) := by
  -- The length has been cut to that of the buffer.
  have hslice : ∃ l, slice (List.replicate maxChunk (0 : UInt8)) 0 (min (u16At frame 5) maxChunk) =
      .ok l := by
    refine ⟨_, slice_eq (Nat.zero_le _) ?_⟩
    rw [List.length_replicate]
    exact Nat.min_le_right _ _
  obtain ⟨l, hslice⟩ := hslice
  unfold handleReadChecked handleRead
  rw [u32AtChecked_eq (by omega), liftM_ok_bind, u16AtChecked_eq (by omega), liftM_ok_bind]
  dsimp only
  rw [hslice, liftM_ok_bind, ExceptT.lift_bind]
  refine congrArg (_ >>= ·) (funext fun r => ?_)
  cases r with
  | ok data => rfl
  | error e => rfl

/-- The checks pass but for the erases whose end overflows. -/
theorem handleChecked_eq (hc : checks.Lawful) (hne : frame ≠ []) :
    handleChecked uart sys checks rom nvm frame =
      if Overflows frame then throw .overflow
      else ExceptT.lift (handle uart (nvm.norFlash sys checks rom) frame) := by
  have hid : index frame 0 = .ok (frame.headD 0) := by
    rw [index_eq (List.length_pos_iff.mpr hne)]
    cases frame with
    | nil => exact (hne rfl).elim
    | cons b rest => rfl
  unfold handleChecked handle
  rw [hid, liftM_ok_bind]
  dsimp only
  split
  · rename_i h
    rw [handleEraseChecked_eq hc h.2]
    simp only [Overflows, h, true_and]
  · rename_i h
    rw [if_neg fun ho : Overflows frame => h ⟨ho.1, ho.2.1⟩]
    split
    · rename_i h
      exact handleWriteChecked_eq h.2
    split
    · rename_i h
      exact handleCommitChecked_eq h.2
    split
    · rename_i h
      exact handleReadChecked_eq h.2
    · rfl

end Checks

/-! ## The flash -/

section Flash

variable {ρ : Type} (sys : Nvm.Sys) (rom : Nvm.Rom ρ) (nvm : Nvm)

/-- The addresses that an erase is for. -/
def Erased (frame : List UInt8) (a : Nat) : Prop :=
  if u32At frame 1 = 0xFFFFFFFF then a < 31 * Nvm.sectorSize
  else a / Nvm.sectorSize = (u32At frame 1).toNat / Nvm.sectorSize

/-- What a frame does to the flash. An erase or a write is one call of the ROM; where it succeeds,
this is known of the flash. -/
def Affects (frame : List UInt8) (r r' : ρ) : Prop :=
  match romCall nvm frame with
  | none => r' = r
  | some (.erase nvm bits) =>
    r' = (rom.erase nvm bits r).2 ∧
      ((rom.erase nvm bits r).1 = sys.gNvmErrNoError → ∀ a < Nvm.capacity,
        (Erased frame a → rom.flash r' a = 0xFF) ∧
        (¬ Erased frame a → rom.flash r' a = rom.flash r a))
  | some (.write nvm src address) =>
    r' = (rom.write nvm src address r).2 ∧
      ((rom.write nvm src address r).1 = sys.gNvmErrNoError →
        (∀ i < src.length, rom.flash r (address.toNat + i) = 0xFF) → ∀ a < Nvm.capacity,
        rom.flash r' a =
          if address.toNat ≤ a ∧ a < address.toNat + src.length then
            src.getD (a - address.toNat) 0
          else rom.flash r a)
  | some (.read _ _ _) => rom.flash r' = rom.flash r

variable {sys rom nvm}

/-- The sectors of an erase are those of the addresses that it is for. -/
theorem erased_iff {frame : List UInt8} {call : Call} {bits : UInt32} {a : Nat}
    (h : romCall nvm frame = some call) (hcall : call = .erase nvm bits) (ha : a < Nvm.capacity) :
    bits.toNat.testBit (a / Nvm.sectorSize) = true ↔ Erased frame a := by
  have hsize : Nvm.sectorSize = 4096 := rfl
  have hcap : Nvm.capacity = 131072 := rfl
  subst hcall
  obtain ⟨-, -, haddr, hb⟩ | ⟨-, -, haddr, hlt, hb⟩ | ⟨-, -, -, hb⟩ | ⟨-, -, sig, -, hb⟩ |
    ⟨-, -, hb⟩ := romCall_cases h
  · cases hb
    rw [Nvm.testBit_sector (by decide) ha, Erased, if_pos haddr, hsize]
    omega
  · cases hb
    rw [Nvm.testBit_sector (by rw [hsize]; omega) ha, Erased, if_neg haddr, hsize]
    omega
  · cases hb
  · cases hb
  · cases hb

theorem affects_after (hrom : rom.Lawful sys nvm)
    (hread : ∀ address len r, rom.flash (rom.read nvm address len r).2 = rom.flash r)
    (frame : List UInt8) (s : Link ρ) :
    Affects sys rom nvm frame s.rom (after rom s (romCall nvm frame)).rom := by
  unfold Affects
  cases hcall : romCall nvm frame with
  | none => rfl
  | some call =>
    have herase : ∀ bits, call = .erase nvm bits → (rom.erase nvm bits s.rom).1 =
        sys.gNvmErrNoError → ∀ a < Nvm.capacity,
          (Erased frame a → rom.flash (rom.erase nvm bits s.rom).2 a = 0xFF) ∧
          (¬ Erased frame a → rom.flash (rom.erase nvm bits s.rom).2 a = rom.flash s.rom a) := by
      intro bits hb hok a ha
      rw [hrom.erase hok a ha, ← erased_iff hcall hb ha]
      exact ⟨fun h => if_pos h, fun h => if_neg h⟩
    obtain ⟨-, -, -, rfl⟩ | ⟨-, -, -, -, rfl⟩ | ⟨-, -, -, rfl⟩ | ⟨-, -, sig, -, rfl⟩ |
      ⟨-, -, rfl⟩ := romCall_cases hcall
    · exact ⟨rfl, herase _ rfl⟩
    · exact ⟨rfl, herase _ rfl⟩
    · exact ⟨rfl, fun hok hff a ha => hrom.write hok hff a ha⟩
    · exact ⟨rfl, fun hok hff a ha => hrom.write hok hff a ha⟩
    · exact hread _ _ _

/-- One round of the command loop takes a frame off the link, makes the call that the frame asks for
and sends one response. -/
def Round (sys : Nvm.Sys) (checks : Nvm.Checks) (rom : Nvm.Rom ρ) (nvm : Nvm) (pieces : Nat → Nat)
    (frame rest : List UInt8) (s : Link ρ) : Prop :=
  ∃ reads t, Runs (Link.loaderHandler rom pieces)
      (serveChecked uart1 sys checks romCalls nvm).run s (.ok ()) t ∧
    Dispatched sys rom nvm frame { s with toLoader := rest, reads := reads } t ∧
    Affects sys rom nvm frame s.rom t.rom

variable {checks : Nvm.Checks} {s t : Link ρ}

/-- The frame is read, and then handled. -/
theorem serveChecked_runs (sys : Nvm.Sys) (checks : Nvm.Checks) (rom : Nvm.Rom ρ) (nvm : Nvm)
    (pieces : Nat → Nat) (s : Link ρ) {gap frame rest : List UInt8} (hgap : sof ∉ gap)
    (ha : Accepted frame) (hs : s.toLoader = gap ++ encode frame ++ rest) :
    ∃ reads, ∀ r t, Runs (Link.loaderHandler rom pieces)
        (handleChecked uart1 sys checks romCalls nvm frame).run
        { s with toLoader := rest, reads := reads } r t →
      Runs (Link.loaderHandler rom pieces)
        (serveChecked uart1 sys checks romCalls nvm).run s r t := by
  obtain ⟨reads, hrun⟩ := uart1_readFrame rom pieces s hgap ha hs
  exact ⟨reads, fun r t hr => Runs.bind_ok (.lift hrun) hr⟩

theorem dispatched_rom {frame : List UInt8} (h : Dispatched sys rom nvm frame s t) :
    t.rom = (after rom s (romCall nvm frame)).rom := by
  obtain ⟨_, _, _, -, -, _, -, rfl⟩ := h
  rfl

/-- **The command loop answers a frame once**, and does to the flash what the frame asks for, unless
the frame is an erase whose end overflows. -/
theorem round_iff (sys : Nvm.Sys) (rom : Nvm.Rom ρ) (nvm : Nvm) (hc : checks.Lawful)
    (hrom : rom.Lawful sys nvm)
    (hread : ∀ address len r, rom.flash (rom.read nvm address len r).2 = rom.flash r)
    (pieces : Nat → Nat) {gap frame rest : List UInt8} (hgap : sof ∉ gap)
    (hone : 1 ≤ frame.length) (hlen : frame.length ≤ maxChunk + 8)
    (hs : s.toLoader = gap ++ encode frame ++ rest) :
    Round sys checks rom nvm pieces frame rest s ↔ ¬ Overflows frame := by
  have hne : frame ≠ [] := List.ne_nil_of_length_pos hone
  obtain ⟨reads, hserve⟩ := serveChecked_runs sys checks rom nvm pieces s hgap ⟨hone, hlen⟩ hs
  rw [handleChecked_eq hc hne] at hserve
  constructor
  · -- A run is determined, and that of such a frame ends in the overflow.
    rintro ⟨_, t, hrun, -⟩ ho
    rw [if_pos ho] at hserve
    obtain ⟨h, -⟩ := hrun.det (hserve _ _ .pure)
    cases h
  · intro ho
    rw [if_neg ho] at hserve
    obtain ⟨t, hrun, ht⟩ := handle_dispatched sys rom nvm pieces
      { s with toLoader := rest, reads := reads } hc frame
    refine ⟨reads, t, hserve _ _ (.lift hrun), ht, ?_⟩
    rw [dispatched_rom ht]
    exact affects_after hrom hread frame { s with toLoader := rest, reads := reads }

end Flash

/-! ## Concrete frames -/

section Concrete

/-- Codes of a ROM, of which 0 is no error. -/
def toySys : Nvm.Sys := ⟨0, 1, 0, 1⟩

/-- The internal flash of it. -/
def toyNvm : Nvm := .newAssumeSst toySys .internal

/-- A link with a frame on it. -/
def carrying (frame : List UInt8) : Link (Nat → UInt8) :=
  { Link.ready fun _ => 0 with toLoader := encode frame }

/-- An erase of the sector of `0xFFFFF000`. -/
def topErase : List UInt8 := [Cmd.eraseRequest, 0x00, 0xF0, 0xFF, 0xFF]

/-- An erase of the second sector. -/
def secondErase : List UInt8 := [Cmd.eraseRequest, 0x00, 0x10, 0x00, 0x00]

theorem round_secondErase :
    Round toySys .ideal (.ideal toySys) toyNvm id secondErase [] (carrying secondErase) := by
  have hgap : sof ∉ ([] : List UInt8) := List.not_mem_nil
  have hs : (carrying secondErase).toLoader = [] ++ encode secondErase ++ [] := rfl
  exact (round_iff toySys (.ideal toySys) toyNvm Nvm.Checks.lawful_ideal
    (Nvm.Rom.lawful_ideal toySys toyNvm) (fun _ _ _ => rfl) id hgap (by decide) (by decide)
    hs).mpr (by decide)

/-- The erase of `0xFFFFF000` stops the loader. -/
theorem topErase_stops : sof ∉ ([] : List UInt8) ∧ 1 ≤ topErase.length ∧
    topErase.length ≤ maxChunk + 8 ∧
    ¬ ∃ t, Runs (Link.loaderHandler (.ideal toySys) id)
      (serveChecked uart1 toySys .ideal romCalls toyNvm).run (carrying topErase) (.ok ()) t := by
  refine ⟨List.not_mem_nil, by decide, by decide, ?_⟩
  rintro ⟨t, hrun⟩
  have hs : (carrying topErase).toLoader = [] ++ encode topErase ++ [] := rfl
  obtain ⟨reads, hserve⟩ := serveChecked_runs toySys .ideal (.ideal toySys) toyNvm id
    (carrying topErase) List.not_mem_nil (by decide) hs
  rw [handleChecked_eq Nvm.Checks.lawful_ideal (by decide), if_pos (by decide)] at hserve
  obtain ⟨h, -⟩ := hrun.det (hserve _ _ .pure)
  cases h

end Concrete

end Ssl.Loader

end Mc1322x
