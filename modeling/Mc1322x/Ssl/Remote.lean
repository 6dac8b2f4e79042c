import Mc1322x.Lib.Known
import Mc1322x.Lib.Machine
import Mc1322x.Ssl.Dispatch
import Mc1322x.Ssl.Flashing

/-!
# The flash at the other end of the link

`Client` is a host that makes its requests one at a time, each as the answers before it tell it;
`read_test.py` is one (`readTest_eq`). `known` is what some commands and their answers tell about
the flash.

* `remote_calls`: in every order in which host and loader run, what comes of the host is what comes
  of it where `reply` answers at once.
* `reads_back`: a read gives what is known.
* `readTest_reads`: `read_test.py` prints what the flash holds.
-/

namespace Mc1322x.Ssl

open Proc Bytes

/-! ## Hosts -/

namespace Host

/-- A host that makes its requests one at a time, and waits for the answer to each. -/
inductive Client (β : Type) where
  | done (res : Except Raised β)
  | ask (command : List UInt8) (next : List UInt8 → Client β)

namespace Client

variable {β : Type}

/-- The host on its serial port. -/
def program : Client β → Raising β
  | done res => ExceptT.mk (pure res)
  | ask command next => do
    sendFrame command
    (next (← readFrame)).program

/-- The host where `reply` answers at once. -/
def run {σ : Type} (reply : σ → List UInt8 → List UInt8 × σ) : Client β → σ → Except Raised β × σ
  | done res, s => (res, s)
  | ask command next, s => (next (reply s command).1).run reply (reply s command).2

/-- The commands that it may send all meet `P`. -/
def Sends (P : List UInt8 → Prop) : Client β → Prop
  | done _ => True
  | ask command next => P command ∧ ∀ answer, (next answer).Sends P

end Client

end Host

section Sessions

variable {ρ β : Type} {sys : Nvm.Sys} {rom : Nvm.Rom ρ} {nvm : Nvm} {checks : Nvm.Checks}
  {pieces : Nat → Nat} {s t : Link ρ}

/-- A read fills the buffer that it is given. -/
def Fills (rom : Nvm.Rom ρ) : Prop :=
  ∀ nvm address len r, (rom.read nvm address len r).1.2.length = len

theorem length_response (command : List UInt8) (status : UInt8) (data : List UInt8) :
    (Loader.response command status data).length ≤ 4 + data.length := by
  unfold Loader.response
  split <;> simp <;> omega

/-- The length of an answer fits into a frame. -/
theorem length_reply (hf : Fills rom) (r : ρ) (command : List UInt8) :
    (Loader.reply sys rom nvm r command).1.length < 256 ^ 2 := by
  have hnil := fun status => length_response command status []
  have hmax : maxChunk = 1024 := rfl
  simp only [List.length_nil] at hnil
  unfold Loader.reply
  cases hcall : Loader.romCall nvm command with
  | none => exact Nat.lt_of_le_of_lt (hnil _) (by decide)
  | some call =>
    cases call with
    | read nvm' address len =>
      obtain ⟨-, -, -, hb⟩ | ⟨-, -, -, -, hb⟩ | ⟨-, -, -, hb⟩ | ⟨-, -, sig, -, hb⟩ | ⟨-, -, hb⟩ :=
        Loader.romCall_cases hcall
      all_goals cases hb
      have hlen := length_response command Status.success
        (rom.read nvm (Loader.u32At command 1) (min (Loader.u16At command 5) maxChunk) r).1.2
      rw [hf] at hlen
      dsimp only
      split
      · exact Nat.lt_of_le_of_lt hlen (by omega)
      · exact Nat.lt_of_le_of_lt (hnil _) (by decide)
    | erase nvm' bits =>
      dsimp only
      split <;> exact Nat.lt_of_le_of_lt (hnil _) (by decide)
    | write nvm' src address =>
      dsimp only
      split <;> exact Nat.lt_of_le_of_lt (hnil _) (by decide)

/-- The host gets the answers of `reply`. -/
theorem client_runs (sys : Nvm.Sys) (nvm : Nvm) (pieces : Nat → Nat) (hc : checks.Lawful)
    (hf : Fills rom) (client : Host.Client β) (ha : client.Sends Loader.Accepted) (hs : Idle s) :
    ∃ t, Joint (Link.loaderHandler rom pieces) Link.hostHandler
        (Loader.commandLoop Loader.uart1 (Loader.flash sys checks nvm)) client.program.run s
        (Loader.commandLoop Loader.uart1 (Loader.flash sys checks nvm))
        (client.run (Loader.reply sys rom nvm) s.rom).1 t ∧
      Idle t ∧ t.rom = (client.run (Loader.reply sys rom nvm) s.rom).2 ∧
      (t = s ∨ Loader.EndsSent t.log) := by
  induction client generalizing s with
  | done res => exact ⟨s, Joint.pure, hs, rfl, .inl rfl⟩
  | ask command next ih =>
    have hlen : command.length < 256 ^ 2 := Nat.lt_of_le_of_lt ha.1.2 (by decide)
    have hto : (Host.wrote s (encode command)).toLoader = encode command := by
      rw [Host.wrote, hs.toLoader]
      rfl
    obtain ⟨_, t₁, hserve, hreplied⟩ := Loader.serve_replied sys rom nvm pieces _ hc ha.1 hto
    have htoLoader : t₁.toLoader = [] := hreplied.toLoader
    have hrom : t₁.rom = (Loader.reply sys rom nvm s.rom command).2 := hreplied.rom_eq
    obtain ⟨text, htext, htoHost⟩ := hreplied.toHost
    change t₁.toHost = s.toHost ++
      (text ++ encode (Loader.reply sys rom nvm s.rom command).1) at htoHost
    rw [hs.toHost, List.nil_append, ← List.append_nil (text ++ _)] at htoHost
    -- The text before the answer has no `SOF`, so the host skips it.
    have hread := Host.readFrame_runs htext (length_reply hf _ _) htoHost
    obtain ⟨t, hj, hidle, ht, hlast⟩ := ih _ (ha.2 _) (s := Host.taken t₁
      (text ++ encode (Loader.reply sys rom nvm s.rom command).1) []) ⟨htoLoader, rfl⟩
    change t.rom = ((next _).run _ t₁.rom).2 at ht
    change Joint _ _ _ _ _ _ ((next _).run _ t₁.rom).1 _ at hj
    rw [hrom] at hj ht
    refine ⟨t, .bind_ok (.of_runs (Host.sendFrame_runs hlen)) (.after
      (fun _ _ => Net.reaches_forever hserve) (.bind_ok (.of_runs (.lift hread)) hj)), hidle, ht,
      .inr ?_⟩
    rcases hlast with rfl | he
    · exact hreplied.ends
    · exact he

/-- The calls and their errors tell what becomes of the ROM. -/
theorem Performs.det {r r₁ r₂ : ρ} {calls : List (Call × UInt32)} (h₁ : Performs rom r calls r₁)
    (h₂ : Performs rom r calls r₂) : r₁ = r₂ := by
  induction h₁ with
  | nil =>
    cases h₂
    rfl
  | cons _ ih =>
    cases h₂ with
    | cons h => exact ih h

/-- A host that has ended has waited for all that the loader does. -/
theorem log_of_ended {c : Session ρ Empty (Except Host.Raised β)} {p : Proc Loader.sig Empty}
    {res res' : Except Host.Raised β} {r : ρ} (hidle : Idle t)
    (hends : t.log = [] ∨ Loader.EndsSent t.log) (hbc : Books rom r c.state) (hbt : Books rom r t)
    (hreach : Session.Reaches rom pieces c ⟨p, .ret res, t⟩) (hc : c.right = .ret res') :
    c.state.log = t.log := by
  have hgrows : c.state.log <+: t.log := (Session.grows hreach).log
  rcases hends with hnil | hends
  · rw [hnil] at hgrows ⊢
    exact List.prefix_nil.mp hgrows
  · have hrec : t.received = c.state.received := Session.received hreach hc
    have hpre : t.log <+: c.state.log := by
      refine prefix_of_sent hends hgrows List.prefix_rfl ?_
      rw [hbt.sent, hbc.sent, hidle.toHost, hrec]
      simp
    exact (hpre.eq_of_length_le hgrows.length_le).symm

/-- **Calls over the link are calls of `reply`.** In every order in which the loader and a host that
waits for its answers run, and for every piece that a read of the UART gives: the run ends, with the
host at its end; the host ends as it does where `reply` answers it at once, and the ROM is then as
`reply` leaves it. -/
theorem remote_calls (sys : Nvm.Sys) (rom : Nvm.Rom ρ) (nvm : Nvm) (hc : checks.Lawful)
    (hf : Fills rom) (client : Host.Client β) (ha : client.Sends Loader.Accepted)
    (pieces : Nat → Nat) (r : ρ) :
    ∃ N, ∀ k (c : Session ρ Empty (Except Host.Raised β)), Steps (Session.Step rom pieces) k
        ⟨Loader.commandLoop Loader.uart1 (Loader.flash sys checks nvm), client.program.run,
          Link.ready r⟩ c →
      k ≤ N ∧ (Stuck (Session.Step rom pieces) c → ∃ res, c.right = .ret res) ∧
      ∀ res, c.right = .ret res →
        client.run (Loader.reply sys rom nvm) r = (res, c.state.rom) := by
  have hidle : Idle (Link.ready r) := ⟨rfl, rfl⟩
  obtain ⟨t, hj, hidle, hrom, hends⟩ := client_runs sys nvm pieces hc hf client ha hidle
  obtain ⟨p, hp, hstuck⟩ := Net.stuck_left
    (b := (client.run (Loader.reply sys rom nvm) r).1)
    (commandLoop_waits sys checks nvm rom pieces hidle.toLoader)
  obtain ⟨N, hN⟩ := Steps.of_reach (hj.reaches.trans hp)
  refine ⟨N, fun k c hk => ?_⟩
  obtain ⟨hle, hreach, hstop⟩ := Session.settles hN hstuck hk
  have hbc : Books rom r c.state := Session.books hk.reach (.ready rom r)
  have hbt : Books rom r t := Session.books hreach hbc
  refine ⟨hle, fun hs => ?_, fun res hres => ?_⟩
  · rw [hstop hs]
    exact ⟨_, rfl⟩
  · -- What the loader still does after the answer makes no call.
    have hlog : c.state.log = t.log := by
      refine log_of_ended hidle ?_ hbc hbt hreach hres
      rcases hends with rfl | he
      · exact .inl rfl
      · exact .inr he
    have hret := Net.ret_right hreach hres
    cases hret
    have hcr := hbc.rom
    rw [hlog] at hcr
    rw [hcr.det hbt.rom, hrom]
    rfl

end Sessions

/-! ## What a host knows of the flash -/

/-- What every call leaves as it is, and what a read gives: an erase changes its sectors and a write
its range only, also where they fail. -/
structure Local {ρ : Type} (rom : Nvm.Rom ρ) (sys : Nvm.Sys) (nvm : Nvm) : Prop where
  erase {bits r a} : a < Nvm.capacity → bits.toNat.testBit (a / Nvm.sectorSize) = false →
    rom.flash (rom.erase nvm bits r).2 a = rom.flash r a
  write {src address r a} : a < Nvm.capacity →
    ¬ (address.toNat ≤ a ∧ a < address.toNat + src.length) →
    rom.flash (rom.write nvm src address r).2 a = rom.flash r a
  read {address len r} : rom.flash (rom.read nvm address len r).2 = rom.flash r
  data {address len r} : (rom.read nvm address len r).1.1 = sys.gNvmErrNoError →
    (rom.read nvm address len r).1.2 = region (rom.flash r) address.toNat len

/-- What a command and its answer tell: an erase blanks its sectors, a write onto cells that are
known to be blank sets them, a read shows them. What has failed leaves its range unknown. -/
def learn (nvm : Nvm) (k : Known Nat UInt8) (command answer : List UInt8) : Known Nat UInt8 :=
  match Loader.romCall nvm command with
  | none => k
  | some (.erase _ bits) =>
    k.put (fun a => bits.toNat.testBit (a / Nvm.sectorSize)) fun _ =>
      if Loader.Succeeded answer then some 0xFF else none
  | some (.write _ src address) =>
    k.put (Known.span address.toNat src.length) fun a =>
      if Loader.Succeeded answer ∧ ∀ i < src.length, k (address.toNat + i) = some 0xFF then
        src[a - address.toNat]?
      else none
  | some (.read _ address len) =>
    if Loader.Succeeded answer then
      k.put (Known.span address.toNat len) fun a => (answer.drop 4)[a - address.toNat]?
    else k

/-- What some commands and their answers tell. -/
def known (nvm : Nvm) (commands answers : List (List UInt8)) : Known Nat UInt8 :=
  (commands.zip answers).foldl (fun k x => learn nvm k x.1 x.2) .nothing

namespace Loader

section Learn

variable {ρ : Type} {sys : Nvm.Sys} {rom : Nvm.Rom ρ} {nvm : Nvm} {command : List UInt8} {r : ρ}

theorem succeeded_response {status : UInt8} {data : List UInt8} :
    Succeeded (response command status data) ↔ status = Status.success := by
  unfold response
  split <;> exact Iff.rfl

/-- The answer says whether the call has succeeded. -/
theorem reply_perform (sys : Nvm.Sys) (rom : Nvm.Rom ρ) (r : ρ) {call : Call}
    (hcall : romCall nvm command = some call) :
    (Succeeded (reply sys rom nvm r command).1 ↔ (call.perform rom r).1 = sys.gNvmErrNoError) ∧
      (reply sys rom nvm r command).2 = (call.perform rom r).2 := by
  obtain ⟨status, data, hreply, hstatus⟩ := reply_response sys rom nvm (Link.ready r) command
  have hr := reply_rom sys rom nvm (Link.ready r) command
  rw [hcall] at hstatus hr
  rw [succeeds_some, isOk_checkRom] at hstatus
  change (reply sys rom nvm r command).1 = _ at hreply
  refine ⟨?_, hr⟩
  rw [hreply, succeeded_response]
  exact hstatus

/-- The calls that are asked for are on the flash of the loader. -/
theorem romCall_nvm {call : Call} (hcall : romCall nvm command = some call) :
    (∀ nvm' bits, call = .erase nvm' bits → nvm' = nvm) ∧
      (∀ nvm' src address, call = .write nvm' src address → nvm' = nvm) ∧
      ∀ nvm' address len, call = .read nvm' address len → nvm' = nvm := by
  obtain ⟨-, -, -, rfl⟩ | ⟨-, -, -, -, rfl⟩ | ⟨-, -, -, rfl⟩ | ⟨-, -, sig, -, rfl⟩ | ⟨-, -, rfl⟩ :=
    romCall_cases hcall
  all_goals grind

/-- The answer to a read that succeeds has the data. -/
theorem reply_read (sys : Nvm.Sys) (rom : Nvm.Rom ρ) (r : ρ) {address : UInt32} {len : Nat}
    (hcall : romCall nvm command = some (.read nvm address len))
    (hok : Succeeded (reply sys rom nvm r command).1) :
    (reply sys rom nvm r command).1.drop 4 = (rom.read nvm address len r).1.2 := by
  have herr : (rom.read nvm address len r).1.1 = sys.gNvmErrNoError :=
    (reply_perform sys rom r hcall).1.mp hok
  unfold reply
  rw [hcall]
  dsimp only
  rw [if_pos herr, response, if_pos (isRead_of_romCall hcall)]
  exact List.drop_left' (by simp)

/-- A read leaves the flash. -/
theorem reply_flash (hloc : Local rom sys nvm) (hid : command.headD 0 = Cmd.readRequest)
    (hlen : command.length = 7) (r : ρ) :
    rom.flash (reply sys rom nvm r command).2 = rom.flash r := by
  have hrom := reply_rom sys rom nvm (Link.ready r) command
  change (reply sys rom nvm r command).2 = _ at hrom
  rw [hrom, romCall_read nvm hid hlen]
  split
  · exact hloc.read
  · rfl

/-- What is known stays right. -/
theorem learn_of (hrom : rom.Lawful sys nvm) (hloc : Local rom sys nvm) {k : Known Nat UInt8}
    (hk : k.Of (· < Nvm.capacity) (rom.flash r)) (command : List UInt8) :
    (learn nvm k command (reply sys rom nvm r command).1).Of (· < Nvm.capacity)
      (rom.flash (reply sys rom nvm r command).2) := by
  unfold learn
  cases hcall : romCall nvm command with
  | none =>
    have : (reply sys rom nvm r command).2 = r := by
      unfold reply
      rw [hcall]
    rw [this]
    exact hk
  | some call =>
    cases call with
    | erase nvm' bits =>
      cases (romCall_nvm hcall).1 _ _ rfl
      obtain ⟨hs, hr⟩ := reply_perform sys rom r hcall
      rw [hr]
      refine hk.put (fun a ha hout => hloc.erase ha hout) fun a ha hin b hb => ?_
      split at hb
      · rename_i hok
        cases hb
        exact (hrom.erase (hs.mp hok) a ha).trans (if_pos hin)
      · cases hb
    | write nvm' src address =>
      cases (romCall_nvm hcall).2.1 _ _ _ rfl
      obtain ⟨hs, hr⟩ := reply_perform sys rom r hcall
      have hbound : address.toNat + src.length ≤ Nvm.capacity := by
        obtain ⟨-, -, -, hb⟩ | ⟨-, -, -, -, hb⟩ | ⟨-, hlen, hcap, hb⟩ | ⟨-, -, sig, hsig, hb⟩ |
          ⟨-, -, hb⟩ := romCall_cases hcall
        all_goals cases hb
        · rw [List.length_drop]
          omega
        · rw [List.length_append, length_signature hsig, length_le]
          decide
      rw [hr]
      refine hk.put (fun a ha hout => hloc.write ha (of_decide_eq_false hout))
        fun a ha hin b hb => ?_
      have hin := of_decide_eq_true hin
      split at hb
      · rename_i hok
        -- A write is known only where the range was known to be blank.
        have hblank : ∀ i < src.length, rom.flash r (address.toNat + i) = 0xFF := fun i hi =>
          hk _ (show address.toNat + i < Nvm.capacity by omega) _ (hok.2 i hi)
        refine (hrom.write (hs.mp hok.1) hblank a ha).trans ?_
        rw [if_pos hin, List.getD_eq_getElem?_getD, hb]
        rfl
      · cases hb
    | read nvm' address len =>
      cases (romCall_nvm hcall).2.2 _ _ _ rfl
      have hs := (reply_perform sys rom r hcall).1
      obtain ⟨hid, hlen⟩ := isRead_of_romCall hcall
      rw [reply_flash hloc hid hlen r]
      dsimp only
      split
      · rename_i hok
        refine hk.put (fun _ _ _ => rfl) fun a ha hin b hb => ?_
        have hin := of_decide_eq_true hin
        -- The answer holds the data that the ROM has read.
        rw [reply_read sys rom r hcall hok, hloc.data (hs.mp hok)] at hb
        unfold region at hb
        rw [List.getElem?_map, List.getElem?_range (by omega)] at hb
        cases hb
        exact congrArg _ (Nat.add_sub_cancel' hin.1).symm
      · exact hk

/-- What is known after some commands is right. -/
theorem known_of (hrom : rom.Lawful sys nvm) (hloc : Local rom sys nvm)
    (commands : List (List UInt8)) (r : ρ) :
    (known nvm commands (Machine.run (reply sys rom nvm) r commands).1).Of (· < Nvm.capacity)
      (rom.flash (Machine.run (reply sys rom nvm) r commands).2) := by
  have key : ∀ (k : Known Nat UInt8) (r : ρ), k.Of (· < Nvm.capacity) (rom.flash r) →
      ((commands.zip (Machine.run (reply sys rom nvm) r commands).1).foldl
        (fun k x => learn nvm k x.1 x.2) k).Of (· < Nvm.capacity)
        (rom.flash (Machine.run (reply sys rom nvm) r commands).2) := by
    induction commands with
    | nil => exact fun _ _ hk => hk
    | cons command commands ih => exact fun _ _ hk => ih _ _ (learn_of hrom hloc hk command)
  exact key _ r Known.nothing_of

/-- A read that is asked for is in bounds. -/
theorem read_bound {nvm' : Nvm} {address : UInt32} {len : Nat}
    (hcall : romCall nvm command = some (.read nvm' address len)) :
    address.toNat + len ≤ Nvm.capacity := by
  obtain ⟨hid, hlen⟩ := isRead_of_romCall hcall
  rw [romCall_read nvm hid hlen] at hcall
  split at hcall
  · rename_i hb
    cases hcall
    exact hb
  · cases hcall

/-- A read shows what is known. -/
theorem read_known (hloc : Local rom sys nvm) {k : Known Nat UInt8}
    (hk : k.Of (· < Nvm.capacity) (rom.flash r)) {address : UInt32} {len : Nat}
    (hcall : romCall nvm command = some (.read nvm address len)) :
    Succeeded (reply sys rom nvm r command).1 → ∀ i < len, ∀ b,
      k (address.toNat + i) = some b →
      ((reply sys rom nvm r command).1.drop 4)[i]? = some b := by
  intro hok i hi b hb
  have hbound := read_bound hcall
  have herr : (rom.read nvm address len r).1.1 = sys.gNvmErrNoError :=
    (reply_perform sys rom r hcall).1.mp hok
  rw [reply_read sys rom r hcall hok, hloc.data herr, region, List.getElem?_map,
    List.getElem?_range hi]
  exact congrArg some (hk _ (show address.toNat + i < Nvm.capacity by omega) b hb)

end Learn

end Loader

namespace Host

/-- A host that sends some commands, whatever the answers, and keeps the answers. -/
def Client.collect : List (List UInt8) → List (List UInt8) → Client (List (List UInt8))
  | [], answers => .done (.ok answers)
  | command :: commands, answers =>
    .ask command fun answer => collect commands (answers ++ [answer])

theorem Client.run_collect {σ : Type} (reply : σ → List UInt8 → List UInt8 × σ)
    (commands answers : List (List UInt8)) (s : σ) :
    (collect commands answers).run reply s =
      (.ok (answers ++ (Machine.run reply s commands).1), (Machine.run reply s commands).2) := by
  induction commands generalizing answers s with
  | nil => rw [collect, run, Machine.run, List.append_nil]
  | cons command commands ih =>
    rw [collect, run, ih, Machine.run, List.append_assoc]
    rfl

theorem Client.sends_collect {P : List UInt8 → Prop} {commands : List (List UInt8)}
    (h : ∀ command ∈ commands, P command) (answers : List (List UInt8)) :
    (collect commands answers).Sends P := by
  induction commands generalizing answers with
  | nil => trivial
  | cons command commands ih =>
    exact ⟨h _ List.mem_cons_self, fun _ => ih (fun c hc => h c (List.mem_cons_of_mem _ hc)) _⟩

end Host

section Sessions

variable {ρ : Type} {sys : Nvm.Sys} {rom : Nvm.Rom ρ} {nvm : Nvm} {checks : Nvm.Checks}

/-- **A read gives what has been written.** A host sends some commands and then a read, with any
order of the steps. It ends with an answer to each, and where the read succeeds, it shows at every
address what the answers before it tell: what was written there last, blank after an erase, what a
read has shown. -/
theorem reads_back (sys : Nvm.Sys) (rom : Nvm.Rom ρ) (nvm : Nvm) (hc : checks.Lawful)
    (hrom : rom.Lawful sys nvm) (hloc : Local rom sys nvm) (hf : Fills rom)
    (commands : List (List UInt8)) (command : List UInt8)
    (ha : ∀ c ∈ commands ++ [command], Loader.Accepted c) {address : UInt32} {len : Nat}
    (hcall : Loader.romCall nvm command = some (.read nvm address len)) (pieces : Nat → Nat)
    (r : ρ) :
    ∃ N, ∀ k (c : Session ρ Empty (Except Host.Raised (List (List UInt8)))),
      Steps (Session.Step rom pieces) k
        ⟨Loader.commandLoop Loader.uart1 (Loader.flash sys checks nvm),
          (Host.Client.collect (commands ++ [command]) []).program.run, Link.ready r⟩ c →
      k ≤ N ∧ (Stuck (Session.Step rom pieces) c → ∃ res, c.right = .ret res) ∧
      ∀ res, c.right = .ret res → ∃ answers answer, res = .ok (answers ++ [answer]) ∧
        answers.length = commands.length ∧
        (Loader.Succeeded answer → ∀ i < len, ∀ b,
          known nvm commands answers (address.toNat + i) = some b →
          (answer.drop 4)[i]? = some b) := by
  obtain ⟨N, hN⟩ := remote_calls sys rom nvm hc hf
    (Host.Client.collect (commands ++ [command]) []) (Host.Client.sends_collect ha []) pieces r
  refine ⟨N, fun k c hk => ?_⟩
  obtain ⟨hle, hstuck, hres⟩ := hN k c hk
  refine ⟨hle, hstuck, fun res hr => ?_⟩
  have hrun := hres res hr
  rw [Host.Client.run_collect, Machine.run_append] at hrun
  refine ⟨_, _, (congrArg Prod.fst hrun).symm, Machine.length_run _ _, ?_⟩
  exact Loader.read_known hloc (Loader.known_of hrom hloc commands r) hcall

end Sessions

/-! ## `read_test.py` -/

namespace Host

/-- `main`, after `wait_for_ready`: the status, the length and the data that are printed, or none
where the answer is no Read Response. -/
def readTest (address length : Nat) : Raising (Option (UInt8 × Nat × List UInt8)) := do
  sendFrame ([Cmd.readRequest] ++ (← toBytes address 4) ++ (← toBytes length 2))
  match ← readFrame with
  | [] => throw .indexError
  | id :: rest =>
    if id ≠ Cmd.readResponse then return none
    else
      match rest with
      | [] => throw .indexError
      | status :: rest =>
        let respLen := ofLe (rest.take 2)
        return some (status, respLen, (rest.drop 2).take respLen)

/-- What `main` makes of the answer. -/
def readTest.result : List UInt8 → Except Raised (Option (UInt8 × Nat × List UInt8))
  | [] => .error .indexError
  | id :: rest =>
    if id ≠ Cmd.readResponse then .ok none
    else
      match rest with
      | [] => .error .indexError
      | status :: rest =>
        .ok (some (status, ofLe (rest.take 2), (rest.drop 2).take (ofLe (rest.take 2))))

/-- It is a host that makes one request, where the arguments fit into it. -/
theorem readTest_eq (address length : Nat) :
    readTest address length =
      (if address < 256 ^ 4 ∧ length < 256 ^ 2 then
        .ask ([Cmd.readRequest] ++ le 4 address ++ le 2 length) fun answer =>
          .done (readTest.result answer)
      else .done (.error .overflowError) : Client (Option (UInt8 × Nat × List UInt8))).program := by
  unfold readTest
  by_cases ha : address < 256 ^ 4
  · by_cases hl : length < 256 ^ 2
    · rw [if_pos ⟨ha, hl⟩, toBytes_eq ha, toBytes_eq hl]
      refine congrArg (sendFrame _ >>= ·) (funext fun _ => ?_)
      refine congrArg ((liftM readFrame : Raising _) >>= ·) (funext fun answer => ?_)
      unfold readTest.result
      cases answer with
      | nil => rfl
      | cons id rest =>
        dsimp only
        split
        · rfl
        · cases rest with
          | nil => rfl
          | cons status rest => rfl
    · rw [if_neg fun h => hl h.2, toBytes_eq ha, toBytes, if_neg hl]
      rfl
  · rw [if_neg fun h => ha h.1, toBytes, if_neg ha]
    rfl

theorem readTest.result_response (status : UInt8) {data : List UInt8}
    (h : data.length < 256 ^ 2) :
    result ([Cmd.readResponse, status] ++ le 2 data.length ++ data) =
      .ok (some (status, data.length, data)) := by
  have htake : (le 2 data.length ++ data).take 2 = le 2 data.length :=
    List.take_left' (length_le _ _)
  have hdrop : (le 2 data.length ++ data).drop 2 = data := List.drop_left' (length_le _ _)
  change Except.ok (some (status, ofLe ((le 2 data.length ++ data).take 2),
    ((le 2 data.length ++ data).drop 2).take (ofLe ((le 2 data.length ++ data).take 2)))) = _
  rw [htake, hdrop, ofLe_le h, List.take_length]

end Host

section ReadTest

variable {ρ : Type} {sys : Nvm.Sys} {rom : Nvm.Rom ρ} {nvm : Nvm} {checks : Nvm.Checks}

/-- What `read_test.py` prints: it asks for at most `MAX_CHUNK` bytes. -/
def Printed (sys : Nvm.Sys) (rom : Nvm.Rom ρ) (nvm : Nvm) (r : ρ) (address length : Nat) :
    Except Host.Raised (Option (UInt8 × Nat × List UInt8)) :=
  let n := min length maxChunk
  if 256 ^ 4 ≤ address ∨ 256 ^ 2 ≤ length then .error .overflowError
  else if address + n ≤ Nvm.capacity ∧
      (rom.read nvm (.ofNat address) n r).1.1 = sys.gNvmErrNoError then
    .ok (some (Status.success, n, region (rom.flash r) address n))
  else .ok (some (Status.readError, 0, []))

/-- The answer to the request of `read_test.py`. -/
theorem result_reply (hloc : Local rom sys nvm) {address length : Nat} (ha : address < 256 ^ 4)
    (hl : length < 256 ^ 2) (r : ρ) :
    Host.readTest.result (Loader.reply sys rom nvm r
        ([Cmd.readRequest] ++ le 4 address ++ le 2 length)).1 =
          Printed sys rom nvm r address length ∧
      rom.flash (Loader.reply sys rom nvm r
        ([Cmd.readRequest] ++ le 4 address ++ le 2 length)).2 = rom.flash r := by
  have hmax : maxChunk = 1024 := rfl
  let command := [Cmd.readRequest] ++ le 4 address ++ le 2 length
  have hcommand : command = Cmd.readRequest :: (le 4 address ++ (le 2 length ++ [])) := by
    simp [command]
  have hlen : command.length = 7 := by simp [command]
  have hu32 : Loader.u32At command 1 = .ofNat address := by
    rw [hcommand]
    exact Loader.u32At_le ha
  have hu16 : Loader.u16At command 5 = length := by
    rw [hcommand]
    exact Loader.u16At_le hl
  have haddr : (UInt32.ofNat address).toNat = address := by
    rw [UInt32.toNat_ofNat', Nat.mod_eq_of_lt (by omega)]
  have hresponse : ∀ status data, Loader.response command status data =
      [Cmd.readResponse, status] ++ le 2 data.length ++ data := fun _ _ => if_pos ⟨rfl, hlen⟩
  refine ⟨?_, Loader.reply_flash hloc rfl hlen r⟩
  change Host.readTest.result (Loader.reply sys rom nvm r command).1 = _
  rw [Loader.reply_given sys rom nvm r rfl hlen, hu32, hu16]
  have hin : ¬ (256 ^ 4 ≤ address ∨ 256 ^ 2 ≤ length) := by omega
  unfold Printed Loader.given
  dsimp only
  rw [if_neg hin, haddr]
  split
  · rename_i h
    have hdata := hloc.data h.2
    rw [haddr] at hdata
    have hregion : (region (rom.flash r) address (min length maxChunk)).length =
        min length maxChunk := by simp [region]
    change Host.readTest.result (Loader.response command Status.success _) = _
    rw [hresponse, hdata, Host.readTest.result_response _ (by rw [hregion]; omega), hregion]
  · change Host.readTest.result (Loader.response command Status.readError []) = _
    rw [hresponse]
    exact Host.readTest.result_response _ (by decide)

/-- **`read_test.py` reads the flash**, in every order of the steps, and leaves it as it is. -/
theorem readTest_reads (sys : Nvm.Sys) (rom : Nvm.Rom ρ) (nvm : Nvm) (hc : checks.Lawful)
    (hloc : Local rom sys nvm) (hf : Fills rom) (address length : Nat) (pieces : Nat → Nat)
    (r : ρ) :
    ∃ N, ∀ k (c : Session ρ Empty (Except Host.Raised (Option (UInt8 × Nat × List UInt8)))),
      Steps (Session.Step rom pieces) k
        ⟨Loader.commandLoop Loader.uart1 (Loader.flash sys checks nvm),
          (Host.readTest address length).run, Link.ready r⟩ c →
      k ≤ N ∧ (Stuck (Session.Step rom pieces) c → ∃ res, c.right = .ret res) ∧
      ∀ res, c.right = .ret res →
        res = Printed sys rom nvm r address length ∧ rom.flash c.state.rom = rom.flash r := by
  rw [Host.readTest_eq]
  by_cases hin : address < 256 ^ 4 ∧ length < 256 ^ 2
  · rw [if_pos hin]
    have hlen : ([Cmd.readRequest] ++ le 4 address ++ le 2 length).length = 7 := by simp
    obtain ⟨N, hN⟩ := remote_calls sys rom nvm hc hf
      (.ask ([Cmd.readRequest] ++ le 4 address ++ le 2 length) fun answer =>
        .done (Host.readTest.result answer))
      ⟨⟨by rw [hlen]; decide, by rw [hlen]; decide⟩, fun _ => trivial⟩ pieces r
    refine ⟨N, fun k c hk => ?_⟩
    obtain ⟨hle, hstuck, hres⟩ := hN k c hk
    refine ⟨hle, hstuck, fun res hr => ?_⟩
    obtain ⟨hresult, hflash⟩ := result_reply hloc hin.1 hin.2 r
    obtain ⟨rfl, hrom⟩ := Prod.mk.inj (hres res hr)
    rw [← hrom]
    exact ⟨hresult, hflash⟩
  · rw [if_neg hin]
    obtain ⟨N, hN⟩ := remote_calls sys rom nvm hc hf
      (.done (.error .overflowError) : Host.Client (Option (UInt8 × Nat × List UInt8))) trivial
      pieces r
    refine ⟨N, fun k c hk => ?_⟩
    obtain ⟨hle, hstuck, hres⟩ := hN k c hk
    refine ⟨hle, hstuck, fun res hr => ?_⟩
    obtain ⟨rfl, hrom⟩ := Prod.mk.inj (hres res hr)
    rw [← hrom]
    refine ⟨?_, rfl⟩
    unfold Printed
    dsimp only
    rw [if_pos (by omega)]

end ReadTest

/-! ## Concrete hosts -/

section Concrete

theorem fills_ideal (sys : Nvm.Sys) : Fills (Nvm.Rom.ideal sys) := fun _ _ _ _ => by
  simp [Nvm.Rom.ideal]

theorem local_ideal (sys : Nvm.Sys) (nvm : Nvm) : Local (Nvm.Rom.ideal sys) sys nvm where
  erase _ h := if_neg (Bool.eq_false_iff.mp h)
  write _ h := if_neg h
  read := rfl
  data _ := rfl

open Loader (toySys toyNvm)

/-- Two bytes for the start of the second sector. -/
def secondWrite : List UInt8 := [Cmd.writeRequest, 0x00, 0x10, 0x00, 0x00, 0x02, 0x00, 0xAA, 0x55]

/-- A read of three bytes from there. -/
def secondRead : List UInt8 := [Cmd.readRequest, 0x00, 0x10, 0x00, 0x00, 0x03, 0x00]

/-- A host that erases the second sector, and writes to it where the erase has succeeded. -/
def eraseAndWrite : Host.Client (List UInt8) :=
  .ask Loader.secondErase fun answer =>
    if Loader.Succeeded answer then .ask secondWrite fun answer => .done (.ok answer)
    else .done (.error (.runtimeError "Erase"))

theorem remote_calls_write : ∃ N, ∀ k c,
    Steps (Session.Step (Nvm.Rom.ideal toySys) fun _ => 1) k
      ⟨Loader.commandLoop Loader.uart1 (Loader.flash toySys .ideal toyNvm),
        eraseAndWrite.program.run, Link.ready fun _ => 0⟩ c →
    k ≤ N ∧ ∀ res, c.right = .ret res → res = .ok [Cmd.confirm, Status.success] ∧
      c.state.rom 0x1001 = 0x55 := by
  have ha : eraseAndWrite.Sends Loader.Accepted := by
    refine ⟨by decide, fun answer => ?_⟩
    dsimp only
    split
    · exact ⟨by decide, fun _ => trivial⟩
    · trivial
  obtain ⟨N, hN⟩ := remote_calls toySys (.ideal toySys) toyNvm Nvm.Checks.lawful_ideal
    (fills_ideal toySys)
    eraseAndWrite ha (fun _ => 1) fun _ => 0
  refine ⟨N, fun k c hk => ⟨(hN k c hk).1, fun res hres => ?_⟩⟩
  have hrun := (hN k c hk).2.2 res hres
  have hrom := congrArg Prod.snd hrun
  refine ⟨(congrArg Prod.fst hrun).symm.trans (by decide), ?_⟩
  change _ = c.state.rom at hrom
  rw [← hrom]
  decide

theorem reads_back_second :
    known toyNvm [Loader.secondErase, secondWrite]
      (List.replicate 2 [Cmd.confirm, Status.success]) 0x1001 = some 0x55 ∧
    ∃ N, ∀ k (c : Session (Nat → UInt8) Empty (Except Host.Raised (List (List UInt8)))),
      Steps (Session.Step (Nvm.Rom.ideal toySys) fun _ => 1) k
        ⟨Loader.commandLoop Loader.uart1 (Loader.flash toySys .ideal toyNvm),
          (Host.Client.collect [Loader.secondErase, secondWrite, secondRead] []).program.run,
          Link.ready fun _ => 0⟩ c →
      k ≤ N ∧ ∀ res, c.right = .ret res → ∃ answers answer, res = .ok (answers ++ [answer]) ∧
        (Loader.Succeeded answer → ∀ i < 3, ∀ b,
          known toyNvm [Loader.secondErase, secondWrite] answers (0x1000 + i) = some b →
          (answer.drop 4)[i]? = some b) := by
  refine ⟨by decide +kernel, ?_⟩
  obtain ⟨N, hN⟩ := reads_back toySys (.ideal toySys) toyNvm Nvm.Checks.lawful_ideal
    (Nvm.Rom.lawful_ideal toySys toyNvm) (local_ideal toySys toyNvm) (fills_ideal toySys)
    [Loader.secondErase, secondWrite] secondRead (by decide)
    (show Loader.romCall toyNvm secondRead = some (.read toyNvm 0x1000 3) from rfl) (fun _ => 1)
    fun _ => 0
  refine ⟨N, fun k c hk => ⟨(hN k c hk).1, fun res hres => ?_⟩⟩
  obtain ⟨answers, answer, h, -, hread⟩ := (hN k c hk).2.2 res hres
  exact ⟨answers, answer, h, hread⟩

theorem readTest_reads_three : ∃ N, ∀ k c,
    Steps (Session.Step (Nvm.Rom.ideal toySys) fun _ => 1) k
      ⟨Loader.commandLoop Loader.uart1 (Loader.flash toySys .ideal toyNvm),
        (Host.readTest 2 3).run, Link.ready .ofNat⟩ c →
    k ≤ N ∧ ∀ res, c.right = .ret res → res = .ok (some (Status.success, 3, [2, 3, 4])) := by
  obtain ⟨N, hN⟩ := readTest_reads toySys (.ideal toySys) toyNvm Nvm.Checks.lawful_ideal
    (local_ideal toySys toyNvm) (fills_ideal toySys) 2 3 (fun _ => 1) .ofNat
  exact ⟨N, fun k c hk => ⟨(hN k c hk).1, fun res hres => ((hN k c hk).2.2 res hres).1.trans rfl⟩⟩

end Concrete

end Mc1322x.Ssl
