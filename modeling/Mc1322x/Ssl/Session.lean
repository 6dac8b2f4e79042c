import Mc1322x.Ssl.Reply

/-!
# Requests and their answers

`Books` is what the two sides have done, as it agrees with the state of the link; it holds in every
session (`Session.books`). `exchange` is one request of the host and the answer to it: the loader
reads the frame, makes one call of the ROM, and confirms it with success where the call succeeds.
-/

namespace Mc1322x.Ssl

open Proc Bytes

/-! ## Books -/

section Books

variable {ρ α β : Type} (rom : Nvm.Rom ρ)

/-- The calls, with these errors, lead from one state of the ROM to the other. -/
inductive Performs : ρ → List (Call × UInt32) → ρ → Prop
  | nil (r : ρ) : Performs r [] r
  | cons {r r' : ρ} {calls : List (Call × UInt32)} {call : Call} :
      Performs (call.perform rom r).2 calls r' →
      Performs r ((call, (call.perform rom r).1) :: calls) r'

theorem Performs.snoc {r r' : ρ} {calls : List (Call × UInt32)} (h : Performs rom r calls r')
    (call : Call) :
    Performs rom r (calls ++ [(call, (call.perform rom r').1)]) (call.perform rom r').2 := by
  induction h with
  | nil => exact .cons (.nil _)
  | cons _ ih => exact .cons ih

theorem Performs.of_append {r r' : ρ} {l l' : List (Call × UInt32)}
    (h : Performs rom r (l ++ l') r') : ∃ u, Performs rom r l u ∧ Performs rom u l' r' := by
  induction l generalizing r with
  | nil => exact ⟨r, .nil r, h⟩
  | cons x l ih =>
    cases h with
    | cons h =>
      obtain ⟨u, hu, hl'⟩ := ih h
      exact ⟨u, .cons hu, hl'⟩

/-- Where no call fails, no error is one. -/
theorem Performs.err {r r' : ρ} {calls : List (Call × UInt32)} (h : Performs rom r calls r')
    {ok : UInt32} (hok : ∀ (call : Call) r, (call.perform rom r).1 = ok) {x : Call × UInt32}
    (hx : x ∈ calls) : x.2 = ok := by
  induction h with
  | nil => cases hx
  | cons _ ih =>
    rcases List.mem_cons.mp hx with rfl | hx
    · exact hok _ _
    · exact ih hx

/-- What has been done since the state `r` of the ROM agrees with the state of the link. -/
structure Books (r : ρ) (s : Link ρ) : Prop where
  sent : Link.sentBytes s.log = s.received ++ s.toHost
  requests : ∀ q ∈ s.requests, q.2 ≤ s.received.length
  rom : Performs rom r (Link.calls s.log) s.rom

theorem Books.ready (r : ρ) : Books rom r (Link.ready r) := ⟨rfl, nofun, .nil r⟩

variable {rom} {pieces : Nat → Nat} {r : ρ} {s s' : Link ρ}

theorem Books.call (h : Books rom r s) (call : Call) :
    Books rom r { s with rom := (call.perform rom s.rom).2,
                         log := s.log ++ [.called call (call.perform rom s.rom).1] } where
  sent := by
    rw [Link.sentBytes_append, h.sent]
    exact List.append_nil _
  requests := h.requests
  rom := by
    rw [Link.calls_append]
    exact h.rom.snoc _ call

theorem Books.loader {o : Loader.sig.Op} {x : Loader.sig.Ans o} (h : Books rom r s)
    (hs : Link.loaderHandler rom pieces o s = some (x, s')) : Books rom r s' := by
  cases o with
  | uartRead n =>
    -- Reads of the UART make no entry in the books.
    rcases Link.uartRead_iff.mp hs with ⟨-, -, rfl⟩ | ⟨-, -, -, rfl⟩
    · exact h
    · exact ⟨h.sent, h.requests, h.rom⟩
  | uartWrite bytes =>
    cases hs
    refine ⟨?_, h.requests, ?_⟩
    · rw [Link.sentBytes_append, h.sent, List.append_assoc]
      exact congrArg _ (congrArg _ (List.append_nil _))
    · rw [Link.calls_append]
      exact (List.append_nil (Link.calls s.log)).symm ▸ h.rom
  | nvmErase nvm bits =>
    cases hs
    exact h.call (.erase nvm bits)
  | nvmWrite nvm src address =>
    cases hs
    exact h.call (.write nvm src address)
  | nvmRead nvm address len =>
    cases hs
    exact h.call (.read nvm address len)

theorem Books.host {o : Host.sig.Op} {x : Host.sig.Ans o} (h : Books rom r s)
    (hs : Link.hostHandler o s = some (x, s')) : Books rom r s' := by
  cases o with
  | read size =>
    obtain ⟨-, -, rfl⟩ := Link.serRead_iff.mp hs
    refine ⟨?_, fun q hq => ?_, h.rom⟩
    · rw [List.append_assoc, List.take_append_drop]
      exact h.sent
    · rw [List.length_append]
      exact Nat.le_add_right_of_le (h.requests q hq)
  | write data =>
    cases hs
    refine ⟨h.sent, fun q hq => ?_, h.rom⟩
    rcases List.mem_append.mp hq with hq | hq
    · exact h.requests q hq
    · rw [List.mem_singleton.mp hq]

/-- What has been done only grows. -/
structure Grows (s t : Link ρ) : Prop where
  log : s.log <+: t.log
  requests : s.requests <+: t.requests

theorem Grows.refl (s : Link ρ) : Grows s s := ⟨List.prefix_rfl, List.prefix_rfl⟩

theorem Grows.trans {s t u : Link ρ} (h : Grows s t) (h' : Grows t u) : Grows s u :=
  ⟨h.log.trans h'.log, h.requests.trans h'.requests⟩

theorem Grows.loader {o : Loader.sig.Op} {x : Loader.sig.Ans o}
    (hs : Link.loaderHandler rom pieces o s = some (x, s')) : Grows s s' := by
  cases o with
  | uartRead n =>
    rcases Link.uartRead_iff.mp hs with ⟨-, -, rfl⟩ | ⟨-, -, -, rfl⟩
    · exact .refl s'
    · exact ⟨List.prefix_rfl, List.prefix_rfl⟩
  | uartWrite bytes =>
    cases hs
    exact ⟨List.prefix_append _ _, List.prefix_rfl⟩
  | nvmErase nvm bits =>
    cases hs
    exact ⟨List.prefix_append _ _, List.prefix_rfl⟩
  | nvmWrite nvm src address =>
    cases hs
    exact ⟨List.prefix_append _ _, List.prefix_rfl⟩
  | nvmRead nvm address len =>
    cases hs
    exact ⟨List.prefix_append _ _, List.prefix_rfl⟩

theorem Grows.host {o : Host.sig.Op} {x : Host.sig.Ans o}
    (hs : Link.hostHandler o s = some (x, s')) : Grows s s' := by
  cases o with
  | read size =>
    obtain ⟨-, -, rfl⟩ := Link.serRead_iff.mp hs
    exact ⟨List.prefix_rfl, List.prefix_rfl⟩
  | write data =>
    cases hs
    exact ⟨List.prefix_rfl, List.prefix_append _ _⟩

/-- The loader does not change what the host has read. -/
theorem received_loader {o : Loader.sig.Op} {x : Loader.sig.Ans o}
    (hs : Link.loaderHandler rom pieces o s = some (x, s')) : s'.received = s.received := by
  cases o with
  | uartRead n =>
    rcases Link.uartRead_iff.mp hs with ⟨-, -, rfl⟩ | ⟨-, -, -, rfl⟩
    · rfl
    · rfl
  | uartWrite bytes =>
    cases hs
    rfl
  | nvmErase nvm bits =>
    cases hs
    rfl
  | nvmWrite nvm src address =>
    cases hs
    rfl
  | nvmRead nvm address len =>
    cases hs
    rfl

section Session

variable {c d : Session ρ α β}

/-- Any number of steps of the loader and the host. -/
abbrev Session.Reaches (rom : Nvm.Rom ρ) (pieces : Nat → Nat) :
    Session ρ α β → Session ρ α β → Prop :=
  Net.Reaches (Link.loaderHandler rom pieces) (Link.hostHandler (ρ := ρ))

theorem Session.books (h : Session.Reaches rom pieces c d) (hb : Books rom r c.state) :
    Books rom r d.state :=
  Net.relates (R := fun s t => Books rom r s → Books rom r t) (fun _ h => h)
    (fun _ _ _ h h' hs => h' (h hs)) (fun _ _ _ _ ho hs => hs.loader ho)
    (fun _ _ _ _ ho hs => hs.host ho) h hb

theorem Session.grows (h : Session.Reaches rom pieces c d) : Grows c.state d.state :=
  Net.relates .refl (fun _ _ _ => Grows.trans) (fun _ _ _ _ => Grows.loader)
    (fun _ _ _ _ => Grows.host) h

/-- A host that has ended reads nothing more. -/
theorem Session.received (h : Session.Reaches rom pieces c d) {b : β} (hc : c.right = .ret b) :
    d.state.received = c.state.received :=
  (Net.relates_left (R := fun s t => s.received = t.received) (fun _ => rfl)
    (fun _ _ _ => Eq.trans) (fun _ _ _ _ ho => (received_loader ho).symm) h hc).1.symm

end Session

end Books

/-! ## Requests -/

/-- A request of the host. -/
inductive Request where
  | erase
  | write (address : Nat) (data : List UInt8)
  | commit (imageLen : Nat) (secure : UInt8)

namespace Request

/-- The command of the request. -/
def body : Request → List UInt8
  | erase => Cmd.eraseRequest :: le 4 0xFFFFFFFF
  | write address data => Cmd.writeRequest :: (le 4 address ++ (le 2 data.length ++ data))
  | commit imageLen secure => Cmd.commitRequest :: (le 4 imageLen ++ [secure])

/-- The call of the ROM for it. -/
def call (nvm : Nvm) : Request → Call
  | erase => .erase nvm (Nvm.sectorBitfield 0 31)
  | write address data => .write nvm data (.ofNat address)
  | commit imageLen secure =>
    .write nvm ((Loader.signature secure).getD [] ++ le 4 imageLen) 0

/-- The loader accepts the request. -/
def Ok : Request → Prop
  | erase => True
  | write address data => address + data.length ≤ Nvm.capacity ∧ data.length ≤ maxChunk
  | commit imageLen secure => imageLen < 256 ^ 4 ∧ secure ∈ [engSecured, engUnsecured]

theorem Ok.length {q : Request} (h : q.Ok) : 1 ≤ q.body.length ∧ q.body.length ≤ maxChunk + 8 := by
  cases q with
  | erase => decide
  | write address data =>
    have := h.2
    simp [body]
    omega
  | commit imageLen secure => simp [body, maxChunk]

end Request

namespace Loader

section Answer

variable {ρ : Type} {sys : Nvm.Sys} {checks : Nvm.Checks} {nvm : Nvm} {rom : Nvm.Rom ρ}
  {s t : Link ρ}

theorem u32At_le {id : UInt8} {x : Nat} {rest : List UInt8} (h : x < 256 ^ 4) :
    u32At (id :: (le 4 x ++ rest)) 1 = .ofNat x := by
  unfold u32At
  rw [List.drop_succ_cons, List.drop_zero, List.take_left' (length_le 4 x), ofLe_le h]

theorem u16At_le {id : UInt8} {x y : Nat} {rest : List UInt8} (h : y < 256 ^ 2) :
    u16At (id :: (le 4 x ++ (le 2 y ++ rest))) 5 = y := by
  unfold u16At
  rw [List.drop_succ_cons, List.drop_left' (length_le 4 x), List.take_left' (length_le 2 y),
    ofLe_le h]

/-- A request that the loader accepts asks for its call. -/
theorem romCall_body {q : Request} (hq : q.Ok) : romCall nvm q.body = some (q.call nvm) := by
  have hcap : Nvm.capacity = 131072 := rfl
  have hmax : maxChunk = 1024 := rfl
  cases q with
  | erase => exact romCall_erase nvm rfl rfl
  | write address data =>
    obtain ⟨hq, hlen⟩ := hq
    have haddr : (UInt32.ofNat address).toNat = address := by
      rw [UInt32.toNat_ofNat']
      omega
    have hu32 : u32At (Request.write address data).body 1 = .ofNat address :=
      u32At_le (show address < 256 ^ 4 by omega)
    have hu16 : u16At (Request.write address data).body 5 = data.length :=
      u16At_le (show data.length < 256 ^ 2 by omega)
    have hlength : (Request.write address data).body.length = 7 + data.length := by
      simp [Request.body]
      omega
    have hdrop : (Request.write address data).body.drop 7 = data := by
      rw [Request.body, List.drop_succ_cons, ← List.append_assoc, List.drop_left' (by simp)]
    rw [romCall_write nvm rfl (by omega), hu32, hu16, haddr, hdrop, if_pos ⟨hlength, hq⟩]
    rfl
  | commit imageLen secure =>
    obtain ⟨hlen, hsec⟩ := hq
    have hu32 : u32At (Request.commit imageLen secure).body 1 = .ofNat imageLen := u32At_le hlen
    have htoNat : (UInt32.ofNat imageLen).toNat = imageLen := by
      rw [UInt32.toNat_ofNat']
      omega
    have hsecure : (Request.commit imageLen secure).body.getD 5 0 = secure := by
      rw [Request.body, List.getD_cons_succ, List.getD_append_right _ _ _ _ (by simp)]
      simp
    rw [romCall_commit nvm rfl (by simp [Request.body]), hu32, htoNat, hsecure]
    rcases List.mem_cons.mp hsec with rfl | hsec
    · rfl
    · rw [List.mem_singleton.mp hsec]
      rfl

/-- The loader has made the call and confirmed it, with success where the call succeeds. -/
def Answers (sys : Nvm.Sys) (rom : Nvm.Rom ρ) (s : Link ρ) (call : Call) (t : Link ρ) : Prop :=
  ∃ text status, sof ∉ text ∧
    (status = Status.success ↔ (call.perform rom s.rom).1 = sys.gNvmErrNoError) ∧
    Sends (called rom s call) t (text ++ encode [Cmd.confirm, status]) ∧ EndsSent t.log

/-- No request of the host is a read. -/
theorem Replied.answers {q : Request} (hq : q.Ok) (h : Replied sys rom nvm q.body s t) :
    Answers sys rom s (q.call nvm) t := by
  obtain ⟨text, htext, hsends, hends⟩ := h
  obtain ⟨status, data, hreply, hstatus⟩ := reply_response sys rom nvm s q.body
  have hread : ¬ (q.body.headD 0 = Cmd.readRequest ∧ q.body.length = 7) := by
    rintro ⟨hid, -⟩
    cases q with
    | erase => exact absurd hid (by decide : ¬ Cmd.eraseRequest = Cmd.readRequest)
    | write _ _ => exact absurd hid (by decide : ¬ Cmd.writeRequest = Cmd.readRequest)
    | commit _ _ => exact absurd hid (by decide : ¬ Cmd.commitRequest = Cmd.readRequest)
  rw [hreply, response_confirm hread, romCall_body hq] at hsends
  rw [romCall_body hq, succeeds_some, isOk_checkRom] at hstatus
  exact ⟨text, status, htext, hstatus, hsends, hends⟩

/-- The loader has taken a request off the link and answered it. -/
structure Answered (sys : Nvm.Sys) (rom : Nvm.Rom ρ) (s : Link ρ) (call : Call) (t : Link ρ) :
    Prop where
  toLoader : t.toLoader = []
  calls : Link.calls t.log = Link.calls s.log ++ [(call, (call.perform rom s.rom).1)]
  requests : t.requests = s.requests
  received : t.received = s.received
  log : s.log <+: t.log
  ends : EndsSent t.log
  toHost : ∃ text status, sof ∉ text ∧
    (status = Status.success ↔ (call.perform rom s.rom).1 = sys.gNvmErrNoError) ∧
    t.toHost = s.toHost ++ (text ++ encode [Cmd.confirm, status])

theorem Answers.answered {call : Call} {reads : Nat}
    (h : Answers sys rom { s with toLoader := [], reads := reads } call t) :
    Answered sys rom s call t := by
  obtain ⟨text, status, htext, hstatus, ⟨log, hlog, rfl⟩, hends⟩ := h
  refine ⟨rfl, ?_, rfl, rfl, ?_, hends, text, status, htext, hstatus, rfl⟩
  · change Link.calls (s.log ++ [_] ++ log) = _
    rw [Link.calls_append, hlog, List.append_nil, Link.calls_append]
    rfl
  · exact ⟨[.called call (call.perform rom s.rom).1] ++ log, (List.append_assoc _ _ _).symm⟩

/-- One round of the command loop reads a request and answers it. -/
theorem serve_runs (sys : Nvm.Sys) (rom : Nvm.Rom ρ) (nvm : Nvm) (pieces : Nat → Nat)
    (hc : checks.Lawful) {q : Request} (hq : q.Ok) (hs : s.toLoader = encode q.body) :
    ∃ t, Runs (Link.loaderHandler rom pieces) (serve uart1 (flash sys checks nvm)) s () t ∧
      Answered sys rom s (q.call nvm) t := by
  obtain ⟨_, t, hrun, ht⟩ := serve_replied sys rom nvm pieces s hc hq.length hs
  exact ⟨t, hrun, (ht.answers hq).answered⟩

end Answer

end Loader

/-! ## Exchanges -/

namespace Host

variable {ρ : Type} {s : Link ρ}

/-- The state after a write of the host. -/
def wrote (s : Link ρ) (data : List UInt8) : Link ρ :=
  { s with toLoader := s.toLoader ++ data, requests := s.requests ++ [(data, s.received.length)] }

theorem sendFrame_runs {body : List UInt8} (h : body.length < 256 ^ 2) :
    Runs Link.hostHandler (sendFrame body).run s (.ok ()) (wrote s (encode body)) := by
  have he : sendFrame body = ExceptT.lift (serWrite (encode body)) := by
    unfold sendFrame
    rw [buildFrame_eq h]
    rfl
  rw [he]
  exact .lift (.call rfl)

/-- The confirm decides whether the host raises. -/
theorem expectConfirm_runs (what : String) {gap rest : List UInt8} {status : UInt8}
    (hgap : sof ∉ gap) (hs : s.toHost = gap ++ encode [Cmd.confirm, status] ++ rest) :
    ∃ res, Runs Link.hostHandler (expectConfirm what).run s res
        (taken s (gap ++ encode [Cmd.confirm, status]) rest) ∧
      (res = .ok () ↔ status = Status.success) := by
  have hrun : Runs Link.hostHandler readFrame s [Cmd.confirm, status]
      (taken s (gap ++ encode [Cmd.confirm, status]) rest) :=
    readFrame_runs hgap (by simp) hs
  by_cases h : status = Status.success
  · refine ⟨.ok (), Runs.bind_ok (.lift hrun) ?_, fun _ => h, fun _ => rfl⟩
    rw [h]
    exact .pure
  · refine ⟨.error (.runtimeError s!"{what}: failed with status {statusName status}"),
      Runs.bind_ok (.lift hrun) ?_, ⟨(fun h' => nomatch h'), fun h' => absurd h' h⟩⟩
    have h2 : status ≠ 0x02 := h
    simp only [ne_eq, not_true_eq_false, if_false, h2, not_false_eq_true, if_true]
    exact .pure

end Host

section Exchange

variable {ρ : Type} (sys : Nvm.Sys) (rom : Nvm.Rom ρ) (nvm : Nvm)

/-- Nothing is on the link. -/
structure Idle (s : Link ρ) : Prop where
  toLoader : s.toLoader = []
  toHost : s.toHost = []

/-- The error of the request's call. -/
def Request.err (q : Request) (r : ρ) : UInt32 := ((q.call nvm).perform rom r).1

/-- Between two idle states, one request has been answered. -/
structure Served (s : Link ρ) (q : Request) (t : Link ρ) : Prop where
  idle : Idle t
  calls : Link.calls t.log = Link.calls s.log ++ [(q.call nvm, q.err rom nvm s.rom)]
  requests : t.requests = s.requests ++ [(encode q.body, s.received.length)]
  log : s.log <+: t.log
  ends : Loader.EndsSent t.log

variable {checks : Nvm.Checks} {s : Link ρ}

/-- A request and its confirm: the host raises unless the call succeeds. -/
theorem exchange (pieces : Nat → Nat) (hc : checks.Lawful) {q : Request} (hq : q.Ok)
    (what : String) (hs : Idle s) :
    ∃ t res, Joint (Link.loaderHandler rom pieces) Link.hostHandler
        (Loader.commandLoop Loader.uart1 (Loader.flash sys checks nvm))
        (do Host.sendFrame q.body; Host.expectConfirm what : Host.Raising Unit).run s
        (Loader.commandLoop Loader.uart1 (Loader.flash sys checks nvm)) res t ∧
      Served rom nvm s q t ∧ (res = .ok () ↔ q.err rom nvm s.rom = sys.gNvmErrNoError) := by
  have hlen : q.body.length < 256 ^ 2 := Nat.lt_of_le_of_lt hq.length.2 (by decide)
  have hto : (Host.wrote s (encode q.body)).toLoader = encode q.body := by
    rw [Host.wrote, hs.toLoader]
    rfl
  obtain ⟨t₁, hserve, ht⟩ :=
    Loader.serve_runs sys rom nvm pieces hc hq hto
  obtain ⟨text, status, htext, hstatus, htoHost⟩ := ht.toHost
  rw [Host.wrote, hs.toHost, List.nil_append, ← List.append_nil (text ++ _)] at htoHost
  obtain ⟨res, hexpect, hres⟩ := Host.expectConfirm_runs what htext htoHost
  refine ⟨_, res, .bind_ok (.of_runs (Host.sendFrame_runs hlen))
    (.after (fun _ _ => Net.reaches_forever hserve) (.of_runs hexpect)), ?_, hres.trans hstatus⟩
  exact ⟨⟨ht.toLoader, rfl⟩, ht.calls, ht.requests, ht.log, ht.ends⟩

end Exchange

end Mc1322x.Ssl
