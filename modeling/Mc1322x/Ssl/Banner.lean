import Mc1322x.Ssl.Session

/-!
# The banner (`arm_main` before its loop, and `wait_for_ready`)

The loader says what it does until it is ready. The host reads this in pieces, as they come, and
waits for `READY`.

`waitForReady_iff`: `READY` is in `NVM_READY` as well, so the host has read all of the loader's text
only if none of its reads ends between the two.
-/

namespace Mc1322x.Ssl

open Proc Bytes

namespace Loader

section StartUp

variable {S : Sig} (uart : Uart S) (nvm : Nvm.NorFlash S)

/-- The hexadecimal digits of a byte. -/
def hexByte (b : UInt8) : List UInt8 :=
  [digits.getD (b >>> 4).toNat 0, digits.getD (b &&& 0xF).toNat 0]

/-- The loop over `probe`. -/
def writeProbe : List UInt8 → Proc S Unit
  | [] => return ()
  | b :: bs => do
    uart.writeAll (hexByte b)
    writeProbe bs

/-- `arm_main` up to its loop. -/
def startUp : Proc S Unit := do
  uart.writeAll (ascii "UART_OK\r\n")
  uart.writeAll (ascii "NVM_READY\r\n")
  uart.writeAll (ascii "READING\r\n")
  match ← nvm.read 0 16 with
  | .ok probe => do
    uart.writeAll (ascii "READ_OK: ")
    writeProbe uart probe
    uart.writeAll (ascii "\r\n")
  | .error _ => uart.writeAll (ascii "READ_FAILED\r\n")
  uart.writeAll (ascii "READY")

end StartUp

/-- What is written before the probe has been read. -/
def announced : List UInt8 := ascii "UART_OK\r\n" ++ ascii "NVM_READY\r\n" ++ ascii "READING\r\n"

/-- What is written about the probe. -/
def probed : Except Nvm.Error (List UInt8) → List UInt8
  | .ok probe => ascii "READ_OK: " ++ probe.flatMap hexByte ++ ascii "\r\n"
  | .error _ => ascii "READ_FAILED\r\n"

/-- All that is written before the command loop. -/
def banner (r : Except Nvm.Error (List UInt8)) : List UInt8 :=
  announced ++ probed r ++ ascii "READY"

section Runs

variable {ρ : Type}

theorem writeProbe_runs (rom : Nvm.Rom ρ) (pieces : Nat → Nat) (s : Link ρ) (probe : List UInt8) :
    ∃ t, Runs (Link.loaderHandler rom pieces) (writeProbe uart1 probe) s () t ∧
      Sends s t (probe.flatMap hexByte) := by
  induction probe generalizing s with
  | nil => exact ⟨s, .pure, [], rfl, by simp⟩
  | cons b bs ih =>
    obtain ⟨t, hrun, ht⟩ := ih (written s (hexByte b))
    exact ⟨t, writeAll_runs.bind hrun, (written_sends s _).trans ht⟩

/-- A read of the flash sends nothing. -/
theorem nvmRead_runs (sys : Nvm.Sys) (checks : Nvm.Checks) (rom : Nvm.Rom ρ) (nvm : Nvm)
    (pieces : Nat → Nat) (s : Link ρ) (address : UInt32) (len : Nat) :
    ∃ r t, Runs (Link.loaderHandler rom pieces) ((flash sys checks nvm).read address len) s r t ∧
      t.toHost = s.toHost := by
  change ∃ r t, Runs _ (Nvm.read sys checks romCalls nvm address len) s r t ∧ _
  unfold Nvm.read
  cases checks.read Nvm.capacity 1 address len with
  | error kind => exact ⟨_, s, .pure, rfl⟩
  | ok _ => exact ⟨_, _, Runs.bind (.call rfl) .pure, rfl⟩

/-- Before the command loop, the loader writes the banner. -/
theorem startUp_runs (sys : Nvm.Sys) (checks : Nvm.Checks) (rom : Nvm.Rom ρ) (nvm : Nvm)
    (pieces : Nat → Nat) (s : Link ρ) :
    ∃ r t, Runs (Link.loaderHandler rom pieces) (startUp uart1 (flash sys checks nvm)) s () t ∧
      t.toHost = s.toHost ++ banner r := by
  let s₁ := written (written (written s (ascii "UART_OK\r\n")) (ascii "NVM_READY\r\n"))
    (ascii "READING\r\n")
  have h₁ : Sends s s₁ announced :=
    ((written_sends s _).trans (written_sends _ _)).trans (written_sends _ _)
  obtain ⟨r, s₂, hread, h₂⟩ := nvmRead_runs sys checks rom nvm pieces s₁ 0 16
  cases r with
  | ok probe =>
    obtain ⟨s₃, hprobe, h₃⟩ := writeProbe_runs rom pieces (written s₂ (ascii "READ_OK: ")) probe
    have hend := (((written_sends s₂ _).trans h₃).trans (written_sends s₃ (ascii "\r\n"))).trans
      (written_sends _ (ascii "READY"))
    refine ⟨.ok probe, _, writeAll_runs.bind (writeAll_runs.bind (writeAll_runs.bind
      (hread.bind (writeAll_runs.bind (hprobe.bind (writeAll_runs.bind writeAll_runs)))))), ?_⟩
    rw [hend.toHost, h₂, h₁.toHost, List.append_assoc, ← List.append_assoc announced]
    rfl
  | error e =>
    have hend := (written_sends s₂ (ascii "READ_FAILED\r\n")).trans
      (written_sends _ (ascii "READY"))
    refine ⟨.error e, _, writeAll_runs.bind (writeAll_runs.bind (writeAll_runs.bind
      (hread.bind (writeAll_runs.bind writeAll_runs)))), ?_⟩
    rw [hend.toHost, h₂, h₁.toHost, List.append_assoc, ← List.append_assoc announced]
    rfl

end Runs

end Loader

/-! ## The host -/

namespace Host

/-- The accesses of `wait_for_ready`. -/
inductive PortAccess where
  | read (size : Nat)
  | beforeDeadline

/-- The accesses with what they give. -/
abbrev portSig : Sig where
  Op := PortAccess
  Ans
    | .read _ => List UInt8
    | .beforeDeadline => Bool

/-- `ser.read`, which returns what has come when its timeout is over. -/
def portRead (size : Nat) : Proc portSig (List UInt8) := call (S := portSig) (.read size)

/-- `time.time() < deadline`. -/
def beforeDeadline : Proc portSig Bool := call (S := portSig) .beforeDeadline

/-- The exception of `wait_for_ready`. -/
inductive TimedOut where
  | timeoutError (message : String)
  deriving DecidableEq

/-- The text that the host waits for. -/
def ready : List UInt8 := ascii "READY"

/-- One round of the loop of `wait_for_ready`. -/
def waitRound (buf : List UInt8) : ExceptT TimedOut (Proc portSig) (List UInt8 ⊕ Unit) := do
  if ← beforeDeadline then
    let buf := buf ++ (← portRead 64)
    if ready <:+: buf then return .inr () else return .inl buf
  else
    throw (.timeoutError "never saw READY - is ssl running and connected to the right port?")

/-- `wait_for_ready`. -/
def waitForReady : ExceptT TimedOut (Proc portSig) Unit := iterateE [] waitRound

/-- The serial port: what the loader has sent and the host has not read, what it has read, and the
reads so far. -/
structure Port where
  stream : List UInt8
  received : List UInt8
  reads : Nat

namespace Port

variable (sizes : Nat → Nat) (clock : Nat → Bool)

/-- A read returns any number of the next bytes, as `sizes` has it; the deadline comes when `clock`
has it. -/
def handler : Handler portSig Port
  | .read size, p =>
    let k := min size (sizes p.reads)
    some (p.stream.take k,
      { stream := p.stream.drop k, received := p.received ++ p.stream.take k, reads := p.reads + 1 })
  | .beforeDeadline, p => some (clock p.reads, p)

/-- The bytes of the first `n` reads. -/
def total (n : Nat) : Nat := ((List.range n).map fun i => min 64 (sizes i)).sum

/-- The port after `n` reads. -/
def after (stream : List UInt8) (n : Nat) : Port where
  stream := stream.drop (total sizes n)
  received := stream.take (total sizes n)
  reads := n

variable {sizes clock}

theorem total_succ (n : Nat) : total sizes (n + 1) = total sizes n + min 64 (sizes n) := by
  unfold total
  rw [List.range_succ, List.map_append, List.sum_append]
  simp

theorem total_mono {m n : Nat} (h : m ≤ n) : total sizes m ≤ total sizes n := by
  induction h with
  | refl => exact Nat.le_refl _
  | step _ ih =>
    rw [total_succ]
    exact Nat.le_add_right_of_le ih

/-- One more read. -/
theorem portRead_runs (stream : List UInt8) (n : Nat) :
    Runs (handler sizes clock) (portRead 64) (after sizes stream n)
      ((stream.drop (total sizes n)).take (min 64 (sizes n))) (after sizes stream (n + 1)) := by
  refine .call ?_
  simp only [handler, after, total_succ, List.take_add, List.drop_drop]

/-- A round after `n` reads. -/
theorem waitRound_runs (sizes : Nat → Nat) (clock : Nat → Bool) (stream : List UInt8) (n : Nat) :
    (clock n = true → Runs (handler sizes clock) (waitRound (stream.take (total sizes n))).run
      (after sizes stream n)
      (if ready <:+: stream.take (total sizes (n + 1)) then .ok (.inr ())
        else .ok (.inl (stream.take (total sizes (n + 1))))) (after sizes stream (n + 1))) ∧
    (clock n = false → ∃ e, Runs (handler sizes clock) (waitRound (stream.take (total sizes n))).run
      (after sizes stream n) (.error e) (after sizes stream n)) := by
  have hclock : Runs (handler sizes clock) beforeDeadline (after sizes stream n) (clock n)
      (after sizes stream n) := .call rfl
  constructor
  · intro hc
    rw [hc] at hclock
    refine Runs.bind_ok (.lift hclock) (Runs.bind_ok (.lift (portRead_runs stream n)) ?_)
    rw [← List.take_add, ← total_succ]
    dsimp only
    by_cases h : ready <:+: stream.take (total sizes (n + 1))
    · rw [if_pos h, if_pos h]
      exact .pure
    · rw [if_neg h, if_neg h]
      exact .pure
  · intro hc
    rw [hc] at hclock
    exact ⟨_, Runs.bind_ok (.lift hclock) .pure⟩

end Port

section Ready

open Port

variable {sizes : Nat → Nat} {clock : Nat → Bool} {r : Except Nvm.Error (List UInt8)}

/-- `READY` is in what has been read from the end of `NVM_READY` on. -/
theorem ready_infix_iff (k : Nat) : ready <:+: (Loader.banner r).take k ↔ 18 ≤ k := by
  have hb : Loader.banner r = ascii "UART_OK\r\nNVM_READY" ++
      (ascii "\r\nREADING\r\n" ++ (Loader.probed r ++ ascii "READY")) := by
    rw [← List.append_assoc, ← List.append_assoc]
    rfl
  have hlen : (ascii "UART_OK\r\nNVM_READY").length = 18 := by decide
  constructor
  · intro h
    refine Nat.le_of_not_lt fun hk => ?_
    have hshort : ∀ k < 18, ¬ ready <:+: (ascii "UART_OK\r\nNVM_READY").take k := by decide
    rw [hb, List.take_append_of_le_length (by omega)] at h
    exact hshort k hk h
  · intro hk
    have hin : ready <:+: ascii "UART_OK\r\nNVM_READY" := by decide
    rw [hb, List.take_append, List.take_of_length_le (by omega)]
    exact hin.trans (List.prefix_append _ _).isInfix

/-- Where `wait_for_ready` has returned, `READY` is in what has been read. -/
theorem waitForReady_reads {stream : List UInt8} {res : Except TimedOut Unit} {p : Port}
    (h : Runs (handler sizes clock) waitForReady.run (after sizes stream 0) res p) :
    ∃ n, p = after sizes stream n ∧
      (res = .ok () → ready <:+: stream.take (total sizes n)) := by
  -- The buffer is what has been read so far.
  refine Runs.iterate_induct
    (I := fun buf q => ∃ n, q = after sizes stream n ∧ buf = stream.take (total sizes n))
    (Q := fun res q => ∃ n, q = after sizes stream n ∧
      (res = .ok () → ready <:+: stream.take (total sizes n))) ?_ h ⟨0, rfl, rfl⟩
  rintro _ _ x q ⟨n, rfl, rfl⟩ hb
  obtain ⟨r, q', hround, hx⟩ := hb.of_bind
  cases hx
  obtain ⟨htime, hover⟩ := waitRound_runs sizes clock stream n
  cases hc : clock n with
  | true =>
    obtain ⟨rfl, rfl⟩ := hround.det (htime hc)
    by_cases hready : ready <:+: stream.take (total sizes (n + 1))
    · rw [if_pos hready]
      exact ⟨n + 1, rfl, fun _ => hready⟩
    · rw [if_neg hready]
      exact ⟨n + 1, rfl, rfl⟩
  | false =>
    obtain ⟨e, he⟩ := hover hc
    obtain ⟨rfl, rfl⟩ := hround.det he
    exact ⟨n, rfl, nofun⟩

/-- Where the deadline does not come, `wait_for_ready` returns after the first read that ends after
`NVM_READY`. -/
theorem waitForReady_returns {n : Nat} (hn : 18 ≤ total sizes n) {j : Nat} (hj : j ≤ n)
    (hlow : total sizes j < 18) :
    ∃ m, m ≤ n ∧ 18 ≤ total sizes m ∧ Runs (handler sizes fun _ => true)
      (iterateE ((Loader.banner r).take (total sizes j)) waitRound).run
      (after sizes (Loader.banner r) j) (.ok ()) (after sizes (Loader.banner r) m) := by
  induction hd : n - j generalizing j with
  | zero =>
    have he : j = n := by omega
    rw [he] at hlow
    omega
  | succ d ih =>
    have hround := (waitRound_runs sizes (fun _ => true) (Loader.banner r) j).1 rfl
    by_cases hnext : 18 ≤ total sizes (j + 1)
    · rw [if_pos ((ready_infix_iff _).mpr hnext)] at hround
      exact ⟨j + 1, by omega, hnext, .iterateE_exit hround⟩
    · rw [if_neg fun h => hnext ((ready_infix_iff _).mp h)] at hround
      obtain ⟨m, hm, hm18, hrun⟩ := ih (show j + 1 ≤ n by omega) (by omega) (by omega)
      exact ⟨m, hm, hm18, .iterateE_next hround hrun⟩

/-- Whenever `wait_for_ready` returns, the host has read the whole text of the loader. -/
def ReadsAll (sizes : Nat → Nat) (stream : List UInt8) : Prop :=
  ∀ clock p, Runs (handler sizes clock) waitForReady.run ⟨stream, [], 0⟩ (.ok ()) p →
    p.received = stream

theorem readsAll_iff : ReadsAll sizes (Loader.banner r) ↔
    ∀ n, total sizes n < 18 ∨ (Loader.banner r).length ≤ total sizes n := by
  constructor
  · intro h n
    refine Decidable.byContradiction fun hn => ?_
    have h0 : total sizes 0 = 0 := rfl
    obtain ⟨m, hm, -, hrun⟩ := waitForReady_returns (show 18 ≤ total sizes n by omega)
      (Nat.zero_le n) (by omega)
    have hall : (Loader.banner r).take (total sizes m) = Loader.banner r := h _ _ hrun
    have hmono : total sizes m ≤ total sizes n := total_mono hm
    have hlen := congrArg List.length hall
    rw [List.length_take] at hlen
    omega
  · intro h clock p hrun
    obtain ⟨n, rfl, hready⟩ := waitForReady_reads hrun
    have h18 := (ready_infix_iff _).mp (hready rfl)
    rcases h n with hn | hn
    · omega
    · exact List.take_of_length_le hn

end Ready

/-- **The host waits for the whole banner** exactly where none of its reads ends after `NVM_READY`
and before the end of `READY`. -/
theorem waitForReady_iff {ρ : Type} (sys : Nvm.Sys) (checks : Nvm.Checks) (rom : Nvm.Rom ρ)
    (nvm : Nvm) (pieces : Nat → Nat) (s : Link ρ) :
    ∃ text t, Runs (Link.loaderHandler rom pieces)
        (Loader.startUp Loader.uart1 (Loader.flash sys checks nvm)) s () t ∧
      t.toHost = s.toHost ++ text ∧
      ∀ sizes, ReadsAll sizes text ↔
        ∀ n, Port.total sizes n < 18 ∨ text.length ≤ Port.total sizes n := by
  obtain ⟨r, t, hrun, ht⟩ := Loader.startUp_runs sys checks rom nvm pieces s
  exact ⟨Loader.banner r, t, hrun, ht, fun sizes => readsAll_iff⟩

/-- A first read of 20 bytes ends before the flash has been read. -/
theorem waitForReady_early : ∃ p, Runs (Port.handler (fun _ => 20) fun _ => true) waitForReady.run
      ⟨Loader.banner (.ok (List.replicate 16 0)), [], 0⟩ (.ok ()) p ∧
    p.received = ascii "UART_OK\r\nNVM_READY\r\n" ∧
    ¬ ReadsAll (fun _ => 20) (Loader.banner (.ok (List.replicate 16 0))) := by
  have hround := (Port.waitRound_runs (fun _ => 20) (fun _ => true)
    (Loader.banner (.ok (List.replicate 16 0))) 0).1 rfl
  rw [if_pos ((ready_infix_iff _).mpr (by decide))] at hround
  have hrun := Runs.iterateE_exit hround
  refine ⟨_, hrun, by decide, fun h => ?_⟩
  exact absurd (h _ _ hrun) (by decide)

end Host

end Mc1322x.Ssl
