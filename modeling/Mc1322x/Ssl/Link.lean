import Mc1322x.Lib.Net
import Mc1322x.Ssl.Host

/-!
# The link between the host and the loader

`Link` is a lossless link that keeps the order of the bytes, with the boot ROM at the loader's end.
A read of the UART takes a piece of the bytes sent, of any size (`pieces`), once they are there;
`Uart.read_piece` is what this stands for. The link also keeps what both sides have done.

The operations of the two ends commute (`commutes`), so the order in which host and loader run does
not change what comes of them (`settles`).
-/

namespace Mc1322x.Ssl

open Proc

/-! ## The loader's operations -/

namespace Loader

/-- The accesses of the loader: its UART, and the calls of the ROM. -/
inductive Access where
  | uartRead (n : Nat)
  | uartWrite (bytes : List UInt8)
  | nvmErase (nvm : Nvm) (bits : UInt32)
  | nvmWrite (nvm : Nvm) (src : List UInt8) (address : UInt32)
  | nvmRead (nvm : Nvm) (address : UInt32) (len : Nat)

/-- The accesses with what they give. -/
abbrev sig : Sig where
  Op := Access
  Ans
    | .uartRead _ => List UInt8
    | .uartWrite _ => Unit
    | .nvmErase _ _ => UInt32
    | .nvmWrite _ _ _ => UInt32
    | .nvmRead _ _ _ => UInt32 × List UInt8

/-- UART1. -/
def uart1 : Uart sig where
  read n := call (S := sig) (.uartRead n)
  writeAll bytes := call (S := sig) (.uartWrite bytes)

/-- The calls of the ROM as accesses. -/
def romCalls : Nvm.RomCalls sig where
  erase nvm bits := call (S := sig) (.nvmErase nvm bits)
  write nvm src address := call (S := sig) (.nvmWrite nvm src address)
  read nvm address len := call (S := sig) (.nvmRead nvm address len)

end Loader

/-! ## The link -/

/-- A call of the ROM. -/
inductive Call where
  | erase (nvm : Nvm) (bits : UInt32)
  | write (nvm : Nvm) (src : List UInt8) (address : UInt32)
  | read (nvm : Nvm) (address : UInt32) (len : Nat)

/-- What the loader does: a call of the ROM, with its error, or bytes sent to the host. -/
inductive Event where
  | called (call : Call) (err : UInt32)
  | sent (bytes : List UInt8)

/-- The two directions of the link, the ROM, and what has been done. -/
structure Link (ρ : Type) where
  toLoader : List UInt8
  toHost : List UInt8
  rom : ρ
  /-- The reads of the UART so far. -/
  reads : Nat
  /-- What the host has written, one entry for each write, with the number of bytes that it had
  read before. -/
  requests : List (List UInt8 × Nat)
  /-- The bytes that the host has read. -/
  received : List UInt8
  /-- What the loader has done. -/
  log : List Event

namespace Link

variable {ρ : Type}

/-- Nothing has been sent yet. -/
def ready (r : ρ) : Link ρ where
  toLoader := []
  toHost := []
  rom := r
  reads := 0
  requests := []
  received := []
  log := []

/-- The bytes that the loader has sent. -/
def sentBytes (log : List Event) : List UInt8 :=
  log.flatMap fun
    | .sent bytes => bytes
    | .called _ _ => []

/-- The calls with their answers. -/
def calls (log : List Event) : List (Call × UInt32) :=
  log.filterMap fun
    | .sent _ => none
    | .called call err => some (call, err)

@[simp] theorem sentBytes_append (l l' : List Event) :
    sentBytes (l ++ l') = sentBytes l ++ sentBytes l' := List.flatMap_append

@[simp] theorem calls_append (l l' : List Event) : calls (l ++ l') = calls l ++ calls l' :=
  List.filterMap_append

section Handlers

variable (rom : Nvm.Rom ρ) (pieces : Nat → Nat)

/-- The size of the read of up to `n` bytes after `reads` reads: at least one. -/
def pieceSize (n reads : Nat) : Nat := max 1 (min (pieces reads) n)

/-- An access of the loader; `none`: it waits. A read takes a piece of what has come, of the size
that `pieces` has for it. -/
def loaderHandler : Handler Loader.sig (Link ρ)
  | .uartRead n, s =>
    if n = 0 then some ([], s)
    else
      let k := pieceSize pieces n s.reads
      if k ≤ s.toLoader.length then
        some (s.toLoader.take k,
          { s with toLoader := s.toLoader.drop k, reads := s.reads + 1 })
      else none
  | .uartWrite bytes, s =>
    some ((), { s with toHost := s.toHost ++ bytes, log := s.log ++ [.sent bytes] })
  | .nvmErase nvm bits, s =>
    let (err, r) := rom.erase nvm bits s.rom
    some (err, { s with rom := r, log := s.log ++ [.called (.erase nvm bits) err] })
  | .nvmWrite nvm src address, s =>
    let (err, r) := rom.write nvm src address s.rom
    some (err, { s with rom := r, log := s.log ++ [.called (.write nvm src address) err] })
  | .nvmRead nvm address len, s =>
    let (x, r) := rom.read nvm address len s.rom
    some (x, { s with rom := r, log := s.log ++ [.called (.read nvm address len) x.1] })

/-- An access of the host; `none`: it waits for all bytes that it reads. -/
def hostHandler : Handler Host.sig (Link ρ)
  | .read size, s =>
    if size ≤ s.toHost.length then
      some (s.toHost.take size,
        { s with toHost := s.toHost.drop size, received := s.received ++ s.toHost.take size })
    else none
  | .write data, s =>
    some ((), { s with toLoader := s.toLoader ++ data,
                       requests := s.requests ++ [(data, s.received.length)] })

variable {rom pieces} {n : Nat} {s s' : Link ρ} {x : List UInt8}

/-- A read of the loader depends on the bytes sent to it and on its number only. -/
theorem uartRead_iff : loaderHandler rom pieces (.uartRead n) s = some (x, s') ↔
    (n = 0 ∧ x = [] ∧ s' = s) ∨
    (n ≠ 0 ∧ pieceSize pieces n s.reads ≤ s.toLoader.length ∧
      x = s.toLoader.take (pieceSize pieces n s.reads) ∧
      s' = { s with toLoader := s.toLoader.drop (pieceSize pieces n s.reads),
                    reads := s.reads + 1 }) := by
  simp only [loaderHandler]
  by_cases hn : n = 0
  · rw [if_pos hn]
    grind
  · rw [if_neg hn]
    by_cases hk : pieceSize pieces n s.reads ≤ s.toLoader.length
    · rw [if_pos hk]
      grind
    · rw [if_neg hk]
      grind

theorem serRead_iff : hostHandler (.read n) s = some (x, s') ↔
    n ≤ s.toHost.length ∧ x = s.toHost.take n ∧
      s' = { s with toHost := s.toHost.drop n, received := s.received ++ s.toHost.take n } := by
  simp only [hostHandler]
  by_cases hk : n ≤ s.toHost.length
  · rw [if_pos hk]
    grind
  · rw [if_neg hk]
    grind

/-- A read of the loader and a write of the host, or the other way round, work on the two ends of a
queue; nothing else is common to both. -/
theorem commutes : Commutes (loaderHandler rom pieces) (hostHandler (ρ := ρ)) := by
  intro o₁ o₂ s x s₁ y s₂ h₁ h₂
  cases o₂ with
  | write data =>
    cases h₂
    cases o₁ with
    | uartRead n =>
      refine ⟨_, rfl, uartRead_iff.mpr ?_⟩
      rcases uartRead_iff.mp h₁ with ⟨rfl, rfl, rfl⟩ | ⟨hn, hk, rfl, rfl⟩
      · exact .inl ⟨rfl, rfl, rfl⟩
      · -- The host writes at the end of the queue, the loader reads at its start.
        refine .inr ⟨hn, ?_, ?_, ?_⟩
        · change pieceSize pieces n s.reads ≤ (s.toLoader ++ data).length
          rw [List.length_append]
          omega
        · rw [List.take_append_of_le_length hk]
        · rw [List.drop_append_of_le_length hk]
    | uartWrite bytes =>
      cases h₁
      exact ⟨_, rfl, rfl⟩
    | nvmErase nvm bits =>
      cases h₁
      exact ⟨_, rfl, rfl⟩
    | nvmWrite nvm src address =>
      cases h₁
      exact ⟨_, rfl, rfl⟩
    | nvmRead nvm address len =>
      cases h₁
      exact ⟨_, rfl, rfl⟩
  | read size =>
    obtain ⟨hk, rfl, rfl⟩ := serRead_iff.mp h₂
    cases o₁ with
    | uartRead n =>
      rcases uartRead_iff.mp h₁ with ⟨rfl, rfl, rfl⟩ | ⟨hn, hl, rfl, rfl⟩
      · exact ⟨_, serRead_iff.mpr ⟨hk, rfl, rfl⟩, uartRead_iff.mpr (.inl ⟨rfl, rfl, rfl⟩)⟩
      · exact ⟨_, serRead_iff.mpr ⟨hk, rfl, rfl⟩, uartRead_iff.mpr (.inr ⟨hn, hl, rfl, rfl⟩)⟩
    | uartWrite bytes =>
      cases h₁
      refine ⟨_, serRead_iff.mpr ⟨?_, ?_, rfl⟩, ?_⟩
      · rw [List.length_append]
        omega
      · rw [List.take_append_of_le_length hk]
      · rw [List.take_append_of_le_length hk, List.drop_append_of_le_length hk]
        rfl
    | nvmErase nvm bits =>
      cases h₁
      exact ⟨_, serRead_iff.mpr ⟨hk, rfl, rfl⟩, rfl⟩
    | nvmWrite nvm src address =>
      cases h₁
      exact ⟨_, serRead_iff.mpr ⟨hk, rfl, rfl⟩, rfl⟩
    | nvmRead nvm address len =>
      cases h₁
      exact ⟨_, serRead_iff.mpr ⟨hk, rfl, rfl⟩, rfl⟩

end Handlers

end Link

/-- `uart1` reads the bytes sent to the loader. -/
theorem Link.uart1_reads {ρ : Type} (rom : Nvm.Rom ρ) (pieces : Nat → Nat) :
    Loader.uart1.Reads (Link.loaderHandler rom pieces) Link.toLoader fun s t =>
      t = { s with toLoader := t.toLoader, reads := t.reads } where
  refl _ := rfl
  trans := by
    intro s t v h h'
    rw [h', h]
  piece := by
    intro n s hn hlen
    have hk : pieceSize pieces n s.reads ≤ n := by
      unfold pieceSize
      omega
    refine ⟨pieceSize pieces n s.reads, _, by unfold pieceSize; omega, hk, .call (uartRead_iff.mpr
      (.inr ⟨by omega, by omega, rfl, rfl⟩)), rfl, rfl⟩
  silent := by
    intro n s a t hn hs hr
    cases hr with
    | op e _ =>
      rcases uartRead_iff.mp e with ⟨rfl, -, -⟩ | ⟨-, hk, -, -⟩
      · omega
      · rw [hs, pieceSize, List.length_nil] at hk
        omega

/-! ## Host and loader -/

section Session

variable {ρ α β : Type} (rom : Nvm.Rom ρ) (pieces : Nat → Nat)

/-- The loader and the host on a link. -/
abbrev Session (ρ α β : Type) := Net Loader.sig Host.sig (Link ρ) α β

/-- A step of the loader or the host. -/
abbrev Session.Step : Session ρ α β → Session ρ α β → Prop :=
  Net.Step (Link.loaderHandler rom pieces) (Link.hostHandler (ρ := ρ))

variable {rom pieces} {c d t : Session ρ α β} {n : Nat}

/-- One run that comes to a stop in `t` is enough: every other run has at most its length, and can
be continued to `t`, and only there does it stop. -/
theorem Session.settles (hp : Steps (Session.Step rom pieces) n c t)
    (ht : Stuck (Session.Step rom pieces) t) {m : Nat}
    (hd : Steps (Session.Step rom pieces) m c d) :
    m ≤ n ∧ Relation.ReflTransGen (Session.Step rom pieces) d t ∧
      (Stuck (Session.Step rom pieces) d → d = t) := by
  obtain ⟨k, rfl, hk⟩ := (Net.diamond Link.commutes).finish ht hp hd
  refine ⟨Nat.le_add_right m k, hk.reach, fun hs => ?_⟩
  cases hk with
  | refl => rfl
  | head hst _ => exact absurd hst (hs _)

end Session

end Mc1322x.Ssl
