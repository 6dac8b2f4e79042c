import Mc1322x.Ssl.Flashing
import Mc1322x.Ssl.Rounds

/-!
# The reserved sector

Whether the calls that the loader makes of the ROM leave the last sector alone.

* `touches_iff`: the frames that ask for a call that does not.
* `Rounds.calls`: the calls of rounds of the command loop are those that its frames ask for.
* `Host.flashImage_runs`: the frames of `flash_image`, whatever the size of the image.
-/

namespace Mc1322x.Ssl

open Proc Bytes

/-- A byte that a call erases or programs. -/
def Call.Touches : Call → Nat → Prop
  | .erase _ bits, a => bits.toNat.testBit (a / Nvm.sectorSize) = true
  | .write _ src address, a => address.toNat ≤ a ∧ a < address.toNat + src.length
  | .read _ _ _, _ => False

/-- A byte of the last sector, which is reserved. -/
def Reserved (a : Nat) : Prop := 31 * 4096 ≤ a ∧ a < 32 * 4096

namespace Loader

/-- An erase of the reserved sector, or a write that comes to it. -/
def ReachesReserved (frame : List UInt8) : Prop :=
  let address := (u32At frame 1).toNat
  let dataLen := u16At frame 5
  (frame.headD 0 = Cmd.eraseRequest ∧ frame.length = 5 ∧ Reserved address) ∨
  (frame.headD 0 = Cmd.writeRequest ∧ frame.length = 7 + dataLen ∧ 0 < dataLen ∧
    31 * 4096 < address + dataLen ∧ address + dataLen ≤ 32 * 4096)

/-- These are the frames that ask for a call that touches it. -/
theorem touches_iff (nvm : Nvm) {frame : List UInt8} :
    (∃ call a, romCall nvm frame = some call ∧ Reserved a ∧ call.Touches a) ↔
      ReachesReserved frame := by
  have hsize : Nvm.sectorSize = 4096 := rfl
  have hcap : Nvm.capacity = 131072 := rfl
  constructor
  · rintro ⟨call, a, hcall, hres, htouch⟩
    unfold Reserved at hres
    -- An erase of everything and a commit stay below the last sector.
    obtain ⟨-, -, -, rfl⟩ | ⟨hid, hlen, -, haddr, rfl⟩ | ⟨hid, hlen, hfits, rfl⟩ |
      ⟨-, -, sig, hsig, rfl⟩ | ⟨-, -, rfl⟩ := romCall_cases hcall
    · rw [Call.Touches, Nvm.testBit_sector (by decide) (by omega), hsize] at htouch
      omega
    · rw [hcap] at haddr
      rw [Call.Touches, Nvm.testBit_sector (by rw [hsize]; omega) (by omega), hsize] at htouch
      have hin : 31 * 4096 ≤ (u32At frame 1).toNat := by omega
      exact .inl ⟨hid, hlen, hin, haddr⟩
    · obtain ⟨hle, hlt⟩ := htouch
      rw [List.length_drop] at hlt
      exact .inr ⟨hid, hlen, by omega, by omega, by omega⟩
    · have hfour : sig.length = 4 := length_signature hsig
      obtain ⟨-, hlt⟩ := htouch
      rw [List.length_append, hfour, length_le] at hlt
      have h0 : (0 : UInt32).toNat = 0 := rfl
      omega
    · exact htouch.elim
  · rintro (⟨hid, hlen, hres⟩ | ⟨hid, hlen, hpos, hlt, hle⟩)
    · -- The address of the whole chip is not in the last sector.
      have hwhole : u32At frame 1 ≠ 0xFFFFFFFF := by
        intro h
        rw [h] at hres
        exact absurd hres.2 (by decide)
      have hlow : (u32At frame 1).toNat < Nvm.capacity := hres.2
      have hcall := romCall_erase nvm hid hlen
      rw [if_neg hwhole, if_pos hlow] at hcall
      refine ⟨_, (u32At frame 1).toNat, hcall, hres, ?_⟩
      rw [Call.Touches, Nvm.testBit_sector (by rw [hsize]; omega) hlow, hsize]
      omega
    · have hcall := romCall_write nvm hid (show 7 ≤ frame.length by omega)
      rw [if_pos ⟨hlen, hle⟩] at hcall
      refine ⟨_, (u32At frame 1).toNat + u16At frame 5 - 1, hcall, ?_, ?_⟩
      · unfold Reserved
        omega
      · rw [Call.Touches, List.length_drop]
        omega

section Calls

variable {ρ : Type} {sys : Nvm.Sys} {checks : Nvm.Checks} {rom : Nvm.Rom ρ} {nvm : Nvm}
  {pieces : Nat → Nat} {s t : Link ρ} {cs : List (List UInt8)}

theorem read_log {n : Nat} {bytes : List UInt8}
    (h : Runs (Link.loaderHandler rom pieces) (uart1.read n) s bytes t) : t.log = s.log := by
  cases h with
  | op e hk =>
    cases hk
    rcases Link.uartRead_iff.mp e with ⟨-, -, rfl⟩ | ⟨-, -, -, rfl⟩
    · rfl
    · rfl

theorem scan_log (h : Runs (Link.loaderHandler rom pieces) (scan uart1) s () t) :
    t.log = s.log := by
  refine Runs.iterate_induct (I := fun _ u => u.log = s.log) (Q := fun _ u => u.log = s.log) ?_ h rfl
  intro _ u x v hu hb
  obtain ⟨bytes, w, hread, hb⟩ := hb.of_bind
  have hw := (read_log hread).trans hu
  split at hb
  · cases hb
    exact hw
  · split at hb
    · cases hb
      exact hw
    · cases hb
      exact hw

theorem readExact_log {len : Nat} {bytes : List UInt8}
    (h : Runs (Link.loaderHandler rom pieces) (readExact uart1 len) s bytes t) :
    t.log = s.log := by
  refine Runs.iterate_induct (I := fun _ u => u.log = s.log) (Q := fun _ u => u.log = s.log) ?_ h rfl
  intro buf u x v hu hb
  split at hb
  · obtain ⟨bytes, w, hread, hb⟩ := hb.of_bind
    cases hb
    exact (read_log hread).trans hu
  · cases hb
    exact hu

/-- To read a frame, the loader makes no call of the ROM. -/
theorem readFrame_calls {n : Nat} {frame : Option (List UInt8)}
    (h : Runs (Link.loaderHandler rom pieces) (readFrame uart1 n) s frame t) :
    Link.calls t.log = Link.calls s.log := by
  obtain ⟨_, s₁, hscan, h⟩ := h.of_bind
  obtain ⟨_, s₂, hlen, h⟩ := h.of_bind
  have h₂ := (readExact_log hlen).trans (scan_log hscan)
  dsimp only at h
  split at h
  · cases h
    rw [h₂]
  · obtain ⟨buf, s₃, hbuf, h⟩ := h.of_bind
    obtain ⟨_, s₄, hcrc, h⟩ := h.of_bind
    have h₄ := (readExact_log hcrc).trans ((readExact_log hbuf).trans h₂)
    split at h
    · obtain ⟨_, s₅, hsend, h⟩ := h.of_bind
      cases h
      obtain ⟨t', hrun, ⟨log, hlog, rfl⟩, -⟩ := sendConfirm_runs rom pieces s₄ Status.crcError
      obtain ⟨-, rfl⟩ := hsend.det hrun
      rw [Link.calls_append, hlog, List.append_nil, h₄]
    · cases h
      rw [h₄]

theorem dispatched_calls {c : List UInt8} (h : Dispatched sys rom nvm c s t) :
    ∃ l, Link.calls t.log = Link.calls s.log ++ l ∧ l.map Prod.fst = (romCall nvm c).toList := by
  obtain ⟨_, _, _, -, -, log, hlog, rfl⟩ := h
  rw [Link.calls_append, hlog, List.append_nil]
  cases romCall nvm c with
  | none => exact ⟨[], (List.append_nil _).symm, rfl⟩
  | some call => exact ⟨[(call, _)], Link.calls_append _ _, rfl⟩

/-- The calls of rounds of the command loop are those that the frames ask for. -/
theorem Rounds.calls (hc : checks.Lawful) (h : Rounds sys checks rom nvm pieces s cs t) :
    ∃ l, Link.calls t.log = Link.calls s.log ++ l ∧
      l.map Prod.fst = cs.filterMap (romCall nvm) := by
  induction h with
  | nil => exact ⟨[], (List.append_nil _).symm, rfl⟩
  | skip hread _ ih =>
    obtain ⟨l, hl, hm⟩ := ih
    exact ⟨l, by rw [hl, readFrame_calls hread], hm⟩
  | @frame s t u v c cs hread hhandle _ ih =>
    obtain ⟨l, hl, hm⟩ := ih
    obtain ⟨u', hrun, hd⟩ := handle_dispatched sys rom nvm pieces t hc c
    obtain ⟨-, rfl⟩ := hhandle.det hrun
    obtain ⟨l', hl', hm'⟩ := dispatched_calls hd
    refine ⟨l' ++ l, ?_, ?_⟩
    · rw [hl, hl', readFrame_calls hread, List.append_assoc]
    · rw [List.map_append, hm, hm']
      cases hcall : romCall nvm c with
      | none => rw [List.filterMap_cons_none hcall]; rfl
      | some call => rw [List.filterMap_cons_some hcall]; rfl

end Calls

end Loader

/-! ## `flash_image` -/

theorem write_mem_writes {image : List UInt8} {offset : Nat} (k : Nat)
    (h : offset + 512 * k < image.length) :
    Request.write (8 + (offset + 512 * k)) (chunk image (offset + 512 * k)) ∈
      writes image offset := by
  induction k generalizing offset with
  | zero =>
    rw [writes_of_lt (by omega)]
    exact List.mem_cons_self
  | succ k ih =>
    have hlen : (chunk image offset).length = 512 := by
      rw [length_chunk]
      omega
    have he : offset + 512 * (k + 1) = offset + 512 + 512 * k := by omega
    rw [writes_of_lt (by omega), hlen, he]
    exact List.mem_cons_of_mem _ (ih (by omega))

namespace Request

/-- The address of a write fits into its four bytes. -/
def fits : Request → Bool
  | write address _ => address < 256 ^ 4
  | _ => true

/-- The write of a chunk comes to the reserved sector where it ends in it. -/
theorem reachesReserved_write {i : Nat} {data : List UInt8} (hi : 8 + i < 256 ^ 4)
    (hpos : 0 < data.length) (hlen : data.length ≤ 512) :
    Loader.ReachesReserved (write (8 + i) data).body ↔
      31 * 4096 < 8 + i + data.length ∧ 8 + i + data.length ≤ 32 * 4096 := by
  have haddr : (UInt32.ofNat (8 + i)).toNat = 8 + i := by
    rw [UInt32.toNat_ofNat']
    omega
  have hlength : (write (8 + i) data).body.length = 7 + data.length := by
    simp [body]
    omega
  have hid : (write (8 + i) data).body.headD 0 = Cmd.writeRequest := rfl
  have hu32 : Loader.u32At (write (8 + i) data).body 1 = .ofNat (8 + i) := Loader.u32At_le hi
  have hu16 : Loader.u16At (write (8 + i) data).body 5 = data.length :=
    Loader.u16At_le (by omega)
  unfold Loader.ReachesReserved
  rw [hid, hlength, hu32, hu16, haddr]
  constructor
  · rintro (⟨h, -⟩ | ⟨-, -, -, h⟩)
    · exact absurd h (by decide)
    · exact h
  · exact fun h => .inr ⟨rfl, rfl, hpos, h⟩

theorem not_reachesReserved_erase : ¬ Loader.ReachesReserved erase.body := by
  rintro (⟨-, -, -, h⟩ | ⟨h, -⟩)
  · exact absurd h (by decide)
  · exact absurd h (by decide)

theorem not_reachesReserved_commit {imageLen : Nat} {secure : UInt8} :
    ¬ Loader.ReachesReserved (commit imageLen secure).body := by
  rintro (⟨h, -⟩ | ⟨h, -⟩)
  · exact absurd h (by decide : ¬ Cmd.commitRequest = Cmd.eraseRequest)
  · exact absurd h (by decide : ¬ Cmd.commitRequest = Cmd.writeRequest)

end Request

namespace Host

variable {ρ : Type} {s : Link ρ}

/-- Confirms of `n` requests, all with success. -/
def confirms (n : Nat) : List UInt8 :=
  (List.replicate n (encode [Cmd.confirm, Status.success])).flatten

/-- A request that is confirmed. -/
theorem request_runs {body : List UInt8} (h : body.length < 256 ^ 2) (what : String) {n : Nat}
    (hs : s.toHost = confirms (n + 1)) :
    ∃ t, Runs Link.hostHandler (do sendFrame body; expectConfirm what : Raising Unit).run s
        (.ok ()) t ∧ t.toLoader = s.toLoader ++ encode body ∧ t.toHost = confirms n := by
  obtain ⟨res, hrun, hres⟩ := expectConfirm_runs (s := wrote s (encode body)) what
    List.not_mem_nil hs
  rw [hres.mpr rfl] at hrun
  exact ⟨_, Runs.bind_ok (sendFrame_runs h) hrun, rfl, rfl⟩

variable {image : List UInt8}

/-- The loop sends the writes of the image, as far as their addresses fit. -/
theorem writes_runs {offset n : Nat} (hs : s.toHost = confirms n)
    (hn : (writes image offset).length ≤ n) :
    ∃ res t, Runs Link.hostHandler (iterateE offset (writeChunk image)).run s res t ∧
      t.toLoader = s.toLoader ++
        Loader.wire (((writes image offset).filter Request.fits).map Request.body) ∧
      ∃ m, n - (writes image offset).length ≤ m ∧ t.toHost = confirms m := by
  -- The induction is on what is left of the image.
  induction hd : image.length - offset using Nat.strongRecOn generalizing offset n s with
  | ind d ih =>
    by_cases hlt : offset < image.length
    · have hlen := length_chunk image offset
      rw [writes_of_lt hlt] at hn ⊢
      obtain ⟨n, rfl⟩ := Nat.exists_eq_succ_of_ne_zero (Nat.ne_zero_of_lt hn)
      by_cases haddr : 8 + offset < 256 ^ 4
      · have hbody : (Request.write (8 + offset) (chunk image offset)).body.length < 256 ^ 2 := by
          simp [Request.body]
          omega
        obtain ⟨t, hrun, hto, hhost⟩ := request_runs hbody
          s!"Write @0x{hex 6 (8 + offset)} ({(chunk image offset).length} bytes)" hs
        obtain ⟨res, u, hrun', hto', m, hm, hhost'⟩ :=
          ih (image.length - (offset + (chunk image offset).length)) (by omega) hhost
            (Nat.le_of_succ_le_succ hn) rfl
        refine ⟨res, u, .iterateE_next ?_ hrun', ?_, m, ?_, hhost'⟩
        · rw [writeChunk_eq hlt haddr]
          exact Runs.bind_ok hrun .pure
        · rw [List.filter_cons_of_pos (by simpa [Request.fits] using haddr), List.map_cons,
            Loader.wire_cons, hto', hto, List.append_assoc]
        · rw [List.length_cons]
          omega
      · have hraise : toBytes (headerSize + offset) 4 = .error .overflowError := if_neg haddr
        refine ⟨.error .overflowError, s, .iterateE_error ?_, ?_, _, Nat.sub_le _ _, hs⟩
        · unfold writeChunk
          rw [if_pos hlt]
          dsimp only
          rw [hraise]
          exact .pure
        · -- No later address fits either, so nothing more is sent.
          have hnone : ∀ q ∈ writes image offset, q.fits = false := by
            intro q hq
            obtain ⟨i, hi, -, rfl⟩ := mem_writes hq
            exact decide_eq_false (by omega)
          rw [← writes_of_lt hlt, List.filter_eq_nil_iff.mpr (by simpa using hnone), List.map_nil]
          exact (List.append_nil _).symm
    · refine ⟨.ok (), s, .iterateE_exit ?_, ?_, n, Nat.sub_le _ _, hs⟩
      · unfold writeChunk
        rw [if_neg hlt]
        exact .pure
      · rw [writes_of_ge hlt]
        exact (List.append_nil _).symm

/-- The frames of `flash_image`. -/
theorem flashImage_runs (secure : UInt8)
    (hs : s.toHost = confirms ((writes image 0).length + 2)) :
    ∃ res t qs, Runs Link.hostHandler (flashImage image secure).run s res t ∧
      t.toLoader = s.toLoader ++ Loader.wire (qs.map Request.body) ∧
      (qs = .erase :: (writes image 0).filter Request.fits ∨
        qs = .erase :: ((writes image 0).filter Request.fits ++
          [.commit image.length secure])) := by
  have hbody : Request.erase.body.length < 256 ^ 2 := by decide
  obtain ⟨t₁, herase, hto₁, hhost₁⟩ := request_runs hbody "Erase" hs
  rw [← eraseAll_eq] at herase
  obtain ⟨res, t₂, hwrites, hto₂, m, hm, hhost₂⟩ := writes_runs hhost₁ (Nat.le_succ _)
  rw [hto₁, List.append_assoc, ← Loader.wire_cons, ← List.map_cons] at hto₂
  unfold flashImage
  cases res with
  | error e => exact ⟨_, t₂, _, herase.bind_ok hwrites.bind_error, hto₂, .inl rfl⟩
  | ok _ =>
    by_cases hlen : image.length < 256 ^ 4
    · obtain ⟨m, rfl⟩ := Nat.exists_eq_succ_of_ne_zero (by omega : m ≠ 0)
      have hbody : (Request.commit image.length secure).body.length < 256 ^ 2 := by
        simp [Request.body]
      obtain ⟨t₃, hcommit, hto₃, -⟩ := request_runs hbody "Commit" hhost₂
      rw [← commit_eq hlen] at hcommit
      refine ⟨_, t₃, _, herase.bind_ok (hwrites.bind_ok hcommit), ?_, .inr rfl⟩
      rw [hto₃, hto₂, ← List.cons_append, List.map_append, Loader.wire_append, List.append_assoc]
      simp [Loader.wire]
    · -- An image that does not fit into four bytes of length is not committed.
      have hraise : commit image secure = throw .overflowError := by
        have hb : toBytes image.length 4 = .error .overflowError := if_neg hlen
        unfold commit
        rw [hb]
        rfl
      refine ⟨.error .overflowError, t₂, _, herase.bind_ok (hwrites.bind_ok ?_), hto₂, .inl rfl⟩
      rw [hraise]
      exact .pure

/-- The writes of an image come to the reserved sector where the image does. -/
theorem writes_reach_iff :
    (∀ q ∈ (writes image 0).filter Request.fits, ¬ Loader.ReachesReserved q.body) ↔
      image.length ≤ 31 * 4096 - 8 := by
  constructor
  · intro h
    refine Nat.le_of_not_lt fun hlong => ?_
    -- The chunk at 247 * 512 ends in the sector.
    have hlen := length_chunk image (0 + 512 * 247)
    refine h (.write (8 + (0 + 512 * 247)) (chunk image (0 + 512 * 247)))
      (List.mem_filter.mpr ⟨write_mem_writes 247 (by omega), rfl⟩) ?_
    rw [Request.reachesReserved_write (by decide) (by omega) (by omega)]
    omega
  · intro himage q hq
    obtain ⟨hq, hfits⟩ := List.mem_filter.mp hq
    obtain ⟨i, -, hi, rfl⟩ := mem_writes hq
    have hlen := length_chunk image i
    rw [Request.reachesReserved_write (of_decide_eq_true hfits) (by omega) (by omega)]
    omega

theorem flashImage_reaches_iff {secure : UInt8} {qs : List Request}
    (h : qs = .erase :: (writes image 0).filter Request.fits ∨
      qs = .erase :: ((writes image 0).filter Request.fits ++ [.commit image.length secure])) :
    (∀ q ∈ qs, ¬ Loader.ReachesReserved q.body) ↔ image.length ≤ 31 * 4096 - 8 := by
  rw [← writes_reach_iff]
  rcases h with rfl | rfl
  · rw [List.forall_mem_cons]
    exact and_iff_right Request.not_reachesReserved_erase
  · rw [List.forall_mem_cons, and_iff_right Request.not_reachesReserved_erase,
      List.forall_mem_append]
    refine and_iff_left fun q hq => ?_
    rw [List.mem_singleton.mp hq]
    exact Request.not_reachesReserved_commit

end Host

namespace Loader

section Untouched

variable {ρ : Type} {checks : Nvm.Checks}

/-- The calls made from `s` to `t` leave the reserved sector alone. -/
def Untouched (s t : Link ρ) : Prop :=
  ∃ l, Link.calls t.log = Link.calls s.log ++ l ∧
    ∀ x ∈ l, ∀ a, Reserved a → ¬ x.1.Touches a

theorem Rounds.untouched_iff {sys : Nvm.Sys} {rom : Nvm.Rom ρ} {nvm : Nvm} {pieces : Nat → Nat}
    {s t : Link ρ} {cs : List (List UInt8)} (hc : checks.Lawful)
    (h : Rounds sys checks rom nvm pieces s cs t) :
    Untouched s t ↔ ∀ c ∈ cs, ¬ ReachesReserved c := by
  obtain ⟨l, hl, hm⟩ := h.calls hc
  constructor
  · rintro ⟨l', hl', htouch⟩ c hcs hreach
    obtain ⟨call, a, hcall, ha, hta⟩ := (touches_iff nvm).mpr hreach
    have hmem : call ∈ l.map Prod.fst := by
      rw [hm]
      exact List.mem_filterMap.mpr ⟨c, hcs, hcall⟩
    obtain ⟨x, hx, rfl⟩ := List.mem_map.mp hmem
    cases List.append_cancel_left (hl.symm.trans hl')
    exact htouch x hx a ha hta
  · intro hcs
    refine ⟨l, hl, fun x hx a ha hta => ?_⟩
    have hmem : x.1 ∈ l.map Prod.fst := List.mem_map_of_mem hx
    rw [hm] at hmem
    obtain ⟨c, hc, hcall⟩ := List.mem_filterMap.mp hmem
    exact hcs c hc ((touches_iff nvm).mp ⟨x.1, a, hcall, ha, hta⟩)

/-- **The reserved sector is left alone** in every run of the command loop whose frames do not reach
it. Those of `flash_image` do not where the image ends below it. -/
theorem reserved_untouched_iff (sys : Nvm.Sys) (rom : Nvm.Rom ρ) (nvm : Nvm) (pieces : Nat → Nat)
    (hc : checks.Lawful) :
    (∀ s cs t, Rounds sys checks rom nvm pieces s cs t →
      (Untouched s t ↔ ∀ c ∈ cs, ¬ ReachesReserved c)) ∧
    ∀ image secure (s : Link ρ), s.toHost = Host.confirms ((writes image 0).length + 2) →
      ∃ res t cs, Runs Link.hostHandler (Host.flashImage image secure).run s res t ∧
        t.toLoader = s.toLoader ++ wire cs ∧
        ((∀ c ∈ cs, ¬ ReachesReserved c) ↔ image.length ≤ 31 * 4096 - 8) := by
  refine ⟨fun s cs t h => h.untouched_iff hc, fun image secure s hs => ?_⟩
  obtain ⟨res, t, qs, hrun, ht, hqs⟩ := Host.flashImage_runs secure hs
  refine ⟨res, t, qs.map Request.body, hrun, ht, ?_⟩
  rw [← Host.flashImage_reaches_iff hqs, List.forall_mem_map]

end Untouched

/-! ## Concrete frames -/

/-- A frame that is accepted is dispatched. -/
theorem rounds_carrying {c : List UInt8} (hc : Accepted c) : ∃ t,
    Rounds toySys .ideal (.ideal toySys) toyNvm id (carrying c) [c] t ∧
      t.rom = (after (.ideal toySys) (carrying c) (romCall toyNvm c)).rom := by
  have hs : (carrying c).toLoader = [] ++ encode c ++ [] := (List.append_nil _).symm
  obtain ⟨reads, hread⟩ := uart1_readFrame (.ideal toySys) id (carrying c) List.not_mem_nil hc hs
  obtain ⟨u, hhandle, hu⟩ := handle_dispatched toySys (.ideal toySys) toyNvm id
    { carrying c with toLoader := [], reads := reads } Nvm.Checks.lawful_ideal c
  refine ⟨u, .frame hread hhandle (.nil u), ?_⟩
  rw [dispatched_rom hu]
  cases romCall toyNvm c with
  | none => rfl
  | some call => rfl

/-- An erase of the reserved sector. -/
def lastErase : List UInt8 := [Cmd.eraseRequest, 0x00, 0xF0, 0x01, 0x00]

/-- A round of the command loop that erases it. -/
theorem lastErase_touches : ∃ t,
    Rounds toySys .ideal (.ideal toySys) toyNvm id (carrying lastErase) [lastErase] t ∧
      ¬ Untouched (carrying lastErase) t ∧
      (carrying lastErase).rom 0x1F000 = 0 ∧ t.rom 0x1F000 = 0xFF := by
  obtain ⟨t, h, hrom⟩ := rounds_carrying (show Accepted lastErase by decide)
  refine ⟨t, h, fun hu => ?_, rfl, ?_⟩
  · have hin : Reserved (u32At lastErase 1).toNat := by
      unfold Reserved
      decide
    exact (h.untouched_iff Nvm.Checks.lawful_ideal).mp hu lastErase List.mem_cons_self
      (.inl ⟨rfl, rfl, hin⟩)
  · rw [hrom]
    rfl

theorem untouched_secondErase : ∃ t,
    Rounds toySys .ideal (.ideal toySys) toyNvm id (carrying secondErase) [secondErase] t ∧
      Untouched (carrying secondErase) t := by
  obtain ⟨t, h, -⟩ := rounds_carrying (show Accepted secondErase by decide)
  refine ⟨t, h, ((reserved_untouched_iff toySys (.ideal toySys) toyNvm id
    Nvm.Checks.lawful_ideal).1 _ _ t h).mpr fun c hc => ?_⟩
  rw [List.mem_singleton.mp hc]
  rintro (⟨-, -, hin⟩ | ⟨hid, -⟩)
  · exact absurd hin.1 (by decide)
  · exact absurd hid (by decide)

end Loader

end Mc1322x.Ssl
