import Mc1322x.Ssl.Dispatch

/-!
# Masks of an erase (`NorFlash::erase` of `mc1322x-hal/src/nvm.rs`)

An erase of a range turns into one call of the boot ROM with a bit for each sector.

* `EraseExact`: what the call does with any two words, on any ROM. It is `eraseChecked`, so that no
  shift and no subtraction may overflow.
* `erase_masks_exact`: the masks are exact, so that they follow the union of adjacent ranges and
  disjoint ranges share no bit.
-/

namespace Mc1322x.Ssl.Loader

open Proc Nvm

/-- A range that `erase` does not accept. -/
def Rejected (first last : UInt32) : Prop :=
  last < first ∨ capacity < last.toNat ∨ ¬ sectorSize ∣ first.toNat ∨ ¬ sectorSize ∣ last.toNat

/-- The mask that `erase` hands to the ROM. -/
def eraseMask (first last : UInt32) : UInt32 :=
  sectorBitfield (first.toNat / sectorSize) ((last - first).toNat / sectorSize)

/-- No address is in both ranges. -/
def Apart (a b c d : UInt32) : Prop :=
  ∀ n, a.toNat ≤ n ∧ n < b.toNat → ¬ (c.toNat ≤ n ∧ n < d.toNat)

section

variable {first last a b c d : UInt32}

theorem not_rejected : ¬ Rejected first last ↔
    first ≤ last ∧ last.toNat ≤ capacity ∧ sectorSize ∣ first.toNat ∧ sectorSize ∣ last.toNat := by
  simp only [Rejected, not_or, UInt32.not_lt, Nat.not_lt, not_not]

/-- A sector has its bit if and only if it is inside the range. -/
theorem testBit_eraseMask (h : ¬ Rejected first last) {i : Nat} (hi : i < 32) :
    (eraseMask first last).toNat.testBit i = true ↔
      first.toNat ≤ i * sectorSize ∧ (i + 1) * sectorSize ≤ last.toNat := by
  obtain ⟨hle, hcap, ⟨m, hm⟩, ⟨n, hn⟩⟩ := not_rejected.mp h
  have hle' := UInt32.le_iff_toNat_le.mp hle
  have hsub := UInt32.toNat_sub_of_le _ _ hle
  unfold capacity sectorCount at hcap
  unfold eraseMask
  unfold sectorSize at *
  have hfirst : first.toNat / 4096 = m := by omega
  have hcount : (last - first).toNat / 4096 = n - m := by omega
  rw [hfirst, hcount, testBit_sectorBitfield (by omega) hi, decide_eq_true_iff]
  omega

/-- A mask has no other bits. -/
theorem testBit_eraseMask_high {i : Nat} (hi : 32 ≤ i) :
    (eraseMask first last).toNat.testBit i = false :=
  Nat.testBit_lt_two_pow
    (Nat.lt_of_lt_of_le (eraseMask first last).toNat_lt (Nat.pow_le_pow_right (by decide) hi))

theorem eraseMask_union (hab : ¬ Rejected a b) (hbc : ¬ Rejected b c) :
    eraseMask a b ||| eraseMask b c = eraseMask a c := by
  obtain ⟨hle, -, ha, hb⟩ := not_rejected.mp hab
  obtain ⟨hle', hcap, -, hc⟩ := not_rejected.mp hbc
  have hac : ¬ Rejected a c := not_rejected.mpr ⟨UInt32.le_trans hle hle', hcap, ha, hc⟩
  rw [UInt32.le_iff_toNat_le] at hle hle'
  apply UInt32.toNat_inj.mp
  apply Nat.eq_of_testBit_eq
  intro i
  rw [UInt32.toNat_or, Nat.testBit_or]
  by_cases hi : i < 32
  · rw [Bool.eq_iff_iff, Bool.or_eq_true, testBit_eraseMask hab hi, testBit_eraseMask hbc hi,
      testBit_eraseMask hac hi]
    -- The sector lies on one side of the boundary, which is between two sectors.
    obtain ⟨n, hn⟩ := hb
    unfold sectorSize at *
    omega
  · have hi := Nat.le_of_not_lt hi
    rw [testBit_eraseMask_high hi, testBit_eraseMask_high hi, testBit_eraseMask_high hi]
    rfl

theorem eraseMask_disjoint (hab : ¬ Rejected a b) (hcd : ¬ Rejected c d) (h : Apart a b c d) :
    eraseMask a b &&& eraseMask c d = 0 := by
  apply UInt32.toNat_inj.mp
  apply Nat.eq_of_testBit_eq
  intro i
  rw [UInt32.toNat_and, Nat.testBit_and, UInt32.toNat_zero, Nat.zero_testBit]
  by_cases hi : i < 32
  · rw [Bool.eq_false_iff]
    intro hboth
    rw [Bool.and_eq_true, testBit_eraseMask hab hi, testBit_eraseMask hcd hi] at hboth
    obtain ⟨⟨ha, hb⟩, hc, hd⟩ := hboth
    unfold sectorSize at *
    -- The first byte of the sector is in both ranges.
    exact h (i * 4096) ⟨ha, by omega⟩ ⟨hc, by omega⟩
  · rw [testBit_eraseMask_high (Nat.le_of_not_lt hi)]
    rfl

end

/-! ## The call -/

section

variable {ρ : Type} (sys : Nvm.Sys) (checks : Checks) (rom : Nvm.Rom ρ) (pieces : Nat → Nat)
  (nvm : Nvm) (s : Link ρ) (first last : UInt32)

/-- `erase` of a range, from a state of the ROM: an error for a range that it does not accept, with
no call of the ROM; else one call, with the bits of the sectors inside the range. No check of its
arithmetic fails. -/
structure EraseExact : Prop where
  rejects : ∀ kind t, Runs (Link.loaderHandler rom pieces)
      (eraseChecked sys checks romCalls nvm first last).run s (.ok (.error (.bounds kind))) t →
    Rejected first last ∧ t = s
  rejected : Rejected first last → ∃ kind, Runs (Link.loaderHandler rom pieces)
    (eraseChecked sys checks romCalls nvm first last).run s (.ok (.error (.bounds kind))) s
  calls : ¬ Rejected first last → ∃ bits err t, Runs (Link.loaderHandler rom pieces)
      (eraseChecked sys checks romCalls nvm first last).run s (.ok (checkRom sys err)) t ∧
    t.log = s.log ++ [.called (.erase nvm bits) err] ∧ bits = eraseMask first last ∧
    ∀ i < 32, bits.toNat.testBit i = true ↔
      first.toNat ≤ i * sectorSize ∧ (i + 1) * sectorSize ≤ last.toNat
  noPanic : ∀ e t, ¬ Runs (Link.loaderHandler rom pieces)
    (eraseChecked sys checks romCalls nvm first last).run s (.error e) t

variable {checks first last}

theorem erase_rejected (hc : checks.Lawful) (h : Rejected first last) :
    ∃ kind, Runs (Link.loaderHandler rom pieces)
      (eraseChecked sys checks romCalls nvm first last).run s (.ok (.error (.bounds kind))) s := by
  rw [eraseChecked_eq hc]
  unfold erase
  cases he : checks.erase capacity sectorSize first last with
  | error kind => exact ⟨kind, .lift .pure⟩
  | ok _ => exact absurd h (not_rejected.mpr (hc.erase.mp he))

theorem erase_accepted (hc : checks.Lawful) (h : ¬ Rejected first last) :
    Runs (Link.loaderHandler rom pieces) (eraseChecked sys checks romCalls nvm first last).run s
      (.ok (checkRom sys (rom.erase nvm (eraseMask first last) s.rom).1))
      { s with
        rom := (rom.erase nvm (eraseMask first last) s.rom).2
        log := s.log ++ [.called (.erase nvm (eraseMask first last))
          (rom.erase nvm (eraseMask first last) s.rom).1] } := by
  rw [eraseChecked_eq hc]
  exact .lift (erase_runs (hc.erase.mpr (not_rejected.mp h)) (.call rfl))

theorem eraseExact (hc : checks.Lawful) : EraseExact sys checks rom pieces nvm s first last := by
  by_cases h : Rejected first last
  · obtain ⟨kind, hr⟩ := erase_rejected sys rom pieces nvm s hc h
    refine ⟨fun kind' t hr' => ?_, fun _ => ⟨kind, hr⟩, fun hn => absurd h hn, fun e t hr' => ?_⟩
    · obtain ⟨-, rfl⟩ := hr.det hr'
      exact ⟨h, rfl⟩
    · cases (hr.det hr').1
  · have hr := erase_accepted sys rom pieces nvm s hc h
    refine ⟨fun kind t hr' => ?_, fun hn => absurd hn h, fun _ => ?_, fun e t hr' => ?_⟩
    · have herr := (hr.det hr').1
      unfold checkRom at herr
      split at herr <;> cases herr
    · exact ⟨_, _, _, hr, rfl, rfl, fun i hi => testBit_eraseMask h hi⟩
    · cases (hr.det hr').1

end

/-- **The masks of an erase** are exact, for all ranges, ROMs and states of them. -/
theorem erase_masks_exact {checks : Checks} (hc : checks.Lawful) {ρ : Type} (sys : Nvm.Sys)
    (rom : Nvm.Rom ρ) (pieces : Nat → Nat) (nvm : Nvm) (s : Link ρ) :
    (∀ first last, EraseExact sys checks rom pieces nvm s first last) ∧
    (∀ a b c, ¬ Rejected a b → ¬ Rejected b c →
      eraseMask a b ||| eraseMask b c = eraseMask a c) ∧
    ∀ a b c d, ¬ Rejected a b → ¬ Rejected c d → Apart a b c d →
      eraseMask a b &&& eraseMask c d = 0 :=
  ⟨fun _ _ => eraseExact sys rom pieces nvm s hc, fun _ _ _ => eraseMask_union, fun _ _ _ _ => eraseMask_disjoint⟩

/-- An erase of the first two sectors. -/
theorem erase_masks_exact_two : ∃ err t, Runs (Link.loaderHandler (.ideal toySys) id)
      (eraseChecked toySys .ideal romCalls toyNvm 0 8192).run (Link.ready fun _ => 0)
      (.ok (checkRom toySys err)) t ∧ t.log = [.called (.erase toyNvm 3) err] := by
  have hexact := (erase_masks_exact Checks.lawful_ideal toySys (.ideal toySys) id toyNvm
    (Link.ready fun _ => 0)).1 0 8192
  obtain ⟨bits, err, t, hrun, hlog, hbits, -⟩ := hexact.calls (by unfold Rejected; decide)
  have hthree : eraseMask 0 8192 = 3 := by decide
  exact ⟨err, t, hrun, by rw [hlog, hbits, hthree]; rfl⟩

end Mc1322x.Ssl.Loader
