import Mc1322x.Flash.Algorithm
import Mc1322x.Lib.Known
import Mc1322x.Lib.Lts

/-!
# Sessions of a debug probe

A debug probe puts the algorithm into the RAM of the chip, has it initialise the ROM (`new`) and
calls its functions, in any order, where it puts the data into a buffer first. `Chip` is a chip
with its ROM, of which `Chip.Lawful` says what its routines do to the flash. Any call may fail.

* `Command.runs_spec`: what the answer to a call tells of the flash after it.
* `verify_tells`: what `verify` answers agrees with all answers before.
* `session_frame`: a session changes what its calls name.
-/

namespace Mc1322x.FlashAlgorithm

open Proc

/-! ## The chip -/

/-- The size of the flash. -/
def capacity : Nat := 0x20000

/-- What a call to the ROM may do. -/
def Op.Changes : Op → Prop
  | .nvmErase .. | .nvmWrite .. => True
  | _ => False

/-- The flash and the RAM of a chip, its ROM, and the load of a buffer by the probe. -/
structure Chip (σ : Type) where
  flash : σ → Nat → UInt8
  ram : σ → Nat → UInt8
  rom : Handler Rom σ
  load : UInt32 → List UInt8 → σ → σ

section

variable {σ : Type}

/-- What is documented of the routines: an erase changes its sectors only, and blanks them where it
succeeds; a write changes its range only, and leaves the data on blank cells where it succeeds; and
a verification compares. -/
structure Chip.Lawful (chip : Chip σ) : Prop where
  load_flash {ptr data s} : chip.flash (chip.load ptr data s) = chip.flash s
  load_ram {ptr data s} (i : Nat) (b : UInt8) : data[i]? = some b →
    chip.ram (chip.load ptr data s) (ptr.toNat + i) = b
  quiet {o s x t} : ¬ Op.Changes o → chip.rom o s = some (x, t) → chip.flash t = chip.flash s
  erase {type s t} {sectors code : UInt32} :
    chip.rom (.nvmErase .internal type sectors) s = some (code, t) → ∀ a < capacity,
      (sectors.toNat.testBit (a / 4096) = false → chip.flash t a = chip.flash s a) ∧
      (NvmErr.fromRaw code = .noError → sectors.toNat.testBit (a / 4096) = true →
        chip.flash t a = 0xFF)
  write {type s t} {src dest n code : UInt32} :
    chip.rom (.nvmWrite .internal type src dest n) s = some (code, t) →
      dest.toNat + n.toNat ≤ capacity →
      (∀ a < capacity, Known.span dest.toNat n.toNat a = false →
        chip.flash t a = chip.flash s a) ∧
      (code = 0 → (∀ i < n.toNat, chip.flash s (dest.toNat + i) = 0xFF) →
        ∀ i < n.toNat, chip.flash t (dest.toNat + i) = chip.ram s (src.toNat + i))
  verify {type s t} {src dest n code : UInt32} :
    chip.rom (.nvmVerify .internal type src dest n) s = some (code, t) →
      dest.toNat + n.toNat ≤ capacity →
      (NvmErr.fromRaw code = .noError ↔
        ∀ i < n.toNat, chip.flash s (dest.toNat + i) = chip.ram s (src.toNat + i))

/-! ## Sessions -/

/-- A call of the probe, with the buffer that it has filled. -/
inductive Command where
  | eraseAll
  | eraseSector (addr : UInt32)
  | programPage (addr ptr : UInt32) (data : List UInt8)
  | verify (address ptr : UInt32) (data : List UInt8)

/-- The result that the probe gets. -/
def ErrorCode.result (r : Except ErrorCode Unit) : Except UInt32 Unit := r.mapError Subtype.val

namespace Command

/-- The function of the algorithm for a call; the error is its code, that of `verify` an address. -/
def program (alg : Algorithm) : Command → Proc Rom (Except UInt32 Unit)
  | .eraseAll => do return ErrorCode.result (← FlashAlgorithm.eraseAll alg)
  | .eraseSector addr => do return ErrorCode.result (← FlashAlgorithm.eraseSector alg addr)
  | .programPage addr ptr data => do
    return ErrorCode.result (← FlashAlgorithm.programPage alg addr ⟨ptr, .ofNat data.length⟩)
  | .verify address ptr data =>
    FlashAlgorithm.verify alg address (.ofNat data.length) (some ⟨ptr, .ofNat data.length⟩)

/-- The probe fills the buffer. -/
def load (chip : Chip σ) : Command → σ → σ
  | .programPage _ ptr data | .verify _ ptr data => chip.load ptr data
  | _ => id

/-- The buffer fits into the RAM. -/
def Fits : Command → Prop
  | .programPage _ _ data | .verify _ _ data => data.length ≤ 0x18000
  | _ => True

/-- The addresses that the call names, to be changed. All but the last sector, for all of them. -/
def names : Command → Nat → Bool
  | .eraseAll, a => decide (a < 31 * 4096)
  | .eraseSector addr, a => a / 4096 == addr.toNat / 4096
  | .programPage addr _ data, a => Known.span addr.toNat data.length a
  | .verify _ _ _, _ => false

/-- What the answer to a call tells: an erase blanks what it names, a page sets cells that are known
to be blank, and a verification shows the data. What has failed is not known. -/
def learn (k : Known Nat UInt8) (c : Command) (r : Except UInt32 Unit) : Known Nat UInt8 :=
  match c, r with
  | .eraseAll, .ok () | .eraseSector _, .ok () => k.put c.names fun _ => some 0xFF
  | .programPage addr _ data, .ok () => k.put c.names fun a =>
    if ∀ i < data.length, k (addr.toNat + i) = some 0xFF then data[a - addr.toNat]? else none
  | .verify address _ data, .ok () =>
    k.put (Known.span address.toNat data.length) fun a => data[a - address.toNat]?
  | _, .error _ => k.put c.names fun _ => none

end Command

/-- A step of a session: a call of `new`, or another call with its result. -/
inductive Event where
  | init
  | call (c : Command) (r : Except UInt32 Unit)

/-- A step of a session: the state of the chip, and the algorithm after a successful `new`. -/
inductive SessionStep (chip : Chip σ) : σ × Option Algorithm → Event → σ × Option Algorithm → Prop
  | init {s t : σ} {alg : Algorithm} {alg' : Option Algorithm} :
      Runs chip.rom new s (.ok alg) t → SessionStep chip (s, alg') .init (t, some alg)
  | failed {s t : σ} {e : ErrorCode} {alg' : Option Algorithm} :
      Runs chip.rom new s (.error e) t → SessionStep chip (s, alg') .init (t, none)
  | call {s t : σ} {alg : Algorithm} {c : Command} {r : Except UInt32 Unit} :
      Runs chip.rom (c.program alg) (c.load chip s) r t →
      SessionStep chip (s, some alg) (.call c r) (t, some alg)

/-- The sessions of the probe. -/
abbrev session (chip : Chip σ) : Lts where
  St := σ × Option Algorithm
  Act := Event
  init _ := True
  step := SessionStep chip

/-- The buffer of the call fits into the RAM; `new` has none. -/
def Event.Fits : Event → Prop
  | .init => True
  | .call c _ => c.Fits

/-- The call names the address, to change it. -/
def Event.names : Event → Nat → Bool
  | .init, _ => false
  | .call c _, a => c.names a

/-- What is known of the flash after the step. -/
def Event.learn (k : Known Nat UInt8) : Event → Known Nat UInt8
  | .init => k
  | .call c r => c.learn k r

/-- What the answers of a session tell, of which nothing is known before. -/
def known (tr : List ((σ × Option Algorithm) × Event)) : Known Nat UInt8 :=
  tr.foldl (fun k x => x.2.learn k) .nothing

/-! ## What the programs call -/

/-- `new` leaves the flash alone. -/
theorem new_only : new.Only fun o => ¬ Op.Changes o := by
  have hread : (readVolatile crmStatus).Only fun o => ¬ Op.Changes o := .call id
  have hready : ∀ flag, (waitReady flag).Only fun o => ¬ Op.Changes o := fun flag =>
    .iterate fun _ => hread.bind fun _ => .pure _
  have hstart : startRegulators.Only fun o => ¬ Op.Changes o := by
    refine .bind (.call id) fun _ => .bind (.call id) fun _ => .bind (hread.times _) fun _ => ?_
    exact .bind (.call id) fun _ => .bind (hready _) fun _ => hready _
  refine .bind (.call id) fun _ => .bind hstart fun _ => .bind (.call id) fun x => ?_
  dsimp only
  split
  · exact .pure _
  · split
    · exact .pure _
    · exact .pure _
    · exact .bind (.call id) fun _ => .pure _

variable {chip : Chip σ} {alg : Algorithm} {s t : σ} {r : Except UInt32 Unit}

theorem toNat_length {data : List UInt8} (h : data.length ≤ 0x18000) :
    (UInt32.ofNat data.length).toNat = data.length := by
  rw [UInt32.toNat_ofNat', Nat.mod_eq_of_lt (by omega)]

/-- A run of a program with the check of `programPage` and `verify`. -/
theorem checked_runs {ε : Type} {o : Op} {address : UInt32} {data : List UInt8} {e : ε}
    {f : Rom.Ans o → Except ε Unit} {r : Except ε Unit} (hfit : data.length ≤ 0x18000)
    (h : Runs chip.rom (if UInt32.ofNat data.length = 0 then return .ok ()
      else if address ≥ 0x00020000 ∨ address + .ofNat data.length > 0x00020000 then
        return .error e
      else call (S := Rom) o >>= fun x => return f x) s r t) :
    (data = [] ∧ r = .ok () ∧ t = s) ∨
      (data ≠ [] ∧ ¬ address.toNat + data.length ≤ capacity ∧ r = .error e ∧ t = s) ∨
      address.toNat + data.length ≤ capacity ∧ ∃ x, chip.rom o s = some (x, t) ∧ r = f x := by
  have hlen := toNat_length hfit
  by_cases hsize : UInt32.ofNat data.length = 0
  · rw [if_pos hsize] at h
    obtain ⟨rfl, rfl⟩ := h.of_pure
    rw [hsize] at hlen
    exact .inl ⟨List.length_eq_zero_iff.mp hlen.symm, rfl, rfl⟩
  rw [if_neg hsize] at h
  have hiff := check_iff address hsize
  rw [hlen] at hiff
  by_cases hcheck : address ≥ 0x00020000 ∨ address + .ofNat data.length > 0x00020000
  · rw [if_pos hcheck] at h
    obtain ⟨rfl, rfl⟩ := h.of_pure
    refine .inr (.inl ⟨?_, fun hin => hiff.mpr (.inl hin) hcheck, rfl, rfl⟩)
    rintro rfl
    exact hsize rfl
  · rw [if_neg hcheck] at h
    obtain ⟨x, u, hx, h⟩ := h.of_call_bind
    obtain ⟨rfl, rfl⟩ := h.of_pure
    refine .inr (.inr ⟨?_, x, hx, rfl⟩)
    have hin := hiff.mp hcheck
    unfold capacity
    omega

theorem result_ok {r : Except ErrorCode Unit} : ErrorCode.result r = .ok () ↔ r = .ok () := by
  cases r with
  | ok u => exact iff_of_true rfl rfl
  | error e => exact ⟨nofun, nofun⟩

/-- The result where a condition is an error. -/
theorem ite_ok {ε : Type} {p : Prop} [Decidable p] {e : ε} :
    (if p then .error e else .ok () : Except ε Unit) = .ok () ↔ ¬ p := by
  by_cases hp : p
  · simp [hp]
  · simp [hp]

theorem eraseAll_runs (h : Runs chip.rom (Command.eraseAll.program alg) s r t) :
    ∃ code : UInt32,
      chip.rom (.nvmErase .internal alg.nvmType 0x7FFFFFFF) s = some (code, t) ∧
      (r = .ok () → NvmErr.fromRaw code = .noError) := by
  obtain ⟨r', u, h, hr⟩ := h.of_bind
  obtain ⟨rfl, rfl⟩ := hr.of_pure
  obtain ⟨code, u, hx, h⟩ := h.of_call_bind
  obtain ⟨rfl, rfl⟩ := h.of_pure
  exact ⟨code, hx, fun hok => not_not.mp (ite_ok.mp (result_ok.mp hok))⟩

/-- A sector that is not one of the flash is rejected. -/
theorem eraseSector_runs {addr : UInt32}
    (h : Runs chip.rom ((Command.eraseSector addr).program alg) s r t) :
    (r ≠ .ok () ∧ t = s) ∨ ∃ sectors code : UInt32,
      (∀ a < capacity, sectors.toNat.testBit (a / 4096) = (a / 4096 == addr.toNat / 4096)) ∧
      chip.rom (.nvmErase .internal alg.nvmType sectors) s = some (code, t) ∧
      (r = .ok () → NvmErr.fromRaw code = .noError) := by
  have hsector : (addr / flashSectorSize).toNat = addr.toNat / 4096 := UInt32.toNat_div _ _
  obtain ⟨r', u, h, hr⟩ := h.of_bind
  obtain ⟨rfl, rfl⟩ := hr.of_pure
  unfold eraseSector at h
  dsimp only at h
  by_cases hge : addr / flashSectorSize ≥ flashNumSectors
  · rw [if_pos hge] at h
    obtain ⟨rfl, rfl⟩ := h.of_pure
    exact .inl ⟨nofun, rfl⟩
  · rw [if_neg hge] at h
    obtain ⟨code, u, hx, h⟩ := h.of_call_bind
    obtain ⟨rfl, rfl⟩ := h.of_pure
    have hlt : addr.toNat / 4096 < 32 := by
      rw [ge_iff_le, UInt32.le_iff_toNat_le, hsector] at hge
      exact Nat.lt_of_not_le hge
    refine .inr ⟨(1 : UInt32) <<< (addr / flashSectorSize), code, fun a ha => ?_, hx,
      fun hok => not_not.mp (ite_ok.mp (result_ok.mp hok))⟩
    unfold capacity at ha
    rw [Word.testBit_one_shiftLeft (by omega) (by omega), hsector, Bool.eq_iff_iff,
      decide_eq_true_iff, beq_iff_eq]
    exact eq_comm

theorem programPage_runs {addr ptr : UInt32} {data : List UInt8} (hfit : data.length ≤ 0x18000)
    (h : Runs chip.rom ((Command.programPage addr ptr data).program alg) s r t) :
    (data = [] ∧ t = s) ∨ (r ≠ .ok () ∧ t = s) ∨
      addr.toNat + data.length ≤ capacity ∧ ∃ code : UInt32,
        chip.rom (.nvmWrite .internal alg.nvmType ptr addr (.ofNat data.length)) s =
          some (code, t) ∧ (r = .ok () → code = 0) := by
  obtain ⟨r', u, h, hr⟩ := h.of_bind
  obtain ⟨rfl, rfl⟩ := hr.of_pure
  obtain ⟨hz, -, rfl⟩ | ⟨-, -, rfl, rfl⟩ | ⟨hb, (code : UInt32), hx, rfl⟩ :=
    checked_runs hfit h
  · exact .inl ⟨hz, rfl⟩
  · exact .inr (.inl ⟨nofun, rfl⟩)
  · refine .inr (.inr ⟨hb, code, hx, fun hok => ?_⟩)
    exact not_not.mp (ite_ok.mp (result_ok.mp hok))

theorem verify_runs {address ptr : UInt32} {data : List UInt8} (hfit : data.length ≤ 0x18000)
    (h : Runs chip.rom ((Command.verify address ptr data).program alg) s r t) :
    (data = [] ∧ r = .ok () ∧ t = s) ∨
      (data ≠ [] ∧ ¬ address.toNat + data.length ≤ capacity ∧ r ≠ .ok () ∧ t = s) ∨
      address.toNat + data.length ≤ capacity ∧ ∃ code : UInt32,
        chip.rom (.nvmVerify .internal alg.nvmType ptr address (.ofNat data.length)) s =
          some (code, t) ∧ (r = .ok () ↔ NvmErr.fromRaw code = .noError) := by
  obtain ⟨hz, hr, rfl⟩ | ⟨hne, hb, rfl, rfl⟩ | ⟨hb, (code : UInt32), hx, rfl⟩ :=
    checked_runs hfit h
  · exact .inl ⟨hz, hr, rfl⟩
  · exact .inr (.inl ⟨hne, hb, nofun, rfl⟩)
  · exact .inr (.inr ⟨hb, code, hx, ite_ok.trans not_not⟩)

/-! ## What a call does to the flash -/

namespace Command

variable {c : Command} {k : Known Nat UInt8}

theorem load_flash (hc : chip.Lawful) (c : Command) (s : σ) :
    chip.flash (c.load chip s) = chip.flash s := by
  cases c with
  | eraseAll | eraseSector _ => rfl
  | programPage _ ptr data | verify _ ptr data => exact hc.load_flash

/-- The mask of `eraseAll`. -/
theorem testBit_all {a : Nat} (ha : a < capacity) :
    (0x7FFFFFFF : UInt32).toNat.testBit (a / 4096) = decide (a < 31 * 4096) := by
  have hmask : (0x7FFFFFFF : UInt32).toNat = 2 ^ 31 - 1 := rfl
  unfold capacity at ha
  rw [hmask, Nat.testBit_two_pow_sub_one, Bool.eq_iff_iff, decide_eq_true_iff, decide_eq_true_iff]
  omega

/-- A call changes what it names, whatever it answers. -/
theorem frame (hc : chip.Lawful) (hfit : c.Fits)
    (h : Runs chip.rom (c.program alg) (c.load chip s) r t) {a : Nat} (ha : a < capacity)
    (hn : c.names a = false) : chip.flash t a = chip.flash s a := by
  rw [← load_flash hc c s]
  cases c with
  | eraseAll =>
    obtain ⟨code, hx, -⟩ := eraseAll_runs h
    exact ((hc.erase hx a ha).1 ((testBit_all ha).trans hn))
  | eraseSector addr =>
    obtain ⟨-, rfl⟩ | ⟨sectors, code, hbits, hx, -⟩ := eraseSector_runs h
    · rfl
    · exact (hc.erase hx a ha).1 ((hbits a ha).trans hn)
  | programPage addr ptr data =>
    obtain ⟨-, rfl⟩ | ⟨-, rfl⟩ | ⟨hb, code, hx, -⟩ := programPage_runs hfit h
    · rfl
    · rfl
    · have hw := hc.write hx
      rw [toNat_length hfit] at hw
      exact (hw hb).1 a ha hn
  | verify address ptr data =>
    obtain ⟨-, -, rfl⟩ | ⟨-, -, -, rfl⟩ | ⟨-, code, hx, -⟩ := verify_runs hfit h
    · rfl
    · rfl
    · exact congrFun (hc.quiet id hx) a

/-- What has failed leaves nothing known of what it names. -/
theorem learn_error {e : UInt32} : c.learn k (.error e) = k.put c.names fun _ => none := by
  cases c <;> rfl

theorem of_span {start n a : Nat} (h : Known.span start n a = true) :
    start ≤ a ∧ a < start + n :=
  of_decide_eq_true h

/-- What is known stays right. -/
theorem learn_of (hc : chip.Lawful) (hfit : c.Fits) (hk : k.Of (· < capacity) (chip.flash s))
    (h : Runs chip.rom (c.program alg) (c.load chip s) r t) :
    (c.learn k r).Of (· < capacity) (chip.flash t) := by
  have hout : ∀ a, a < capacity → c.names a = false → chip.flash t a = chip.flash s a :=
    fun a ha hn => frame hc hfit h ha hn
  cases r with
  | error e =>
    rw [learn_error]
    exact hk.put hout fun _ _ _ b hb => by cases hb
  | ok u =>
    cases c with
    | eraseAll =>
      obtain ⟨code, hx, hok⟩ := eraseAll_runs h
      refine hk.put hout fun a ha hn b hb => ?_
      cases hb
      exact (hc.erase hx a ha).2 (hok rfl) ((testBit_all ha).trans hn)
    | eraseSector addr =>
      obtain ⟨hr, -⟩ | ⟨sectors, code, hbits, hx, hok⟩ := eraseSector_runs h
      · exact absurd rfl hr
      · refine hk.put hout fun a ha hn b hb => ?_
        cases hb
        exact (hc.erase hx a ha).2 (hok rfl) ((hbits a ha).trans hn)
    | programPage addr ptr data =>
      refine hk.put hout fun a ha hn b hb => ?_
      have hin := of_span hn
      split at hb
      · rename_i hblank
        obtain ⟨rfl, -⟩ | ⟨hr, -⟩ | ⟨hbound, code, hx, hok⟩ := programPage_runs hfit h
        · cases hb
        · exact absurd rfl hr
        · have hw := hc.write hx
          rw [toNat_length hfit] at hw
          -- On a blank range the write sets every byte to that of the data.
          have hset := (hw hbound).2 (hok rfl) (fun i hi => ?_) (a - addr.toNat) (by omega)
          · rw [Nat.add_sub_cancel' hin.1] at hset
            rw [hset]
            exact hc.load_ram _ _ hb
          · rw [load_flash hc]
            exact hk _ (Nat.lt_of_lt_of_le (Nat.add_lt_add_left hi _) hbound) _ (hblank i hi)
      · cases hb
    | verify address ptr data =>
      obtain ⟨rfl, -, rfl⟩ | ⟨-, -, hr, -⟩ | ⟨hbound, code, hx, hok⟩ := verify_runs hfit h
      · refine hk.put (fun a _ _ => ?_) fun a _ _ b hb => by cases hb
        rw [load_flash hc]
      · exact absurd rfl hr
      · have hflash := hc.quiet id hx
        rw [load_flash hc] at hflash
        have heq := (hc.verify hx (by rwa [toNat_length hfit])).mp (hok.mp rfl)
        rw [toNat_length hfit, load_flash hc] at heq
        -- Verified, the range holds the data.
        refine hk.put (fun a _ _ => congrFun hflash a) fun a _ hn b hb => ?_
        have hin := of_span hn
        have hset := heq (a - address.toNat) (by omega)
        rw [Nat.add_sub_cancel' hin.1] at hset
        rw [hflash, hset]
        exact hc.load_ram _ _ hb

end Command

/-! ## Whole sessions -/

variable {x y z : (session chip).St} {tr : List ((session chip).St × (session chip).Act)}

/-- `new` leaves the flash as it is. -/
theorem new_flash (hc : chip.Lawful) {r : Except ErrorCode Algorithm}
    (h : Runs chip.rom new s r t) : chip.flash t = chip.flash s :=
  new_only.keeps (I := fun u => chip.flash u = chip.flash s)
    (fun _ _ _ _ ho he hu => (hc.quiet ho he).trans hu) h rfl

namespace SessionStep

variable {e : Event}

theorem frame (hc : chip.Lawful) (h : SessionStep chip x e y) (hfit : e.Fits) {a : Nat}
    (ha : a < capacity) (hn : e.names a = false) : chip.flash y.1 a = chip.flash x.1 a := by
  cases h with
  | init h | failed h => exact congrFun (new_flash hc h) a
  | call h => exact Command.frame hc hfit h ha hn

theorem learn_of (hc : chip.Lawful) (h : SessionStep chip x e y) (hfit : e.Fits)
    {k : Known Nat UInt8} (hk : k.Of (· < capacity) (chip.flash x.1)) :
    (e.learn k).Of (· < capacity) (chip.flash y.1) := by
  cases h with
  | init h | failed h =>
    rw [new_flash hc h]
    exact hk
  | call h => exact Command.learn_of hc hfit hk h

end SessionStep

/-- What the answers of a session tell is right. -/
theorem known_of (hc : chip.Lawful) (h : (session chip).Run x tr y)
    (hfit : ∀ e ∈ tr, e.2.Fits) : (known tr).Of (· < capacity) (chip.flash y.1) := by
  induction h with
  | nil => exact Known.nothing_of
  | snoc _ hst ih =>
    rw [List.forall_mem_append, List.forall_mem_singleton] at hfit
    unfold known
    rw [List.foldl_append]
    exact SessionStep.learn_of hc hst hfit.2 (ih hfit.1)

/-- **A session changes what its calls name.** In every session, whatever its calls answer, a byte
keeps its value that no call names: `erase_all` all but the last sector, `erase_sector` the sector
of its address, `program_page` its range. -/
theorem session_frame (hc : chip.Lawful) (h : (session chip).Run x tr y)
    (hfit : ∀ e ∈ tr, e.2.Fits) {a : Nat} (ha : a < capacity)
    (hn : ∀ e ∈ tr, e.2.names a = false) : chip.flash y.1 a = chip.flash x.1 a := by
  induction h with
  | nil => rfl
  | snoc _ hst ih =>
    rw [List.forall_mem_append, List.forall_mem_singleton] at hfit hn
    exact (SessionStep.frame hc hst hfit.2 ha hn.2).trans (ih hfit.1 hn.1)

/-- **What is programmed is verified.** After every session, whatever its calls have answered,
`verify` answers `Ok` exactly if the range is in the flash and holds the data. So where it answers
`Ok`, every byte is the one that the answers before tell, and it does answer `Ok` where these tell
all bytes. -/
theorem verify_tells (hc : chip.Lawful) (h : (session chip).Run x tr y)
    (hfit : ∀ e ∈ tr, e.2.Fits) {address ptr : UInt32} {data : List UInt8}
    (hdata : data.length ≤ 0x18000) {r : Except UInt32 Unit}
    (hv : SessionStep chip y (.call (.verify address ptr data) r) z) :
    (r = .ok () ↔ data = [] ∨ address.toNat + data.length ≤ capacity ∧
      ∀ i < data.length, data[i]? = some (chip.flash z.1 (address.toNat + i))) ∧
    (r = .ok () → ∀ i < data.length, ∀ b, known tr (address.toNat + i) = some b →
      data[i]? = some b) ∧
    (address.toNat + data.length ≤ capacity →
      (∀ i < data.length, known tr (address.toNat + i) = data[i]?) → r = .ok ()) := by
  have hk := known_of hc h hfit
  cases hv with
  | @call s t alg _ _ hrun =>
  have hfits : (Command.verify address ptr data).Fits := hdata
  have hflash : ∀ a < capacity, chip.flash t a = chip.flash s a := fun a ha =>
    Command.frame hc hfits hrun ha rfl
  -- The three ways in which `verify` goes: nothing to do, out of the flash, or the compare.
  have hiff : r = .ok () ↔ data = [] ∨ address.toNat + data.length ≤ capacity ∧
      ∀ i < data.length, data[i]? = some (chip.flash t (address.toNat + i)) := by
    obtain ⟨hnil, hr, -⟩ | ⟨hne, hout, hr, -⟩ | ⟨hin, code, hx, hr⟩ := verify_runs hdata hrun
    · exact iff_of_true hr (.inl hnil)
    · exact iff_of_false hr fun h => h.elim hne fun h => hout h.1
    · have hcompare := hc.verify hx (by rwa [toNat_length hdata])
      rw [toNat_length hdata, Command.load_flash hc] at hcompare
      rw [hr, hcompare]
      constructor
      · refine fun heq => .inr ⟨hin, fun i hi => ?_⟩
        rw [hflash _ (by omega), heq i hi, List.getElem?_eq_getElem hi]
        exact congrArg some (hc.load_ram _ _ (List.getElem?_eq_getElem hi)).symm
      · rintro (rfl | ⟨-, heq⟩) i hi
        · cases hi
        · have hb := heq i hi
          rw [hflash _ (by omega)] at hb
          exact (hc.load_ram _ _ hb).symm
  refine ⟨hiff, fun hr i hi b hb => ?_, fun hin hall => ?_⟩
  · rcases hiff.mp hr with rfl | ⟨hin, heq⟩
    · cases hi
    · have ha : address.toNat + i < capacity := by omega
      rw [heq i hi, hflash _ ha]
      exact congrArg some (hk _ ha b hb)
  · refine hiff.mpr (.inr ⟨hin, fun i hi => ?_⟩)
    have ha : address.toNat + i < capacity := by omega
    have hb := hall i hi
    rw [List.getElem?_eq_getElem hi] at hb ⊢
    rw [hflash _ ha]
    exact congrArg some (hk _ ha _ hb).symm

end

/-! ## A chip on which everything succeeds -/

/-- A chip with a flash and a RAM, whose calls all succeed. -/
def Chip.ideal : Chip ((Nat → UInt8) × (Nat → UInt8)) where
  flash s := s.1
  ram s := s.2
  rom
    | .romDataInit, s | .nvmSetsvar _, s | .writeVolatile _ _, s => some ((), s)
    | .nvmDetect _, s => some (((0, 1) : UInt32 × UInt32), s)
    | .nvmErase _ _ sectors, s =>
      some ((0 : UInt32), fun a => if sectors.toNat.testBit (a / 4096) then 0xFF else s.1 a, s.2)
    | .nvmWrite _ _ src dest n, s =>
      some ((0 : UInt32), fun a =>
        if Known.span dest.toNat n.toNat a then s.2 (src.toNat + (a - dest.toNat)) else s.1 a, s.2)
    | .nvmVerify _ _ src dest n, s =>
      some ((if ∀ i < n.toNat, s.1 (dest.toNat + i) = s.2 (src.toNat + i) then 0 else 5 : UInt32),
        s)
    | .readVolatile _, s => some ((0xFFFFFFFF : UInt32), s)
  load ptr data s :=
    (s.1, fun a =>
      if Known.span ptr.toNat data.length a then data.getD (a - ptr.toNat) 0 else s.2 a)

theorem Chip.ideal_lawful : Chip.ideal.Lawful where
  load_flash := rfl
  load_ram {ptr data s} i b h := by
    have hi := (List.getElem?_eq_some_iff.mp h).1
    have hspan : Known.span ptr.toNat data.length (ptr.toNat + i) = true :=
      decide_eq_true (by omega)
    simp only [ideal, hspan, if_true, Nat.add_sub_cancel_left, List.getD_eq_getElem?_getD, h]
    rfl
  quiet {o s x t} ho h := by
    cases o with
    | nvmErase _ _ _ | nvmWrite _ _ _ _ _ => exact absurd trivial ho
    | _ =>
      cases h
      rfl
  erase h a _ := by
    cases h
    refine ⟨fun hb => ?_, fun _ hb => ?_⟩ <;> simp [ideal, hb]
  write {type s t src dest n code} h hin := by
    cases h
    refine ⟨fun a _ hout => by simp [ideal, hout], fun _ _ i hi => ?_⟩
    have hspan : Known.span dest.toNat n.toNat (dest.toNat + i) = true :=
      decide_eq_true (by omega)
    simp [ideal, hspan]
  verify {type s t src dest n code} h _ := by
    cases h
    by_cases heq : ∀ i < n.toNat, s.1 (dest.toNat + i) = s.2 (src.toNat + i)
    · exact iff_of_true (by rw [if_pos heq]; rfl) heq
    · exact iff_of_false (by rw [if_neg heq]; decide) heq

/-- A flash and a RAM with zeros. -/
def zeros : (Nat → UInt8) × (Nat → UInt8) := (fun _ => 0, fun _ => 0)

/-- `erase_all` leaves the last sector alone. -/
theorem session_frame_reserved :
    ∃ y, (session Chip.ideal).Run (zeros, some ⟨.sst⟩)
        [((zeros, some ⟨.sst⟩), .call .eraseAll (.ok ()))] y ∧
      Chip.ideal.flash y.1 0x1F000 = 0 := by
  have hstep : ∃ y, SessionStep Chip.ideal (zeros, some ⟨.sst⟩) (.call .eraseAll (.ok ())) y :=
    ⟨_, .call (.op (x := (0 : UInt32)) rfl (.ret _ _))⟩
  obtain ⟨y, hstep⟩ := hstep
  have hrun := Lts.Run.single (S := session Chip.ideal) hstep
  refine ⟨y, hrun, session_frame Chip.ideal_lawful hrun ?_ (by decide) ?_⟩
  · simp [Event.Fits, Command.Fits]
  · simp [Event.names, Command.names]

/-- Three bytes for `0x1100`, in a buffer. -/
def page : List UInt8 := [1, 2, 3]

/-- The chip after the erase of their sector. -/
def erased : (Nat → UInt8) × (Nat → UInt8) :=
  (fun a => if (2 : UInt32).toNat.testBit (a / 4096) then 0xFF else 0, fun _ => 0)

/-- The chip after the buffer has been filled. -/
def filled : (Nat → UInt8) × (Nat → UInt8) := Chip.ideal.load 0x400000 page erased

/-- The chip after the write. -/
def programmed : (Nat → UInt8) × (Nat → UInt8) :=
  (fun a => if Known.span 0x1100 3 a then filled.2 (0x400000 + (a - 0x1100)) else erased.1 a,
    filled.2)

/-- The erase and the write. -/
def pageSteps : List ((session Chip.ideal).St × (session Chip.ideal).Act) :=
  [((zeros, some ⟨.sst⟩), .call (.eraseSector 0x1100) (.ok ())),
    ((erased, some ⟨.sst⟩), .call (.programPage 0x1100 0x400000 page) (.ok ()))]

theorem page_run :
    (session Chip.ideal).Run (zeros, some ⟨.sst⟩) pageSteps (programmed, some ⟨.sst⟩) := by
  have herase : SessionStep Chip.ideal (zeros, some ⟨.sst⟩)
      (.call (.eraseSector 0x1100) (.ok ())) (erased, some ⟨.sst⟩) :=
    .call (.op (x := (0 : UInt32)) rfl (.ret _ _))
  have hprogram : SessionStep Chip.ideal (erased, some ⟨.sst⟩)
      (.call (.programPage 0x1100 0x400000 page) (.ok ())) (programmed, some ⟨.sst⟩) :=
    .call (.op (x := (0 : UInt32)) rfl (.ret _ _))
  exact .cons herase (.single hprogram)

/-- The bytes that have been programmed are verified. -/
theorem verify_tells_page :
    ∃ z, SessionStep Chip.ideal (programmed, some ⟨.sst⟩)
        (.call (.verify 0x1100 0x400000 page) (.ok ())) z ∧
      (page = [] ∨ (0x1100 : UInt32).toNat + page.length ≤ capacity ∧ ∀ i < page.length,
        page[i]? = some (Chip.ideal.flash z.1 ((0x1100 : UInt32).toNat + i))) := by
  have hv : SessionStep Chip.ideal (programmed, some ⟨.sst⟩)
      (.call (.verify 0x1100 0x400000 page) (.ok ()))
      (Chip.ideal.load 0x400000 page programmed, some ⟨.sst⟩) :=
    .call (.op (x := (0 : UInt32)) (congrArg (fun c => some (c, _)) (if_pos (by decide)))
      (.ret _ _))
  have hfit : ∀ e ∈ pageSteps, e.2.Fits := by
    simp [pageSteps, Event.Fits, Command.Fits, page]
  exact ⟨_, hv, (verify_tells Chip.ideal_lawful page_run hfit (by decide) hv).1.mp rfl⟩

end Mc1322x.FlashAlgorithm
