import Mc1322x.Ssl.Session

/-!
# Flashing

`flash_image` and the command loop over the link. `flashImage_runs` is one run of both, with its
outcome; the order of the steps has no influence on it (`Session.settles`). `Flashed` is what the
flash holds after a run without an exception.
-/

namespace Mc1322x.Ssl

open Proc Bytes

/-- The writes for the image from `offset` on. -/
def writes (image : List UInt8) (offset : Nat) : List Request :=
  if offset < image.length then
    let chunk := (image.drop offset).take Host.chunkSize
    .write (Host.headerSize + offset) chunk :: writes image (offset + chunk.length)
  else []
termination_by image.length - offset
decreasing_by
  rw [List.length_take, List.length_drop, Host.chunkSize]
  omega

/-- What has to be done before the commit. -/
def imageRequests (image : List UInt8) : List Request := .erase :: writes image 0

/-! ## What is left in the flash -/

/-- The `n` bytes from `start` on. -/
def region (flash : Nat → UInt8) (start n : Nat) : List UInt8 :=
  (List.range n).map fun i => flash (start + i)

theorem region_eq {flash : Nat → UInt8} {start : Nat} {l : List UInt8}
    (h : ∀ i < l.length, flash (start + i) = l.getD i 0) : region flash start l.length = l := by
  apply List.ext_getElem
  · simp [region]
  · intro i hi hi'
    simp only [region, List.getElem_map, List.getElem_range]
    rw [h i hi', List.getD_eq_getElem _ _ hi']

/-- The flash after `image` has been flashed: the header, the image, and the rest erased, with the
last sector as it was. -/
structure Flashed (before after : Nat → UInt8) (image : List UInt8) (secure : UInt8) : Prop where
  header : region after 0 8 =
    ascii (if secure = engSecured then "SECU" else "OKOK") ++ le 4 image.length
  content : region after 8 image.length = image
  rest : ∀ a, 8 + image.length ≤ a → a < 31 * 4096 → after a = 0xFF
  last : ∀ a, 31 * 4096 ≤ a → a < 32 * 4096 → after a = before a

/-- The flash with the first `offset` bytes of the image in it, and no header. -/
def Written (before after : Nat → UInt8) (image : List UInt8) (offset : Nat) : Prop :=
  ∀ a < Nvm.capacity, after a =
    if 8 ≤ a ∧ a < 8 + offset then image.getD (a - 8) 0
    else if a < 31 * 4096 then 0xFF
    else before a

section Rom

variable {ρ : Type} {sys : Nvm.Sys} {nvm : Nvm} {rom : Nvm.Rom ρ} {r r' : ρ}

/-- The erase leaves the flash without the image. -/
theorem written_erase (hrom : rom.Lawful sys nvm)
    (h : Performs rom r [(Request.erase.call nvm, sys.gNvmErrNoError)] r') (image : List UInt8) :
    Written (rom.flash r) (rom.flash r') image 0 := by
  generalize he : sys.gNvmErrNoError = err at h
  cases h with
  | cons h =>
    cases h
    intro a ha
    have hsec : a / Nvm.sectorSize < 32 := Nat.div_lt_of_lt_mul ha
    change rom.flash (rom.erase nvm _ r).2 a = _
    rw [hrom.erase he.symm a ha, Nvm.testBit_sectorBitfield (by decide) hsec,
      if_neg (by omega : ¬ (8 ≤ a ∧ a < 8 + 0))]
    have hiff : decide (0 ≤ a / Nvm.sectorSize ∧ a / Nvm.sectorSize < 0 + 31) = true ↔
        a < 31 * 4096 := by
      rw [decide_eq_true_iff, Nvm.sectorSize]
      omega
    simp only [hiff]

/-- The chunk of the image at `offset`. -/
def chunk (image : List UInt8) (offset : Nat) : List UInt8 :=
  (image.drop offset).take Host.chunkSize

theorem length_chunk (image : List UInt8) (offset : Nat) :
    (chunk image offset).length = min 512 (image.length - offset) := by
  rw [chunk, List.length_take, List.length_drop, Host.chunkSize]

theorem writes_of_lt {image : List UInt8} {offset : Nat} (h : offset < image.length) :
    writes image offset = .write (8 + offset) (chunk image offset) ::
      writes image (offset + (chunk image offset).length) := by
  rw [writes, if_pos h]
  rfl

theorem writes_of_ge {image : List UInt8} {offset : Nat} (h : ¬ offset < image.length) :
    writes image offset = [] := by
  rw [writes, if_neg h]

section Write

variable {before : Nat → UInt8} {image : List UInt8} {offset : Nat}

/-- A write adds a chunk of the image. -/
theorem written_write (hrom : rom.Lawful sys nvm) (himage : image.length ≤ 31 * 4096 - 8)
    (hoff : offset < image.length) (hw : Written before (rom.flash r) image offset)
    (herr : ((Request.write (8 + offset) (chunk image offset)).err rom nvm r) =
      sys.gNvmErrNoError) :
    Written before
      (rom.flash (((Request.write (8 + offset) (chunk image offset)).call nvm).perform rom r).2)
      image (offset + (chunk image offset).length) := by
  have hlen := length_chunk image offset
  have haddr : (UInt32.ofNat (8 + offset)).toNat = 8 + offset := by
    rw [UInt32.toNat_ofNat']
    omega
  have hcap : Nvm.capacity = 131072 := rfl
  -- Behind what is written the flash is still erased.
  have hblank : ∀ i < (chunk image offset).length,
      rom.flash r ((UInt32.ofNat (8 + offset)).toNat + i) = 0xFF := by
    intro i hi
    rw [haddr, hw _ (by omega), if_neg (by omega), if_pos (by omega)]
  intro a ha
  have h := hrom.write herr hblank a ha
  rw [haddr] at h
  change rom.flash (rom.write nvm _ _ r).2 a = _
  rw [h]
  by_cases hin : 8 + offset ≤ a ∧ a < 8 + offset + (chunk image offset).length
  · rw [if_pos hin, if_pos (by omega), chunk, List.getD_eq_getElem?_getD,
      List.getD_eq_getElem?_getD, List.getElem?_take_of_lt (by rw [Host.chunkSize]; omega),
      List.getElem?_drop]
    congr 2
    omega
  · rw [if_neg hin, hw a ha]
    by_cases hold : 8 ≤ a ∧ a < 8 + offset
    · rw [if_pos hold, if_pos (by omega)]
    · have hnot : ¬ (8 ≤ a ∧ a < 8 + (offset + (chunk image offset).length)) := by omega
      rw [if_neg hold, if_neg hnot]

/-- The writes add the rest of the image. -/
theorem written_writes (hrom : rom.Lawful sys nvm) (himage : image.length ≤ 31 * 4096 - 8)
    (hoff : offset ≤ image.length) (hw : Written before (rom.flash r) image offset)
    (h : Performs rom r ((writes image offset).map fun q => (q.call nvm, sys.gNvmErrNoError)) r') :
    Written before (rom.flash r') image image.length := by
  induction hd : image.length - offset using Nat.strongRecOn generalizing offset r with
  | ind d ih =>
    by_cases hlt : offset < image.length
    · have hlen := length_chunk image offset
      rw [writes_of_lt hlt, List.map_cons] at h
      generalize he : sys.gNvmErrNoError = err at h
      cases h with
      | cons h =>
        have hw' := written_write hrom himage hlt hw he.symm
        refine ih _ ?_ (by omega) hw' ?_ rfl
        · omega
        · rw [he]
          exact h
    · rw [writes_of_ge hlt] at h
      cases h
      have he : offset = image.length := by omega
      rwa [he] at hw

/-- The commit adds the header. -/
theorem flashed_commit (hrom : rom.Lawful sys nvm) (himage : image.length ≤ 31 * 4096 - 8)
    {secure : UInt8} (hsec : secure ∈ [engSecured, engUnsecured])
    (hw : Written before (rom.flash r) image image.length)
    (herr : (Request.commit image.length secure).err rom nvm r = sys.gNvmErrNoError) :
    Flashed before
      (rom.flash (((Request.commit image.length secure).call nvm).perform rom r).2) image
      secure := by
  have hsig : (Loader.signature secure).getD [] =
      ascii (if secure = engSecured then "SECU" else "OKOK") := by
    rcases List.mem_cons.mp hsec with rfl | hsec
    · rfl
    · rw [List.mem_singleton.mp hsec]
      rfl
  let header := ascii (if secure = engSecured then "SECU" else "OKOK") ++ le 4 image.length
  have hlen : header.length = 8 := by
    rcases List.mem_cons.mp hsec with rfl | hsec
    · rfl
    · rw [List.length_append, List.mem_singleton.mp hsec]
      rfl
  have hcap : Nvm.capacity = 131072 := rfl
  have hblank : ∀ i < header.length, rom.flash r ((0 : UInt32).toNat + i) = 0xFF := by
    intro i hi
    rw [hw _ (by simp; omega), if_neg (by simp; omega), if_pos (by simp; omega)]
  have hcall : (Request.commit image.length secure).call nvm = .write nvm header 0 := by
    rw [Request.call, hsig]
  rw [Request.err, hcall] at herr
  rw [hcall]
  -- Below the image the flash has the header, above it is as it was.
  have hafter : ∀ a < Nvm.capacity, rom.flash (rom.write nvm header 0 r).2 a =
      if a < 8 then header.getD a 0 else rom.flash r a := by
    intro a ha
    have h := hrom.write herr hblank a ha
    rw [hlen] at h
    simpa using h
  refine ⟨?_, ?_, fun a h8 h31 => ?_, fun a h31 h32 => ?_⟩
  · change region _ 0 8 = header
    rw [← hlen]
    refine region_eq fun i hi => ?_
    rw [Nat.zero_add]
    exact (hafter i (by omega)).trans (if_pos (by omega))
  · refine region_eq fun i hi => ?_
    refine (hafter _ (by omega)).trans ?_
    rw [if_neg (by omega), hw _ (by omega), if_pos (by omega), Nat.add_sub_cancel_left]
  · refine (hafter a (by omega)).trans ?_
    rw [if_neg (by omega), hw a (by omega), if_neg (by omega), if_pos h31]
  · refine (hafter a (by omega)).trans ?_
    rw [if_neg (by omega), hw a (by omega), if_neg (by omega), if_neg (by omega)]

end Write

end Rom

/-! ## The requests of the host -/

namespace Host

variable {image : List UInt8}

theorem eraseAll_eq : eraseAll = (do sendFrame Request.erase.body; expectConfirm "Erase") := by
  unfold eraseAll
  rw [toBytes_eq (by decide)]
  rfl

theorem writeChunk_eq {offset : Nat} (hoff : offset < image.length)
    (haddr : 8 + offset < 256 ^ 4) :
    writeChunk image offset =
      (do sendFrame (Request.write (8 + offset) (chunk image offset)).body
          expectConfirm s!"Write @0x{hex 6 (8 + offset)} ({(chunk image offset).length} bytes)" :
        Raising Unit) >>= fun _ => pure (.inl (offset + (chunk image offset).length)) := by
  have hlen := length_chunk image offset
  have ha : toBytes (headerSize + offset) 4 = .ok (le 4 (8 + offset)) :=
    toBytes_eq (by rw [headerSize]; omega)
  have hl : toBytes ((image.drop offset).take chunkSize).length 2 =
      .ok (le 2 (chunk image offset).length) := toBytes_eq (by
    change (chunk image offset).length < _
    omega)
  unfold writeChunk
  rw [if_pos hoff]
  simp only [ha, hl, bind_assoc]
  rfl

theorem commit_eq (himage : image.length < 256 ^ 4) (secure : UInt8) :
    commit image secure = (do
      sendFrame (Request.commit image.length secure).body
      expectConfirm "Commit") := by
  unfold commit
  rw [toBytes_eq himage]
  rfl

end Host

/-! ## The run of host and loader -/

section Run

variable {ρ α β γ : Type} (sys : Nvm.Sys) (checks : Nvm.Checks) (nvm : Nvm) (rom : Nvm.Rom ρ)
  (pieces : Nat → Nat)

/-- The calls for the requests, all with success. -/
def succeeding (qs : List Request) : List (Call × UInt32) :=
  qs.map fun q => (q.call nvm, sys.gNvmErrNoError)

/-- Between two idle states, all of the requests have been answered with success. -/
structure Succeeded (s : Link ρ) (qs : List Request) (t : Link ρ) : Prop where
  idle : Idle t
  calls : Link.calls t.log = Link.calls s.log ++ succeeding sys nvm qs
  requests : ∃ l, t.requests = s.requests ++ l ∧ l.map Prod.fst = qs.map fun q => encode q.body
  ends : qs = [] ∧ t = s ∨ Loader.EndsSent t.log

/-- Between two idle states, requests have been answered with success up to one that has not. -/
structure Failed (s : Link ρ) (qs : List Request) (t : Link ρ) : Prop where
  idle : Idle t
  fails : ∃ done q rest err, qs = done ++ q :: rest ∧ err ≠ sys.gNvmErrNoError ∧
    Link.calls t.log = Link.calls s.log ++ (succeeding sys nvm done ++ [(q.call nvm, err)]) ∧
    ∃ l, t.requests = s.requests ++ l ∧ l.map Prod.fst = (done ++ [q]).map fun q => encode q.body

/-- With the loader at the other end, the program makes the requests in order, and ends with `a`
unless one fails, where it raises. -/
def Does (p : Host.Raising α) (a : α) (qs : List Request) : Prop :=
  ∀ s : Link ρ, Idle s →
    (∃ t, Joint (Link.loaderHandler rom pieces) Link.hostHandler
      (Loader.commandLoop Loader.uart1 (Loader.flash sys checks nvm)) p.run s
      (Loader.commandLoop Loader.uart1 (Loader.flash sys checks nvm)) (.ok a) t ∧
      Succeeded sys nvm s qs t) ∨
    ∃ t e, Joint (Link.loaderHandler rom pieces) Link.hostHandler
      (Loader.commandLoop Loader.uart1 (Loader.flash sys checks nvm)) p.run s
      (Loader.commandLoop Loader.uart1 (Loader.flash sys checks nvm)) (.error e) t ∧
      Failed sys nvm s qs t

variable {sys checks nvm rom pieces} {qs qs' : List Request} {s t u : Link ρ} {a : α} {b : β}

theorem succeeding_append :
    succeeding sys nvm (qs ++ qs') = succeeding sys nvm qs ++ succeeding sys nvm qs' :=
  List.map_append

theorem Succeeded.trans (h : Succeeded sys nvm s qs t) (h' : Succeeded sys nvm t qs' u) :
    Succeeded sys nvm s (qs ++ qs') u := by
  obtain ⟨l, hl, hm⟩ := h.requests
  obtain ⟨l', hl', hm'⟩ := h'.requests
  refine ⟨h'.idle, ?_, ⟨l ++ l', ?_, ?_⟩, ?_⟩
  · rw [h'.calls, h.calls, succeeding_append, List.append_assoc]
  · rw [hl', hl, List.append_assoc]
  · rw [List.map_append, List.map_append, hm, hm']
  · rcases h'.ends with ⟨rfl, rfl⟩ | he
    · rw [List.append_nil]
      exact h.ends
    · exact .inr he

theorem Failed.after (h : Succeeded sys nvm s qs t) (h' : Failed sys nvm t qs' u) :
    Failed sys nvm s (qs ++ qs') u := by
  obtain ⟨l, hl, hm⟩ := h.requests
  obtain ⟨hidle, done, q, rest, err, rfl, herr, hcalls, l', hl', hm'⟩ := h'
  refine ⟨hidle, qs ++ done, q, rest, err, ?_, herr, ?_, l ++ l', ?_, ?_⟩
  · rw [List.append_assoc]
  · rw [hcalls, h.calls, succeeding_append, List.append_assoc, List.append_assoc]
  · rw [hl', hl, List.append_assoc]
  · rw [List.map_append, hm, hm', List.append_assoc, ← List.map_append]

theorem Failed.append (h : Failed sys nvm s qs t) : Failed sys nvm s (qs ++ qs') t := by
  obtain ⟨hidle, done, q, rest, err, rfl, h⟩ := h
  exact ⟨hidle, done, q, rest ++ qs', err, by rw [List.append_assoc]; rfl, h⟩

namespace Does

variable {p : Host.Raising α} {f : α → Host.Raising β}

theorem pure : Does sys checks nvm rom pieces (pure a : Host.Raising α) a [] := fun s hs =>
  .inl ⟨s, Joint.pure, hs, (List.append_nil _).symm, ⟨[], (List.append_nil _).symm, rfl⟩,
    .inl ⟨rfl, rfl⟩⟩

theorem bind (hp : Does sys checks nvm rom pieces p a qs)
    (hf : Does sys checks nvm rom pieces (f a) b qs') :
    Does sys checks nvm rom pieces (p >>= f) b (qs ++ qs') := by
  intro s hs
  rcases hp s hs with ⟨t, hj, ht⟩ | ⟨t, e, hj, ht⟩
  · rcases hf t ht.idle with ⟨u, hj', hu⟩ | ⟨u, e, hj', hu⟩
    · exact .inl ⟨u, hj.bind_ok hj', ht.trans hu⟩
    · exact .inr ⟨u, e, hj.bind_ok hj', hu.after ht⟩
  · exact .inr ⟨t, e, hj.bind_error, ht.append⟩

section Loop

variable {x y : α} {c : β} {body : α → Host.Raising (α ⊕ β)}

theorem iterateE_next (hb : Does sys checks nvm rom pieces (body x) (.inl y) qs)
    (hk : Does sys checks nvm rom pieces (iterateE y body) c qs') :
    Does sys checks nvm rom pieces (iterateE x body) c (qs ++ qs') := by
  intro s hs
  rcases hb s hs with ⟨t, hj, ht⟩ | ⟨t, e, hj, ht⟩
  · rcases hk t ht.idle with ⟨u, hj', hu⟩ | ⟨u, e, hj', hu⟩
    · exact .inl ⟨u, hj.iterateE_next hj', ht.trans hu⟩
    · exact .inr ⟨u, e, hj.iterateE_next hj', hu.after ht⟩
  · exact .inr ⟨t, e, hj.iterateE_error, ht.append⟩

theorem iterateE_exit (hb : Does sys checks nvm rom pieces (body x) (.inr c) qs) :
    Does sys checks nvm rom pieces (iterateE x body) c qs := by
  intro s hs
  rcases hb s hs with ⟨t, hj, ht⟩ | ⟨t, e, hj, ht⟩
  · exact .inl ⟨t, hj.iterateE_exit, ht⟩
  · exact .inr ⟨t, e, hj.iterateE_error, ht⟩

end Loop

/-- One request. -/
theorem request (hc : checks.Lawful) {q : Request} (hq : q.Ok) (what : String) :
    Does sys checks nvm rom pieces (do Host.sendFrame q.body; Host.expectConfirm what) () [q] := by
  intro s hs
  obtain ⟨t, res, hj, ht, hres⟩ := exchange sys rom nvm pieces hc hq what hs
  have hl : ∃ l, t.requests = s.requests ++ l ∧ l.map Prod.fst = [encode q.body] :=
    ⟨_, ht.requests, rfl⟩
  cases res with
  | ok _ =>
    refine .inl ⟨t, hj, ht.idle, ?_, hl, .inr ht.ends⟩
    rw [ht.calls, hres.mp rfl]
    rfl
  | error e =>
    refine .inr ⟨t, e, hj, ht.idle, [], q, [], q.err rom nvm s.rom, rfl, ?_, ht.calls, hl⟩
    intro h
    cases hres.mpr h

theorem eraseAll (hc : checks.Lawful) :
    Does sys checks nvm rom pieces Host.eraseAll () [.erase] := by
  rw [Host.eraseAll_eq]
  exact request (q := .erase) hc trivial "Erase"

section Image

variable {image : List UInt8}

theorem writeChunk (himage : image.length ≤ 31 * 4096 - 8) (hc : checks.Lawful) {offset : Nat}
    (hoff : offset < image.length) :
    Does sys checks nvm rom pieces (Host.writeChunk image offset)
      (.inl (offset + (chunk image offset).length)) [.write (8 + offset) (chunk image offset)] := by
  have hlen := length_chunk image offset
  have hq : (Request.write (8 + offset) (chunk image offset)).Ok := by
    refine ⟨?_, ?_⟩
    · rw [Nvm.capacity, Nvm.sectorCount, Nvm.sectorSize]
      omega
    · rw [maxChunk]
      omega
  rw [Host.writeChunk_eq hoff (by omega)]
  exact bind (request hc hq _) pure

theorem writes (himage : image.length ≤ 31 * 4096 - 8) (hc : checks.Lawful) (offset : Nat) :
    Does sys checks nvm rom pieces (iterateE offset (Host.writeChunk image)) ()
      (Ssl.writes image offset) := by
  induction hd : image.length - offset using Nat.strongRecOn generalizing offset with
  | ind d ih =>
    by_cases hlt : offset < image.length
    · have hlen := length_chunk image offset
      rw [writes_of_lt hlt]
      exact iterateE_next (writeChunk himage hc hlt) (ih _ (by omega) _ rfl)
    · rw [writes_of_ge hlt]
      refine iterateE_exit ?_
      unfold Host.writeChunk
      rw [if_neg hlt]
      exact pure

/-- The part of `flash_image` before the commit. -/
theorem imageRequests (himage : image.length ≤ 31 * 4096 - 8) (hc : checks.Lawful) :
    Does sys checks nvm rom pieces
      (do Host.eraseAll; iterateE 0 (Host.writeChunk image) : Host.Raising Unit) ()
      (Ssl.imageRequests image) :=
  bind (eraseAll hc) (writes himage hc 0)

end Image

end Does

/-- How `flash_image` ends, from an empty link and the state `r` of the ROM: with an exception
before the commit, or with the answer to it. -/
inductive Outcome (sys : Nvm.Sys) (rom : Nvm.Rom ρ) (nvm : Nvm) (r : ρ) (image : List UInt8)
    (secure : UInt8) : Except Host.Raised Unit → Link ρ → Prop
  | failed {e : Host.Raised} {t : Link ρ} :
      Failed sys nvm (Link.ready r) (imageRequests image) t →
      Outcome sys rom nvm r image secure (.error e) t
  | answered {res : Except Host.Raised Unit} {m t : Link ρ} :
      Succeeded sys nvm (Link.ready r) (imageRequests image) m → Loader.EndsSent m.log →
      Books rom r m → Served rom nvm m (.commit image.length secure) t →
      (res = .ok () ↔ (Request.commit image.length secure).err rom nvm m.rom =
        sys.gNvmErrNoError) →
      Outcome sys rom nvm r image secure res t

theorem Outcome.idle {image : List UInt8} {secure : UInt8} {res : Except Host.Raised Unit}
    {r : ρ} (h : Outcome sys rom nvm r image secure res t) : Idle t := by
  cases h with
  | failed h => exact h.idle
  | answered _ _ _ h _ => exact h.idle

/-- One run of `flash_image` and the command loop. -/
theorem flashImage_runs (sys : Nvm.Sys) (nvm : Nvm) (rom : Nvm.Rom ρ) (pieces : Nat → Nat)
    (hc : checks.Lawful) {image : List UInt8} {secure : UInt8} (himage : image.length ≤ 31 * 4096 - 8)
    (hsec : secure ∈ [engSecured, engUnsecured]) (r : ρ) :
    ∃ t res, Net.Reaches (Link.loaderHandler rom pieces) Link.hostHandler
        ⟨Loader.commandLoop Loader.uart1 (Loader.flash sys checks nvm),
          (Host.flashImage image secure).run, Link.ready r⟩
        ⟨Loader.commandLoop Loader.uart1 (Loader.flash sys checks nvm), .ret res, t⟩ ∧
      Outcome sys rom nvm r image secure res t := by
  have he : Host.flashImage image secure =
      (do Host.eraseAll; iterateE 0 (Host.writeChunk image) : Host.Raising Unit) >>=
        fun _ => Host.commit image secure := by
    unfold Host.flashImage
    rw [bind_assoc]
  rw [he]
  have hq : (Request.commit image.length secure).Ok := ⟨by omega, hsec⟩
  have hdoes : Does sys checks nvm rom pieces _ () (imageRequests image) :=
    Does.imageRequests himage hc
  rcases hdoes (Link.ready r) ⟨rfl, rfl⟩ with ⟨m, hj, hm⟩ | ⟨t, e, hj, ht⟩
  · obtain ⟨t, res, hj', ht, hres⟩ := exchange sys rom nvm pieces hc hq "Commit" hm.idle
    rw [← Host.commit_eq (by omega)] at hj'
    have hends : Loader.EndsSent m.log := by
      rcases hm.ends with ⟨h, -⟩ | h
      · cases h
      · exact h
    have hbm : Books rom r m := Session.books hj.reaches (.ready rom r)
    exact ⟨t, res, (hj.bind_ok hj').reaches, .answered hm hends hbm ht hres⟩
  · exact ⟨t, .error e, hj.bind_error.reaches, .failed ht⟩

/-- The command loop waits for the next request. -/
theorem commandLoop_waits (sys : Nvm.Sys) (checks : Nvm.Checks) (nvm : Nvm) (rom : Nvm.Rom ρ)
    (pieces : Nat → Nat) (hs : s.toLoader = []) :
    Waits (Link.loaderHandler rom pieces)
      (Loader.commandLoop Loader.uart1 (Loader.flash sys checks nvm)) s s := by
  have hread : Waits (Link.loaderHandler rom pieces) (Loader.uart1.read 1) s s := by
    refine .call ?_
    simp [Link.loaderHandler, Link.pieceSize, hs]
  exact .of_body (Waits.bind (Waits.bind (Waits.bind (.of_body (Waits.bind hread)))))

/-! ## Every run -/

/-- Bytes that have been sent are in the log of who has sent at least as many. -/
theorem prefix_of_sent {l m n : List Event} (hm : Loader.EndsSent m) (hln : l <+: n)
    (hmn : m <+: n) (hlen : (Link.sentBytes m).length ≤ (Link.sentBytes l).length) : m <+: l := by
  rcases List.prefix_or_prefix_of_prefix hmn hln with h | h
  · exact h
  · obtain ⟨m', b, bs, rfl⟩ := hm
    rcases List.prefix_concat_iff.mp h with rfl | ⟨x, rfl⟩
    · exact List.prefix_rfl
    · -- The last bytes of `m` are missing in `l`.
      rw [Link.sentBytes_append, Link.sentBytes_append, List.length_append, List.length_append]
        at hlen
      have : (Link.sentBytes [.sent (b :: bs)]).length = bs.length + 1 := by
        simp [Link.sentBytes]
      omega

/-- A frame with a commit in it. -/
def IsCommit (frame : List UInt8) : Prop := ∃ body, frame = encode (Cmd.commitRequest :: body)

/-- A write to the header. -/
def Call.WritesHeader : Call → Prop
  | .write _ _ address => address.toNat < 8
  | _ => False

theorem IsCommit.id {id : UInt8} {body : List UInt8} (h : IsCommit (encode (id :: body))) :
    id = Cmd.commitRequest := by
  obtain ⟨body', h⟩ := h
  have h3 : (encode (id :: body)).getD 3 0 = Cmd.commitRequest := by
    rw [h]
    rfl
  exact h3

theorem mem_writes {image : List UInt8} {offset : Nat} {q : Request} (h : q ∈ writes image offset) :
    ∃ i, offset ≤ i ∧ i < image.length ∧ q = .write (8 + i) (chunk image i) := by
  induction hd : image.length - offset using Nat.strongRecOn generalizing offset with
  | ind d ih =>
    by_cases hlt : offset < image.length
    · have hlen := length_chunk image offset
      rw [writes_of_lt hlt] at h
      rcases List.mem_cons.mp h with h | h
      · exact ⟨offset, le_rfl, hlt, h⟩
      · obtain ⟨i, hi, h⟩ := ih _ (by omega) h rfl
        exact ⟨i, by omega, h⟩
    · rw [writes_of_ge hlt] at h
      cases h

/-- The requests before the commit are none. -/
theorem not_isCommit_of_mem {image : List UInt8} {q : Request} (hq : q ∈ imageRequests image) :
    ¬ IsCommit (encode q.body) := by
  rcases List.mem_cons.mp hq with rfl | hq
  · exact fun h => absurd h.id (by decide)
  · obtain ⟨i, -, -, rfl⟩ := mem_writes hq
    exact fun h => absurd h.id (by decide)

/-- They leave the header alone. -/
theorem not_writesHeader_of_mem {image : List UInt8} (himage : image.length ≤ 31 * 4096 - 8)
    {q : Request} (hq : q ∈ imageRequests image) : ¬ (q.call nvm).WritesHeader := by
  rcases List.mem_cons.mp hq with rfl | hq
  · exact id
  · obtain ⟨i, -, hi, rfl⟩ := mem_writes hq
    intro h
    change (UInt32.ofNat (8 + i)).toNat < 8 at h
    rw [UInt32.toNat_ofNat'] at h
    omega

theorem not_isCommit_of_map {image : List UInt8} {l : List (List UInt8 × Nat)}
    (hq : ∀ q ∈ qs, q ∈ imageRequests image)
    (hl : l.map Prod.fst = qs.map fun q => encode q.body) {x : List UInt8 × Nat} (hx : x ∈ l) :
    ¬ IsCommit x.1 := by
  have hx1 : x.1 ∈ l.map Prod.fst := List.mem_map_of_mem hx
  rw [hl] at hx1
  obtain ⟨q, hqs, he⟩ := List.mem_map.mp hx1
  rw [← he]
  exact not_isCommit_of_mem (hq q hqs)

theorem Succeeded.image {image : List UInt8} {r : ρ}
    (h : Succeeded sys nvm (Link.ready r) (imageRequests image) t) :
    ∀ x ∈ t.requests, ¬ IsCommit x.1 := by
  intro x hx
  obtain ⟨l, hl, hm⟩ := h.requests
  rw [hl] at hx
  exact not_isCommit_of_map (fun _ => id) hm hx

theorem Failed.image {image : List UInt8} {r : ρ} (himage : image.length ≤ 31 * 4096 - 8)
    (h : Failed sys nvm (Link.ready r) (imageRequests image) t) :
    (∀ x ∈ t.requests, ¬ IsCommit x.1) ∧ ∀ x ∈ Link.calls t.log, ¬ x.1.WritesHeader := by
  obtain ⟨-, done, q, rest, err, hqs, -, hcalls, l, hl, hm⟩ := h
  have hmem : ∀ q' ∈ done ++ [q], q' ∈ imageRequests image := by
    intro q' hq'
    rw [hqs, List.append_cons]
    exact List.mem_append_left _ hq'
  refine ⟨fun x hx => ?_, fun x hx => ?_⟩
  · rw [hl] at hx
    exact not_isCommit_of_map hmem hm hx
  · rw [hcalls] at hx
    rcases List.mem_append.mp hx with hx | hx
    · cases hx
    · rcases List.mem_append.mp hx with hx | hx
      · obtain ⟨q', hq', rfl⟩ := List.mem_map.mp hx
        exact not_writesHeader_of_mem himage (hmem q' (List.mem_append_left _ hq'))
      · rw [List.mem_singleton.mp hx]
        exact not_writesHeader_of_mem himage (hmem q (by simp))

/-- After all of the calls have succeeded, the flash holds the image. -/
theorem flashed_of_performs {image : List UInt8} {secure : UInt8} {r r' : ρ}
    (hrom : rom.Lawful sys nvm) (himage : image.length ≤ 31 * 4096 - 8)
    (hsec : secure ∈ [engSecured, engUnsecured])
    (h : Performs rom r (succeeding sys nvm (imageRequests image ++
      [.commit image.length secure])) r') :
    Flashed (rom.flash r) (rom.flash r') image secure := by
  rw [succeeding_append] at h
  obtain ⟨r₂, himg, hcommit⟩ := h.of_append
  have hsplit : succeeding sys nvm (imageRequests image) =
      succeeding sys nvm [.erase] ++ succeeding sys nvm (writes image 0) := rfl
  rw [hsplit] at himg
  obtain ⟨r₁, herase, hwrites⟩ := himg.of_append
  have hw := written_writes hrom himage (Nat.zero_le _) (written_erase hrom herase image) hwrites
  change Performs rom r₂ [(_, sys.gNvmErrNoError)] r' at hcommit
  generalize he : sys.gNvmErrNoError = err at hcommit
  cases hcommit with
  | cons h =>
    cases h
    exact flashed_commit hrom himage hsec hw he.symm

/-- Host and loader at the start of `flash_image`. -/
def flashing (sys : Nvm.Sys) (checks : Nvm.Checks) (nvm : Nvm) (image : List UInt8)
    (secure : UInt8) (r : ρ) : Session ρ Empty (Except Host.Raised Unit) where
  left := Loader.commandLoop Loader.uart1 (Loader.flash sys checks nvm)
  right := (Host.flashImage image secure).run
  state := Link.ready r

section Reached

variable {image : List UInt8} {secure : UInt8} {r : ρ} {res : Except Host.Raised Unit}
  {c : Session ρ Empty (Except Host.Raised Unit)}

/-- A host that has returned has waited for all that the loader does. -/
theorem Outcome.log_eq (h : Outcome sys rom nvm r image secure (.ok ()) t)
    {p : Proc Loader.sig Empty} (hbc : Books rom r c.state) (hbt : Books rom r t)
    (hreach : Session.Reaches rom pieces c ⟨p, .ret (.ok ()), t⟩)
    (hc : c.right = .ret (.ok ())) : c.state.log = t.log := by
  have hidle := h.idle
  cases h with
  | answered _ _ _ ht _ =>
    have hrec : t.received = c.state.received := Session.received hreach hc
    have hpre : t.log <+: c.state.log := by
      refine prefix_of_sent ht.ends (Session.grows hreach).log List.prefix_rfl ?_
      rw [hbt.sent, hbc.sent, hidle.toHost, hrec]
      simp
    exact (hpre.eq_of_length_le (Session.grows hreach).log.length_le).symm

/-- A host that has returned has flashed the image. -/
theorem Outcome.flashed (hrom : rom.Lawful sys nvm) (himage : image.length ≤ 31 * 4096 - 8)
    (hsec : secure ∈ [engSecured, engUnsecured])
    (h : Outcome sys rom nvm r image secure res t) {p : Proc Loader.sig Empty}
    (hbc : Books rom r c.state) (hbt : Books rom r t)
    (hreach : Session.Reaches rom pieces c ⟨p, .ret res, t⟩) (hc : c.right = .ret (.ok ())) :
    Flashed (rom.flash r) (rom.flash c.state.rom) image secure := by
  have hres : Proc.ret res = .ret (.ok ()) := Net.ret_right hreach hc
  cases hres
  have hlog := h.log_eq hbc hbt hreach hc
  cases h with
  | answered hm _ _ ht hres =>
    have hcalls : Link.calls c.state.log =
        succeeding sys nvm (imageRequests image ++ [.commit image.length secure]) := by
      rw [hlog, ht.calls, hm.calls, hres.mp rfl, succeeding_append]
      rfl
    exact flashed_of_performs hrom himage hsec (hcalls ▸ hbc.rom)

/-- The calls and requests that follow a call before the commit that has failed. -/
theorem Outcome.failure (himage : image.length ≤ 31 * 4096 - 8)
    (h : Outcome sys rom nvm r image secure res t) (hg : Grows c.state t) {x : Call × UInt32}
    (hx : x ∈ Link.calls c.state.log) (hw : ¬ x.1.WritesHeader) (herr : x.2 ≠ sys.gNvmErrNoError) :
    (∃ e, res = .error e) ∧ (∀ y ∈ c.state.requests, ¬ IsCommit y.1) ∧
      ∀ y ∈ Link.calls c.state.log, ¬ y.1.WritesHeader := by
  have hsub : ∀ y ∈ Link.calls c.state.log, y ∈ Link.calls t.log := fun y hy =>
    (hg.log.filterMap _).subset hy
  cases h with
  | @failed e _ h =>
    obtain ⟨hreq, hcalls⟩ := h.image himage
    exact ⟨⟨e, rfl⟩, fun y hy => hreq y (hg.requests.subset hy), fun y hy => hcalls y (hsub y hy)⟩
  | answered hm _ _ ht _ =>
    -- Of these calls only the one for the commit can fail.
    have hxt := hsub x hx
    rw [ht.calls, hm.calls] at hxt
    rcases List.mem_append.mp hxt with hxt | hxt
    · obtain ⟨q, -, rfl⟩ := List.mem_map.mp hxt
      exact absurd rfl herr
    · rw [List.mem_singleton.mp hxt] at hw
      exact absurd (show (0 : UInt32).toNat < 8 by decide) hw

/-- A commit is sent only once all of the calls before it have succeeded. -/
theorem Outcome.committed (himage : image.length ≤ 31 * 4096 - 8)
    (h : Outcome sys rom nvm r image secure res t) (hg : Grows c.state t)
    (hbc : Books rom r c.state) {x : List UInt8 × Nat} (hx : x ∈ c.state.requests)
    (hcommit : IsCommit x.1) {q : Request} (hq : q ∈ imageRequests image) :
    (q.call nvm, sys.gNvmErrNoError) ∈ Link.calls c.state.log := by
  have hxt := hg.requests.subset hx
  cases h with
  | failed h => exact absurd hcommit ((h.image himage).1 x hxt)
  | @answered _ m _ hm hends hbm ht _ =>
    rw [ht.requests] at hxt
    rcases List.mem_append.mp hxt with hxt | hxt
    · exact absurd hcommit (hm.image x hxt)
    · have hlen := hbc.requests x hx
      rw [List.mem_singleton.mp hxt] at hlen
      have hlog : m.log <+: c.state.log := by
        refine prefix_of_sent hends hg.log ht.log ?_
        rw [hbm.sent, hbc.sent, hm.idle.toHost, List.append_nil, List.length_append]
        exact Nat.le_add_right_of_le hlen
      refine (hlog.filterMap _).subset ?_
      change _ ∈ Link.calls m.log
      rw [hm.calls]
      exact List.mem_map_of_mem hq

/-- So it is with a write of the header. -/
theorem Outcome.header (himage : image.length ≤ 31 * 4096 - 8)
    (h : Outcome sys rom nvm r image secure res t) (hg : Grows c.state t) {x : Call × UInt32}
    (hx : x ∈ Link.calls c.state.log) (hw : x.1.WritesHeader) {q : Request}
    (hq : q ∈ imageRequests image) :
    (q.call nvm, sys.gNvmErrNoError) ∈ Link.calls c.state.log := by
  have hpre : Link.calls c.state.log <+: Link.calls t.log := hg.log.filterMap _
  cases h with
  | failed h => exact absurd hw ((h.image himage).2 x (hpre.subset hx))
  | answered hm _ _ ht _ =>
    obtain ⟨y, hmc⟩ : ∃ y, Link.calls t.log =
        succeeding sys nvm (imageRequests image) ++ [y] := ⟨_, by rw [ht.calls, hm.calls]; rfl⟩
    rw [hmc] at hpre
    rcases List.prefix_concat_iff.mp hpre with he | hp
    · rw [he]
      exact List.mem_append_left _ (List.mem_map_of_mem hq)
    · obtain ⟨q', hq', rfl⟩ := List.mem_map.mp (hp.subset hx)
      exact absurd hw (not_writesHeader_of_mem himage hq')

/-- So it is with a host that has returned. -/
theorem Outcome.returned (h : Outcome sys rom nvm r image secure (.ok ()) t)
    (hlog : c.state.log = t.log) {q : Request} (hq : q ∈ imageRequests image) :
    (q.call nvm, sys.gNvmErrNoError) ∈ Link.calls c.state.log := by
  rw [hlog]
  cases h with
  | answered hm _ _ ht _ =>
    rw [ht.calls, hm.calls]
    exact List.mem_append_left _ (List.mem_append_right _ (List.mem_map_of_mem hq))

/-- Where no call of the ROM fails, the host does not raise. -/
theorem Outcome.returns (h : Outcome sys rom nvm r image secure res t) (hbt : Books rom r t)
    (hok : ∀ (call : Call) r, (call.perform rom r).1 = sys.gNvmErrNoError) : res = .ok () := by
  cases h with
  | failed h =>
    obtain ⟨-, done, q, rest, err, -, herr, hcalls, -⟩ := h
    have hmem : (q.call nvm, err) ∈ Link.calls t.log := by
      rw [hcalls]
      simp
    exact absurd (hbt.rom.err _ hok hmem) herr
  | answered _ _ _ _ hres => exact hres.mpr (hok _ _)

end Reached

/-- One outcome is that of every run: each comes to it within `N` steps, and stops only there. -/
theorem flashing_settles (sys : Nvm.Sys) (nvm : Nvm) (rom : Nvm.Rom ρ) (pieces : Nat → Nat)
    (hc : checks.Lawful) {image : List UInt8} {secure : UInt8}
    (himage : image.length ≤ 31 * 4096 - 8) (hsec : secure ∈ [engSecured, engUnsecured]) (r : ρ) :
    ∃ N p res t, Outcome sys rom nvm r image secure res t ∧
      ∀ k c, Steps (Session.Step rom pieces) k (flashing sys checks nvm image secure r) c →
        k ≤ N ∧ Session.Reaches rom pieces c ⟨p, .ret res, t⟩ ∧ Books rom r c.state ∧
          Books rom r t ∧ (Stuck (Session.Step rom pieces) c → c = ⟨p, .ret res, t⟩) := by
  obtain ⟨t, res, hrun, hout⟩ := flashImage_runs sys nvm rom pieces hc himage hsec r
  obtain ⟨p, hp, hstuck⟩ := Net.stuck_left (b := res)
    (commandLoop_waits sys checks nvm rom pieces hout.idle.toLoader)
  obtain ⟨N, hN⟩ := Steps.of_reach (hrun.trans hp)
  refine ⟨N, p, res, t, hout, fun k c hk => ?_⟩
  obtain ⟨hle, hreach, hstop⟩ := Session.settles hN hstuck hk
  have hbc : Books rom r c.state := Session.books hk.reach (.ready rom r)
  exact ⟨hle, hreach, hbc, Session.books hreach hbc, hstop⟩

/-- On a ROM whose calls succeed, `flash_image` returns. -/
theorem flashImage_returns (sys : Nvm.Sys) (nvm : Nvm) (rom : Nvm.Rom ρ) (pieces : Nat → Nat)
    (hc : checks.Lawful) {image : List UInt8} {secure : UInt8}
    (himage : image.length ≤ 31 * 4096 - 8) (hsec : secure ∈ [engSecured, engUnsecured]) (r : ρ)
    (hok : ∀ (call : Call) r, (call.perform rom r).1 = sys.gNvmErrNoError) {k : Nat}
    {c : Session ρ Empty (Except Host.Raised Unit)}
    (hk : Steps (Session.Step rom pieces) k (flashing sys checks nvm image secure r) c)
    (hs : Stuck (Session.Step rom pieces) c) : c.right = .ret (.ok ()) := by
  obtain ⟨_, p, res, t, hout, hsettles⟩ :=
    flashing_settles sys nvm rom pieces hc himage hsec r
  obtain ⟨-, -, -, hbt, hstop⟩ := hsettles k c hk
  rw [hstop hs, hout.returns hbt hok]

/-- In every order in which host and loader run, for every piece that a read of the UART gives, and
whatever the calls of the ROM answer: the run ends, with `flash_image` at its end. Where it returns,
the flash holds the image. As long as an erase or a write of the image has not succeeded, and from
where one has failed, `flash_image` does not return but by raising, no commit has been sent, and the
header has not been written. -/
theorem image_flashed (hc : checks.Lawful) (hrom : rom.Lawful sys nvm) (image : List UInt8)
    (himage : image.length ≤ 31 * 4096 - 8) (secure : UInt8)
    (hsec : secure ∈ [engSecured, engUnsecured]) (pieces : Nat → Nat) (r : ρ) :
    ∃ N, ∀ k c, Steps (Session.Step rom pieces) k (flashing sys checks nvm image secure r) c →
      k ≤ N ∧
      (Stuck (Session.Step rom pieces) c → ∃ res, c.right = .ret res) ∧
      (c.right = .ret (.ok ()) →
        Flashed (rom.flash r) (rom.flash c.state.rom) image secure) ∧
      ((∃ q ∈ imageRequests image,
          (q.call nvm, sys.gNvmErrNoError) ∉ Link.calls c.state.log) ∨
        (∃ x ∈ Link.calls c.state.log, ¬ x.1.WritesHeader ∧ x.2 ≠ sys.gNvmErrNoError) →
        (∀ res, c.right = .ret res → ∃ e, res = .error e) ∧
        (∀ x ∈ c.state.requests, ¬ IsCommit x.1) ∧
        ∀ x ∈ Link.calls c.state.log, ¬ x.1.WritesHeader) := by
  obtain ⟨N, p, res, t, hout, hsettles⟩ := flashing_settles sys nvm rom pieces hc himage hsec r
  refine ⟨N, fun k c hk => ?_⟩
  obtain ⟨hle, hreach, hbc, hbt, hstop⟩ := hsettles k c hk
  have hg : Grows c.state t := Session.grows hreach
  refine ⟨hle, fun hs => ?_, hout.flashed hrom himage hsec hbc hbt hreach, ?_⟩
  · rw [hstop hs]
    exact ⟨res, rfl⟩
  · rintro (⟨q, hq, hnot⟩ | ⟨x, hx, hw, herr⟩)
    · refine ⟨fun res' hc' => ?_, fun x hx h => ?_, fun x hx h => ?_⟩
      · cases Net.ret_right hreach hc'
        cases res with
        | ok _ => exact absurd (hout.returned (hout.log_eq hbc hbt hreach hc') hq) hnot
        | error e => exact ⟨e, rfl⟩
      · exact hnot (hout.committed himage hg hbc hx h hq)
      · exact hnot (hout.header himage hg hx h hq)
    · obtain ⟨⟨e, rfl⟩, hquiet⟩ := hout.failure himage hg hx hw herr
      refine ⟨fun res' hc' => ?_, hquiet⟩
      cases Net.ret_right hreach hc'
      exact ⟨e, rfl⟩

/-- Three bytes, on a ROM whose calls succeed: the run returns, and the flash holds the header and
the bytes. -/
theorem image_flashed_three : ∃ N, ∀ k c,
    Steps (Session.Step (Nvm.Rom.ideal ⟨0, 1, 0, 1⟩) fun _ => 1) k
      (flashing ⟨0, 1, 0, 1⟩ Nvm.Checks.ideal (Nvm.newAssumeSst ⟨0, 1, 0, 1⟩ .internal) [1, 2, 3]
        engSecured fun _ => 0) c →
    k ≤ N ∧ (Stuck (Session.Step (Nvm.Rom.ideal ⟨0, 1, 0, 1⟩) fun _ => 1) c →
      c.right = .ret (.ok ()) ∧
      region c.state.rom 0 8 = ascii "SECU" ++ [3, 0, 0, 0] ∧ region c.state.rom 8 3 = [1, 2, 3] ∧
      c.state.rom 11 = 0xFF) := by
  have himage : [1, 2, 3].length ≤ 31 * 4096 - 8 := by decide
  have hsec : engSecured ∈ [engSecured, engUnsecured] := List.mem_cons_self
  obtain ⟨N, hN⟩ := image_flashed Nvm.Checks.lawful_ideal
    (Nvm.Rom.lawful_ideal ⟨0, 1, 0, 1⟩ (Nvm.newAssumeSst ⟨0, 1, 0, 1⟩ .internal)) [1, 2, 3]
    himage engSecured hsec (fun _ => 1) fun _ => 0
  refine ⟨N, fun k c hk => ⟨(hN k c hk).1, fun hs => ?_⟩⟩
  have hok : ∀ (call : Call) r, (call.perform (Nvm.Rom.ideal ⟨0, 1, 0, 1⟩) r).1 = 0 := by
    intro call r
    cases call <;> rfl
  have hret := flashImage_returns _ _ _ _ Nvm.Checks.lawful_ideal himage hsec _ hok hk hs
  have hflashed := (hN k c hk).2.2.1 hret
  exact ⟨hret, hflashed.header, hflashed.content, hflashed.rest 11 (by decide) (by decide)⟩

end Run

end Mc1322x.Ssl
