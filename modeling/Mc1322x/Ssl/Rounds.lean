import Mc1322x.Ssl.Dispatch

/-!
# Runs of the command loop

`Rounds` are rounds of the command loop, with the commands that they dispatch. A frame whose length
is rejected stays on the link, so the next scan for `SOF` goes through its command.

* `Rounds.between`: where the rejected frames have no `SOF` in them, the loader is always between two
  frames of the host.
* `skips_rejected_iff`: only then are their bytes never taken for a frame.
-/

namespace Mc1322x.Ssl.Loader

open Proc Bytes

section Rounds

variable {ρ : Type} (sys : Nvm.Sys) (checks : Nvm.Checks) (rom : Nvm.Rom ρ) (nvm : Nvm)
  (pieces : Nat → Nat)

/-- Rounds of the command loop, with the commands that they dispatch. -/
inductive Rounds : Link ρ → List (List UInt8) → Link ρ → Prop
  | nil (s : Link ρ) : Rounds s [] s
  | skip {s t u : Link ρ} {cs : List (List UInt8)} :
      Runs (Link.loaderHandler rom pieces) (readFrame uart1 (maxChunk + 8)) s none t →
      Rounds t cs u → Rounds s cs u
  | frame {s t u v : Link ρ} {c : List UInt8} {cs : List (List UInt8)} :
      Runs (Link.loaderHandler rom pieces) (readFrame uart1 (maxChunk + 8)) s (some c) t →
      Runs (Link.loaderHandler rom pieces) (handle uart1 (flash sys checks nvm) c) t () u →
      Rounds u cs v → Rounds s (c :: cs) v

variable {sys checks rom nvm pieces} {s t u : Link ρ} {cs : List (List UInt8)}

/-- They are the rounds of `serve`. -/
theorem rounds_iff_serve : (∃ cs, Rounds sys checks rom nvm pieces s cs t) ↔
    ∃ n as, Runs (Link.loaderHandler rom pieces)
      (times n (serve uart1 (flash sys checks nvm))) s as t := by
  constructor
  · rintro ⟨cs, h⟩
    induction h with
    | nil s => exact ⟨0, [], .pure⟩
    | @skip s t _ _ hread _ ih =>
      obtain ⟨n, as, hn⟩ := ih
      have hserve : Runs (Link.loaderHandler rom pieces) (serve uart1 (flash sys checks nvm)) s () t :=
        hread.bind .pure
      exact ⟨n + 1, () :: as, hserve.bind (hn.bind .pure)⟩
    | @frame s _ u _ _ _ hread hhandle _ ih =>
      obtain ⟨n, as, hn⟩ := ih
      have hserve : Runs (Link.loaderHandler rom pieces) (serve uart1 (flash sys checks nvm)) s () u :=
        hread.bind hhandle
      exact ⟨n + 1, () :: as, hserve.bind (hn.bind .pure)⟩
  · rintro ⟨n, as, h⟩
    induction n generalizing s as with
    | zero =>
      cases h
      exact ⟨[], .nil _⟩
    | succ n ih =>
      obtain ⟨_, t₁, hserve, h⟩ := h.of_bind
      obtain ⟨as', t₂, hn, h⟩ := h.of_bind
      cases h
      obtain ⟨cs, hcs⟩ := ih as' hn
      obtain ⟨frame, t₃, hread, hserve⟩ := hserve.of_bind
      cases frame with
      | none =>
        cases hserve
        exact ⟨cs, .skip hread hcs⟩
      | some c => exact ⟨c :: cs, .frame hread hserve hcs⟩

theorem Rounds.trans {cs' : List (List UInt8)} (h : Rounds sys checks rom nvm pieces s cs t)
    (h' : Rounds sys checks rom nvm pieces t cs' u) :
    Rounds sys checks rom nvm pieces s (cs ++ cs') u := by
  induction h with
  | nil => exact h'
  | skip hread _ ih => exact .skip hread (ih h')
  | frame hread hhandle _ ih => exact .frame hread hhandle (ih h')

/-! ## The frames of the host -/

/-- The frames of the commands. -/
def wire (commands : List (List UInt8)) : List UInt8 := commands.flatMap encode

theorem wire_cons (c : List UInt8) (commands : List (List UInt8)) :
    wire (c :: commands) = encode c ++ wire commands := List.flatMap_cons

theorem wire_append (l l' : List (List UInt8)) : wire (l ++ l') = wire l ++ wire l' :=
  List.flatMap_append

/-- The host sends them. -/
theorem sends_wire {commands : List (List UInt8)} (h : ∀ c ∈ commands, c.length ≤ 65535) :
    Host.sends (commands.map .frame) = .ok (wire commands) := by
  have hcommands : Ssl.commands (commands.map .frame) = commands := by
    unfold Ssl.commands
    rw [List.filterMap_map]
    exact List.filterMap_some
  have hstream : stream (commands.map .frame) = wire commands := by
    unfold stream wire
    rw [List.flatMap_map]
    rfl
  rw [← hstream]
  refine Host.sends_eq fun c hc => ?_
  rw [hcommands] at hc
  exact Nat.lt_of_le_of_lt (h c hc) (by decide)

/-- The loader handles every frame, and takes nothing off the link for it. -/
theorem handle_keeps (sys : Nvm.Sys) (rom : Nvm.Rom ρ) (nvm : Nvm) (pieces : Nat → Nat)
    (hc : checks.Lawful) (c : List UInt8) (s : Link ρ) :
    ∃ t, Runs (Link.loaderHandler rom pieces) (handle uart1 (flash sys checks nvm) c) s () t ∧
      t.toLoader = s.toLoader := by
  obtain ⟨t, hrun, _, _, _, -, -, _, -, rfl⟩ := handle_dispatched sys rom nvm pieces s hc c
  refine ⟨_, hrun, ?_⟩
  cases romCall nvm c with
  | none => rfl
  | some call => rfl

section Frame

variable {gap c rest : List UInt8} {frame : Option (List UInt8)}

/-- What is read of a frame of the host, and what of it stays to be read. -/
theorem readFrame_encode (rom : Nvm.Rom ρ) (pieces : Nat → Nat) (hgap : sof ∉ gap)
    (hlen : c.length ≤ 65535) (hs : s.toLoader = gap ++ encode c ++ rest) :
    ∃ t, Runs (Link.loaderHandler rom pieces) (readFrame uart1 (maxChunk + 8)) s
        (if Accepted c then some c else none) t ∧
      t.toLoader = if Accepted c then rest else c ++ [sum c] ++ rest := by
  have hu := Link.uart1_reads rom pieces
  by_cases hc : Accepted c
  · rw [if_pos hc, if_pos hc]
    obtain ⟨t, hrun, ht, -⟩ := readFrame_runs hu hgap (List.ne_nil_of_length_pos hc.1) hc.2
      (by decide) hs
    exact ⟨t, hrun, ht⟩
  · rw [if_neg hc, if_neg hc]
    have hrej : c.length = 0 ∨ maxChunk + 8 < c.length := by
      unfold Accepted at hc
      omega
    obtain ⟨t, hrun, ht, -⟩ := readFrame_rejects hu hgap (Nat.lt_of_le_of_lt hlen (by decide))
      hrej hs
    exact ⟨t, hrun, ht⟩

end Frame

/-- There is no `SOF` in the command of a rejected frame, and in its sum. -/
def Quiet (commands : List (List UInt8)) : Prop :=
  ∀ c ∈ commands, ¬ Accepted c → sof ∉ c ++ [sum c]

/-- The loader is between two frames of the host, and the frames of these commands are to come. -/
def Between (s : Link ρ) (commands : List (List UInt8)) : Prop :=
  ∃ gap, sof ∉ gap ∧ s.toLoader = gap ++ wire commands

section Between

variable {commands : List (List UInt8)} {frame : Option (List UInt8)}

/-- A frame is read from one place between frames to the next. -/
theorem Between.read (hb : Between s commands) (hlen : ∀ c ∈ commands, c.length ≤ 65535)
    (hq : Quiet commands)
    (hrun : Runs (Link.loaderHandler rom pieces) (readFrame uart1 (maxChunk + 8)) s frame t) :
    ∃ c rest, commands = c :: rest ∧ frame = (if Accepted c then some c else none) ∧
      Between t rest := by
  obtain ⟨gap, hgap, hs⟩ := hb
  cases commands with
  | nil =>
    refine (readFrame_silent (Link.uart1_reads rom pieces) ?_ hrun).elim
    rwa [hs, wire, List.flatMap_nil, List.append_nil]
  | cons c rest =>
    rw [wire_cons, ← List.append_assoc] at hs
    obtain ⟨t', hrun', ht'⟩ := readFrame_encode rom pieces hgap (hlen c List.mem_cons_self) hs
    obtain ⟨rfl, rfl⟩ := hrun.det hrun'
    refine ⟨c, rest, rfl, rfl, ?_⟩
    by_cases hc : Accepted c
    · rw [if_pos hc] at ht'
      exact ⟨[], List.not_mem_nil, ht'⟩
    · rw [if_neg hc] at ht'
      exact ⟨c ++ [sum c], hq c List.mem_cons_self hc, ht'⟩

/-- Rounds from one place between frames to another. -/
theorem Rounds.between (hc : checks.Lawful) (h : Rounds sys checks rom nvm pieces s cs t)
    (hb : Between s commands) (hlen : ∀ c ∈ commands, c.length ≤ 65535) (hq : Quiet commands) :
    ∃ done rest, commands = done ++ rest ∧ cs = done.filter (Accepted ·) ∧ Between t rest := by
  induction h generalizing commands with
  | nil => exact ⟨[], commands, rfl, rfl, hb⟩
  | skip hread _ ih =>
    obtain ⟨c, rest, rfl, hframe, hb⟩ := hb.read hlen hq hread
    -- A frame is skipped exactly if it is not accepted.
    have hrej : ¬ Accepted c := fun h => by
      rw [if_pos h] at hframe
      cases hframe
    obtain ⟨done, rest, rfl, rfl, hb⟩ := ih hb (fun c hc => hlen c (List.mem_cons_of_mem _ hc))
      fun c hc => hq c (List.mem_cons_of_mem _ hc)
    refine ⟨c :: done, rest, rfl, ?_, hb⟩
    rw [List.filter_cons_of_neg (by simpa using hrej)]
  | frame hread hhandle _ ih =>
    obtain ⟨c', rest, rfl, hframe, gap, hgap, ht⟩ := hb.read hlen hq hread
    have hacc : Accepted c' := Decidable.byContradiction fun h => by
      rw [if_neg h] at hframe
      cases hframe
    rw [if_pos hacc] at hframe
    cases hframe
    obtain ⟨u, hrun, hu⟩ := handle_keeps sys rom nvm pieces hc _ _
    obtain ⟨-, rfl⟩ := hhandle.det hrun
    obtain ⟨done, rest, rfl, rfl, hb⟩ := ih ⟨gap, hgap, hu.trans ht⟩
      (fun c hc => hlen c (List.mem_cons_of_mem _ hc)) fun c hc => hq c (List.mem_cons_of_mem _ hc)
    refine ⟨_ :: done, rest, rfl, ?_, hb⟩
    rw [List.filter_cons_of_pos (by simpa using hacc)]

/-- The loader gets through these frames, and dispatches those that it accepts. -/
theorem rounds_through (sys : Nvm.Sys) (rom : Nvm.Rom ρ) (nvm : Nvm) (pieces : Nat → Nat)
    (hc : checks.Lawful) {gap tail : List UInt8} (hgap : sof ∉ gap)
    (hs : s.toLoader = gap ++ wire commands ++ tail) (hlen : ∀ c ∈ commands, c.length ≤ 65535)
    (hq : Quiet commands) :
    ∃ t gap', Rounds sys checks rom nvm pieces s (commands.filter (Accepted ·)) t ∧ sof ∉ gap' ∧
      t.toLoader = gap' ++ tail := by
  induction commands generalizing s gap with
  | nil =>
    refine ⟨s, gap, .nil s, hgap, ?_⟩
    rw [hs, wire, List.flatMap_nil, List.append_nil]
  | cons c rest ih =>
    have hlen' := fun c hc => hlen c (List.mem_cons_of_mem _ hc)
    have hq' : Quiet rest := fun c hc => hq c (List.mem_cons_of_mem _ hc)
    rw [wire_cons, ← List.append_assoc, List.append_assoc _ (wire rest)] at hs
    obtain ⟨t, hread, ht⟩ := readFrame_encode rom pieces hgap (hlen c List.mem_cons_self) hs
    by_cases hacc : Accepted c
    · rw [if_pos hacc] at hread ht
      obtain ⟨u, hhandle, hu⟩ := handle_keeps sys rom nvm pieces hc c t
      have hu' : u.toLoader = [] ++ wire rest ++ tail := hu.trans ht
      obtain ⟨v, gap', hv, hgap', hvs⟩ := ih List.not_mem_nil hu' hlen' hq'
      refine ⟨v, gap', ?_, hgap', hvs⟩
      rw [List.filter_cons_of_pos (by simpa using hacc)]
      exact .frame hread hhandle hv
    · rw [if_neg hacc] at hread ht
      rw [← List.append_assoc] at ht
      obtain ⟨v, gap', hv, hgap', hvs⟩ := ih (hq c List.mem_cons_self hacc) ht hlen' hq'
      refine ⟨v, gap', ?_, hgap', hvs⟩
      rw [List.filter_cons_of_neg (by simpa using hacc)]
      exact .skip hread hv

end Between

/-! ## Starts of frames -/

variable (sys checks rom nvm pieces) in
/-- A scan of the loader takes the byte at `p`, of those that are on the link, for a start of
frame. -/
def Taken (s : Link ρ) (p : Nat) : Prop :=
  ∃ cs t u, Rounds sys checks rom nvm pieces s cs t ∧
    Runs (Link.loaderHandler rom pieces) (scan uart1) t () u ∧
    p + 1 + u.toLoader.length = s.toLoader.length

/-- The byte at `p` is one of a rejected frame, after its `SOF`. -/
def Inside (commands : List (List UInt8)) (p : Nat) : Prop :=
  ∃ before c after, commands = before ++ c :: after ∧ ¬ Accepted c ∧
    (wire before).length < p ∧ p < (wire before).length + (encode c).length

/-- No byte where a frame starts is. -/
theorem not_inside_wire (done rest : List (List UInt8)) :
    ¬ Inside (done ++ rest) (wire done).length := by
  rintro ⟨before, c, after, h, -, hlt, hlt'⟩
  rcases List.append_eq_append_iff.mp h with ⟨l, rfl, -⟩ | ⟨l, rfl, hl⟩
  · rw [wire_append, List.length_append] at hlt
    omega
  · rw [wire_append, List.length_append] at hlt hlt'
    cases l with
    | nil => exact absurd hlt (Nat.lt_irrefl _)
    | cons c' l =>
      cases hl
      rw [wire_cons, List.length_append] at hlt'
      omega

section Skips

variable {commands : List (List UInt8)}

/-- Between frames, the scan takes the `SOF` of the next one. -/
theorem Between.scan (hb : Between s commands)
    (hrun : Runs (Link.loaderHandler rom pieces) (scan uart1) s () t) :
    t.toLoader.length + 1 = (wire commands).length := by
  have hu := Link.uart1_reads rom pieces
  obtain ⟨gap, hgap, hs⟩ := hb
  cases commands with
  | nil =>
    refine (scan_silent hu ?_ hrun).elim
    rwa [hs, wire, List.flatMap_nil, List.append_nil]
  | cons c rest =>
    have hw : wire (c :: rest) = sof :: (le 2 c.length ++ c ++ [sum c] ++ wire rest) := by
      simp [wire_cons, encode]
    rw [hw] at hs ⊢
    obtain ⟨t', hrun', ht', -⟩ := scan_runs hu hgap hs
    obtain ⟨-, rfl⟩ := hrun.det hrun'
    rw [ht', List.length_cons]

/-- The first frame that is rejected with a `SOF` in it. -/
theorem exists_first_of_not_quiet (h : ¬ Quiet commands) :
    ∃ before c after, commands = before ++ c :: after ∧ Quiet before ∧ ¬ Accepted c ∧
      sof ∈ c ++ [sum c] := by
  induction commands with
  | nil => exact (h nofun).elim
  | cons c rest ih =>
    by_cases hc : ¬ Accepted c ∧ sof ∈ c ++ [sum c]
    · exact ⟨[], c, rest, rfl, nofun, hc.1, hc.2⟩
    · have hc' : ¬ Accepted c → sof ∉ c ++ [sum c] := fun hrej hmem => hc ⟨hrej, hmem⟩
      have hrest : ¬ Quiet rest := fun hq => h (List.forall_mem_cons.mpr ⟨hc', hq⟩)
      obtain ⟨before, d, after, rfl, hbefore, hd⟩ := ih hrest
      exact ⟨c :: before, d, after, rfl, List.forall_mem_cons.mpr ⟨hc', hbefore⟩, hd⟩

/-- The scan takes the `SOF` in such a frame. -/
theorem taken_inside (sys : Nvm.Sys) (rom : Nvm.Rom ρ) (nvm : Nvm) (pieces : Nat → Nat)
    (hc : checks.Lawful) {before after : List (List UInt8)} {c : List UInt8}
    (hs : s.toLoader = wire (before ++ c :: after))
    (hlen : ∀ d ∈ before ++ c :: after, d.length ≤ 65535) (hbefore : Quiet before)
    (hrej : ¬ Accepted c) (hsof : sof ∈ c ++ [sum c]) :
    ∃ p, Taken sys checks rom nvm pieces s p ∧ Inside (before ++ c :: after) p := by
  obtain ⟨gap', tail, htail, hgap'⟩ := List.eq_append_cons_of_mem hsof
  have hs' : s.toLoader = [] ++ wire before ++ (encode c ++ wire after) := by
    rw [hs, wire_append, wire_cons]
    rfl
  obtain ⟨t, gap, hrounds, hgap, ht⟩ := rounds_through sys rom nvm pieces hc List.not_mem_nil hs'
    (fun d hd => hlen d (List.mem_append_left _ hd)) hbefore
  rw [← List.append_assoc] at ht
  obtain ⟨u, hread, hu⟩ := readFrame_encode rom pieces hgap
    (hlen c (List.mem_append_right _ List.mem_cons_self)) ht
  rw [if_neg hrej] at hread hu
  rw [htail, List.append_assoc, List.cons_append] at hu
  obtain ⟨v, hscan, hv, -⟩ := scan_runs (Link.uart1_reads rom pieces) hgap' hu
  have hclen : gap'.length + 1 + tail.length = c.length + 1 := by
    have h := congrArg List.length htail
    simp only [List.length_append, List.length_cons, List.length_nil] at h
    omega
  have henc : (encode c).length = c.length + 4 := by
    simp [encode]
    omega
  -- The frame is rejected after its length, so the scan goes on in its bytes.
  have hrounds' := hrounds.trans (.skip hread (.nil u))
  refine ⟨(wire before).length + 3 + gap'.length, ⟨_, u, v, hrounds', hscan, ?_⟩, before, c, after,
    rfl, hrej, by omega, by omega⟩
  · rw [hv, hs', List.length_append, List.length_append, List.length_append, List.length_append,
      List.length_nil]
    omega

/-- The loader dispatches exactly the commands of an accepted length, in order, and takes no byte of
a rejected frame for a start of frame. -/
structure Skips (sys : Nvm.Sys) (checks : Nvm.Checks) (rom : Nvm.Rom ρ) (nvm : Nvm)
    (pieces : Nat → Nat) (commands : List (List UInt8)) (s : Link ρ) : Prop where
  only : ∀ cs t, Rounds sys checks rom nvm pieces s cs t → cs <+: commands.filter (Accepted ·)
  all : ∃ t, Rounds sys checks rom nvm pieces s (commands.filter (Accepted ·)) t
  starts : ∀ p, Taken sys checks rom nvm pieces s p → ¬ Inside commands p

theorem skips_of_quiet (hc : checks.Lawful) (hs : s.toLoader = wire commands)
    (hlen : ∀ c ∈ commands, c.length ≤ 65535) (hq : Quiet commands) :
    Skips sys checks rom nvm pieces commands s where
  only := by
    intro cs t h
    obtain ⟨done, rest, rfl, rfl, -⟩ := h.between hc ⟨[], List.not_mem_nil, hs⟩ hlen hq
    rw [List.filter_append]
    exact List.prefix_append _ _
  all := by
    have hs' : s.toLoader = [] ++ wire commands ++ [] := by rw [hs, List.append_nil]; rfl
    obtain ⟨t, _, h, -, -⟩ := rounds_through sys rom nvm pieces hc List.not_mem_nil hs' hlen hq
    exact ⟨t, h⟩
  starts := by
    rintro p ⟨cs, t, u, h, hscan, hp⟩
    obtain ⟨done, rest, rfl, -, hb⟩ := h.between hc ⟨[], List.not_mem_nil, hs⟩ hlen hq
    have hp' : p = (wire done).length := by
      have := hb.scan hscan
      rw [hs, wire_append, List.length_append] at hp
      omega
    rw [hp']
    exact not_inside_wire done rest

/-- **The loader skips what it rejects** exactly where the rejected frames have no `SOF` in their
commands and sums. -/
theorem skips_rejected_iff (sys : Nvm.Sys) (rom : Nvm.Rom ρ) (nvm : Nvm) (pieces : Nat → Nat)
    (hc : checks.Lawful) (commands : List (List UInt8)) (hlen : ∀ c ∈ commands, c.length ≤ 65535) :
    ∃ bytes, Host.sends (commands.map .frame) = .ok bytes ∧
      ∀ s : Link ρ, s.toLoader = bytes →
        (Skips sys checks rom nvm pieces commands s ↔
          ∀ c ∈ commands, ¬ Accepted c → sof ∉ c ++ [sum c]) := by
  refine ⟨wire commands, sends_wire hlen, fun s hs => ⟨fun h => ?_, skips_of_quiet hc hs hlen⟩⟩
  refine Decidable.byContradiction fun hq => ?_
  obtain ⟨before, c, after, rfl, hbefore, hrej, hsof⟩ := exists_first_of_not_quiet hq
  obtain ⟨p, htaken, hin⟩ := taken_inside sys rom nvm pieces hc hs hlen hbefore hrej hsof
  exact h.starts p htaken hin

end Skips

end Rounds

/-! ## Concrete frames -/

section Concrete

/-- A whole-chip erase. -/
def wholeErase : List UInt8 := [Cmd.eraseRequest, 0xFF, 0xFF, 0xFF, 0xFF]

/-- A write whose data starts with the frame of an erase, and is longer than a chunk. -/
def longWrite : List UInt8 :=
  [Cmd.writeRequest, 0, 0, 0, 0, 0x57, 0x04] ++ encode wholeErase ++ List.replicate 1102 0

theorem length_longWrite : longWrite.length = 1118 := by
  rw [longWrite, List.length_append, List.length_replicate]
  rfl

theorem not_accepted_longWrite : ¬ Accepted longWrite := by
  rw [Accepted, length_longWrite]
  decide

/-- The loader rejects the long write, and then dispatches the erase in it. -/
theorem longWrite_erases : (∀ c ∈ [longWrite], c.length ≤ 65535) ∧
    ¬ Skips toySys .ideal (.ideal toySys) toyNvm id [longWrite] (carrying longWrite) ∧
    ∃ t, Rounds toySys .ideal (.ideal toySys) toyNvm id (carrying longWrite) [wholeErase] t ∧
      t.rom 0 = 0xFF := by
  have hlen : longWrite.length ≤ 65535 := by
    rw [length_longWrite]
    decide
  have hs : (carrying longWrite).toLoader = [] ++ encode longWrite ++ [] := (List.append_nil _).symm
  obtain ⟨t, hread, ht⟩ := readFrame_encode (.ideal toySys) id List.not_mem_nil hlen hs
  rw [if_neg not_accepted_longWrite] at hread ht
  -- What is left of the write starts with its first seven bytes, and then the erase.
  have ht' : t.toLoader = [Cmd.writeRequest, 0, 0, 0, 0, 0x57, 0x04] ++ encode wholeErase ++
      (List.replicate 1102 0 ++ [sum longWrite]) := by
    rw [ht, longWrite]
    simp only [List.append_assoc, List.append_nil]
  obtain ⟨u, hread', -⟩ := readFrame_encode (.ideal toySys) id (by decide) (by decide) ht'
  rw [if_pos (by decide)] at hread'
  obtain ⟨v, hhandle, hv⟩ := handle_dispatched toySys (.ideal toySys) toyNvm id u
    Nvm.Checks.lawful_ideal wholeErase
  have hrounds := Rounds.skip hread (.frame hread' hhandle (.nil v))
  refine ⟨?_, fun h => ?_, v, hrounds, ?_⟩
  · intro c hc
    rwa [List.mem_singleton.mp hc]
  · have hdispatched := h.only _ _ hrounds
    rw [List.filter_cons_of_neg (by simpa using not_accepted_longWrite)] at hdispatched
    cases List.prefix_nil.mp hdispatched
  · rw [dispatched_rom hv]
    rfl

/-- A write that is longer than a chunk, without `SOF`. -/
def tooLong : List UInt8 := Cmd.writeRequest :: List.replicate 1100 0

theorem length_tooLong : tooLong.length = 1101 := by
  rw [tooLong, List.length_cons, List.length_replicate]

theorem quiet_tooLong : sof ∉ tooLong ++ [sum tooLong] := by
  have hsum : sum tooLong = Cmd.writeRequest := by decide +kernel
  rw [hsum, tooLong]
  simp only [List.mem_append, List.mem_cons, List.mem_replicate, List.not_mem_nil, or_false]
  decide

/-- The loader rejects the long write, and dispatches the erases before and after it. -/
theorem skips_tooLong :
    ∃ bytes, Host.sends ([secondErase, tooLong, wholeErase].map .frame) = .ok bytes ∧
      ∀ s : Link (Nat → UInt8), s.toLoader = bytes →
        Skips toySys .ideal (.ideal toySys) toyNvm id [secondErase, tooLong, wholeErase] s ∧
        ∃ t, Rounds toySys .ideal (.ideal toySys) toyNvm id s [secondErase, wholeErase] t := by
  have hlen : ∀ c ∈ [secondErase, tooLong, wholeErase], c.length ≤ 65535 := by
    simp only [List.forall_mem_cons, length_tooLong]
    exact ⟨by decide, by decide, by decide, nofun⟩
  have hrej : ¬ Accepted tooLong := by
    rw [Accepted, length_tooLong]
    decide
  have hquiet : ∀ c ∈ [secondErase, tooLong, wholeErase], ¬ Accepted c → sof ∉ c ++ [sum c] := by
    simp only [List.forall_mem_cons]
    exact ⟨fun h => absurd (by decide) h, fun _ => quiet_tooLong, fun h => absurd (by decide) h,
      nofun⟩
  obtain ⟨bytes, hbytes, h⟩ := skips_rejected_iff toySys (.ideal toySys) toyNvm id
    Nvm.Checks.lawful_ideal [secondErase, tooLong, wholeErase] hlen
  refine ⟨bytes, hbytes, fun s hs => ?_⟩
  have hskips := (h s hs).mpr hquiet
  refine ⟨hskips, ?_⟩
  have hall := hskips.all
  rwa [List.filter_cons_of_pos (by decide), List.filter_cons_of_neg (by simpa using hrej),
    List.filter_cons_of_pos (by decide), List.filter_nil] at hall

end Concrete

end Mc1322x.Ssl.Loader
