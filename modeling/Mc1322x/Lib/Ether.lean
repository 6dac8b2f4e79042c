import Mathlib.Logic.Function.Basic
import Mc1322x.Lib.Lts

/-!
# A medium that loses messages

Stations send on one medium. A message is on the way to every other station, in the order of
sending, until that station hears it or it is lost there.

* `heard_sublist`: what a station has heard and what is on the way to it is a part of what the
  others have sent, in order.
* `heard_from`: so is what it has heard from one of them.
-/

/-- The messages on the way to each station, oldest first, with their senders. -/
def Ether (ι M : Type) := ι → List (ι × M)

namespace Ether

/-- A message is sent to all others, or one that is on its way arrives or is lost. -/
inductive Act (ι M : Type) where
  | send (i : ι) (m : M)
  | hear (j : ι)
  | lose (j : ι)

variable {ι M : Type} [DecidableEq ι]

/-- Nothing is on its way. -/
def silent : Ether ι M := fun _ => []

/-- A message is put on its way to all stations but its own. -/
def send (e : Ether ι M) (i : ι) (m : M) : Ether ι M :=
  fun j => if j = i then e j else e j ++ [(i, m)]

/-- Without the oldest message on the way to `j`. -/
def drop (e : Ether ι M) (j : ι) : Ether ι M := Function.update e j (e j).tail

/-- One step; `none`: there is no message on the way. -/
def step (e : Ether ι M) : Act ι M → Option (Ether ι M)
  | .send i m => some (e.send i m)
  | .hear j | .lose j => if e j = [] then none else some (e.drop j)

/-- The runs of the medium. -/
def medium (ι M : Type) [DecidableEq ι] : Lts := .ofStep (· = (silent : Ether ι M)) step

/-- What `j` hears in a step. -/
def heard (j : ι) (e : Ether ι M) : Act ι M → Option (ι × M)
  | .hear i => if i = j then (e j).head? else none
  | _ => none

/-- What another station than `j` sends in a step. -/
def Act.toOthers (j : ι) : Act ι M → Option (ι × M)
  | .send i m => if i = j then none else some (i, m)
  | _ => none

/-- What `i` sends in a step. -/
def Act.sentBy (i : ι) : Act ι M → Option M
  | .send k m => if k = i then some m else none
  | _ => none

section

variable {e e' : Ether ι M} {j : ι}

theorem send_self (e : Ether ι M) (j : ι) (m : M) : e.send j m j = e j := if_pos rfl

theorem send_other {i : ι} (h : j ≠ i) (m : M) : e.send i m j = e j ++ [(i, m)] := if_neg h

theorem drop_self (e : Ether ι M) (j : ι) : e.drop j j = (e j).tail := Function.update_self ..

theorem drop_other {i : ι} (h : j ≠ i) : e.drop i j = e j := Function.update_of_ne h ..

/-- What a step does on the way to `j`: what another station sends is the last message there then,
or the first one leaves. -/
theorem step_cases {a : Act ι M} (j : ι) (hs : e.step a = some e') :
    (e' j = e j ++ (a.toOthers j).toList ∧ e.heard j a = none) ∨
      ∃ x, e j = x :: e' j ∧ a.toOthers j = none ∧
        (e.heard j a = some x ∨ e.heard j a = none) := by
  cases a with
  | send i m =>
    cases hs
    by_cases hj : j = i
    · subst hj
      refine .inl ⟨?_, rfl⟩
      -- A station does not hear itself.
      rw [send_self, Act.toOthers, if_pos rfl]
      exact (List.append_nil _).symm
    · refine .inl ⟨?_, rfl⟩
      rw [send_other hj, Act.toOthers, if_neg (Ne.symm hj)]
      rfl
  | hear i =>
    obtain ⟨hne, h⟩ := Option.ite_none_left_eq_some.mp hs
    cases h
    by_cases hj : j = i
    · subst hj
      obtain ⟨x, rest, hx⟩ := List.exists_cons_of_ne_nil hne
      refine .inr ⟨x, ?_, rfl, .inl ?_⟩
      · rw [drop_self, hx, List.tail_cons]
      · rw [heard, if_pos rfl, hx, List.head?_cons]
    · refine .inl ⟨?_, if_neg (Ne.symm hj)⟩
      rw [drop_other hj]
      exact (List.append_nil _).symm
  | lose i =>
    obtain ⟨hne, h⟩ := Option.ite_none_left_eq_some.mp hs
    cases h
    by_cases hj : j = i
    · subst hj
      obtain ⟨x, rest, hx⟩ := List.exists_cons_of_ne_nil hne
      refine .inr ⟨x, ?_, rfl, .inr rfl⟩
      rw [drop_self, hx, List.tail_cons]
    · refine .inl ⟨?_, rfl⟩
      rw [drop_other hj]
      exact (List.append_nil _).symm

/-- What `j` has heard, and then what is on the way to it, is part of what the others have sent. -/
theorem heard_sublist {tr : List (Ether ι M × Act ι M)}
    (hr : (medium ι M).Run silent tr e) (j : ι) :
    (tr.filterMap (fun x => x.1.heard j x.2) ++ e j).Sublist
      (tr.filterMap fun x => x.2.toOthers j) := by
  refine Lts.Run.induct (I := fun tr (e : Ether ι M) =>
    (tr.filterMap (fun x => x.1.heard j x.2) ++ e j).Sublist
      (tr.filterMap fun x => x.2.toOthers j)) (List.Sublist.refl []) ?_ hr
  intro tr e a e' _ ih hs
  simp only [List.filterMap_append, List.filterMap_cons, List.filterMap_nil]
  rcases step_cases j hs with ⟨he, hh⟩ | ⟨x, he, ho, hh⟩
  · rw [hh, he, List.append_nil, ← List.append_assoc]
    cases ho : a.toOthers j with
    | none => simpa using ih
    | some x => exact List.Sublist.append ih (List.Sublist.refl [x])
  · rw [ho, List.append_nil]
    rw [he] at ih
    rcases hh with hh | hh
    · rw [hh, List.append_assoc]
      exact ih
    · rw [hh, List.append_nil]
      exact (List.Sublist.append_left (List.sublist_cons_self x _) _).trans ih

/-- What the others send, station by station. -/
theorem toOthers_from (tr : List (Act ι M)) (i j : ι) :
    (((tr.filterMap (·.toOthers j)).filter (·.1 = i)).map (·.2)).Sublist
      (tr.filterMap (·.sentBy i)) := by
  induction tr with
  | nil => exact List.Sublist.refl []
  | cons a tr ih =>
    cases a with
    | send k m =>
      have hsent : ((Act.send k m :: tr).filterMap (·.sentBy i)) =
          if k = i then m :: tr.filterMap (·.sentBy i) else tr.filterMap (·.sentBy i) := by
        rw [List.filterMap_cons]
        by_cases hi : k = i <;> simp [Act.sentBy, hi]
      rw [hsent]
      by_cases hj : k = j
      · rw [List.filterMap_cons_none (show (Act.send k m).toOthers j = none from if_pos hj)]
        by_cases hi : k = i
        · rw [if_pos hi]
          -- A station does not hear itself, so its own frame is the one left out.
          exact ih.cons m
        · rw [if_neg hi]
          exact ih
      · rw [List.filterMap_cons_some
          (show (Act.send k m).toOthers j = some (k, m) from if_neg hj), List.filter_cons]
        by_cases hi : k = i
        · rw [if_pos (decide_eq_true hi), if_pos hi, List.map_cons]
          exact ih.cons_cons m
        · rw [if_neg (by simpa using hi), if_neg hi]
          exact ih
    | hear k | lose k => exact ih

/-- No station hears what it sends itself. -/
theorem sender_ne {tr : List (Ether ι M × Act ι M)} (hr : (medium ι M).Run silent tr e) (j : ι) :
    ∀ x ∈ tr.filterMap fun x => x.1.heard j x.2, x.1 ≠ j := by
  intro x hx
  have hmem := ((List.sublist_append_left _ _).trans (heard_sublist hr j)).subset hx
  obtain ⟨y, -, hy⟩ := List.mem_filterMap.mp hmem
  cases ha : y.2 with
  | send i m =>
    rw [ha] at hy
    obtain ⟨hij, hy⟩ := Option.ite_none_left_eq_some.mp hy
    cases hy
    exact hij
  | hear i | lose i =>
    rw [ha] at hy
    cases hy

/-- What `j` has heard from `i` is part of what `i` has sent. -/
theorem heard_from {tr : List (Ether ι M × Act ι M)} (hr : (medium ι M).Run silent tr e)
    (i j : ι) :
    (((tr.filterMap fun x => x.1.heard j x.2).filter (·.1 = i)).map (·.2)).Sublist
      (tr.filterMap fun x => x.2.sentBy i) := by
  have hheard := (List.sublist_append_left _ _).trans (heard_sublist hr j)
  have hsent := toOthers_from (tr.map (·.2)) i j
  rw [List.filterMap_map, List.filterMap_map] at hsent
  exact ((hheard.filter _).map _).trans hsent

end

end Ether
