import Mathlib.Data.Finmap
import Mathlib.Data.Fintype.Card

/-!
# Slot tables

A finite map kept in a fixed number of slots: an array of optional entries, with the key in the
entry and holes where entries have been taken out. `Slots.Represents v m`: no key is in two slots
and the slots `v` hold the finite map `m`. Writing an entry over the one with its key or into a
hole, emptying a slot and changing all entries in place each represent the map after it.
-/

/-- A finite map with a function applied to its values. -/
def Finmap.mapValues {κ ν : Type} [DecidableEq κ] (f : ν → ν) (m : Finmap fun _ : κ => ν) :
    Finmap fun _ : κ => ν :=
  Finmap.keysLookupEquiv.symm ⟨(m.keys, fun k => (m.lookup k).map f), fun k => by
    rw [Option.isSome_map, Finmap.lookup_isSome, Finmap.mem_keys]⟩

@[simp] theorem Finmap.lookup_mapValues {κ ν : Type} [DecidableEq κ] (f : ν → ν)
    (m : Finmap fun _ : κ => ν) (k : κ) : (m.mapValues f).lookup k = (m.lookup k).map f := by
  simp [Finmap.mapValues]

theorem Finmap.erase_eq_self {κ ν : Type} [DecidableEq κ] {m : Finmap fun _ : κ => ν} {k : κ}
    (h : k ∉ m) : m.erase k = m := by
  refine Finmap.ext_lookup fun j => ?_
  by_cases hj : j = k
  · rw [hj, Finmap.lookup_erase, Finmap.lookup_eq_none.mpr h]
  · exact Finmap.lookup_erase_ne hj

namespace Slots

variable {α κ ν : Type} [DecidableEq κ] {n : Nat}

/-- The first slot with a key. -/
def index? (key : α → κ) (v : Vector (Option α) n) (k : κ) : Option (Fin n) :=
  v.findFinIdx? (·.any (key · = k))

/-- The first empty slot. -/
def hole? (v : Vector (Option α) n) : Option (Fin n) := v.findFinIdx? (·.isNone)

/-- No key is in two slots, and the slots hold the map. -/
structure Represents (key : α → κ) (val : α → ν) (v : Vector (Option α) n)
    (m : Finmap fun _ : κ => ν) : Prop where
  unique : ∀ (i j : Fin n) (a b : α), v[i] = some a → v[j] = some b → key a = key b → i = j
  lookup : ∀ k x, m.lookup k = some x ↔ ∃ (i : Fin n) (a : α), v[i] = some a ∧ key a = k ∧ val a = x

section Find

variable {v : Vector (Option α) n}

theorem of_findFinIdx?_eq_some {p : Option α → Bool} {i : Fin n} (h : v.findFinIdx? p = some i) :
    p v[i] = true := by
  obtain ⟨xs, rfl⟩ := v
  exact (Array.findFinIdx?_eq_some_iff.mp (by simpa using h)).1

theorem of_hole?_eq_some {i : Fin n} (h : hole? v = some i) : v[i] = none :=
  Option.isNone_iff_eq_none.mp (of_findFinIdx?_eq_some h)

theorem hole?_eq_none_iff : hole? v = none ↔ ∀ i : Fin n, v[i] ≠ none := by
  simp only [hole?, Vector.findFinIdx?_eq_none_iff, Option.isNone_iff_eq_none]
  constructor
  · exact fun h i => h _ (Vector.getElem_mem i.isLt)
  · intro h x hx
    obtain ⟨i, hi, rfl⟩ := Vector.mem_iff_getElem.mp hx
    exact h ⟨i, hi⟩

end Find

namespace Represents

variable {key : α → κ} {val : α → ν} {v : Vector (Option α) n} {m : Finmap fun _ : κ => ν}

theorem empty : Represents key val (Vector.replicate n none) (∅ : Finmap fun _ : κ => ν) := by
  refine ⟨fun i j a b h => ?_, fun k x => ?_⟩
  · simp at h
  · simp

theorem mem_iff (h : Represents key val v m) {k : κ} :
    k ∈ m ↔ ∃ (i : Fin n) (a : α), v[i] = some a ∧ key a = k := by
  rw [Finmap.mem_iff]
  constructor
  · rintro ⟨x, hx⟩
    obtain ⟨i, a, hi, hk, -⟩ := (h.lookup k x).mp hx
    exact ⟨i, a, hi, hk⟩
  · rintro ⟨i, a, hi, hk⟩
    exact ⟨val a, (h.lookup k _).mpr ⟨i, a, hi, hk, rfl⟩⟩

theorem index?_eq_some (h : Represents key val v m) {k : κ} {i : Fin n}
    (hi : index? key v k = some i) : ∃ a, v[i] = some a ∧ key a = k ∧ m.lookup k = some (val a) := by
  obtain ⟨a, ha, hk⟩ := (Option.any_eq_true _ _).mp (of_findFinIdx?_eq_some hi)
  have hk : key a = k := of_decide_eq_true hk
  exact ⟨a, ha, hk, (h.lookup k _).mpr ⟨i, a, ha, hk, rfl⟩⟩

theorem index?_eq_none (h : Represents key val v m) {k : κ} : index? key v k = none ↔ k ∉ m := by
  rw [h.mem_iff]
  simp only [index?, Vector.findFinIdx?_eq_none_iff, Option.any_eq_true, decide_eq_true_eq,
    not_exists, not_and]
  constructor
  · exact fun hv i a ha => hv _ (Vector.getElem_mem i.isLt) a ha
  · intro hv x hx a ha
    obtain ⟨i, hi, rfl⟩ := Vector.mem_iff_getElem.mp hx
    exact hv ⟨i, hi⟩ a ha

/-- An entry is written into a slot that is empty or has its key. -/
theorem set (h : Represents key val v m) {i : Fin n} {b : α}
    (hi : ∀ a, v[i] = some a → key a = key b) (hm : v[i] = none → key b ∉ m) :
    Represents key val (v.set i (some b)) (m.insert (key b) (val b)) := by
  -- No other slot has the key of the entry.
  have hother : ∀ (j : Fin n) (a : α), v[j] = some a → key a = key b → j = i := by
    intro j a hj hk
    cases hv : v[i] with
    | none => exact absurd (h.mem_iff.mpr ⟨j, a, hj, hk⟩) (hm hv)
    | some c => exact h.unique j i a c hj hv (hk.trans (hi c hv).symm)
  have hget : ∀ j : Fin n, (v.set i (some b))[j] = if j = i then some b else v[j] := by
    intro j
    by_cases hij : j = i
    · simp [hij]
    · simp [hij, Ne.symm (fun e => hij (Fin.ext e))]
  refine ⟨?_, ?_⟩
  · intro j k a c hj hk he
    rw [hget] at hj hk
    split at hj
    · rename_i hji
      cases hj
      split at hk
      · rename_i hki
        rw [hji, hki]
      · exact hji.trans (hother k c hk he.symm).symm
    · split at hk
      · rename_i hki
        cases hk
        exact (hother j a hj he).trans hki.symm
      · exact h.unique j k a c hj hk he
  · intro k x
    by_cases hk : k = key b
    · subst hk
      rw [Finmap.lookup_insert]
      constructor
      · intro e
        cases e
        exact ⟨i, b, by rw [hget, if_pos rfl], rfl, rfl⟩
      · rintro ⟨j, a, hj, hk, rfl⟩
        rw [hget] at hj
        split at hj
        · cases hj
          rfl
        · rename_i hji
          exact absurd (hother j a hj hk) hji
    · rw [Finmap.lookup_insert_of_ne _ hk, h.lookup]
      constructor
      · rintro ⟨j, a, hj, hka, hx⟩
        refine ⟨j, a, ?_, hka, hx⟩
        rw [hget, if_neg, hj]
        rintro rfl
        exact hk (hka.symm.trans (hi a hj))
      · rintro ⟨j, a, hj, hka, hx⟩
        rw [hget] at hj
        split at hj
        · cases hj
          exact absurd hka.symm hk
        · exact ⟨j, a, hj, hka, hx⟩

/-- A slot is emptied. -/
theorem clear (h : Represents key val v m) {i : Fin n} {a : α} (hi : v[i] = some a) :
    Represents key val (v.set i none) (m.erase (key a)) := by
  have hget : ∀ j : Fin n, (v.set i none)[j] = if j = i then none else v[j] := by
    intro j
    by_cases hij : j = i
    · simp [hij]
    · simp [hij, Ne.symm (fun e => hij (Fin.ext e))]
  refine ⟨?_, ?_⟩
  · intro j k b c hj hk he
    rw [hget] at hj hk
    split at hj
    · cases hj
    · split at hk
      · cases hk
      · exact h.unique j k b c hj hk he
  · intro k x
    by_cases hk : k = key a
    · subst hk
      rw [Finmap.lookup_erase]
      refine iff_of_false nofun ?_
      rintro ⟨j, b, hj, hkb, -⟩
      rw [hget] at hj
      split at hj
      · cases hj
      · rename_i hji
        -- The key is in no other slot.
        exact hji (h.unique j i b a hj hi hkb)
    · rw [Finmap.lookup_erase_ne hk, h.lookup]
      constructor
      · rintro ⟨j, b, hj, hkb, hx⟩
        refine ⟨j, b, ?_, hkb, hx⟩
        rw [hget, if_neg, hj]
        rintro rfl
        cases hi.symm.trans hj
        exact hk hkb.symm
      · rintro ⟨j, b, hj, hkb, hx⟩
        rw [hget] at hj
        split at hj
        · cases hj
        · exact ⟨j, b, hj, hkb, hx⟩

/-- All entries are changed in place. -/
theorem map (h : Represents key val v m) {f : α → α} {g : ν → ν} (hk : ∀ a, key (f a) = key a)
    (hv : ∀ a, val (f a) = g (val a)) :
    Represents key val (v.map (Option.map f)) (m.mapValues g) := by
  have hget : ∀ (j : Fin n) (b : α), (v.map (Option.map f))[j] = some b ↔
      ∃ a, v[j] = some a ∧ f a = b := by
    intro j b
    simp [Option.map_eq_some_iff]
  refine ⟨?_, ?_⟩
  · intro i j a b hi hj he
    obtain ⟨a, ha, rfl⟩ := (hget i a).mp hi
    obtain ⟨b, hb, rfl⟩ := (hget j b).mp hj
    exact h.unique i j a b ha hb ((hk a).symm.trans (he.trans (hk b)))
  · intro k x
    rw [Finmap.lookup_mapValues, Option.map_eq_some_iff]
    constructor
    · rintro ⟨y, hy, rfl⟩
      obtain ⟨i, a, hi, hka, rfl⟩ := (h.lookup k y).mp hy
      exact ⟨i, f a, (hget i _).mpr ⟨a, hi, rfl⟩, (hk a).trans hka, hv a⟩
    · rintro ⟨i, b, hi, hkb, rfl⟩
      obtain ⟨a, ha, rfl⟩ := (hget i b).mp hi
      exact ⟨val a, (h.lookup k _).mpr ⟨i, a, ha, (hk a).symm.trans hkb, rfl⟩, (hv a).symm⟩

section Card

/-- The occupied slots. -/
def occupied (v : Vector (Option α) n) : Finset (Fin n) := Finset.univ.filter fun i => v[i].isSome

@[simp] theorem mem_occupied {i : Fin n} : i ∈ occupied v ↔ v[i].isSome = true := by
  simp [occupied]

/-- The keys are those of the occupied slots. -/
theorem card_occupied (h : Represents key val v m) : (occupied v).card = m.keys.card := by
  refine Finset.card_bij (fun i hi => key (v[i].get (mem_occupied.mp hi))) ?_ ?_ ?_
  · intro i hi
    rw [Finmap.mem_keys, h.mem_iff]
    exact ⟨i, _, (Option.some_get _).symm, rfl⟩
  · intro i hi j hj he
    exact h.unique i j _ _ (Option.some_get _).symm (Option.some_get _).symm he
  · intro k hk
    obtain ⟨i, a, hi, rfl⟩ := h.mem_iff.mp (Finmap.mem_keys.mp hk)
    have hsome : v[i].isSome = true := by rw [hi]; rfl
    exact ⟨i, mem_occupied.mpr hsome, by simp [hi]⟩

theorem card_le (h : Represents key val v m) : m.keys.card ≤ n := by
  rw [← h.card_occupied]
  exact (Finset.card_le_univ _).trans_eq (Fintype.card_fin n)

/-- There is no empty slot exactly when the map has as many keys as there are slots. -/
theorem full_iff (h : Represents key val v m) : (∀ i : Fin n, v[i] ≠ none) ↔ m.keys.card = n := by
  rw [← h.card_occupied]
  constructor
  · intro hv
    have huniv : occupied v = Finset.univ :=
      Finset.eq_univ_of_forall fun i => mem_occupied.mpr (Option.isSome_iff_ne_none.mpr (hv i))
    rw [huniv, Finset.card_univ, Fintype.card_fin]
  · intro hc i
    have huniv : occupied v = Finset.univ := by
      rw [← Finset.card_eq_iff_eq_univ, hc, Fintype.card_fin]
    exact Option.isSome_iff_ne_none.mp (mem_occupied.mp (huniv.symm ▸ Finset.mem_univ i))

end Card

end Represents

end Slots
