import Mathlib.Logic.Relation

/-!
# One poll, step by step

A poll as a program of steps on a state that others may change before each of them (`other`):
`Eq` is a state that nobody changes, `fun _ _ => True` one that changes in any way.

`Returns`: the poll comes to an end, however the state changes, and its end is `Good`. The rule is a
measure of the program's place that each step makes smaller, with an invariant (`of_measure`); a
state that nobody changes is followed step by step (`of_step`), or comes back to itself
(`not_of_cycle`).
-/

namespace Poll

variable {φ σ : Type} (step : σ → φ → Option (φ × σ)) (other : σ → σ → Prop)

/-- The others, and then a step. -/
def Round (x y : φ × σ) : Prop := ∃ s, other x.2 s ∧ step s x.1 = some y

/-- Every run of the poll ends, and where there is no further step, the end is `Good`. -/
structure Returns (Good : φ × σ → Prop) (x : φ × σ) : Prop where
  ends : Acc (fun z y => Round step other y z) x
  good : ∀ y, Relation.ReflTransGen (Round step other) x y → step y.2 y.1 = none → Good y

variable {step other} {Good : φ × σ → Prop}

theorem Returns.of_measure (m : φ → Nat) (I : φ × σ → Prop)
    (hI : ∀ x y, I x → Round step other x y → I y ∧ m y.1 < m x.1)
    (hG : ∀ x, I x → step x.2 x.1 = none → Good x) {x : φ × σ} (hx : I x) :
    Returns step other Good x := by
  constructor
  · induction hn : m x.1 using Nat.strongRecOn generalizing x with
    | _ n ih =>
      refine ⟨_, fun y hy => ?_⟩
      obtain ⟨hy, hlt⟩ := hI x y hx hy
      exact ih (m y.1) (hn ▸ hlt) hy rfl
  · intro y hxy hend
    have hy : I y := by
      clear hend
      induction hxy with
      | refl => exact hx
      | tail _ hr ih => exact (hI _ _ ih hr).1
    exact hG y hy hend

/-- A poll that comes back to the state it has been in does not end. -/
theorem Returns.not_of_cycle {x : φ × σ} (h : Relation.TransGen (Round step other) x x) :
    ¬ Returns step other Good x := by
  intro hx
  have key : ∀ y, Acc (fun z y => Round step other y z) y →
      ¬ Relation.TransGen (Round step other) y y := by
    intro y hy
    induction hy with
    | intro y _ ih =>
      intro hcycle
      obtain ⟨z, hyz, hzy⟩ := Relation.TransGen.head'_iff.mp hcycle
      exact ih z hyz (Relation.TransGen.tail' hzy hyz)
  exact key x hx.ends h

/-- No step. -/
theorem Returns.of_end {x : φ × σ} (h : ∀ s, other x.2 s → step s x.1 = none) (hg : Good x) :
    Returns step other Good x := by
  have hno : ∀ y, ¬ Round step other x y := by
    rintro y ⟨s, ho, hs⟩
    rw [h s ho] at hs
    cases hs
  refine ⟨⟨_, fun y hy => absurd hy (hno y)⟩, fun y hy _ => ?_⟩
  rcases Relation.ReflTransGen.cases_head hy with rfl | ⟨z, hz, -⟩
  · exact hg
  · exact absurd hz (hno z)

/-- A step on a state that nobody changes. -/
theorem Returns.of_step {x y : φ × σ} (h : step x.2 x.1 = some y)
    (hy : Returns step Eq Good y) : Returns step Eq Good x := by
  have hone : ∀ z, Round step Eq x z → z = y := by
    rintro z ⟨s, rfl, hs⟩
    rw [h] at hs
    exact (Option.some.inj hs).symm
  refine ⟨⟨_, fun z hz => ?_⟩, fun z hz hend => ?_⟩
  · rw [hone z hz]
    exact hy.ends
  · rcases Relation.ReflTransGen.cases_head hz with rfl | ⟨z', hz', hrest⟩
    · rw [h] at hend
      cases hend
    · rw [hone z' hz'] at hrest
      exact hy.good z hrest hend

theorem Returns.step_iff {x y : φ × σ} (h : step x.2 x.1 = some y) :
    Returns step Eq Good x ↔ Returns step Eq Good y := by
  refine ⟨fun hx => ⟨hx.ends.inv ⟨_, rfl, h⟩, fun z hz => ?_⟩, .of_step h⟩
  exact hx.good z (.head ⟨_, rfl, h⟩ hz)

end Poll
