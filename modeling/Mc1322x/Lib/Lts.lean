/-!
# Labelled transition systems

A system is a type of states, the initial states, and steps that carry a label. The results about
a run come in two forms.

* `Lts.Reach C s`: a run whose steps all meet the condition `C` (on the state before the step and
  its label) ends in `s`. `Reach.induct` is the rule for an inductive invariant of such runs.
* `Lts.Run s tr s'`: the run from `s` to `s'`, with the states and labels of its steps in `tr`.
  `Run.induct` is the rule for an invariant of the run and its steps so far, `Run.forall_iff` lifts
  an equivalence about one step to the whole run, `Run.along` takes the run of a part of the state
  out of it. `Lts.exec` computes the run of a step function (`Run.exec`).
-/

/-- A labelled transition system. -/
structure Lts where
  St : Type
  Act : Type
  init : St → Prop
  step : St → Act → St → Prop

namespace Lts

variable (S : Lts)

/-- No condition on the steps. -/
def Any : S.St → S.Act → Prop := fun _ _ => True

/-- The states that a run from an initial state reaches by steps that meet `C`. -/
inductive Reach (C : S.St → S.Act → Prop) : S.St → Prop
  | init {s : S.St} : S.init s → Reach C s
  | step {s s' : S.St} {a : S.Act} : Reach C s → C s a → S.step s a s' → Reach C s'

/-- A run from one state to another, with the state before each step and its label. -/
inductive Run : S.St → List (S.St × S.Act) → S.St → Prop
  | nil (s : S.St) : Run s [] s
  | snoc {s t u : S.St} {a : S.Act} {tr : List (S.St × S.Act)} :
      Run s tr t → S.step t a u → Run s (tr ++ [(t, a)]) u

/-- The system of a step function. -/
def ofStep {St Act : Type} (init : St → Prop) (f : St → Act → Option St) : Lts where
  St := St
  Act := Act
  init := init
  step s a s' := f s a = some s'

/-- The run of a step function along a list of labels. -/
def trace {St Act : Type} (f : St → Act → Option St) : St → List Act → Option (List (St × Act) × St)
  | s, [] => some ([], s)
  | s, a :: as => do
    let t ← f s a
    let (tr, u) ← trace f t as
    some ((s, a) :: tr, u)

/-- That run and its last state; the empty run where a step is not possible. -/
def exec {St Act : Type} (f : St → Act → Option St) (s : St) (as : List Act) :
    List (St × Act) × St :=
  (trace f s as).getD ([], s)

/-- The steps of a run that `label` gives a label of its own, seen in a part of the state. -/
def along {St Act St' Act' : Type} (part : St → St') (label : St → Act → Option Act')
    (tr : List (St × Act)) : List (St' × Act') :=
  tr.filterMap fun x => (label x.1 x.2).map (part x.1, ·)

theorem along_snoc {St Act St' Act' : Type} (part : St → St') (label : St → Act → Option Act')
    (tr : List (St × Act)) (s : St) (a : Act) :
    along part label (tr ++ [(s, a)]) =
      along part label tr ++ ((label s a).map (part s, ·)).toList := by
  unfold along
  rw [List.filterMap_append]
  cases h : label s a <;> simp [h]

variable {S}

/-- An inductive invariant of the runs whose steps meet `C` holds in every state they reach. -/
theorem Reach.induct {C : S.St → S.Act → Prop} {I : S.St → Prop} (h0 : ∀ s, S.init s → I s)
    (hs : ∀ s a s', I s → C s a → S.step s a s' → I s') {s : S.St} (h : S.Reach C s) : I s := by
  induction h with
  | init hi => exact h0 _ hi
  | step _ hc hst ih => exact hs _ _ _ ih hc hst

theorem Reach.mono {C D : S.St → S.Act → Prop} (hcd : ∀ s a, C s a → D s a) {s : S.St}
    (h : S.Reach C s) : S.Reach D s := by
  induction h with
  | init hi => exact .init hi
  | step _ hc hst ih => exact .step ih (hcd _ _ hc) hst

namespace Run

variable {s t u : S.St} {a : S.Act} {tr tr' : List (S.St × S.Act)}

theorem single (h : S.step s a t) : S.Run s [(s, a)] t := .snoc (.nil s) h

theorem trans (h : S.Run s tr t) (h' : S.Run t tr' u) : S.Run s (tr ++ tr') u := by
  induction h' with
  | nil => simpa using h
  | snoc _ hst ih => rw [← List.append_assoc]; exact .snoc ih hst

theorem cons (h : S.step s a t) (h' : S.Run t tr u) : S.Run s ((s, a) :: tr) u :=
  (single h).trans h'

/-- An invariant of the run of a step function and its steps so far. -/
theorem induct {St Act : Type} {init : St → Prop} {f : St → Act → Option St}
    {I : List (St × Act) → St → Prop} {s t : St} {tr : List (St × Act)} (h0 : I [] s)
    (hs : ∀ (tr : List (St × Act)) (t : St) (a : Act) (u : St), (ofStep init f).Run s tr t →
      I tr t → f t a = some u → I (tr ++ [(t, a)]) u)
    (h : (ofStep init f).Run s tr t) : I tr t := by
  have key : ∀ (tr : List ((ofStep init f).St × (ofStep init f).Act)) (t : (ofStep init f).St),
      (ofStep init f).Run s tr t → I tr t := by
    intro tr t h
    induction h with
    | nil => exact h0
    | snoc hr hst ih => exact hs _ _ _ _ hr ih hst
  exact key tr t h

/-- A part of the state that some steps change as the steps `g` do, and the others keep, has a run
of `g` along with every run. -/
theorem along {St Act St' Act' : Type} {init : St → Prop} {f : St → Act → Option St}
    {init' : St' → Prop} {g : St' → Act' → Option St'} {p : St → St'}
    {l : St → Act → Option Act'}
    (hsome : ∀ s a s' b, f s a = some s' → l s a = some b → g (p s) b = some (p s'))
    (hnone : ∀ s a s', f s a = some s' → l s a = none → p s' = p s) {s t : St}
    {tr : List (St × Act)} (h : (ofStep init f).Run s tr t) :
    (ofStep init' g).Run (p s) (Lts.along p l tr) (p t) := by
  refine Run.induct (I := fun tr t => (ofStep init' g).Run (p s) (Lts.along p l tr)
    (p t)) (.nil _) ?_ h
  intro tr t a u _ ih hst
  have hsnoc := along_snoc p l tr t a
  cases hl : l t a with
  | none =>
    rw [hl] at hsnoc
    rw [hnone t a u hst hl]
    exact (hsnoc.trans (List.append_nil _)) ▸ ih
  | some b =>
    rw [hl] at hsnoc
    exact hsnoc ▸ .snoc ih (hsome t a u b hst hl)

theorem of_trace {St Act : Type} {init : St → Prop} {f : St → Act → Option St} {as : List Act}
    {s t : St} {tr : List (St × Act)} (h : trace f s as = some (tr, t)) :
    (ofStep init f).Run s tr t := by
  induction as generalizing s tr with
  | nil =>
    cases h
    exact .nil _
  | cons a as ih =>
    simp only [trace, Option.bind_eq_bind, Option.bind_eq_some_iff] at h
    obtain ⟨s₁, hst, ⟨tr', u⟩, htr, h⟩ := h
    cases h
    exact cons hst (ih htr)

theorem exec {St Act : Type} (init : St → Prop) (f : St → Act → Option St) (s : St)
    (as : List Act) : (ofStep init f).Run s (exec f s as).1 (exec f s as).2 := by
  unfold Lts.exec
  cases h : trace f s as with
  | none => exact .nil _
  | some x => exact .of_trace h

/-- The labels of a computed run are some of those given. -/
theorem mem_exec {St Act : Type} {f : St → Act → Option St} {s : St} {as : List Act}
    {x : St × Act} (h : x ∈ (Lts.exec f s as).1) : x.2 ∈ as := by
  have key : ∀ (as : List Act) (s : St) (r : List (St × Act) × St), trace f s as = some r →
      ∀ x ∈ r.1, x.2 ∈ as := by
    intro as
    induction as with
    | nil =>
      intro s r h x hx
      cases h
      cases hx
    | cons a as ih =>
      intro s r h x hx
      simp only [trace, Option.bind_eq_bind, Option.bind_eq_some_iff] at h
      obtain ⟨s₁, -, ⟨tr, u⟩, htr, h⟩ := h
      cases h
      rcases List.mem_cons.mp hx with rfl | hx
      · exact List.mem_cons_self
      · exact List.mem_cons_of_mem a (ih s₁ _ htr x hx)
  unfold Lts.exec at h
  cases htr : trace f s as with
  | none =>
    rw [htr] at h
    cases h
  | some r =>
    rw [htr] at h
    exact key as s r htr x h

/-- A run whose steps all meet `C` continues a reachable state to a reachable one. -/
theorem reach {C : S.St → S.Act → Prop} (h : S.Run s tr t) (hs : S.Reach C s)
    (hc : ∀ x ∈ tr, C x.1 x.2) : S.Reach C t := by
  induction h with
  | nil => exact hs
  | @snoc t _ a _ _ hst ih =>
    refine .step (ih fun x hx => hc x (List.mem_append_left _ hx)) (hc (t, a) ?_) hst
    simp

/-- A relation that is reflexive, transitive and keeps every step relates the ends of a run. -/
theorem relates {R : S.St → S.St → Prop} (hr : ∀ s, R s s) (ht : ∀ s t u, R s t → R t u → R s u)
    (hst : ∀ s a t, S.step s a t → R s t) (h : S.Run s tr t) : R s t := by
  induction h with
  | nil => exact hr _
  | snoc _ h ih => exact ht _ _ _ ih (hst _ _ _ h)

/-- The states before the steps of a run from a reachable state are reachable. -/
theorem reach_mem (h : S.Run s tr t) (hs : S.Reach S.Any s) {x : S.St × S.Act} (hx : x ∈ tr) :
    S.Reach S.Any x.1 := by
  induction h with
  | nil => cases hx
  | snoc hr _ ih =>
    rcases List.mem_append.mp hx with hx | hx
    · exact ih hx
    · rw [List.mem_singleton.mp hx]
      exact hr.reach hs fun _ _ => trivial

/-- Two properties of a step that agree at every reachable state agree on the steps of a run. -/
theorem forall_iff {P Q : S.St → S.Act → Prop} (hpq : ∀ s a, S.Reach S.Any s → (P s a ↔ Q s a))
    (hs : S.Reach S.Any s) (h : S.Run s tr t) :
    (∀ x ∈ tr, P x.1 x.2) ↔ ∀ x ∈ tr, Q x.1 x.2 :=
  ⟨fun hp x hx => (hpq _ _ (h.reach_mem hs hx)).mp (hp x hx),
    fun hq x hx => (hpq _ _ (h.reach_mem hs hx)).mpr (hq x hx)⟩

end Run

end Lts
