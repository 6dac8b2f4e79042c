/-!
# Machines that answer calls

A machine is a function from a state and a call to the answer and the state after it. `run` makes a
list of calls. Two machines are compared by a relation between their states that every call keeps,
with the same answer on both sides (`Simulates`); they then answer every list of calls alike
(`Simulates.run`).
-/

namespace Machine

variable {σ τ Op Ans : Type}

/-- The answers to some calls, and the state after them. -/
def run (call : σ → Op → Ans × σ) : σ → List Op → List Ans × σ
  | s, [] => ([], s)
  | s, o :: os =>
    let r := call s o
    let rs := run call r.2 os
    (r.1 :: rs.1, rs.2)

/-- Calls that meet `C` get the same answer, and keep the relation. -/
def Simulates (C : Op → Prop) (f : σ → Op → Ans × σ) (g : τ → Op → Ans × τ)
    (R : σ → τ → Prop) : Prop :=
  ∀ s t o, R s t → C o → (f s o).1 = (g t o).1 ∧ R (f s o).2 (g t o).2

section

variable {f : σ → Op → Ans × σ} {g : τ → Op → Ans × τ}

theorem run_append (s : σ) (os ps : List Op) :
    run f s (os ++ ps) =
      ((run f s os).1 ++ (run f (run f s os).2 ps).1, (run f (run f s os).2 ps).2) := by
  induction os generalizing s with
  | nil => rfl
  | cons o os ih =>
    simp only [List.cons_append, run, ih]

theorem length_run (s : σ) (os : List Op) : (run f s os).1.length = os.length := by
  induction os generalizing s with
  | nil => rfl
  | cons o os ih => exact congrArg (· + 1) (ih _)

/-- The two machines answer every list of such calls alike. -/
theorem Simulates.run {C : Op → Prop} {R : σ → τ → Prop} (h : Simulates C f g R) {s : σ} {t : τ}
    (hr : R s t) {os : List Op} (hc : ∀ o ∈ os, C o) :
    (Machine.run f s os).1 = (Machine.run g t os).1 ∧
      R (Machine.run f s os).2 (Machine.run g t os).2 := by
  induction os generalizing s t with
  | nil => exact ⟨rfl, hr⟩
  | cons o os ih =>
    obtain ⟨ha, hr'⟩ := h s t o hr (hc o (List.mem_cons_self ..))
    obtain ⟨has, hrs⟩ := ih hr' fun o ho => hc o (List.mem_cons_of_mem _ ho)
    exact ⟨List.cons_eq_cons.mpr ⟨ha, has⟩, hrs⟩

end

end Machine
