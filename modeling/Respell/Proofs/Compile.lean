import Respell.Compile

/-!
What the stages give for a text.

A stage works on the tree of a text that has no faults, and gives what this work gives (`Stage.apply_eq_ok_iff`,
`Stage.apply_eq_error_iff`).
-/

namespace Respell

variable {stage : Stage} {text out : String} {e : CompileError}

theorem Stage.apply_eq_ok_iff : stage.apply text = .ok out ↔
    (Parse.ofText text.toList).errors = [] ∧ stage.run (Parse.ofText text.toList).tree = .ok out := by
  unfold Stage.apply
  generalize Parse.ofText text.toList = parsed
  obtain ⟨tree, errors⟩ := parsed
  cases errors with
  | cons d ds => simp
  | nil => cases h : stage.run tree <;> simp [h]

theorem Stage.apply_eq_error_iff : stage.apply text = .error e ↔
    ((Parse.ofText text.toList).errors ≠ [] ∧ e = ⟨stage, text, .parse (Parse.ofText text.toList).errors⟩) ∨
      ((Parse.ofText text.toList).errors = [] ∧ ∃ cause, stage.run (Parse.ofText text.toList).tree = .error cause ∧
        e = ⟨stage, text, .patch cause⟩) := by
  unfold Stage.apply
  generalize Parse.ofText text.toList = parsed
  obtain ⟨tree, errors⟩ := parsed
  cases errors with
  | cons d ds => simp [eq_comm]
  | nil => cases h : stage.run tree <;> simp [h, eq_comm]

/-- An error is that of the first stage, or of the second on what the first has made of the text. -/
theorem apply_of_compile {last : Stage} (h : compile last text = .error e) :
    Stage.apply .normalize text = .error e ∨
      ∃ normalized, Stage.apply .normalize text = .ok normalized ∧ Stage.apply .main normalized = .error e := by
  unfold compile at h
  generalize Stage.apply .normalize text = r at h
  cases r with
  | error e' =>
    cases h
    exact Or.inl rfl
  | ok normalized =>
    cases last with
    | normalize => cases h
    | main =>
      simp only [bind, Except.bind] at h
      exact Or.inr ⟨normalized, rfl, h⟩

end Respell
