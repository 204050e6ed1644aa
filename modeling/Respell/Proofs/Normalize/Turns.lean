import Respell.Proofs.Normalize.Loops
import Respell.Proofs.Patch.Rows

/-!
Normalizing patches the parts of every construct in turn (`disciplined`), and its patchers are tidy
(`made_patchers`).
-/

namespace Respell.Normalize

open Script

/-- The parts of a loop, in the order in which they are patched. -/
abbrev Loop.parts (l : Loop) : List Part :=
  l.key.toList ++ (l.value.toList ++ l.target :: (l.filter.toList ++ [l.body]))

/-- The parts that a construct names are all that it has, in order. -/
def Construct.Placed : Construct → Nat → Prop
  | loop l, n => Part.Row l.parts 0 n
  | trailingConditional condition body, n => Part.Row [condition, body] 0 n
  | plain, _ => True

/-! ## Patching -/

section

variable {n k : Nat} {parts : List Part}

theorem inTurn_protect (p : Part) : (protect p).InTurn .patch n k fun _ k' => k' = k := by
  refine InTurn.step_bind .get fun cx => ?_
  exact InTurn.ite (InTurn.step (.surroundInParens _)) (InTurn.pure rfl)

theorem inTurn_moveHeader (site : Site) (start : Nat) (body : Part) :
    (moveHeader site start body).InTurn .patch n k fun _ k' => k' = k :=
  InTurn.step_bind (.rendered _) fun _ => InTurn.step_bind (.edit _) fun _ => InTurn.step (.edit _)

theorem Loop.inTurn_keyword (l : Loop) (site : Site) : (l.keyword site).InTurn .patch n k fun _ k' => k' = k := by
  refine InTurn.step_bind .get fun cx => ?_
  dsimp only
  refine InTurn.ite ?_ ?_
  iterate 2
    · split
      · exact InTurn.pure rfl
      · exact InTurn.stop _ _

theorem inTurn_patchLoopValue (scope : Nat) {value : Part} (h : Part.Row (value :: parts) k n) :
    (patchLoopValue scope value).InTurn .patch n k fun _ k' => Part.Row parts k' n := by
  unfold patchLoopValue
  refine InTurn.ite ?_ ?_
  · exact (InTurn.patchPart h).bind fun _ _ h' => InTurn.pure h'
  · refine InTurn.step_bind (.claim _ _ _) fun name => (InTurn.patchAndRender h).bind fun code k' h' => ?_
    exact InTurn.step_bind (.edit _) fun _ => InTurn.pure h'

theorem Loop.inTurn_place (l : Loop) (site : Site) (line : Option String) (keyword : Token)
    (h : Part.Row [l.body] k n) : (l.place site line keyword).InTurn .patch n k fun _ k' => k' = n := by
  unfold place
  refine InTurn.ite ?_ ?_
  · refine (inTurn_protect _).still_bind fun _ => (InTurn.option_forM_steps inTurn_protect).still_bind fun _ =>
      (inTurn_moveHeader _ _ _).still_bind fun _ => InTurn.still_bind ?_ fun _ => InTurn.patchPart h
    exact .option_forM_steps fun line => InTurn.step_bind .get fun cx => InTurn.step (.edit _)
  · refine InTurn.still_bind ?_ fun _ => InTurn.patchPart h
    exact .option_forM_steps fun line => InTurn.step (.insertLineBefore _ _)

theorem Loop.inTurn_patch (l : Loop) (site : Site) (h : Part.Row l.parts k n) :
    (l.patch site).InTurn .patch n k fun _ k' => k' = n := by
  rw [patch_eq]
  refine (InTurn.option_forM_patchPart h).bind fun _ k h => ?_
  refine InTurn.bind (Q := fun _ k => Part.Row (l.target :: (l.filter.toList ++ [l.body])) k n) ?_ fun line k h => ?_
  · cases hvalue : l.value with
    | none =>
      rw [hvalue] at h
      exact InTurn.pure h
    | some value =>
      rw [hvalue] at h
      exact inTurn_patchLoopValue _ h
  refine (InTurn.patchPart h).bind fun _ k h => ?_
  refine (InTurn.option_forM_patchPart h).bind fun _ k h => ?_
  exact (l.inTurn_keyword site).still_bind fun keyword => l.inTurn_place site line keyword h

theorem inTurn_patchConditional (site : Site) {condition body : Part} (h : Part.Row [condition, body] k n) :
    (patchConditional site condition body).InTurn .patch n k fun _ k' => k' = n := by
  refine (InTurn.patchPart h).bind fun _ k h => ?_
  refine (inTurn_protect condition).still_bind fun _ => InTurn.step_bind .get fun cx => ?_
  dsimp only
  split
  · exact (inTurn_moveHeader _ _ _).still_bind fun _ => InTurn.patchPart h
  · exact InTurn.stop _ _

end

theorem disciplined : hooks.Disciplined Construct.Placed where
  prepare _ _ _ := trivial
  finish _ _ := InTurn.pure rfl
  patch p placed := by
    have hscript : p.patchScript hooks = patch p := ite_self _
    rw [hscript]
    unfold patch
    cases hk : p.construct with
    | loop l =>
      rw [hk] at placed
      exact l.inTurn_patch p.site placed
    | trailingConditional condition body =>
      rw [hk] at placed
      exact inTurn_patchConditional p.site placed
    | plain => exact InTurn.forM_patch p.parts.length

/-! ## Putting patchers together -/

open Assembly

theorem places_construct (tree : Tree) (n : Node) {results : Results Construct}
    (hresults : ∀ r ∈ results, Made Construct.Placed r.2) :
    Places Construct.Placed (construct tree n results) := by
  have hstart := Gathered.nil Construct.Placed
  unfold construct
  dsimp only
  split
  · refine (need_gathered hstart).bind fun target ps h => (need_gathered h).bind fun body ps h => ?_
    refine (part?_gathered hresults h _).bind fun key ps h => (part?_gathered hresults h _).bind fun value ps h => ?_
    refine (part_gathered hresults h _).bind fun target ps h => (part?_gathered hresults h _).bind fun filter ps h => ?_
    refine (part_gathered hresults h _).bind fun body ps h => Safe.pure ⟨?_, h.2⟩
    simpa [Construct.Placed] using h.1
  · refine (need_gathered hstart).bind fun condition ps h => (need_gathered h).bind fun body ps h => ?_
    refine (part_gathered hresults h _).bind fun condition ps h => (part_gathered hresults h _).bind fun body ps h => ?_
    exact Safe.pure h
  · refine (children_gathered hresults hstart n.children).bind fun _ ps hps => ?_
    exact Safe.pure ⟨trivial, hps⟩

/-- The patchers of a tree are tidy, unless there is an obstacle. -/
theorem made_patchers (tree : Tree) : Made Construct.Placed (patchers tree) :=
  tree.root.made_fold fun n _ h => made_patcher tree h (places_construct tree n h)

end Respell.Normalize
