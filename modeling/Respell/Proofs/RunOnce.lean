import Respell.Compile
import Respell.Proofs.Javascript.Turns
import Respell.Proofs.Normalize.Turns

/-!
Every patcher runs once.

A stage puts the patchers of a tree together, prepares them and patches them.  Each of them is prepared and patched
in its turn and once only, whatever the tree; all of them are if the stage gives a text (`Stage.runs_patchers_once`).
-/

namespace Respell

variable {κ : Type}

/-- How a stage ends that gives `out`, given what became of its patchers and the context in which it runs them. -/
def Stage.RunsOnce (h : Hooks Context κ) (g : Context) (made : Except PatchError (Patcher κ))
    (out : Except PatchError String) : Prop :=
  match made with
  | .error e => out = .error e ∧ ¬ e.IsOutOfTurn
  | .ok p => p.RunsOnce h g ∧
    match out with
    | .ok _ => (p.afterAll h g).paths = p.paths ∧ (p.afterAll h g).InPhase .patched
    | .error e => ¬ e.IsOutOfTurn

/-- A tree of patchers that is run, and then what is written. -/
def Stage.work (h : Hooks Context κ) (made : Except PatchError (Patcher κ)) : Patching String := do
  (← liftExcept made).runAll h
  Patching.render

theorem Hooks.Disciplined.stage_runsOnce {h : Hooks Context κ} {Placed : κ → Nat → Prop} (hd : h.Disciplined Placed)
    {made : Except PatchError (Patcher κ)} (hmade : Made Placed made) (g : Context) :
    Stage.RunsOnce h g made (Stage.work h made g).1 := by
  cases made with
  | error e => exact ⟨rfl, PatchError.not_isOutOfTurn hmade⟩
  | ok p =>
    have hp := hd.runsOnce hmade g
    have hrun : Patching.Safe (fun e => ¬ e.IsOutOfTurn) (p.runAll h) g fun _ _ =>
        (p.afterAll h g).paths = p.paths ∧ (p.afterAll h g).InPhase .patched := by
      have hall := hp.allPatched
      have hturn := hp.inTurn
      unfold Patching.Safe
      generalize p.runAll h g = r at hall hturn
      obtain ⟨r, g'⟩ := r
      cases r with
      | error e => exact hturn e rfl
      | ok _ => exact (hall rfl).2
    have hrender : Patching.render.Mild := .rendered _
    have hsafe := hrun.bind fun _ g' h' =>
      ((hrender g').weaken fun _ => PatchError.not_isOutOfTurn).mono fun _ _ _ => h'
    refine ⟨hp, ?_⟩
    show match ((p.runAll h >>= fun _ => Patching.render) g).1 with
      | .ok _ => (p.afterAll h g).paths = p.paths ∧ (p.afterAll h g).InPhase .patched
      | .error e => ¬ e.IsOutOfTurn
    unfold Patching.Safe at hsafe
    generalize (p.runAll h >>= fun _ => Patching.render) g = r at hsafe
    obtain ⟨r, g'⟩ := r
    cases r with
    | error e => exact hsafe
    | ok _ => exact hsafe

/-- The second stage respells the comments and goes on. -/
theorem Javascript.run_runsOnce (tree : Tree) (g : Context) :
    match respellComments g with
    | (.error e, _) => (run tree g).1 = .error e ∧ ¬ e.IsOutOfTurn
    | (.ok (), g') => Stage.RunsOnce hooks g' (patchers tree g'.scopes) (run tree g).1 := by
  have hrun : run tree = respellComments >>= fun _ => get >>= fun cx =>
      Stage.work hooks (patchers tree cx.scopes) := rfl
  have hmild := mild_respellComments g
  unfold Patching.Safe at hmild
  rw [hrun]
  cases hr : respellComments g with
  | mk r g' =>
    cases r with
    | error e =>
      rw [hr] at hmild
      rw [Normalize.bind_patching_error hr]
      exact ⟨rfl, PatchError.not_isOutOfTurn hmild⟩
    | ok _ =>
      rw [Normalize.bind_patching hr, Normalize.bind_patching (Normalize.get_patching g')]
      exact disciplined.stage_runsOnce (made_patchers tree g'.scopes) g'

/-- Both stages run every patcher once: the first in the context of the tree, the second once the comments are
respelled. -/
theorem Stage.runs_patchers_once (tree : Tree) :
    RunsOnce Normalize.hooks (.ofTree tree .normalize) (Normalize.patchers tree) (Stage.run .normalize tree) ∧
    match Javascript.respellComments (.ofTree tree .main) with
    | (.error e, _) => Stage.run .main tree = .error e ∧ ¬ e.IsOutOfTurn
    | (.ok (), g) => RunsOnce Javascript.hooks g (Javascript.patchers tree g.scopes) (Stage.run .main tree) :=
  ⟨Normalize.disciplined.stage_runsOnce (Normalize.made_patchers tree) _, Javascript.run_runsOnce tree _⟩

end Respell
