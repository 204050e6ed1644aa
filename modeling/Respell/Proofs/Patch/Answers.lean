import Respell.Proofs.Patch.Careful
import Respell.Proofs.Patch.Contract

/-!
The answers in a run of a whole tree of patchers.

A run prepares the tree and then patches it.  If constructs call nothing of their own accord while they are prepared,
nothing is patched before the tree is prepared (`Hooks.Quiet.call_of_mem_log`).  Careful scripts lead to answers of
patchers that are known, in contexts with the invariant (`Patcher.exists_of_mem_log`).  So all that is patched in a
run is known, whether or not the run comes to its end (`Patcher.exists_of_mem_logAll`).
-/

namespace Respell

open List

variable {γ κ α ι : Type} {E : PatchError → Prop} {pre : ι → γ → Prop} {post : ι → γ → γ → Prop} {xs : List ι}
  {callee : Callee γ κ} {logOf : Call → Patcher κ → γ → Patcher.Log γ κ}

/-! ## Answers while patchers are prepared -/

/-- The constructs call no parts of their own accord while they are prepared. -/
def Hooks.Quiet (h : Hooks γ κ) : Prop :=
  ∀ (callee : Callee γ κ) (logOf : Call → Patcher κ → γ → Patcher.Log γ κ) (p q : Patcher κ) (g : γ),
    (h.prepare p).log callee logOf q g = [] ∧ (h.finish p).log callee logOf q g = []

/-- All that is called while a patcher is prepared is called to be prepared. -/
theorem Hooks.Quiet.call_of_mem_log {h : Hooks γ κ} (hq : h.Quiet) (p : Patcher κ) (g : γ) :
    ∀ e ∈ p.log h .prepare g, e.2.call = .prepare := by
  unfold Patcher.log
  generalize p.height = depth
  induction depth generalizing p g with
  | zero => exact forall_mem_nil _
  | succ depth ih =>
    intro e he
    rcases mem_append.1 he with he | he
    · split at he
      · rcases Script.mem_log_bind he with he | ⟨_, q, g, he⟩
        · rw [(hq _ _ _ _ _).1] at he
          cases he
        rcases Script.mem_log_bind he with he | ⟨_, q, g, he⟩
        · obtain ⟨-, -, q, g, e', he', rfl⟩ := Script.exists_of_mem_log he
          exact ih q g e' he'
        · change e ∈ (h.finish q).log _ _ q g at he
          rw [(hq _ _ _ _ _).2] at he
          cases he
      · cases he
    · cases mem_singleton.1 he
      rfl

/-! ## Answers of careful patchers -/

theorem Script.Careful.forall_log {T : ι → Patcher κ → Prop} {P : Patcher.Answer γ κ → Prop}
    (hcallee : ∀ x q g, T x q → pre x g → (callee .patch q g).Safe E fun _ q' g' => T x q' ∧ post x g g')
    (hlog : ∀ x q g, T x q → pre x g → ∀ e ∈ logOf .patch q g, P e.2) {s : Script γ κ α} {g : γ} {Q : α → γ → Prop}
    (hs : s.Careful pre post E xs g Q) {p : Patcher κ} (hp : List.Forall₂ T xs p.parts) :
    ∀ e ∈ s.log callee logOf p g, P e.2 := by
  induction s generalizing p g with
  | done a => exact forall_mem_nil _
  | fail e => exact forall_mem_nil _
  | read next ih => exact ih g hs hp
  | write g' next ih => exact ih hs hp
  | call i c next ih =>
    obtain ⟨rfl, ⟨x, hx, hg, hnext⟩, hfail⟩ := hs
    obtain ⟨child, hi, hT⟩ := forall₂_getElem?_left hp hx
    have hchild := hcallee x child g hT hg
    unfold Outcome.Safe at hchild
    rw [log, hi]
    intro e he
    rcases mem_append.1 he with he | he
    · obtain ⟨e', he', rfl⟩ := mem_map.1 he
      exact hlog x child g hT hg e' he'
    · cases hr : (callee .patch child g).result with
      | error err =>
        rw [hr, hfail err] at he
        cases he
      | ok u =>
        rw [hr] at hchild he
        refine ih _ (hnext _ hchild.2) ?_ e he
        rw [Patcher.parts_withParts]
        refine forall₂_set hp fun y hy => ?_
        cases hx.symm.trans hy
        exact hchild.1
  | self | become | demand | adjust => exact hs.elim

namespace Patcher

variable {S : ι → Patcher κ → Prop} {p : Patcher κ}

/-- All that is called while a careful patcher is patched is known, and is called in a context as it asks for. -/
theorem exists_of_mem_log {h : Hooks γ κ} (hplace : ∀ x p, S x p → ∀ cause, E (.violation cause p.site.content))
    (hscript : ∀ x p, S x p → Call.patch.Welcome h p → ∃ xs, List.Forall₂ S xs p.parts ∧
      ∀ g, pre x g → (p.patchScript h).Careful pre post E xs g fun _ => post x g)
    {x : ι} (hp : Tame (S x) E p) {g : γ} (hg : pre x g) :
    ∀ e ∈ p.log h .patch g, ∃ y q g', Tame (S y) E q ∧ pre y g' ∧ e.2 = q.answer h .patch g' := by
  unfold log
  generalize p.height = depth
  induction depth generalizing p g x with
  | zero => exact forall_mem_nil _
  | succ depth ih =>
    intro e he
    rcases mem_append.1 he with he | he
    · split at he
      · rename_i hw
        obtain ⟨xs, hparts, hcareful⟩ := hscript x p (hp.resolve_right fun h => by cases h.1.symm.trans hw.1) hw
        exact Script.Careful.forall_log (T := fun y => Tame (S y) E)
          (P := fun a => ∃ y q g', Tame (S y) E q ∧ pre y g' ∧ a = q.answer h .patch g')
          (fun y q g hq hg => call_safe hplace hscript hq hg) (fun y q g hq hg => ih hq hg)
          (hcareful g hg) (hparts.imp fun _ _ => Or.inl) e he
      · cases he
    · cases mem_singleton.1 he
      exact ⟨x, p, g, hp, hg, rfl⟩

/-- The answers in the run of a whole tree of patchers. -/
def logAll (h : Hooks Context κ) (p : Patcher κ) (g : Context) : Log Context κ :=
  let prepared := p.call h .prepare g
  p.log h .prepare g ++
    match prepared.result with
    | .ok () => prepared.patcher.log h .patch prepared.context
    | .error _ => []

/-- Patchers that come known out of their preparation are known whenever they are patched. -/
theorem exists_of_mem_logAll {h : Hooks Context κ} {pre : ι → Context → Prop} {post : ι → Context → Context → Prop}
    (hquiet : h.Quiet)
    (hplace : ∀ x p, S x p → ∀ cause, E (.violation cause p.site.content))
    (hscript : ∀ x p, S x p → Call.patch.Welcome h p → ∃ xs, List.Forall₂ S xs p.parts ∧
      ∀ g, pre x g → (p.patchScript h).Careful pre post E xs g fun _ => post x g)
    {g : Context} {E₀ : PatchError → Prop} {x : ι}
    (hprepare : (p.call h .prepare g).Safe E₀ fun _ q g' => S x q ∧ pre x g') :
    ∀ e ∈ p.logAll h g, e.2.call ≠ .prepare → ∃ y q g', Tame (S y) E q ∧ pre y g' ∧ e.2 = q.answer h .patch g' := by
  intro e he hcall
  rcases mem_append.1 he with he | he
  · exact absurd (hquiet.call_of_mem_log p g e he) hcall
  · unfold Outcome.Safe at hprepare
    cases hr : (p.call h .prepare g).result with
    | error err =>
      rw [hr] at he
      cases he
    | ok u =>
      rw [hr] at hprepare he
      exact exists_of_mem_log hplace hscript (Or.inl hprepare.1) hprepare.2 e he

end Patcher

end Respell
