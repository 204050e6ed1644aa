import Respell.Proofs.Patch.Calls

/-!
What scripts do to the context.

`Script.Does R` relates the context in which a script starts to the one in which it ends, given by `R` what
calls of the parts do.  It speaks of scripts that patch their parts and leave the patcher alone otherwise.
A run that succeeds does what its script does, if it calls the parts in turn (`Script.InTurn.run_does`).  So
a relation that every script keeps up, as long as its parts do, holds of every call that succeeds
(`Hooks.Disciplined.patch_induction`).
-/

namespace Respell

variable {γ κ α β : Type} {Placed : κ → Nat → Prop} {p : Patcher κ}

namespace Script

variable {P : Patcher κ → γ → γ → Prop} {parts : List (Patcher κ)} {s : Script γ κ α} {callee : Callee γ κ}

/-- From the context `g` the script comes to the result `b` and the context `g'`. -/
def Does (R : Nat → γ → γ → Prop) : Script γ κ α → (g : γ) → (b : α) → (g' : γ) → Prop
  | done a, g, b, g' => b = a ∧ g' = g
  | read next, g, b, g' => (next g).Does R g b g'
  | write g₁ next, _, b, g' => next.Does R g₁ b g'
  | call i _ next, g, b, g' => ∃ g₁, R i g g₁ ∧ (next (.ok ())).Does R g₁ b g'
  | fail _, _, _, _ | self _, _, _, _ | become _ _, _, _, _ | demand _ _, _, _, _ | adjust _ _ _, _, _, _ => False

/-! ## Doing one thing after the other -/

section Does

variable {R : Nat → γ → γ → Prop} {g g' : γ}

@[simp] theorem does_pure {a b : α} : (Pure.pure a : Script γ κ α).Does R g b g' ↔ b = a ∧ g' = g := Iff.rfl

@[simp] theorem does_fail {e : PatchError} {b : α} : (fail e : Script γ κ α).Does R g b g' ↔ False := Iff.rfl

@[simp] theorem does_bind {s : Script γ κ α} {f : α → Script γ κ β} {b : β} :
    (s >>= f).Does R g b g' ↔ ∃ a g₁, s.Does R g a g₁ ∧ (f a).Does R g₁ b g' := by
  show (s.bind f).Does R g b g' ↔ _
  induction s generalizing g with
  | done a =>
    constructor
    · exact fun h => ⟨a, g, ⟨rfl, rfl⟩, h⟩
    · rintro ⟨_, _, ⟨rfl, rfl⟩, h⟩
      exact h
  | read next ih => exact ih g
  | write g₁ next ih => exact ih
  | call i c next ih =>
    constructor
    · rintro ⟨g₁, hcall, h⟩
      obtain ⟨a, g₂, hnext, h⟩ := (ih _).1 h
      exact ⟨a, g₂, ⟨g₁, hcall, hnext⟩, h⟩
    · rintro ⟨a, g₂, ⟨g₁, hcall, hnext⟩, h⟩
      exact ⟨g₁, hcall, (ih _).2 ⟨a, g₂, hnext, h⟩⟩
  | fail | self | become | demand | adjust =>
    constructor
    · exact False.elim
    · rintro ⟨_, _, h, -⟩
      exact h

@[simp] theorem does_patch {i : Nat} {b : Unit} : (patch i : Script γ κ Unit).Does R g b g' ↔ R i g g' := by
  constructor
  · rintro ⟨g₁, h, -, rfl⟩
    exact h
  · exact fun h => ⟨g', h, rfl, rfl⟩

end Does

@[simp] theorem does_step {R : Nat → Context → Context → Prop} {m : Patching α} {g g' : Context} {b : α} :
    (liftM m : Script Context κ α).Does R g b g' ↔ m g = (.ok b, g') := by
  show (ofExcept (m g).1 : Script Context κ α).Does R (m g).2 b g' ↔ _
  obtain ⟨r, g₁⟩ := m g
  cases r with
  | ok a =>
    constructor
    · rintro ⟨rfl, rfl⟩
      rfl
    · rintro ⟨⟩
      exact ⟨rfl, rfl⟩
  | error e =>
    constructor
    · exact False.elim
    · rintro ⟨⟩

/-! ## Runs -/

/-- What a call at a place does; where there is no part, nothing. -/
def OnPart (P : Patcher κ → γ → γ → Prop) (parts : List (Patcher κ)) (i : Nat) (g g' : γ) : Prop :=
  match parts[i]? with
  | some q => P q g g'
  | none => g' = g

theorem OnPart.of_getElem? {i : Nat} {g g' : γ} (h : OnPart P parts i g g') {q : Patcher κ} (hq : parts[i]? = some q) :
    P q g g' := by
  unfold OnPart at h
  rwa [hq] at h

/-- A run that succeeds does what the script does, if it calls each part at most once. -/
theorem InTurn.run_does
    (hcallee : ∀ q ∈ parts, ∀ g, (callee .patch q g).result = .ok () → P q g (callee .patch q g).context) {n k : Nat}
    {Q : α → Nat → Prop} (hs : s.InTurn .patch n k Q) {p : Patcher κ} (hp : p.parts.drop k = parts.drop k) {g : γ}
    {a : α} (hok : (s.run callee p g).result = .ok a) : s.Does (OnPart P parts) g a (s.run callee p g).context := by
  induction hs generalizing p g with
  | done =>
    cases hok
    exact ⟨rfl, rfl⟩
  | fail => cases hok
  | read _ ih => exact ih g hp hok
  | write _ ih => exact ih hp hok
  | @call k next _ _ _ hfail ih =>
    have hk : p.parts[k]? = parts[k]? := by
      have := congrArg (·[0]?) hp
      simpa using this
    have hrest := congrArg List.tail hp
    simp only [List.tail_drop] at hrest
    simp only [run, Does, OnPart] at hok ⊢
    rw [hk] at hok ⊢
    cases hq : parts[k]? with
    | none =>
      rw [hq] at hok
      exact ⟨g, rfl, ih hrest hok⟩
    | some q =>
      rw [hq] at hok
      simp only at hok ⊢
      cases hr : (callee .patch q g).result with
      | error e =>
        rw [hr, hfail] at hok
        cases hok
      | ok u =>
        rw [hr] at hok
        refine ⟨_, hcallee q (List.mem_of_getElem? hq) g hr, ih ?_ hok⟩
        rw [Patcher.parts_withParts, List.drop_set_of_lt (Nat.lt_succ_self k)]
        exact hrest

end Script

/-! ## Calls -/

variable {h : Hooks γ κ}

/-- What every script does, as long as the calls of its parts do, every call does. -/
theorem Hooks.Disciplined.patch_induction (hd : h.Disciplined Placed) {P : Patcher κ → γ → γ → Prop}
    (step : ∀ p g g', p.phase = .prepared → Placed p.construct p.parts.length →
      (p.patchScript h).Does (Script.OnPart P p.parts) g () g' → P p g g')
    (hp : p.Tidy Placed .prepared) {g : γ} (hok : (p.call h .patch g).result = .ok ()) :
    P p g (p.call h .patch g).context := by
  induction hp generalizing g with
  | @intro p here placed _ ih =>
    rw [Patcher.call_eq] at hok ⊢
    split at hok
    case isFalse => cases hok
    case isTrue hw =>
    rw [Patcher.result_advance] at hok
    rw [if_pos hw, Patcher.context_advance]
    exact step p g _ here placed ((hd.patch p placed).run_does (fun q hq _ => ih q hq) rfl hok)

/-- A tidy tree of patchers is tidy when it has been prepared. -/
theorem Hooks.Disciplined.prepare_tidy (hd : h.Disciplined Placed) {E : PatchError → Prop}
    (hp : p.Tidy Placed .constructed) {g : γ} {Q : Unit → Patcher κ → γ → Prop}
    (hsafe : (p.call h .prepare g).Safe E Q) :
    (p.call h .prepare g).Safe E fun a q g' => q.Tidy Placed .prepared ∧ Q a q g' := by
  have hanswers := hd.answers_prepare p.height hp (Nat.le_refl _) g
  change Walk.prepare.Answers Placed p (p.call h .prepare g) _ at hanswers
  unfold Outcome.Safe at hsafe ⊢
  unfold Walk.Answers at hanswers
  generalize p.call h .prepare g = o at hsafe hanswers
  obtain ⟨result, q, g'⟩ := o
  cases result with
  | error e => exact hsafe
  | ok u => exact ⟨hanswers.1, hsafe⟩

end Respell
