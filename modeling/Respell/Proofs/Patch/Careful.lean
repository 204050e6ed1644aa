import Respell.Proofs.Patch.Calls
import Respell.Proofs.Patch.Effects
import Respell.Proofs.Patch.Safety

/-!
Scripts that keep to what their parts ask for, however they end.

A script is *careful* if the context is as a part asks for at every call of it, and as is promised at the end, and if
the script fails with an error in `E` only, given that the parts keep what they promise.  Unlike what holds of runs that
succeed, this says something of every run: a call of a careful patcher keeps the promise or ends with an error in `E`
(`Patcher.call_safe`).  A part that is called again after it was patched turns the call away, and the error is that of
its own place.
-/

namespace Respell

variable {γ κ α β ι : Type} {E : PatchError → Prop} {pre : ι → γ → Prop} {post : ι → γ → γ → Prop} {xs : List ι}

namespace Script

/-- From the context on, the script patches parts, each as it asks for, ends so, and fails in `E` only.  The part at a
place stands for an index at the same place.  A failure below is its own. -/
def Careful (pre : ι → γ → Prop) (post : ι → γ → γ → Prop) (E : PatchError → Prop) (xs : List ι) :
    Script γ κ α → γ → (α → γ → Prop) → Prop
  | done a, g, Q => Q a g
  | fail e, _, _ => E e
  | read next, g, Q => (next g).Careful pre post E xs g Q
  | write g next, _, Q => next.Careful pre post E xs g Q
  | call i c next, g, Q =>
    c = .patch ∧ (∃ x, xs[i]? = some x ∧ pre x g ∧ ∀ g', post x g g' → (next (.ok ())).Careful pre post E xs g' Q) ∧
      ∀ e, next (.error e) = fail e
  | self _, _, _ | become _ _, _, _ | demand _ _, _, _ | adjust _ _ _, _, _ => False

namespace Careful

variable {g : γ} {Q : α → γ → Prop}

theorem bind {s : Script γ κ α} {f : α → Script γ κ β} {R : β → γ → Prop} (hs : s.Careful pre post E xs g Q)
    (hf : ∀ a g', Q a g' → (f a).Careful pre post E xs g' R) : (s >>= f).Careful pre post E xs g R := by
  show (s.bind f).Careful pre post E xs g R
  induction s generalizing g with
  | done a => exact hf a g hs
  | fail e => exact hs
  | read next ih => exact ih g hs
  | write g' next ih => exact ih hs
  | call i c next ih =>
    obtain ⟨hc, ⟨x, hx, hg, hnext⟩, hfail⟩ := hs
    refine ⟨hc, ⟨x, hx, hg, fun g' hg' => ih _ (hnext g' hg')⟩, fun e => ?_⟩
    show (next (.error e)).bind f = .fail e
    rw [hfail e]
    rfl
  | self | become | demand | adjust => exact hs.elim

theorem mono {s : Script γ κ α} {R : α → γ → Prop} (hs : s.Careful pre post E xs g Q) (hQ : ∀ a g', Q a g' → R a g') :
    s.Careful pre post E xs g R := by
  induction s generalizing g with
  | done a => exact hQ a g hs
  | fail e => exact hs
  | read next ih => exact ih g hs
  | write g' next ih => exact ih hs
  | call i c next ih =>
    obtain ⟨hc, ⟨x, hx, hg, hnext⟩, hfail⟩ := hs
    exact ⟨hc, ⟨x, hx, hg, fun g' hg' => ih _ (hnext g' hg')⟩, hfail⟩
  | self | become | demand | adjust => exact hs.elim

theorem step {pre : ι → Context → Prop} {post : ι → Context → Context → Prop} {g : Context} {m : Patching α}
    {Q : α → Context → Prop} (h : Patching.Safe E m g Q) :
    (liftM m : Script Context κ α).Careful pre post E xs g Q := by
  show (ofExcept (m g).1 : Script Context κ α).Careful pre post E xs (m g).2 Q
  unfold Patching.Safe at h
  generalize m g = r at h
  obtain ⟨r, g'⟩ := r
  cases r <;> exact h

theorem patch {i : Nat} {x : ι} {Q : Unit → γ → Prop} (hx : xs[i]? = some x) (hg : pre x g)
    (hQ : ∀ g', post x g g' → Q () g') : (Script.patch i : Script γ κ Unit).Careful pre post E xs g Q :=
  ⟨rfl, ⟨x, hx, hg, hQ⟩, fun _ => rfl⟩

/-! ## Runs -/

variable {callee : Callee γ κ}

/-- A run of a careful script ends as the script promises, if calls of the parts do; `T` is what is known of the
parts. -/
theorem run_safe {T : ι → Patcher κ → Prop}
    (hcallee : ∀ x q g, T x q → pre x g → (callee .patch q g).Safe E fun _ q' g' => T x q' ∧ post x g g')
    {s : Script γ κ α} (hs : s.Careful pre post E xs g Q) {p : Patcher κ} (hp : List.Forall₂ T xs p.parts) :
    (s.run callee p g).Safe E fun a p' g' => p'.site = p.site ∧ Q a g' := by
  induction s generalizing p g with
  | done a => exact ⟨rfl, hs⟩
  | fail e => exact hs
  | read next ih => exact ih g hs hp
  | write g' next ih => exact ih hs hp
  | call i c next ih =>
    obtain ⟨rfl, ⟨x, hx, hg, hnext⟩, hfail⟩ := hs
    obtain ⟨child, hi, hT⟩ := forall₂_getElem?_left hp hx
    have hchild := hcallee x child g hT hg
    unfold Outcome.Safe at hchild
    rw [run, hi]
    simp only
    cases hr : (callee .patch child g).result with
    | error e =>
      rw [hr] at hchild
      rw [hfail e]
      exact hchild
    | ok u =>
      rw [hr] at hchild
      have hset : List.Forall₂ T xs (p.withParts (p.parts.set i (callee .patch child g).patcher)).parts := by
        rw [Patcher.parts_withParts]
        refine forall₂_set hp fun y hy => ?_
        cases hx.symm.trans hy
        exact hchild.1
      exact (ih _ (hnext _ hchild.2) hset).mono fun _ _ _ h => ⟨h.1.trans (by cases p; rfl), h.2⟩
  | self | become | demand | adjust => exact hs.elim

end Careful

end Script

/-! ## Calls -/

/-- What is known of the patcher in the end can be added to what is promised. -/
theorem Outcome.Safe.keeping {o : Outcome γ κ α} {Q : α → Patcher κ → γ → Prop} (h : o.Safe E Q)
    {P : Patcher κ → Prop} (hP : P o.patcher) : o.Safe E fun a p g => P p ∧ Q a p g := by
  unfold Safe at h ⊢
  cases hr : o.result <;> rw [hr] at h
  · exact h
  · exact ⟨hP, h⟩

namespace Patcher

variable {p : Patcher κ}

theorem phase_withPhase (phase : Phase) (p : Patcher κ) : (p.withPhase phase).phase = phase := by
  cases p
  rfl

/-- A patcher of `S`, or one that was patched and whose place an error may point at. -/
def Tame (S : Patcher κ → Prop) (E : PatchError → Prop) (p : Patcher κ) : Prop :=
  S p ∨ p.phase = .patched ∧ ∀ cause, E (.violation cause p.site.content)

/-- If the scripts of patchers in `S` are careful, every call of such a patcher keeps what it promises, and one that
comes again is turned away. -/
theorem call_safe {h : Hooks γ κ} {S : ι → Patcher κ → Prop}
    (hplace : ∀ x p, S x p → ∀ cause, E (.violation cause p.site.content))
    (hscript : ∀ x p, S x p → Call.patch.Welcome h p → ∃ xs, List.Forall₂ S xs p.parts ∧
      ∀ g, pre x g → (p.patchScript h).Careful pre post E xs g fun _ => post x g)
    {x : ι} (hp : Tame (S x) E p) {g : γ} (hg : pre x g) :
    (p.call h .patch g).Safe E fun _ p' g' => Tame (S x) E p' ∧ post x g g' := by
  induction hn : p.height using Nat.strongRecOn generalizing p g x with
  | ind n ih =>
    rw [call_eq]
    rcases hp with hp | ⟨hphase, hp⟩
    · split
      · rename_i hw
        obtain ⟨xs, hparts, hcareful⟩ := hscript x p hp hw
        have hcallee : ∀ y q g, (Tame (S y) E q ∧ q.height < n) → pre y g →
            (q.call h .patch g).Safe E fun _ q' g' => (Tame (S y) E q' ∧ q'.height < n) ∧ post y g g' := by
          rintro y q g ⟨hq, hlt⟩ hg
          have hcall := ih q.height hlt hq hg rfl
          rw [← height_call h .patch q g] at hlt
          exact (hcall.keeping hlt).mono fun _ _ _ h => ⟨⟨h.2.1, h.1⟩, h.2.2⟩
        have hbelow : List.Forall₂ (fun y q => Tame (S y) E q ∧ q.height < n) xs p.parts := by
          refine forall₂_and_right (hparts.imp fun _ _ => Or.inl) fun q hq => ?_
          have hlt := height_lt_of_mem hq
          omega
        have hrun := (hcareful g hg).run_safe hcallee hbelow
        refine Outcome.Safe.advance (hrun.mono fun _ p' g' h => ⟨Or.inr ⟨phase_withPhase _ _, ?_⟩, h.2⟩)
        have hsite : (p'.withPhase Call.patch.next).site = p.site := by
          rw [← h.1]
          cases p'
          rfl
        rw [hsite]
        exact hplace x p hp
      · exact hplace x p hp _
    · rw [if_neg fun hw => by cases hphase.symm.trans hw.1]
      exact hp _

/-- A run prepares, which may fail in its own way, and patches what came out of that. -/
theorem runAll_safe {h : Hooks Context κ} {E₀ : PatchError → Prop} {P : Patcher κ → Context → Prop}
    {Q : Context → Prop} {g : Context} (hprepare : (p.call h .prepare g).Safe E₀ fun _ => P) (hE : ∀ e, E₀ e → E e)
    (hpatch : ∀ q g', P q g' → (q.call h .patch g').Safe E fun _ _ => Q) :
    Patching.Safe E (p.runAll h) g fun _ => Q := by
  unfold Patching.Safe runAll
  unfold Outcome.Safe at hprepare
  generalize p.call h .prepare g = o at hprepare
  obtain ⟨result, q, g₁⟩ := o
  cases result with
  | error e => exact hE e hprepare
  | ok u =>
    have hpatched := hpatch q g₁ hprepare
    dsimp only
    unfold Outcome.Safe at hpatched
    generalize q.call h .patch g₁ = o at hpatched
    obtain ⟨result, q', g'⟩ := o
    cases result with
    | error e => exact hpatched
    | ok u => exact hpatched

end Patcher

end Respell
