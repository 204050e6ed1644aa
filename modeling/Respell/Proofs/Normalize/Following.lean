import Respell.Proofs.Lexing
import Respell.Proofs.Normalize.Translation
import Respell.Proofs.Patch.Script

/-!
Scripts that follow a translation.

A script and a translation take names from the same scopes.  The script *follows* the translation if it
stops for want of a name, at a place in the text, exactly when the translation does, and otherwise leaves
the same scopes behind and a context in which a given relation to the translated text holds.  Steps that
take no name follow the translation that does nothing.
-/

namespace Respell.Normalize

variable {tree : Tree} {α β δ : Type} {o : Outcome Context Construct α} {Q : β → α → Patcher Construct → Context → Prop}
  {m : Patching α} {f : α → Patching β}

/-- The outcome is the one that the translation tells. -/
def Agrees (tree : Tree) (o : Outcome Context Construct α) (t : Option (β × Scopes))
    (Q : β → α → Patcher Construct → Context → Prop) : Prop :=
  match t with
  | none => ∃ hint range, range.Cuts tree.text ∧ o.result = .error (.binding hint range)
  | some (b, scopes) => ∃ a, o.result = .ok a ∧ o.context.scopes = scopes ∧ Q b a o.patcher o.context

theorem Agrees.mono {t : Option (β × Scopes)} {R : β → α → Patcher Construct → Context → Prop} (h : Agrees tree o t Q)
    (hQ : ∀ b a p g, Q b a p g → R b a p g) : Agrees tree o t R := by
  cases t with
  | none => exact h
  | some r =>
    obtain ⟨a, ha, hs, hq⟩ := h
    exact ⟨a, ha, hs, hQ _ _ _ _ hq⟩

theorem Agrees.map {t : Translating β} {s : Scopes} {ε : Type} {u : β → ε}
    {R : ε → α → Patcher Construct → Context → Prop} (h : Agrees tree o (t s) Q)
    (hQ : ∀ b a p g, Q b a p g → R (u b) a p g) : Agrees tree o ((t >>= fun b => pure (u b)) s) R := by
  have hbind : (t >>= fun b => pure (u b)) s = (t s).bind fun r => some (u r.1, r.2) := rfl
  rw [hbind]
  cases ht : t s with
  | none =>
    rw [ht] at h
    exact h
  | some r =>
    rw [ht] at h
    obtain ⟨a, hr, hs, hq⟩ := h
    exact ⟨a, hr, hs, hQ _ _ _ _ hq⟩

variable {callee : Callee Context Construct} {p : Patcher Construct} {g : Context}

/-- The script, run on the patcher and the context, follows the translation. -/
def Follows (tree : Tree) (callee : Call → Patcher Construct → Context → Outcome Context Construct Unit)
    (s : Work α) (p : Patcher Construct) (g : Context) (t : Translating β)
    (Q : β → α → Patcher Construct → Context → Prop) : Prop :=
  Agrees tree (s.run callee p g) (t g.scopes) Q

/-! ## Steps on the context -/

theorem bind_patching {a : α} {g' : Context} (h : m g = (.ok a, g')) : (m >>= f) g = f a g' := by
  show ExceptT.bindCont f (m g).1 (m g).2 = _
  rw [h]
  rfl

theorem bind_patching_error {e : PatchError} {g' : Context} (h : m g = (.error e, g')) :
    (m >>= f) g = (.error e, g') := by
  show ExceptT.bindCont f (m g).1 (m g).2 = _
  rw [h]
  rfl

theorem get_patching (g : Context) : (get : Patching Context) g = (.ok g, g) := rfl

/-! ## Following -/

namespace Follows

variable {s : Work α} {t : Translating β} {Q : β → α → Patcher Construct → Context → Prop} {f : α → Work δ}
  {R : β → δ → Patcher Construct → Context → Prop} {m : Patching α}

theorem mono {R : β → α → Patcher Construct → Context → Prop} (h : Follows tree callee s p g t Q)
    (hQ : ∀ b a p g, Q b a p g → R b a p g) : Follows tree callee s p g t R :=
  Agrees.mono h hQ

theorem pure {a : α} {b : β} (h : Q b a p g) : Follows tree callee (Pure.pure a) p g (Pure.pure b) Q := ⟨a, rfl, rfl, h⟩

theorem bind {ε : Type} {u : β → Translating ε} {R : ε → δ → Patcher Construct → Context → Prop}
    (h : Follows tree callee s p g t Q) (hf : ∀ b a p' g', Q b a p' g' → Follows tree callee (f a) p' g' (u b) R) :
    Follows tree callee (s >>= f) p g (t >>= u) R := by
  have hbind : (t >>= u) g.scopes = (t g.scopes).bind fun r => u r.1 r.2 := rfl
  unfold Follows at *
  rw [Script.run_bind, Outcome.andThen, hbind]
  cases ht : t g.scopes with
  | none =>
    rw [ht] at h
    obtain ⟨hint, range, hrange, hr⟩ := h
    rw [hr]
    exact ⟨hint, range, hrange, rfl⟩
  | some r =>
    rw [ht] at h
    obtain ⟨a, hr, hs, hq⟩ := h
    rw [hr, Option.bind_some, ← hs]
    exact hf _ _ _ _ hq

theorem map {ε : Type} {u : β → ε} {R : ε → α → Patcher Construct → Context → Prop} (h : Follows tree callee s p g t Q)
    (hQ : ∀ b a p g, Q b a p g → R (u b) a p g) :
    Follows tree callee s p g (t >>= fun b => Pure.pure (u b)) R := Agrees.map h hQ

theorem seq {Q : α → Patcher Construct → Context → Prop} (h : Follows tree callee s p g (Pure.pure ()) fun _ => Q)
    (hf : ∀ a p' g', Q a p' g' → Follows tree callee (f a) p' g' t R) : Follows tree callee (s >>= f) p g t R := by
  have := h.bind (u := fun _ => t) fun _ a p' g' => hf a p' g'
  rwa [pure_bind] at this

theorem step {a : α} {g' : Context} (hm : m g = (.ok a, g')) (hs : g'.scopes = g.scopes)
    (hf : Follows tree callee (f a) p g' t R) : Follows tree callee (liftM m >>= f) p g t R := by
  have hrun : (liftM m >>= f : Work δ).run callee p g = (f a).run callee p g' := by
    rw [Script.run_bind]
    show ((Script.lift m).run callee p g).andThen callee f = _
    rw [Script.run_lift, hm]
    rfl
  rw [Follows, hrun, ← hs]
  exact hf

theorem last {a : α} {g' : Context} {b : β} {R : β → α → Patcher Construct → Context → Prop} (hm : m g = (.ok a, g'))
    (hs : g'.scopes = g.scopes) (hR : R b a p g') : Follows tree callee (liftM m) p g (Pure.pure b) R := by
  have hrun : (liftM m : Work α).run callee p g = ⟨.ok a, p, g'⟩ := by
    show (Script.lift m).run callee p g = _
    rw [Script.run_lift, hm]
  rw [Follows, hrun]
  exact ⟨a, rfl, hs, hR⟩

theorem claim {scope : Nat} {hint : String} {range : Span} (hrange : range.Cuts tree.text) :
    Follows tree callee (liftM (Patching.claim scope hint range)) p g (claimName scope hint)
      fun name name' p' g' => name' = name ∧ p' = p ∧ g' = { g with scopes := g'.scopes } := by
  have hrun : (liftM (Patching.claim scope hint range) : Work String).run callee p g =
      ⟨(Patching.claim scope hint range g).1, p, (Patching.claim scope hint range g).2⟩ :=
    Script.run_lift _ _ _
  rw [Follows, hrun, Patching.claim, bind_patching (get_patching g), claimName]
  cases g.scopes.claim? scope hint with
  | none => exact ⟨hint, range, hrange, rfl⟩
  | some r => exact ⟨r.1, rfl, rfl, rfl, rfl, rfl⟩

theorem call {i : Nat} {child : Patcher Construct} {Q : β → Context → Prop} (hi : p.parts[i]? = some child)
    (h : Agrees tree (callee .patch child g) (t g.scopes) fun b _ _ g' => Q b g') :
    Follows tree callee (Script.patch i) p g t fun b _ p' g' =>
      (∃ child', p' = p.withParts (p.parts.set i child')) ∧ Q b g' := by
  rw [Follows, Script.patch, Script.run_callPart hi]
  cases ht : t g.scopes with
  | none =>
    rw [ht] at h
    exact h
  | some r =>
    rw [ht] at h
    obtain ⟨a, hr, hs, hq⟩ := h
    exact ⟨a, hr, hs, ⟨_, rfl⟩, hq⟩

end Follows

/-! ## Edits -/

variable {e : Editor}

theorem edit_eq {f : Editor → Except EditError Editor} (h : f g.editor = .ok e) :
    Patching.edit f g = (.ok (), { g with editor := e }) := by
  rw [Patching.edit, bind_patching (get_patching g), h]
  rfl

theorem rendered_eq {f : Editor → Except EditError String} {x : String} (h : f g.editor = .ok x) :
    Patching.rendered f g = (.ok x, g) := by
  rw [Patching.rendered, bind_patching (get_patching g), h]
  rfl

end Respell.Normalize
