import Mathlib.Data.List.Forall2
import Respell.Proofs.Patch.Script

/-!
Work that fails in allowed ways only.

`Safe E` says of a piece of work that it ends with a given property, or with an error in `E`.  It is closed
under the ways in which work is put together, so what is left to show is what each single step does.
-/

namespace Respell

open List

variable {α β γ κ : Type} {E : PatchError → Prop} {Q : α → Patcher κ → γ → Prop}

theorem eq_ok_of_toOption {ε : Type} {r : Except ε α} {a : α} (h : r.toOption = some a) : r = .ok a := by
  cases r with
  | error e => cases h
  | ok b => cases h; rfl

section Updates

variable {α β : Type} {R : α → β → Prop} {as : List α} {bs : List β} {i : Nat}

theorem forall₂_getElem? {b : β} (h : List.Forall₂ R as bs) (hb : bs[i]? = some b) : ∃ a, as[i]? = some a ∧ R a b := by
  induction h generalizing i with
  | nil => cases hb
  | cons hab _ ih =>
    cases i with
    | zero =>
      cases hb
      exact ⟨_, rfl, hab⟩
    | succ i => exact ih hb

theorem forall₂_getElem?_left {a : α} (h : List.Forall₂ R as bs) (ha : as[i]? = some a) :
    ∃ b, bs[i]? = some b ∧ R a b := forall₂_getElem? (List.Forall₂.flip (R := flip R) h) ha

theorem forall₂_of_getElem? (hlength : as.length = bs.length)
    (h : ∀ (i : Nat) a b, as[i]? = some a → bs[i]? = some b → R a b) : List.Forall₂ R as bs :=
  forall₂_iff_get.2 ⟨hlength, fun i h₁ h₂ => h i _ _ (getElem?_eq_getElem h₁) (getElem?_eq_getElem h₂)⟩

theorem forall₂_modify {f : β → β} (h : List.Forall₂ R as bs) (hf : ∀ a b, as[i]? = some a → R a b → R a (f b)) :
    List.Forall₂ R as (bs.modify i f) := by
  induction h generalizing i with
  | nil =>
    rw [modify_nil]
    exact .nil
  | cons hab _ ih =>
    cases i with
    | zero => exact .cons (hf _ _ rfl hab) ‹_›
    | succ i => exact .cons hab (ih fun a b ha => hf a b ha)

theorem forall₂_set {b : β} (h : List.Forall₂ R as bs) (hb : ∀ a, as[i]? = some a → R a b) :
    List.Forall₂ R as (bs.set i b) := by
  induction h generalizing i with
  | nil => exact .nil
  | cons hab _ ih =>
    cases i with
    | zero => exact .cons (hb _ rfl) ‹_›
    | succ i => exact .cons hab (ih fun a ha => hb a ha)

theorem forall₂_and_right {P : β → Prop} (h : List.Forall₂ R as bs) (hP : ∀ b ∈ bs, P b) :
    List.Forall₂ (fun a b => R a b ∧ P b) as bs := by
  induction h with
  | nil => exact .nil
  | cons hab _ ih =>
    obtain ⟨hb, hbs⟩ := forall_mem_cons.1 hP
    exact .cons ⟨hab, hb⟩ (ih hbs)

theorem exists_of_rel_some {o : Option α} {b : β} (h : Option.Rel R o (some b)) : ∃ a, o = some a ∧ R a b := by
  cases h with
  | some h => exact ⟨_, rfl, h⟩

end Updates

/-! ## Steps on the context -/

namespace Patching

/-- The step ends so, or with an error in `E`. -/
def Safe (E : PatchError → Prop) (m : Patching α) (g : Context) (Q : α → Context → Prop) : Prop :=
  match m g with
  | (.ok a, g') => Q a g'
  | (.error e, _) => E e

namespace Safe

variable {g : Context} {m : Patching α} {Q : α → Context → Prop} {R : β → Context → Prop} {E' : PatchError → Prop}

theorem bind {f : α → Patching β} (h : Safe E m g Q) (hf : ∀ a g', Q a g' → Safe E (f a) g' R) :
    Safe E (m >>= f) g R := by
  have hrun : (m >>= f) g = ExceptT.bindCont f (m g).1 (m g).2 := rfl
  unfold Safe at h ⊢
  rw [hrun]
  generalize m g = r at h
  obtain ⟨r, g'⟩ := r
  cases r with
  | ok a => exact hf a g' h
  | error e => exact h

theorem and {R : α → Context → Prop} (h : Safe E m g Q) (h' : Safe E' m g R) :
    Safe E m g fun a g' => Q a g' ∧ R a g' := by
  unfold Safe at *
  generalize m g = r at h h'
  obtain ⟨r, g'⟩ := r
  cases r with
  | ok a => exact ⟨h, h'⟩
  | error e => exact h

theorem outcome (m : Patching α) (g : Context) : Safe (fun _ => True) m g fun a g' => m g = (.ok a, g') := by
  unfold Safe
  split
  · assumption
  · trivial

theorem of_eq (h : Safe E m g Q) {a : α} {g' : Context} (heq : m g = (.ok a, g')) : Q a g' := by
  unfold Safe at h
  rwa [heq] at h

theorem of_error (h : Safe E m g Q) {e : PatchError} (heq : (m g).1 = .error e) : E e := by
  unfold Safe at h
  generalize m g = r at h heq
  obtain ⟨_, g'⟩ := r
  cases heq
  exact h

theorem mono {R : α → Context → Prop} (h : Safe E m g Q) (hQ : ∀ a g', Q a g' → R a g') : Safe E m g R := by
  unfold Safe at h ⊢
  generalize m g = r at h
  obtain ⟨r, g'⟩ := r
  cases r with
  | ok a => exact hQ a g' h
  | error e => exact h

theorem weaken (h : Safe E m g Q) (hE : ∀ e, E e → E' e) : Safe E' m g Q := by
  unfold Safe at h ⊢
  generalize m g = r at h
  obtain ⟨r, g'⟩ := r
  cases r with
  | ok a => exact h
  | error e => exact hE e h

theorem get_bind {f : Context → Patching β} (h : Safe E (f g) g R) : Safe E (get >>= f) g R := h

theorem of_modify {f : Context → Context} {Q : PUnit → Context → Prop} (h : Q ⟨⟩ (f g)) : Safe E (modify f) g Q := h

theorem of_modifyGet {f : Context → α × Context} (h : Q (f g).1 (f g).2) : Safe E (modifyGet f) g Q := h

/-- A loop that keeps what it needs at every turn. -/
theorem forM {xs : List α} {f : α → Patching PUnit} {I : List α → Context → Prop} (h : I xs g)
    (hstep : ∀ x rest g', I (x :: rest) g' → Safe E (f x) g' fun _ => I rest) :
    Safe E (xs.forM f) g fun _ => I [] := by
  induction xs generalizing g with
  | nil => exact h
  | cons x xs ih => exact (hstep x xs g h).bind fun _ _ h' => ih h'

/-- Taking a name changes the scopes only. -/
theorem claim {scope : Nat} {hint : String} {range : Span} {Q : String → Context → Prop}
    (hE : E (.binding hint range)) (hQ : ∀ name scopes, Q name { g with scopes }) :
    Safe E (Patching.claim scope hint range) g Q := by
  apply get_bind
  cases g.scopes.claim? scope hint with
  | none => exact hE
  | some r => exact hQ r.1 r.2

end Safe

end Patching

/-! ## Scripts -/

/-- The outcome is so, or an error in `E`. -/
def Outcome.Safe (E : PatchError → Prop) (o : Outcome γ κ α) (Q : α → Patcher κ → γ → Prop) : Prop :=
  match o.result with
  | .ok a => Q a o.patcher o.context
  | .error e => E e

variable {o : Outcome γ κ α}

theorem Outcome.Safe.mono {R : α → Patcher κ → γ → Prop} (h : o.Safe E Q) (hQ : ∀ a p g, Q a p g → R a p g) :
    o.Safe E R := by
  unfold Safe at h ⊢
  cases hr : o.result with
  | ok a =>
    rw [hr] at h
    exact hQ _ _ _ h
  | error e =>
    rw [hr] at h
    exact h

theorem Outcome.Safe.of_result (h : ∀ a, o.result = .ok a → Q a o.patcher o.context) : o.Safe (fun _ => True) Q := by
  unfold Safe
  cases hr : o.result with
  | ok a => exact h a hr
  | error e => trivial

theorem Outcome.Safe.of_ok (h : o.Safe E Q) {a : α} (hr : o.result = .ok a) : Q a o.patcher o.context := by
  unfold Safe at h
  rwa [hr] at h

theorem Outcome.Safe.weaken {E' : PatchError → Prop} (h : o.Safe E Q) (hE : ∀ e, E e → E' e) : o.Safe E' Q := by
  unfold Safe at h ⊢
  cases hr : o.result with
  | ok a =>
    rw [hr] at h
    exact h
  | error e =>
    rw [hr] at h
    exact hE e h

theorem Outcome.Safe.advance {o : Outcome γ κ Unit} {phase : Phase} {Q : Unit → Patcher κ → γ → Prop}
    (h : o.Safe E fun a p g => Q a (p.withPhase phase) g) : (Patcher.advance phase o).Safe E Q := by
  obtain ⟨result, p, g⟩ := o
  cases result with
  | ok a => exact h
  | error e => exact h

namespace Script

variable {callee : Callee γ κ} {p : Patcher κ} {g : γ}

/-- The script, run on the patcher and the context, ends so, or with an error in `E`. -/
def Safe (E : PatchError → Prop) (callee : Call → Patcher κ → γ → Outcome γ κ Unit) (s : Script γ κ α)
    (p : Patcher κ) (g : γ) (Q : α → Patcher κ → γ → Prop) : Prop :=
  (s.run callee p g).Safe E Q

namespace Safe

variable {s : Script γ κ α} {Q : α → Patcher κ → γ → Prop}

theorem mono {R : α → Patcher κ → γ → Prop} (h : Safe E callee s p g Q) (hQ : ∀ a p g, Q a p g → R a p g) :
    Safe E callee s p g R := Outcome.Safe.mono h hQ

theorem and {R : α → Patcher κ → γ → Prop} (h : Safe E callee s p g Q) (h' : Safe E callee s p g R) :
    Safe E callee s p g fun a p g => Q a p g ∧ R a p g := by
  unfold Safe Outcome.Safe at *
  cases hr : (s.run callee p g).result with
  | ok a =>
    rw [hr] at h h'
    exact ⟨h, h'⟩
  | error e =>
    rw [hr] at h
    exact h

theorem bind {f : α → Script γ κ β} {R : β → Patcher κ → γ → Prop} (h : Safe E callee s p g Q)
    (hf : ∀ a p' g', Q a p' g' → Safe E callee (f a) p' g' R) : Safe E callee (s >>= f) p g R := by
  unfold Safe at *
  rw [run_bind, Outcome.andThen]
  unfold Outcome.Safe at h
  cases hr : (s.run callee p g).result with
  | ok a =>
    rw [hr] at h
    exact hf _ _ _ h
  | error e =>
    rw [hr] at h
    exact h

/-- A loop that keeps what it needs at every turn. -/
theorem forM {xs : List α} {f : α → Script γ κ PUnit} {I : List α → Patcher κ → γ → Prop} (h : I xs p g)
    (hstep : ∀ x rest p' g', I (x :: rest) p' g' → Safe E callee (f x) p' g' fun _ => I rest) :
    Safe E callee (xs.forM f) p g fun _ => I [] := by
  induction xs generalizing p g with
  | nil => exact h
  | cons x xs ih => exact (hstep x xs p g h).bind fun _ _ _ h' => ih h'

theorem step {callee : Callee Context κ} {g : Context} {m : Patching α}
    {Q : α → Patcher κ → Context → Prop} (h : Patching.Safe E m g fun a g' => Q a p g') :
    Safe E callee (liftM m) p g Q := by
  have hrun : (liftM m : Script Context κ α).run callee p g = ⟨(m g).1, p, (m g).2⟩ := run_lift _ _ _
  unfold Safe Outcome.Safe
  rw [hrun]
  unfold Patching.Safe at h
  generalize m g = r at h
  obtain ⟨r, g'⟩ := r
  cases r with
  | ok a => exact h
  | error e => exact h

/-- A call of the part at a place; where there is none, nothing is done. -/
theorem callPart {i : Nat} {c : Call} {Q : Unit → Patcher κ → γ → Prop}
    (hnone : p.parts[i]? = none → Q () p g)
    (h : ∀ q, p.parts[i]? = some q →
      (callee c q g).Safe E fun _ q' g' => Q () (p.withParts (p.parts.set i q')) g') :
    Safe E callee (Script.callPart i c) p g Q := by
  unfold Safe
  cases hi : p.parts[i]? with
  | none =>
    simp only [Script.callPart, run, hi]
    exact hnone hi
  | some q =>
    have hq := h q hi
    rw [run_callPart hi]
    unfold Outcome.Safe at hq ⊢
    cases hr : (callee c q g).result with
    | ok a =>
      rw [hr] at hq
      exact hq
    | error e =>
      rw [hr] at hq
      exact hq

/-- Calls of parts, one after the other, each of which makes `S` out of `R`. -/
theorem forM_callPart {δ : Type} {c : Call} {R S : δ → Patcher κ → Prop} {I : List δ → γ → Prop}
    (hcallee : ∀ xs x q g, R x q → I xs g → (callee c q g).Safe E fun _ q' g' => S x q' ∧ I (xs ++ [x]) g')
    {xs ys : List δ} {before todo : List (Patcher κ)} (hp : p.parts = before ++ todo)
    (hbefore : List.Forall₂ S xs before) (htodo : List.Forall₂ R ys todo) (hg : I xs g) :
    Safe E callee ((List.range' before.length todo.length).forM fun i => (Script.callPart i c : Script γ κ Unit)) p g
      fun _ p' g' => p'.site = p.site ∧ p'.construct = p.construct ∧ List.Forall₂ S (xs ++ ys) p'.parts ∧
        I (xs ++ ys) g' := by
  induction htodo generalizing xs before p g with
  | nil =>
    refine ⟨rfl, rfl, ?_, by rwa [append_nil]⟩
    show List.Forall₂ S (xs ++ []) p.parts
    rw [hp, append_nil, append_nil]
    exact hbefore
  | @cons y q ys todo hq _ ih =>
    have hget : p.parts[before.length]? = some q := by simp [hp]
    rw [length_cons, range'_succ]
    refine bind (Q := fun _ p' g' => (p'.site = p.site ∧ p'.construct = p.construct) ∧
      (∃ q', p'.parts = (before ++ [q']) ++ todo ∧ S y q') ∧ I (xs ++ [y]) g') ?_ ?_
    · refine callPart (fun hnone => by simp [hget] at hnone) fun q' hq' => ?_
      cases hget.symm.trans hq'
      refine (hcallee xs y q g hq hg).mono fun _ q'' g' h => ⟨?_, ⟨q'', by simp [hp], h.1⟩, h.2⟩
      cases p
      exact ⟨rfl, rfl⟩
    · rintro _ p' g' ⟨⟨hsite, hconstruct⟩, ⟨q', hparts, hq'⟩, hg'⟩
      have hrest := ih hparts (rel_append hbefore (.cons hq' .nil)) hg'
      rw [length_append, length_singleton, append_assoc] at hrest
      exact hrest.mono fun _ _ _ h => ⟨h.1.trans hsite, h.2.1.trans hconstruct, h.2.2⟩

/-- Preparing is the work of the construct, then that of the parts, and then what the construct does in the end. -/
theorem prepareScript {h : Hooks γ κ} {δ : Type} {P : Site → κ → Prop} {R S : δ → Patcher κ → Prop} {I : γ → Prop}
    {xs : List δ} {Q : Unit → Patcher κ → γ → Prop} (hlength : xs.length = p.parts.length)
    (hprepare : Safe E callee (h.prepare p) p g fun _ p' g' =>
      P p'.site p'.construct ∧ List.Forall₂ R xs p'.parts ∧ I g')
    (hcallee : ∀ x q g, R x q → I g → (callee .prepare q g).Safe E fun _ q' g' => S x q' ∧ I g')
    (hfinish : ∀ p' g', P p'.site p'.construct → List.Forall₂ S xs p'.parts → I g' →
      Safe E callee (h.finish p') p' g' Q) : Safe E callee (p.prepareScript h) p g Q := by
  refine bind hprepare ?_
  rintro _ p₁ g₁ ⟨hP, hparts, hg₁⟩
  rw [← hlength, hparts.length_eq, range_eq_range']
  refine bind (forM_callPart (I := fun _ => I) (fun _ => hcallee) (nil_append _).symm .nil hparts hg₁) ?_
  rintro _ p₂ g₂ ⟨hsite, hconstruct, hparts, hg₂⟩
  exact hfinish p₂ g₂ (by rwa [hsite, hconstruct]) hparts hg₂

end Safe

end Script

/-! ## Assembling -/

namespace Assembly

variable {ps : List (Patcher κ)}

/-- The assembly ends so, or with an error in `E`. -/
def Safe (E : PatchError → Prop) (m : Assembly κ α) (ps : List (Patcher κ))
    (Q : α → List (Patcher κ) → Prop) : Prop :=
  match m ps with
  | .ok (a, ps') => Q a ps'
  | .error e => E e

namespace Safe

variable {Q : α → List (Patcher κ) → Prop} {f : α → Assembly κ β} {I : List α → List β → List (Patcher κ) → Prop}

theorem pure {a : α} (h : Q a ps) : Safe E (Pure.pure a) ps Q := h

theorem bind {m : Assembly κ α} {R : β → List (Patcher κ) → Prop} (h : Safe E m ps Q)
    (hf : ∀ a ps', Q a ps' → Safe E (f a) ps' R) : Safe E (m >>= f) ps R := by
  have hrun : (m >>= f) ps = (m ps).bind fun r => f r.1 r.2 := rfl
  unfold Safe at h ⊢
  rw [hrun]
  generalize m ps = r at h
  cases r with
  | ok r => exact hf r.1 r.2 h
  | error e => exact h

theorem need {o : Option α} {cause : Obstacle} {range : Span} (hE : E (.obstacle cause range))
    (h : ∀ a, o = some a → Q a ps) : Safe E (Assembly.need cause range o) ps Q := by
  cases o with
  | none => exact hE
  | some a => exact h a rfl

/-- A walk over a list, with what holds of the part behind it. -/
theorem mapM {xs : List α} (h : I [] [] ps)
    (hstep : ∀ x ∈ xs, ∀ done bs ps', I done bs ps' → Safe E (f x) ps' fun b ps'' => I (done ++ [x]) (bs ++ [b]) ps'') :
    Safe E (xs.mapM f) ps fun bs => I xs bs := by
  have hgen : ∀ (rest done : List α) (bs : List β) (ps : List (Patcher κ)), (∀ x ∈ rest, x ∈ xs) →
      I done bs ps → Safe E (rest.mapM f) ps fun bs' => I (done ++ rest) (bs ++ bs') := by
    intro rest
    induction rest with
    | nil =>
      intro done bs ps _ h
      rw [mapM_nil]
      apply pure
      simpa using h
    | cons x rest ih =>
      intro done bs ps hrest h
      obtain ⟨hx, hrest⟩ := forall_mem_cons.1 hrest
      rw [mapM_cons]
      refine (hstep x hx done bs ps h).bind fun b ps' h' => ?_
      refine (ih _ _ ps' hrest h').bind fun bs' ps'' h'' => ?_
      apply pure
      simpa using h''
  exact hgen xs [] [] ps (fun _ h => h) h

end Safe

end Assembly

end Respell
