import Respell.Proofs.Grammar.Drafting
import Respell.Proofs.Grammar.Production

/-!
Code in front of nodes without code.

A node without code stands where the last code before it ended.  It is inside the node around it as long
as that code is: every node that has code and a child without code has code in front of the child.  A
rule sees to that by starting what it reads with the token ahead, if that is code.
-/

namespace Respell

/-- A walk comes to a token before it leaves a node. -/
def reachesToken : List Event → Bool
  | .start _ :: es => reachesToken es
  | .token _ :: _ => true
  | _ => false

theorem reachesToken_append {es : List Event} (h : reachesToken es = true) (es' : List Event) :
    reachesToken (es ++ es') = true := by
  induction es with
  | nil => cases h
  | cons e es ih =>
    cases e with
    | start k => exact ih h
    | token i => rfl
    | finish => cases h

/-- What follows a finish event does not count. -/
theorem reachesToken_finish (es es' : List Event) : reachesToken (es ++ .finish :: es') = reachesToken es := by
  induction es with
  | nil => rfl
  | cons e es ih =>
    cases e with
    | start k => exact ih
    | token i => rfl
    | finish => rfl

theorem reachesToken_wrap {es : List Event} (h : reachesToken es = true) (k : Kind) :
    reachesToken (Grammar.wrap k es) = true := reachesToken_append h _

namespace Forest

section Leading

variable {α : Type} (kinds : Nat → Kind)

/-- Code stands in front of the nodes without code, if there is any. -/
def CodeFirst : Forest α → Prop
  | nil => True
  | token i rest => (kinds i).isLayout = false ∨ rest.CodeFirst
  | node _ inside rest =>
    (∃ i ∈ inside.tokens, (kinds i).isLayout = false) ∨ ∀ i ∈ rest.tokens, (kinds i).isLayout = true

/-- Every node of the forest has its code in front of its nodes without code. -/
def Anchored : Forest α → Prop
  | nil => True
  | token _ rest => rest.Anchored
  | node _ inside rest => inside.CodeFirst kinds ∧ inside.Anchored ∧ rest.Anchored

end Leading

variable {kinds : Nat → Kind}

@[simp] theorem anchored_append {α : Type} (f g : Forest α) :
    (f.append g).Anchored kinds ↔ f.Anchored kinds ∧ g.Anchored kinds := by
  induction f with
  | nil => simp [Anchored]
  | token i rest ih => simp [append, Anchored, ih]
  | node a inside rest _ ih => simp [append, Anchored, ih, and_assoc]

theorem codeFirst_of_layout {α : Type} {f : Forest α} (h : ∀ i ∈ f.tokens, (kinds i).isLayout = true) :
    f.CodeFirst kinds := by
  induction f with
  | nil => trivial
  | token i rest ih => exact Or.inr (ih fun j hj => h j (List.mem_cons_of_mem _ hj))
  | node a inside rest _ _ => exact Or.inr fun i hi => h i (List.mem_append_right _ hi)

/-- The first token of a walk that comes to one. -/
theorem exists_head_of_reachesToken {f : Forest Kind} (h : reachesToken f.events = true) :
    ∃ i is, f.tokens = i :: is := by
  induction f with
  | nil => cases h
  | token i rest _ => exact ⟨i, _, rfl⟩
  | node k inside rest ihInside _ =>
    rw [events, reachesToken, reachesToken_finish] at h
    obtain ⟨i, is, hi⟩ := ihInside h
    exact ⟨i, is ++ rest.tokens, by rw [tokens, hi, List.cons_append]⟩

/-- A walk that comes to a token first, and to code with it. -/
theorem codeFirst_of_reachesToken {f : Forest Kind} (h : reachesToken f.events = true)
    (hcode : ∀ i ∈ f.tokens.head?, (kinds i).isLayout = false) : f.CodeFirst kinds := by
  cases f with
  | nil => trivial
  | token i rest => exact Or.inl (hcode i rfl)
  | node k inside rest =>
    rw [events, reachesToken, reachesToken_finish] at h
    obtain ⟨i, is, hi⟩ := exists_head_of_reachesToken h
    refine Or.inl ⟨i, hi ▸ List.mem_cons_self, hcode i ?_⟩
    rw [tokens, hi]
    rfl

end Forest

end Respell
