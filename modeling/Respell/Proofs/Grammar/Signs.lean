import Respell.Proofs.Grammar.Traits
import Respell.Proofs.Tree.Items
import Respell.Proofs.Tree.Parsed

/-!
Operators in front of their operands, and names.

The grammar takes an operator spelled with signs for a prefix only if it is `-` or `+`.  The kind of the token does not
tell, so this is no matter of rows.  It is read off the events: an expression of this form starts with a sign, and in
the same way a name starts with the token that it is (`Signed`).  This is a trait that every rule keeps, so it holds of
every tree (`Parse.signs_ofText`, `Parse.named_ofText`).
-/

namespace Respell

/-- An operator among the tokens at this place is `-` or `+`. -/
def IsSign (text : List Char) (tokens : List Token) (i : Nat) : Prop :=
  ∀ t, tokens[i]? = some t → t.kind = .operator → Text.slice text t.range = "-" ∨ Text.slice text t.range = "+"

/-- What a node of this kind may start with, if it matters. -/
def Leads (text : List Char) (tokens : List Token) (k : Kind) (i : Nat) : Prop :=
  (k = .prefixExpr → IsSign text tokens i) ∧ (k = .ident → kindAt tokens i = .name)

/-! ## Events -/

/-- Every prefix expression and every name starts with a token that is `ok` for it. -/
def Signed (ok : Kind → Nat → Prop) : List Event → Prop
  | [] => True
  | .start k :: es => (k = .prefixExpr ∨ k = .ident → ∃ i rest, es = .token i :: rest ∧ ok k i) ∧ Signed ok es
  | .token _ :: es | .finish :: es => Signed ok es

namespace Signed

variable {ok : Kind → Nat → Prop} {es es' : List Event}

theorem append (h : Signed ok es) (h' : Signed ok es') : Signed ok (es ++ es') := by
  induction es with
  | nil => exact h'
  | cons e es ih =>
    cases e with
    | start k =>
      refine ⟨fun hk => ?_, ih h.2⟩
      obtain ⟨i, rest, rfl, hi⟩ := h.1 hk
      exact ⟨i, rest ++ es', rfl, hi⟩
    | token i => exact ih h
    | finish => exact ih h

/-- What stands in a node is signed, and so is what follows it. -/
theorem of_append (h : Signed ok (es ++ .finish :: es')) : Signed ok es ∧ Signed ok es' := by
  induction es with
  | nil => exact ⟨trivial, h⟩
  | cons e es ih =>
    cases e with
    | start k =>
      obtain ⟨hes, hes'⟩ := ih h.2
      refine ⟨⟨fun hk => ?_, hes⟩, hes'⟩
      obtain ⟨i, rest, heq, hi⟩ := h.1 hk
      cases es with
      | nil => cases heq
      | cons e es =>
        cases heq
        exact ⟨i, es, rfl, hi⟩
    | token i => exact ih h
    | finish => exact ih h

theorem wrap {k : Kind} (hp : k ≠ .prefixExpr) (hn : k ≠ .ident) (h : Signed ok es) : Signed ok (Grammar.wrap k es) :=
  ⟨fun heq => (heq.elim hp hn).elim, h.append trivial⟩

end Signed

/-! ## Rules -/

namespace Grammar

variable {text : List Char} {tokens : List Token}

/-- The prefix expressions and the names among the events start as they should. -/
def signs (text : List Char) (tokens : List Token) : Trait text tokens where
  good es _ := Signed (Leads text tokens) es
  ifClean := False
  mono h _ := h
  nil := trivial
  token _ := trivial
  mul := Signed.append
  ident hname := ⟨fun _ => ⟨_, _, rfl, ⟨(absurd · (by decide)), fun _ => hname⟩⟩, trivial⟩
  wrap _ hp hn h _ := h.wrap hp hn

/-- A sign is looked at before it is taken. -/
theorem ends_take_sign {c : Cursor} (hc : c.Follows text tokens) (hsign : isSign c = true) :
    Ends take c fun w _ => ∃ i, w = .token i ∧ IsSign text tokens i := by
  unfold isSign Cursor.kind Cursor.spelling at hsign
  unfold Ends take
  cases hrest : c.rest with
  | nil => simp [hrest] at hsign
  | cons t rest =>
    have ht : tokens[c.index]? = some t := by
      rw [← List.head?_drop, ← hc.rest, hrest]
      rfl
    rw [hrest, hc.text] at hsign
    have hne : t.kind ≠ .eof := by
      intro heof
      simp [heof] at hsign
    simp only [hne, if_false]
    refine ⟨c.index, rfl, fun u hu hk => ?_⟩
    obtain rfl : t = u := Option.some.inj (ht.symm.trans hu)
    simpa [hk] using hsign

theorem signs_program (text : List Char) (tokens : List Token) :
    Signed (Leads text tokens) (program text tokens).1 := by
  refine good_program (T := signs text tokens) id (fun h _ => h.wrap (by decide) (by decide)) fun call h c hc =>
    Ends.get_bind ?_
  split
  · rename_i hsign
    have htake : Ends take c fun (w : Written) c' => Passes (signs text tokens) c w Form.nested c' ∧
        ∃ i, w = .token i ∧ IsSign text tokens i := ⟨Adds.token _ c hc, ends_take_sign hc hsign⟩
    refine Ends.bind htake ?_
    rintro _ c' ⟨hc', i, rfl, hi⟩
    refine (((h .unary).adds rfl rfl).mono Form.single_le_nested).next hc' fun operand c'' hall => Ends.pure ?_
    refine ⟨hall.follows, hall.faults, fun hclean => ⟨fun _ => ?_, (hall.good hclean).append trivial⟩⟩
    exact ⟨i, _, rfl, ⟨fun _ => hi, (absurd · (by decide))⟩⟩
  · exact (h .attached).adds rfl rfl c hc

end Grammar

/-! ## Trees -/

/-- The nodes in a forest with signed events start with their tokens. -/
theorem Forest.signs_label {ok : Kind → Nat → Prop} {tokens : List Token} {f : Forest Kind} (h : Signed ok f.events)
    (next lastEnd : Nat) : ∀ d ∈ (f.label tokens next lastEnd).forest.descendants,
      d.kind = .prefixExpr ∨ d.kind = .ident → ∃ i rest, d.items = .token i :: rest ∧ ok d.kind i := by
  induction f generalizing next lastEnd with
  | nil => exact nofun
  | token i rest ih => exact ih h _ _
  | node k inside rest ihInside ih =>
    obtain ⟨hinside, hrest⟩ := h.2.of_append
    intro d hd hk
    rcases List.mem_cons.1 hd with rfl | hd
    · obtain ⟨i, _, heq, hi⟩ := h.1 hk
      cases inside with
      | nil => cases heq
      | token j more =>
        cases heq
        exact ⟨i, _, rfl, hi⟩
      | node l inner more => cases heq
    · rcases List.mem_append.1 hd with hd | hd
      · exact ihInside hinside _ _ d hd hk
      · exact ih hrest _ _ d hd hk

/-- Operators in front of their operands are signs. -/
def Node.Signs (tree : Tree) (n : Node) : Prop :=
  ∀ d ∈ n.descendants, d.kind = .prefixExpr → ∃ i rest, d.items = .token i :: rest ∧ IsSign tree.text tree.tokens i

theorem Node.Signs.descendant {tree : Tree} {n d : Node} (h : n.Signs tree) (hd : d ∈ n.descendants) : d.Signs tree :=
  fun c hc => h c (Node.descendants_trans hd hc)

theorem Parse.leads_ofText {text : List Char} {d : Node} (hd : d ∈ (Parse.ofText text).tree.root.descendants)
    (hk : d.kind = .prefixExpr ∨ d.kind = .ident) :
    ∃ i rest, d.items = .token i :: rest ∧ Leads text (Lexed.ofText text).tokens d.kind i := by
  obtain ⟨f, hf⟩ := Parse.exists_block text
  have hsigned := Grammar.signs_program text (Lexed.ofText text).tokens
  rw [hf.events] at hsigned
  unfold Node.descendants at hd
  rw [hf.tree_eq.2.2] at hd
  exact Forest.signs_label hsigned 0 0 d hd hk

theorem Parse.signs_ofText (text : List Char) : (Parse.ofText text).tree.root.Signs (Parse.ofText text).tree := by
  intro d hd hk
  obtain ⟨_, hf⟩ := Parse.exists_block text
  obtain ⟨htext, htokens, -⟩ := hf.tree_eq
  obtain ⟨i, rest, hitems, hlead⟩ := Parse.leads_ofText hd (Or.inl hk)
  rw [htext, htokens]
  exact ⟨i, rest, hitems, hlead.1 hk⟩

/-- Every name starts with the token that it is. -/
theorem Parse.named_ofText {text : List Char} {d : Node} (hd : d ∈ (Parse.ofText text).tree.root.descendants)
    (hk : d.kind = .ident) : ∃ i rest, d.items = .token i :: rest ∧ kindAt (Lexed.ofText text).tokens i = .name := by
  obtain ⟨i, rest, hitems, hlead⟩ := Parse.leads_ofText hd (Or.inr hk)
  exact ⟨i, rest, hitems, hlead.2 hk⟩

end Respell
