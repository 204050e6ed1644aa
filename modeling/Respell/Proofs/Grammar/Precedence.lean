import Respell.Proofs.Grammar.Rules
import Respell.Proofs.Grammar.Signs

/-!
Operators bind by their powers.

In a forest that is `Ranked` the left operand of a binary expression binds at least as tight as its operator and the
right one tighter.  That the rules read such forests needs more than a trait: what is left to the right of an operand
decides about it.  So each rule for operators promises, of a reading without a fault, one node and what its operator
is, and `binary` also that no operator ahead binds tighter than its limit (`Climbs`).  It is this last promise that
makes the next operator of a loop one that the left operand can take.

Without depth a rule reads nothing and reports nothing.  Where there is enough depth that does not matter, so the
promises are made of readers that report a fault then.
-/

namespace Respell

/-! ## Powers -/

/-- How tight an operator binds that is spelled with signs. -/
def signPrecedence (spelling : String) : Nat :=
  if spelling = "||" then 1
  else if spelling = "&&" then 2
  else if spelling = "==" ∨ spelling = "!=" then 3
  else if spelling = "<" ∨ spelling = ">" ∨ spelling = "<=" ∨ spelling = ">=" then 4
  else if spelling = "+" ∨ spelling = "-" then 5
  else 6

/-- How tight an operator binds. -/
def precedence (k : Kind) (spelling : String) : Nat :=
  match k with
  | .orKw => 1
  | .andKw => 2
  | .isKw | .isntKw => 3
  | _ => signPrecedence spelling

/-- How tight the operator at a place in the stream binds. -/
def powerAt (text : List Char) (tokens : List Token) (i : Nat) : Nat :=
  match tokens[i]? with
  | some t => precedence t.kind (Text.slice text t.range)
  | none => 6

/-! ## Ranked forests -/

namespace Forest

variable {α : Type} (kindOf : α → Kind) (power : Nat → Nat)

/-- The operator of a binary expression with this inside. -/
def operator? (a : α) : Forest α → Option Nat
  | .node _ _ (.token i (.node _ _ .nil)) => if kindOf a = .binaryExpr then some i else none
  | _ => none

/-- What stands in a binary or prefix expression. -/
structure Ordered (a : α) (inside : Forest α) : Prop where
  binary : kindOf a = .binaryExpr → ∃ l fl i r fr, inside = .node l fl (.token i (.node r fr .nil)) ∧
    (∀ j ∈ operator? kindOf l fl, power i ≤ power j) ∧ (∀ j ∈ operator? kindOf r fr, power i < power j)
  sign : kindOf a = .prefixExpr → ∃ i r fr, inside = .token i (.node r fr .nil) ∧ kindOf r ≠ .binaryExpr

/-- Every binary or prefix expression has operands that bind tight enough. -/
def Ranked : Forest α → Prop
  | nil => True
  | token _ rest => rest.Ranked
  | node a inside rest => Ordered kindOf power a inside ∧ inside.Ranked ∧ rest.Ranked

variable {kindOf power}

theorem Ranked.append {f g : Forest α} (hf : f.Ranked kindOf power) (hg : g.Ranked kindOf power) :
    (f.append g).Ranked kindOf power := by
  induction f with
  | nil => exact hg
  | token i rest ih => exact ih hf
  | node a inside rest _ ih => exact ⟨hf.1, hf.2.1, ih hf.2.2⟩

theorem operator?_of_ne {a : α} (ha : kindOf a ≠ .binaryExpr) (f : Forest α) : operator? kindOf a f = none := by
  unfold operator?
  split
  · exact if_neg ha
  · rfl

theorem Ordered.of_ne {a : α} {f : Forest α} (hb : kindOf a ≠ .binaryExpr) (hp : kindOf a ≠ .prefixExpr) :
    Ordered kindOf power a f := ⟨fun h => absurd h hb, fun h => absurd h hp⟩

theorem events_injective {f g : Forest Kind} (h : f.events = g.events) : f = g := by
  rw [← ofEvents_events f, h, ofEvents_events]

end Forest

/-! ## Rules -/

namespace Grammar

variable {text : List Char} {tokens : List Token}

theorem operatorPower_eq (spelling : String) : operatorPower spelling = signPrecedence spelling := by
  unfold operatorPower signPrecedence
  split
  case h_11 => simp_all
  all_goals decide

/-- The power that the grammar sees ahead is that of the token there. -/
theorem power?_eq {c : Cursor} (hc : c.Follows text tokens) {p : Nat} (h : power? c = some p) :
    powerAt text tokens c.index = p := by
  have htoken : tokens[c.index]? = c.rest.head? := by rw [hc.rest, List.head?_drop]
  unfold power? Cursor.kind Cursor.spelling at h
  rw [powerAt, htoken, ← hc.text]
  cases hrest : c.rest with
  | nil => simp [hrest] at h
  | cons t rest =>
    simp only [hrest, List.head?_cons, Option.map_some, Option.getD_some, operatorPower_eq] at h ⊢
    split at h
    case h_6 => cases h
    all_goals
      rename_i hk
      rw [hk]
      exact Option.some.inj h

theorem power?_ne_eof {c : Cursor} {p : Nat} (h : power? c = some p) : c.kind ≠ .eof := by
  intro hk
  simp [power?, hk] at h

/-- The operands of the operators among the events bind tight enough, in a reading without faults. -/
def ranked (text : List Char) (tokens : List Token) : Trait text tokens where
  good es _ := ∃ f : Forest Kind, es = f.events ∧ f.Ranked id (powerAt text tokens)
  ifClean := True
  mono h _ := h
  nil := ⟨.nil, rfl, trivial⟩
  token i := ⟨.token i .nil, rfl, trivial⟩
  mul := by
    rintro _ _ _ _ ⟨f, rfl, hf⟩ ⟨g, rfl, hg⟩
    exact ⟨f.append g, by simp, hf.append hg⟩
  ident {i} _ := ⟨.node .ident (.token i .nil) .nil, rfl, .of_ne (by decide) (by decide), trivial, trivial⟩
  wrap := by
    rintro k _ _ hb hp - ⟨f, rfl, hf⟩ -
    exact ⟨.node k f .nil, rfl, .of_ne hb hp, hf, trivial⟩

section Promises

variable (text : List Char) (tokens : List Token)

/-- The piece was read from `c` on; without a fault it is complete and a single node of which `q` holds. -/
structure Operand (q : Kind → Forest Kind → Prop) (c : Cursor) (p : Piece) (c' : Cursor) : Prop where
  passes : Passes (ranked text tokens) c p.events Form.single c'
  complete : c'.faults = c.faults → p.isComplete = true
  single : c'.faults = c.faults → ∃ k f, p.events = (Forest.node k f .nil).events ∧ q k f

/-- The node is not a binary expression. -/
def Atomic (k : Kind) (_ : Forest Kind) : Prop := k ≠ .binaryExpr

/-- The node has no operator that binds as loose as `least`. -/
def Tighter (least : Nat) (k : Kind) (f : Forest Kind) : Prop :=
  ∀ i ∈ f.operator? id k, least < powerAt text tokens i

/-- The operator of the node binds tighter than `least`, and at least as tight as the one ahead. -/
def Ready (least : Nat) (c : Cursor) (k : Kind) (f : Forest Kind) : Prop :=
  ∀ i ∈ f.operator? id k, least < powerAt text tokens i ∧ ∀ p, power? c = some p → p ≤ powerAt text tokens i

/-- An operand after which no operator ahead binds tighter than `least`. -/
structure Limited (least : Nat) (c : Cursor) (p : Piece) (c' : Cursor) : Prop
    extends Operand text tokens (Tighter text tokens least) c p c' where
  ahead : c'.faults = c.faults → ∀ q, power? c' = some q → q ≤ least

/-- What the rules for operators, and those below them, promise. -/
structure Climbs (call : Rule → Parser Piece) : Prop where
  keeps : Keeps (ranked text tokens) call
  primary {c : Cursor} : c.Follows text tokens → Ends (call .primary) c (Operand text tokens Atomic c)
  attachments {c₀ c : Cursor} {left : Completed} : Operand text tokens Atomic c₀ (.node left) c →
    Ends (call (.attachments left)) c (Operand text tokens Atomic c₀)
  attached {c : Cursor} : c.Follows text tokens → Ends (call .attached) c (Operand text tokens Atomic c)
  unary {c : Cursor} : c.Follows text tokens → Ends (call .unary) c (Operand text tokens Atomic c)
  operators {c₀ c : Cursor} {least : Nat} {left : Completed} :
    Operand text tokens (Ready text tokens least c) c₀ (.node left) c →
    Ends (call (.operators least left)) c (Limited text tokens least c₀)
  binary {c : Cursor} {least : Nat} : c.Follows text tokens →
    Ends (call (.binary least)) c (Limited text tokens least c)

end Promises

variable {call : Rule → Parser Piece} {c c₀ c₁ : Cursor} {es : List Event}

namespace Operand

variable {q q' : Kind → Forest Kind → Prop} {p : Piece}

theorem of_faulty (h : Faulty (ranked text tokens) c p.events Form.single c₁) : Operand text tokens q c p c₁ :=
  ⟨h.toPasses, fun hclean => absurd hclean h.fault, fun hclean => absurd hclean h.fault⟩

theorem mono (h : Operand text tokens q c p c₁) (hq : ∀ k f, q k f → q' k f) :
    Operand text tokens q' c p c₁ := by
  refine ⟨h.passes, h.complete, fun hclean => ?_⟩
  obtain ⟨k, f, he, hkf⟩ := h.single hclean
  exact ⟨k, f, he, hq k f hkf⟩

theorem exists_node (h : Operand text tokens q c p c₁) (hclean : c₁.faults = c.faults) :
    ∃ k f, p.events = (Forest.node k f .nil).events ∧ q k f ∧
      (Forest.node k f .nil).Ranked id (powerAt text tokens) := by
  obtain ⟨k, f, he, hkf⟩ := h.single hclean
  obtain ⟨g, hg, hranked⟩ := h.passes.good fun _ => hclean
  obtain rfl := Forest.events_injective (hg.symm.trans he)
  exact ⟨k, f, he, hkf, hranked⟩

theorem node {k : Kind} {n : Completed} (h : c.faults <:+ c₁.faults) (hc : c₁.Follows text tokens)
    (hnode : c₁.faults = c.faults → ∃ f : Forest Kind, es = f.events ∧ f.Ranked id (powerAt text tokens) ∧
      f.Ordered id (powerAt text tokens) k ∧ q k f) (hn : n.events = wrap k es) :
    Operand text tokens q c (.node n) c₁ := by
  refine ⟨⟨hc, h, fun hclean => ?_⟩, fun _ => rfl, fun hclean => ?_⟩
  · obtain ⟨f, rfl, hranked, hordered, -⟩ := hnode (hclean trivial)
    exact ⟨.node k f .nil, hn, hordered, hranked, trivial⟩
  · obtain ⟨f, rfl, -, -, hq⟩ := hnode hclean
    exact ⟨k, f, hn, hq⟩

theorem plain {k : Kind} {l : Language Kind} {n : Completed} (hk : isSimple k = true)
    (h : Passes (ranked text tokens) c es l c₁) (hn : n.events = wrap k es) :
    Operand text tokens Atomic c (.node n) c₁ := by
  have hb : k ≠ .binaryExpr := by rintro rfl; cases hk
  have hp : k ≠ .prefixExpr := by rintro rfl; cases hk
  refine node h.faults h.follows (fun hclean => ?_) hn
  obtain ⟨f, rfl, hranked⟩ := h.good fun _ => hclean
  exact ⟨f, rfl, hranked, .of_ne hb hp, hb⟩

end Operand

namespace Climbs

variable (h : Climbs text tokens call)

include h

theorem readPrimary (hc : c.Follows text tokens) : Ends (Grammar.primary call) c (Operand text tokens Atomic c) := by
  refine (h.keeps.primary hc).mono ?_
  rintro _ c' (⟨k, hk, es, rfl, hes, -⟩ | hfaulty)
  · exact .plain hk hes rfl
  · exact .of_faulty hfaulty

theorem readAttachments {left : Completed} (hleft : Operand text tokens Atomic c₀ (.node left) c) :
    Ends (Grammar.attachments call left) c (Operand text tokens Atomic c₀) := by
  have hpasses : Passes (ranked text tokens) c₀ left Form.nested c :=
    hleft.passes.mono Form.single_le_nested
  refine Ends.get_bind ?_
  split
  · refine (Adds.take _).bare hpasses fun dot c₁ hdot => (Adds.expect _ _ _).bare hdot fun name c₂ hname => ?_
    exact h.attachments (.plain rfl hname (preceded_events _ _ _ _))
  · split
    · refine (h.keeps.adds_sequence _).times hpasses fun arguments c₁ ha => ?_
      exact h.attachments (.plain rfl ha rfl)
    · split
      · refine (Adds.token _).first hpasses.follows fun opening c₁ ho =>
          h.keeps.expression.next ho fun index c₂ hi => ?_
        refine (Adds.expect _ _ _).bare hi fun closing c₃ hall => ?_
        exact h.attachments (.plain rfl (hpasses.append hall) rfl)
      · exact Ends.pure hleft

theorem readAttached (hc : c.Follows text tokens) : Ends (Grammar.attached call) c (Operand text tokens Atomic c) := by
  refine Ends.bind (h.primary hc) fun first c₁ hfirst => ?_
  cases first with
  | node n => exact h.attachments hfirst
  | part w => exact Ends.pure hfirst

theorem readUnary (hc : c.Follows text tokens) : Ends (Grammar.unary call) c (Operand text tokens Atomic c) := by
  refine Ends.get_bind ?_
  split
  · rename_i hsign
    have hne : c.kind ≠ .eof := fun hk => by simp [isSign, hk] at hsign
    have htake : Ends take c fun (w : Written) c' => w = .token c.index ∧
        Passes (ranked text tokens) c w 1 c' := ⟨(ends_take hne).1, Adds.take _ c hc⟩
    refine Ends.bind htake ?_
    rintro _ c₁ ⟨rfl, hc₁⟩
    refine Ends.bind (h.unary hc₁.follows) fun operand c₂ hoperand => Ends.pure ?_
    refine .node (hc₁.faults.trans hoperand.passes.faults) hoperand.passes.follows (fun hclean => ?_) rfl
    obtain ⟨r, fr, he, hr, hranked⟩ := hoperand.exists_node (hc₁.clean hoperand.passes hclean).2
    refine ⟨.token c.index (.node r fr .nil), congrArg (_ :: ·) he, hranked, ⟨?_, fun _ => ⟨_, r, fr, rfl, hr⟩⟩, ?_⟩
    · rintro ⟨⟩
    · exact (by decide : Kind.prefixExpr ≠ .binaryExpr)
  · exact h.attached hc

theorem readOperators {least : Nat} {left : Completed}
    (hleft : Operand text tokens (Ready text tokens least c) c₀ (.node left) c) :
    Ends (Grammar.operators call least left) c (Limited text tokens least c₀) := by
  have hend (hahead : ∀ q, power? c = some q → q ≤ least) : Ends (pure (.node left)) c (Limited text tokens least c₀) :=
    Ends.pure ⟨hleft.mono fun _ _ hready i hi => (hready i hi).1, fun _ => hahead⟩
  refine Ends.get_bind ?_
  split
  · rename_i power hpower
    split
    · rename_i hlt
      have hindex := power?_eq hleft.passes.follows hpower
      have htake : Ends take c fun (w : Written) c' => w = .token c.index ∧ Passes (ranked text tokens) c w 1 c' :=
        ⟨(ends_take (power?_ne_eof hpower)).1, Adds.take _ c hleft.passes.follows⟩
      refine Ends.bind htake ?_
      rintro _ c₁ ⟨rfl, hc₁⟩
      refine Ends.bind (h.binary hc₁.follows) fun right c₂ hright => h.operators ?_
      have hbefore := hleft.passes.mul hc₁
      refine .node (hbefore.faults.trans hright.passes.faults) hright.passes.follows (fun hclean => ?_)
        (preceded_events _ _ _ _)
      obtain ⟨hclean₁, hclean₂⟩ := hbefore.clean hright.passes hclean
      obtain ⟨l, fl, hl, hready, hrankedl⟩ := hleft.exists_node (hleft.passes.clean hc₁ hclean₁).1
      obtain ⟨r, fr, hr, htighter, hrankedr⟩ := hright.exists_node hclean₂
      have hl : left.events = (Forest.node l fl .nil).events := hl
      have hr : right.written.events = (Forest.node r fr .nil).events := hr
      rw [hl, hr]
      refine ⟨.node l fl (.token c.index (.node r fr .nil)), by simp [Forest.events, Written.events], ?_, ?_, ?_⟩
      · exact ⟨hrankedl.1, hrankedl.2.1, hrankedr⟩
      · refine ⟨fun _ => ⟨l, fl, _, r, fr, rfl, fun j hj => ?_, fun j hj => ?_⟩, fun hk => by cases hk⟩
        · -- The left operand was read when no operator ahead was tighter than its own.
          rw [hindex]
          exact (hready j hj).2 power hpower
        · rw [hindex]
          exact htighter j hj
      · rintro i hi
        obtain rfl : c.index = i := by simpa [Forest.operator?] using hi
        rw [hindex]
        exact ⟨hlt, hright.ahead hclean₂⟩
    · rename_i hle
      refine hend fun q hq => ?_
      rw [hpower, Option.some.injEq] at hq
      omega
  · rename_i hnone
    exact hend fun q hq => by cases hnone.symm.trans hq

theorem readBinary {least : Nat} (hc : c.Follows text tokens) :
    Ends (Grammar.binary call least) c (Limited text tokens least c) := by
  refine Ends.bind (h.unary hc) fun left c₁ hleft => ?_
  cases left with
  | node n =>
    refine h.operators (hleft.mono fun k f (hk : id k ≠ .binaryExpr) i hi => ?_)
    rw [Forest.operator?_of_ne hk] at hi
    cases hi
  | part w =>
    have hfault (hclean : c₁.faults = c.faults) : False := Bool.false_ne_true (hleft.complete hclean)
    exact Ends.pure
      ⟨⟨hleft.passes, hleft.complete, fun hclean => (hfault hclean).elim⟩, fun hclean => (hfault hclean).elim⟩

theorem read : Climbs text tokens (read call) where
  keeps r hr := by
    cases r with
    | binary least =>
      exact Adds.goesOn (fun c hc => (h.readBinary hc).mono fun _ _ hp => hp.passes) rfl rfl
    | unary => exact Adds.goesOn (fun c hc => (h.readUnary hc).mono fun _ _ hp => hp.passes) rfl rfl
    | operators _ _ => cases hr
    | _ => exact h.keeps.read rfl
  primary := h.readPrimary
  attachments := h.readAttachments
  attached := h.readAttached
  unary := h.readUnary
  operators := h.readOperators
  binary := h.readBinary

end Climbs

/-- Reports that there is no depth left. -/
def outOfDepth (_ : Rule) : Parser Piece := do
  fault "out of depth"
  return .part .nil

theorem climbs_parseOver (depth : Nat) : Climbs text tokens (parseOver outOfDepth depth) := by
  induction depth with
  | zero =>
    have hfaulty (r : Rule) {c₀ c : Cursor} (hc : c.Follows text tokens) (h : c₀.faults <:+ c.faults) :
        Ends (outOfDepth r) c fun p c' => Faulty (ranked text tokens) c₀ p.events Form.single c' := by
      refine Ends.fault_bind
        (Ends.pure ⟨⟨⟨hc.text, hc.rest⟩, h.trans (List.suffix_cons _ _), fun _ => ⟨.nil, rfl, trivial⟩⟩, ?_⟩)
      intro heq
      have hle := h.length_le
      rw [← heq, Cursor.fault, List.length_cons] at hle
      omega
    have hoperand (r : Rule) {c₀ c : Cursor} {q : Kind → Forest Kind → Prop} (hc : c.Follows text tokens)
        (h : c₀.faults <:+ c.faults) : Ends (outOfDepth r) c (Operand text tokens q c₀) :=
      (hfaulty r hc h).mono fun _ _ hp => .of_faulty hp
    have hlimited (r : Rule) {c₀ c : Cursor} {least : Nat} (hc : c.Follows text tokens)
        (h : c₀.faults <:+ c.faults) : Ends (outOfDepth r) c (Limited text tokens least c₀) :=
      (hfaulty r hc h).mono fun _ _ hp => ⟨.of_faulty hp, fun hclean => absurd hclean hp.fault⟩
    exact {
      keeps := fun r _ c₀ c h => (hfaulty r h.follows h.faults).mono fun _ _ hp => ⟨hp.follows, hp.faults, hp.good⟩
      primary := fun hc => hoperand _ hc (List.suffix_refl _)
      attachments := fun h => hoperand _ h.passes.follows h.passes.faults
      attached := fun hc => hoperand _ hc (List.suffix_refl _)
      unary := fun hc => hoperand _ hc (List.suffix_refl _)
      operators := fun h => hlimited _ h.passes.follows h.passes.faults
      binary := fun hc => hlimited _ hc (List.suffix_refl _) }
  | succ depth ih => exact ih.read

end Grammar

/-! ## Trees -/

theorem Forest.operator?_label (tokens : List Token) {k : Kind} {l : Label} (hl : l.kind = k) (f : Forest Kind)
    (next lastEnd : Nat) : (f.label tokens next lastEnd).forest.operator? Label.kind l = f.operator? id k := by
  subst hl
  cases f with
  | nil => rfl
  | token i rest => rfl
  | node a inside rest =>
    cases rest with
    | nil => rfl
    | node b inside' rest' => rfl
    | token i rest' =>
      cases rest' with
      | nil => rfl
      | token j rest'' => rfl
      | node b inside' rest'' => cases rest'' <;> rfl

theorem Forest.ranked_label {power : Nat → Nat} (tokens : List Token) {f : Forest Kind} (h : f.Ranked id power)
    (next lastEnd : Nat) : (f.label tokens next lastEnd).forest.Ranked Label.kind power := by
  induction f generalizing next lastEnd with
  | nil => trivial
  | token i rest ih => exact ih h _ _
  | node k inside rest ihInside ih =>
    refine ⟨⟨fun hk => ?_, fun hk => ?_⟩, ihInside h.2.1 _ _, ih h.2.2 _ _⟩
    · obtain ⟨l, fl, i, r, fr, rfl, hleft, hright⟩ := h.1.binary hk
      refine ⟨_, _, i, _, _, rfl, fun j hj => hleft j ?_, fun j hj => hright j ?_⟩
      iterate 2 rwa [operator?_label tokens rfl] at hj
    · obtain ⟨i, r, fr, rfl, hr⟩ := h.1.sign hk
      exact ⟨i, _, _, rfl, hr⟩

/-- Without faults, the events of a program have operands that bind tight enough. -/
theorem Grammar.ranked_program {text : List Char} {tokens : List Token} (hreg : Regular tokens)
    (h : (program text tokens).2 = []) : (ranked text tokens).good (program text tokens).1 (Form.one .program) := by
  have hpiece := ((climbs_parseOver (callsPerToken * (tokens.length + 1))).keeps (.statements .eof) rfl).adds rfl
    rfl { text, rest := tokens } ⟨rfl, rfl⟩
  rw [Ends, parseOver_eq hreg text] at hpiece
  rw [program_eq_root] at h ⊢
  exact (ranked text tokens).program (hpiece.good fun _ => List.reverse_eq_nil_iff.1 h)

/-- Without faults, the operators of a text bind by their powers. -/
theorem Parse.ranked_ofText {text : List Char} (h : (Parse.ofText text).errors = []) :
    (Parse.ofText text).tree.root.toForest.Ranked Label.kind
      (powerAt (Parse.ofText text).tree.text (Parse.ofText text).tree.tokens) := by
  obtain ⟨f, hf⟩ := Parse.exists_block text
  obtain ⟨htext, htokens, hroot⟩ := hf.tree_eq
  obtain ⟨g, hg, hranked⟩ := Grammar.ranked_program (regular_ofText text) h
  obtain rfl := Forest.events_injective (hf.events.symm.trans hg)
  rw [htext, htokens, hroot]
  exact Forest.ranked_label _ hranked 0 0

end Respell
