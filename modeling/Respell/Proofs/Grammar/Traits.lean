import Respell.Proofs.Grammar.Stream

/-!
Properties of events that all rules keep.

A text with faults has trees whose rows no production allows, but some rows are kept even there: a name has no child
nodes, a function has at most its parameters and a body, in this order, and no node but the root is a program.  `Form`
names these rows.

Most rules only put pieces side by side and nodes around them, and the nodes get rows of their kinds.  A property of
events that is kept by both (`Trait`) is then kept by these rules whatever else it says, if the rules that they call
keep it (`Keeps.read`).  Only the rules for operators are left: `unary`, `binary` and `operators` put nodes around
their pieces about which a trait may say more.

A trait may be asked of every reading, or only of readings without a fault.
-/

namespace Respell

open List Syntax

/-! ## Rows of child nodes -/

namespace Form

/-- No node is a program. -/
def nested : Language Kind := {ks | .program ∉ ks}

/-- At most one node. -/
def single : Language Kind := {ks | .program ∉ ks ∧ ks.length ≤ 1}

/-- One node of this kind. -/
def one (k : Kind) : Language Kind := {ks | ks = [k]}

/-- At most one node, of this kind. -/
def atMost (k : Kind) : Language Kind := 1 + one k

/-- What a parameter binds. -/
def name : Language Kind := {ks | ∃ k, isName k = true ∧ ks = [k]}

/-- Parameters, and what was found in their place. -/
def parameters : Language Kind := {ks | ∀ k ∈ ks, isParameter k = true ∨ k = .error}

/-- The rows of child nodes that a node of this kind may have. -/
def ofKind : Kind → Language Kind
  | .ident | .this | .thisMember | .error => 1
  | .function => atMost .paramList * atMost .block
  | .paramList => parameters
  | .defaultParam => name * single
  | .assign | .existsAssign => single * single
  | _ => nested

theorem one_le_nested : 1 ≤ nested := by
  rintro _ rfl
  exact not_mem_nil

theorem single_le_nested : single ≤ nested := fun _ h => h.1

theorem one_le_single : 1 ≤ single := by
  rintro _ rfl
  exact ⟨not_mem_nil, Nat.zero_le 1⟩

theorem node_le_single {k : Kind} (hk : k ≠ .program) : one k ≤ single := by
  rintro _ rfl
  exact ⟨by simpa using hk.symm, Nat.le_refl 1⟩

theorem atMost_le_single {k : Kind} (hk : k ≠ .program) : atMost k ≤ single :=
  sup_le one_le_single (node_le_single hk)

theorem name_le_single : name ≤ single := by
  rintro _ ⟨k, hk, rfl⟩
  exact node_le_single (by rintro rfl; cases hk) rfl

theorem parameters_le_nested : parameters ≤ nested := by
  intro ks h hmem
  rcases h _ hmem with h | h <;> cases h

theorem nested_mul_nested : nested * nested ≤ nested := by
  rintro _ ⟨ks, hks, ks', hks', rfl⟩
  exact fun hmem => (mem_append.1 hmem).elim hks hks'

theorem mul_le_nested {l m : Language Kind} (hl : l ≤ nested) (hm : m ≤ nested) : l * m ≤ nested :=
  le_trans (mul_le_mul' hl hm) nested_mul_nested

/-- No node but the root is a program. -/
theorem ofKind_le_nested (k : Kind) : ofKind k ≤ nested := by
  unfold ofKind
  split
  iterate 4 exact one_le_nested
  · exact mul_le_nested (le_trans (atMost_le_single (by decide)) single_le_nested)
      (le_trans (atMost_le_single (by decide)) single_le_nested)
  · exact parameters_le_nested
  · exact mul_le_nested (le_trans name_le_single single_le_nested) single_le_nested
  iterate 2 exact mul_le_nested single_le_nested single_le_nested
  · exact le_refl _

theorem one_le_name {k : Kind} (hk : isName k = true) : one k ≤ name := by
  rintro _ rfl
  exact ⟨k, hk, rfl⟩

theorem name_le_parameters : name ≤ parameters := by
  rintro _ ⟨k, hk, rfl⟩
  refine forall_mem_singleton.2 (Or.inl ?_)
  unfold isParameter
  split
  · rfl
  · exact hk

end Form

namespace Grammar

open Form

/-- The rows that the members of a sequence make. -/
def Sequence.form : Sequence → Language Kind
  | .parameters => Form.parameters
  | _ => nested

theorem Sequence.form_le_nested (s : Sequence) : s.form ≤ nested := by
  cases s with
  | parameters => exact parameters_le_nested
  | arguments | elements => exact le_refl _

theorem Sequence.form_mul (s : Sequence) : s.form * s.form ≤ s.form := by
  cases s with
  | parameters =>
    rintro _ ⟨ks, hks, ks', hks', rfl⟩
    exact forall_mem_append.2 ⟨hks, hks'⟩
  | arguments | elements => exact nested_mul_nested

theorem Sequence.one_le_form (s : Sequence) : 1 ≤ s.form := by
  cases s with
  | parameters =>
    rintro _ rfl
    exact fun k hk => absurd hk not_mem_nil
  | arguments | elements => exact one_le_nested

theorem Sequence.error_le_form (s : Sequence) : one .error ≤ s.form := by
  cases s with
  | parameters =>
    rintro _ rfl
    exact forall_mem_singleton.2 (Or.inr rfl)
  | arguments | elements => exact le_trans (node_le_single (by decide)) single_le_nested

/-! ## Readings -/

/-- A property of events that are read along a stream and make a row of child nodes.  It is kept where pieces are put
side by side, and where a node is put around a row of its kind, unless it is that of an operator.  A name is put around
a token that is one.  If `ifClean`, the property is asked only of what is read without a fault. -/
structure Trait (text : List Char) (tokens : List Token) where
  good : List Event → Language Kind → Prop
  ifClean : Prop
  mono {es : List Event} {l l' : Language Kind} : good es l → l ≤ l' → good es l'
  nil : good [] 1
  token (i : Nat) : good [.token i] 1
  mul {es es' : List Event} {l l' : Language Kind} : good es l → good es' l' → good (es ++ es') (l * l')
  ident {i : Nat} : kindAt tokens i = .name → good (wrap .ident [.token i]) (one .ident)
  wrap {k : Kind} {es : List Event} {l : Language Kind} : k ≠ .binaryExpr → k ≠ .prefixExpr → k ≠ .ident →
    good es l → l ≤ ofKind k → good (wrap k es) (one k)

theorem Trait.program {text : List Char} {tokens : List Token} (T : Trait text tokens) {es : List Event}
    (h : T.good es nested) : T.good (Grammar.wrap .program (Grammar.wrap .block es)) (one .program) := by
  have hblock := T.wrap (k := .block) (by decide) (by decide) (by decide) h (le_refl _)
  exact T.wrap (by decide) (by decide) (by decide) hblock (le_trans (node_le_single (by decide)) single_le_nested)

/-- A node below the root that takes no operator. -/
def isSimple : Kind → Bool
  | .binaryExpr | .prefixExpr | .program => false
  | _ => true

/-- A simple node that is put around any row of its kind. -/
def isPlain (k : Kind) : Bool := isSimple k && k != .ident

theorem one_le_single_of_isSimple {k : Kind} (hk : isSimple k = true) : one k ≤ single :=
  node_le_single (by rintro rfl; cases hk)

/-- What lies ahead is the stream from the index on. -/
structure Cursor.Follows (text : List Char) (tokens : List Token) (c : Cursor) : Prop where
  text : c.text = text
  rest : c.rest = tokens.drop c.index

section

variable {text : List Char} {tokens : List Token} (T : Trait text tokens)

/-- Events with the trait were read along the stream, from `c` to `c'`, and no fault was taken back. -/
structure Passes (c : Cursor) (es : List Event) (l : Language Kind) (c' : Cursor) : Prop where
  follows : c'.Follows text tokens
  faults : c.faults <:+ c'.faults
  good : (T.ifClean → c'.faults = c.faults) → T.good es l

/-- The parser reads events with the trait, wherever it starts. -/
def Adds {α : Type} (m : Parser α) (events : α → List Event) (l : Language Kind) : Prop :=
  ∀ c, c.Follows text tokens → Ends m c fun a c' => Passes T c (events a) l c'

/-- The piece is a node, and has the trait as well as what it is put around. -/
def Finished (k : Kind) (c : Cursor) (p : Piece) (c' : Cursor) : Prop :=
  ∃ w : Written, p = done k w ∧ Passes T c w (ofKind k) c' ∧ Passes T c (wrap k w) (one k) c'

/-- Something was read, with a fault. -/
structure Faulty (c : Cursor) (es : List Event) (l : Language Kind) (c' : Cursor) : Prop
    extends Passes T c es l c' where
  fault : c'.faults ≠ c.faults

end

variable {text : List Char} {tokens : List Token} {T : Trait text tokens} {c c₀ c₁ c₂ : Cursor} {es es' : List Event}
  {l l' : Language Kind} {k : Kind}

namespace Passes

theorem nothing (h : c.Follows text tokens) : Passes T c [] 1 c :=
  ⟨h, suffix_refl _, fun _ => T.nil⟩

theorem mono (h : Passes T c es l c₁) (hl : l ≤ l') : Passes T c es l' c₁ :=
  ⟨h.follows, h.faults, fun hclean => T.mono (h.good hclean) hl⟩

/-- Without a fault at the end there was none on the way. -/
theorem clean (h : Passes T c es l c₁) (h' : Passes T c₁ es' l' c₂)
    (hclean : c₂.faults = c.faults) : c₁.faults = c.faults ∧ c₂.faults = c₁.faults := by
  have hle : c₁.faults.length ≤ c.faults.length := hclean ▸ h'.faults.length_le
  have heq := h.faults.eq_of_length_le hle
  exact ⟨heq.symm, hclean.trans heq⟩

theorem mul (h : Passes T c es l c₁) (h' : Passes T c₁ es' l' c₂) : Passes T c (es ++ es') (l * l') c₂ :=
  ⟨h'.follows, h.faults.trans h'.faults, fun hclean =>
    T.mul (h.good fun hT => (h.clean h' (hclean hT)).1) (h'.good fun hT => (h.clean h' (hclean hT)).2)⟩

theorem append (h : Passes T c es nested c₁) (h' : Passes T c₁ es' nested c₂) :
    Passes T c (es ++ es') nested c₂ := (h.mul h').mono nested_mul_nested

theorem wrap (h : Passes T c es l c₁) (hk : isPlain k = true) (hl : l ≤ ofKind k) :
    Passes T c (Grammar.wrap k es) (one k) c₁ :=
  ⟨h.follows, h.faults, fun hclean =>
    T.wrap (by rintro rfl; cases hk) (by rintro rfl; cases hk) (by rintro rfl; cases hk) (h.good hclean) hl⟩

theorem node (h : Passes T c es l c₁) (hk : isPlain k = true) (hl : l ≤ ofKind k) :
    Passes T c (Grammar.wrap k es) single c₁ := (h.wrap hk hl).mono (one_le_single_of_isSimple (Bool.and_elim_left hk))

theorem finished {w : Written} (h : Passes T c w (ofKind k) c₁) (hk : isPlain k = true) :
    Finished T k c (done k w) c₁ := ⟨w, rfl, h, h.wrap hk (le_refl _)⟩

/-- A node precedes what was read first. -/
theorem precedes {n : Completed} {sign w : Written} (h : Passes T c (n ++ sign ++ w) l c₁) (hk : isPlain k = true)
    (hl : l ≤ ofKind k) : Passes T c (Completed.precede k n (sign ++ w)) (one k) c₁ := by
  rw [preceded_events]
  exact h.wrap hk hl

theorem fault (h : Passes T c es l c₁) (message : String) : Passes T c es l (c₁.fault message) := by
  refine ⟨⟨h.follows.text, h.follows.rest⟩, h.faults.trans (suffix_cons _ _), fun hclean => ?_⟩
  refine h.good fun hT => ?_
  have hle := h.faults.length_le
  have hlength := congrArg List.length (hclean hT)
  simp only [Cursor.fault, length_cons] at hlength
  omega

end Passes

theorem Finished.passes {p : Piece} (h : Finished T k c p c₁) : Passes T c p.events (one k) c₁ := by
  obtain ⟨es, rfl, -, hnode⟩ := h
  exact hnode

namespace Adds

variable {α β γ : Type} {m : Parser α} {ev : α → List Event} {f : α → Parser β} {Q : β → Cursor → Prop}

theorem mono (h : Adds T m ev l) (hl : l ≤ l') : Adds T m ev l' :=
  fun c hc => (h c hc).mono fun _ _ hp => hp.mono hl

theorem first (hm : Adds T m ev l) (hc : c.Follows text tokens)
    (hf : ∀ a c', Passes T c (ev a) l c' → Ends (f a) c' Q) : Ends (m >>= f) c Q :=
  Ends.bind (hm c hc) hf

theorem times (hm : Adds T m ev l') (h : Passes T c₀ es l c)
    (hf : ∀ a c', Passes T c₀ (es ++ ev a) (l * l') c' → Ends (f a) c' Q) : Ends (m >>= f) c Q :=
  Ends.bind (hm c h.follows) fun a c' ha => hf a c' (h.mul ha)

theorem next (hm : Adds T m ev nested) (h : Passes T c₀ es nested c)
    (hf : ∀ a c', Passes T c₀ (es ++ ev a) nested c' → Ends (f a) c' Q) : Ends (m >>= f) c Q :=
  hm.times h fun a c' ha => hf a c' (ha.mono nested_mul_nested)

theorem bare (hm : Adds T m ev 1) (h : Passes T c₀ es l c)
    (hf : ∀ a c', Passes T c₀ (es ++ ev a) l c' → Ends (f a) c' Q) : Ends (m >>= f) c Q :=
  hm.times h fun a c' ha => hf a c' (ha.mono (le_of_eq (mul_one l)))

theorem written {m : Parser Piece} (hm : Adds T m Piece.events l) :
    Adds T ((·.written) <$> m) Written.events l := fun c hc => Ends.map (hm c hc) fun _ _ h => h

variable (T)

theorem take : Adds T take Written.events 1 := by
  intro c hc
  by_cases hk : c.kind = .eof
  · refine (ends_take_eof hk).mono ?_
    rintro _ _ ⟨rfl, rfl⟩
    exact Passes.nothing hc
  · refine (ends_take hk).mono ?_
    rintro _ _ ⟨rfl, rfl⟩
    refine ⟨⟨hc.text, ?_⟩, suffix_refl _, fun _ => T.token _⟩
    rw [Cursor.next, hc.rest, tail_drop]

/-- Tokens may stand between any nodes. -/
theorem token : Adds T Grammar.take Written.events nested := (take T).mono one_le_nested

theorem take? (k : Kind) : Adds T (take? k) Written.events 1 := by
  intro c hc
  refine Ends.get_bind ?_
  split
  · exact take T c hc
  · exact Ends.pure (Passes.nothing hc)

theorem expect (k : Kind) (message : String) : Adds T (expect k message) Written.events 1 := by
  intro c hc
  refine Ends.get_bind ?_
  split
  · exact take T c hc
  · exact Ends.fault_bind (Ends.pure ((Passes.nothing hc).fault message))

/-- A token that fits nowhere leaves a fault. -/
theorem faulty_unexpected (message : String) (hc : c.Follows text tokens) :
    Ends (unexpected message) c fun (w : Written) c' => Faulty T c w (one .error) c' := by
  have hfault := (Passes.nothing (T := T) hc).fault message
  refine Ends.fault_bind (Ends.bind (take T _ hfault.follows) fun es c' hes => Ends.pure ?_)
  refine ⟨((hfault.mul hes).mono (le_of_eq (mul_one 1))).wrap rfl (le_refl _), fun heq => ?_⟩
  have hle := hes.faults.length_le
  rw [heq, Cursor.fault, length_cons] at hle
  omega

theorem unexpected (message : String) : Adds T (unexpected message) Written.events (one .error) :=
  fun _ hc => (faulty_unexpected T message hc).mono fun _ _ h => h.toPasses

theorem finishes_name (hc : c.Follows text tokens) (hk : c.kind = .name) :
    Ends Grammar.take c fun w c' => Finished T .ident c (done .ident w) c' := by
  have hne : c.kind ≠ .eof := by rw [hk]; decide
  have htake : Ends Grammar.take c fun w c' => Passes T c w 1 c' ∧ w = .token c.index :=
    ⟨take T c hc, (ends_take hne).1⟩
  refine htake.mono ?_
  rintro _ _ ⟨h, rfl⟩
  have hname : kindAt tokens c.index = .name := by
    rw [kindAt, ← head?_drop, ← hc.rest]
    exact hk
  exact ⟨_, rfl, h, h.follows, h.faults, fun _ => T.ident hname⟩

theorem identifier : Adds T identifier Written.events single := by
  intro c hc
  refine Ends.get_bind ?_
  split
  · exact Ends.bind (finishes_name T hc ‹_›) fun es c' h => Ends.pure (h.passes.mono (one_le_single_of_isSimple rfl))
  · exact Ends.fault_bind (Ends.pure (((Passes.nothing hc).fault _).mono one_le_single))
  · exact (unexpected T _).mono (one_le_single_of_isSimple rfl) c hc

end Adds

/-- `@name`, or `@` alone. -/
theorem finishes_thisMember (T : Trait text tokens) (hc : c.Follows text tokens) :
    Ends thisMember c fun p c' => ∃ k, isName k = true ∧ Finished T k c p c' := by
  refine Ends.get_bind ((Adds.take T).first hc fun sign c₁ hsign => ?_)
  split
  · exact (Adds.take T).bare hsign fun name c₂ hname => Ends.pure ⟨.thisMember, rfl, hname.finished rfl⟩
  · exact Ends.pure ⟨.this, rfl, hsign.finished rfl⟩

theorem isSimple_of_isName (hk : isName k = true) : isSimple k = true := by
  cases k <;> first | rfl | cases hk

theorem Adds.thisMember (T : Trait text tokens) : Adds T thisMember Piece.events name := by
  refine fun c hc => (finishes_thisMember T hc).mono ?_
  rintro p c' ⟨k, hk, hp⟩
  exact hp.passes.mono (one_le_name hk)

/-! ## Rules -/

namespace Rule

/-- The events that the rule goes on from. -/
def left : Rule → List Event
  | .suffixes n | .operators _ n | .attachments n => n
  | _ => []

/-- The rows that the rule goes on from. -/
def leftForm : Rule → Language Kind
  | .suffixes _ | .operators _ _ | .attachments _ => single
  | _ => 1

/-- The rows that the rule makes. -/
def form : Rule → Language Kind
  | .statements _ | .inlineRest => nested
  | .members s => s.form
  | .block | .inlineBlock => atMost .block
  | _ => single

/-- The rule takes operators. -/
def takesOperators : Rule → Bool
  | .unary | .binary _ | .operators _ _ => true
  | _ => false

def isOperators : Rule → Bool
  | .operators _ _ => true
  | _ => false

theorem form_le_nested (r : Rule) : r.form ≤ nested := by
  cases r with
  | statements _ | inlineRest => exact le_refl _
  | members s => exact s.form_le_nested
  | block | inlineBlock => exact le_trans (atMost_le_single (by decide)) single_le_nested
  | _ => exact single_le_nested

theorem one_le_form (r : Rule) : 1 ≤ r.form := by
  cases r with
  | statements _ | inlineRest => exact one_le_nested
  | members s => exact s.one_le_form
  | block | inlineBlock => exact le_sup_left
  | _ => exact one_le_single

end Rule

/-- The parser goes on from events with the trait to such events, as the rule should. -/
def GoesOn (T : Trait text tokens) (r : Rule) (m : Parser Piece) : Prop :=
  ∀ c₀ c, Passes T c₀ r.left r.leftForm c → Ends m c fun p c' => Passes T c₀ p.events r.form c'

/-- Every rule that is called reads events with the trait, if what it goes on from has it.  Nothing is asked of
`operators`, which only the rules for operators call. -/
def Keeps (T : Trait text tokens) (call : Rule → Parser Piece) : Prop :=
  ∀ r : Rule, r.isOperators = false → GoesOn T r (call r)

theorem GoesOn.adds {r : Rule} {m : Parser Piece} (h : GoesOn T r m) (hleft : r.left = [])
    (hform : r.leftForm = 1) : Adds T m Piece.events r.form := by
  refine fun c hc => h c c ?_
  rw [hleft, hform]
  exact Passes.nothing hc

/-- What starts by itself can also go on from nothing. -/
theorem Adds.goesOn {r : Rule} {m : Parser Piece} (h : Adds T m Piece.events r.form) (hleft : r.left = [])
    (hform : r.leftForm = 1) : GoesOn T r m := by
  intro c₀ c hc
  rw [hleft, hform] at hc
  exact (h c hc.follows).mono fun _ _ hp => (hc.mul hp).mono (le_of_eq (one_mul _))

namespace Keeps

variable {call : Rule → Parser Piece} (h : Keeps T call)

include h

theorem starts (r : Rule) (hr : r.isOperators = false) (hleft : r.left = []) (hform : r.leftForm = 1) :
    Adds T (call r) Piece.events r.form := (h r hr).adds hleft hform

/-- What a rule reads, as a part of something larger. -/
theorem part (r : Rule) (hr : r.isOperators = false) (hleft : r.left = []) (hform : r.leftForm = 1) :
    Adds T (call r) Piece.events nested := (h.starts r hr hleft hform).mono r.form_le_nested

theorem expression : Adds T (call .expression) Piece.events nested := h.part _ rfl rfl rfl

theorem statement : Adds T (call .statement) Piece.events nested := h.part _ rfl rfl rfl

theorem block : Adds T (call .block) Piece.events nested := h.part _ rfl rfl rfl

theorem binary : Adds T (call (.binary 0)) Piece.events nested := h.part _ rfl rfl rfl

theorem parameter : Adds T (parameter call) Piece.events Form.parameters := by
  intro c hc
  refine Ends.get_bind ?_
  extract_lets jp
  have rest (binding : Piece) (c₁ : Cursor)
      (hname : binding.isComplete = true → Passes T c binding.events name c₁)
      (hb : Passes T c binding.events Form.parameters c₁) :
      Ends (jp binding) c₁ fun p c' => Passes T c p.events Form.parameters c' := by
    cases binding with
    | part w => exact Ends.pure hb
    | node n =>
      refine Ends.get_bind ?_
      split
      · refine (Adds.take T).bare (hname rfl) fun eq c₂ heq => ?_
        refine (h.starts .expression rfl rfl rfl).times heq fun value c₃ hv => ?_
        refine Ends.pure ((hv.precedes rfl (le_refl _)).mono ?_)
        rintro _ rfl
        exact forall_mem_singleton.2 (Or.inl rfl)
      · exact Ends.pure hb
  split
  · refine Ends.map_bind (Adds.finishes_name T hc ‹_›) fun es c₁ hes => ?_
    have hident := hes.passes.mono (one_le_name rfl)
    exact rest _ c₁ (fun _ => hident) (hident.mono name_le_parameters)
  · exact (Adds.thisMember T).first hc fun binding c₁ hb => rest _ c₁ (fun _ => hb) (hb.mono name_le_parameters)
  · exact Ends.map_bind (Adds.unexpected T _ c hc) fun es c₁ hes =>
      rest (.part es) c₁ (fun hfalse => by cases hfalse) (hes.mono (Sequence.error_le_form .parameters))

theorem member (s : Sequence) : Adds T (member call s) Piece.events s.form := by
  cases s with
  | parameters => exact h.parameter
  | arguments | elements => exact h.expression

theorem members (s : Sequence) : Adds T (members call s) Piece.events s.form := by
  have hmore {w : Written} {c₀ c : Cursor} (hw : Passes T c₀ w s.form c) :
      Ends (do
        let more ← call (.members s)
        pure (.part (w ++ more.written))) c fun (p : Piece) c' => Passes T c₀ p.events s.form c' :=
    (h.starts (.members s) rfl rfl rfl).times hw fun more c' hmore => Ends.pure (hmore.mono s.form_mul)
  intro c hc
  refine Ends.get_bind ?_
  dsimp only
  split
  · exact Ends.pure ((Passes.nothing hc).mono s.one_le_form)
  · split
    · exact (Adds.unexpected T _).first hc fun comma c₁ hcomma => hmore (hcomma.mono s.error_le_form)
    · refine (h.member s).first hc fun first c₁ hfirst => ?_
      split
      · exact Ends.pure hfirst
      · refine Ends.get_bind ?_
        split
        · exact (Adds.take T).bare hfirst fun comma c₂ hcomma => hmore hcomma
        · refine Ends.get_bind ?_
          split
          · exact Ends.fault_bind (hmore (hfirst.fault _))
          · exact Ends.pure hfirst

theorem sequence (s : Sequence) (hc : c.Follows text tokens) : Ends (sequence call s) c (Finished T s.kind c) := by
  refine (Adds.take T).first hc fun opening c₁ ho => ?_
  refine (h.starts (.members s) rfl rfl rfl).times ho fun inside c₂ hi => ?_
  refine (Adds.expect T _ _).bare hi fun closing c₃ hall => Ends.pure ((hall.mono ?_).finished (by cases s <;> rfl))
  rw [one_mul]
  cases s <;> exact le_refl _

theorem adds_sequence (s : Sequence) : Adds T (Grammar.sequence call s) Piece.events (one s.kind) :=
  fun _ hc => (h.sequence s hc).mono fun _ _ hp => hp.passes

theorem function (hc : c.Follows text tokens) : Ends (function call) c (Finished T .function c) := by
  refine Ends.get_bind ?_
  extract_lets withParams
  have rest (params : Written) (c₁ : Cursor) (hp : Passes T c params (atMost .paramList) c₁) :
      Ends (withParams params) c₁ (Finished T .function c) := by
    refine (Adds.take T).bare hp fun arrow c₂ ha => Ends.get_bind ?_
    extract_lets kind withBody
    have hdone (body : Written) (c₃ : Cursor) (hb : Passes T c₂ body (atMost .block) c₃) :
        Ends (withBody body) c₃ (Finished T .function c) := Ends.pure ((ha.mul hb).finished rfl)
    split
    · exact Ends.map_bind (h.starts .block rfl rfl rfl c₂ ha.follows) fun b c₃ hb => hdone _ c₃ hb
    · split
      · refine Ends.map_bind (h.statement c₂ ha.follows) fun b c₃ hb => ?_
        exact hdone _ c₃ ((hb.wrap rfl (le_refl _)).mono le_sup_right)
      · exact hdone .nil c₂ ((Passes.nothing ha.follows).mono le_sup_left)
  split
  · exact Ends.map_bind (h.adds_sequence _ c hc) fun params c₁ hparams => rest _ c₁ (hparams.mono le_sup_right)
  · exact rest .nil c ((Passes.nothing hc).mono le_sup_left)

/-- A primary expression is a finished node, or there is a fault. -/
theorem primary (hc : c.Follows text tokens) : Ends (primary call) c fun p c' =>
    (∃ k, isSimple k = true ∧ Finished T k c p c') ∨ Faulty T c p.events single c' := by
  have hfinished {m : Parser Piece} {k : Kind} (hm : Ends m c (Finished T k c)) (hk : isSimple k = true) :
      Ends m c fun p c' => (∃ k, isSimple k = true ∧ Finished T k c p c') ∨
        Faulty T c p.events single c' := hm.mono fun _ _ h => Or.inl ⟨k, hk, h⟩
  have hleaf {k : Kind} (hl : 1 ≤ ofKind k) (hk : isPlain k = true) :
      Ends (do return done k (← take)) c (Finished T k c) :=
    (Adds.take T).first hc fun es c₁ hes => Ends.pure ((hes.mono hl).finished hk)
  refine Ends.get_bind ?_
  split
  iterate 6 exact hfinished (hleaf one_le_nested rfl) rfl
  · exact hfinished (Ends.bind (Adds.finishes_name T hc ‹_›) fun _ _ h => Ends.pure h) rfl
  · exact hfinished (hleaf (le_refl _) rfl) rfl
  · exact (finishes_thisMember T hc).mono fun _ _ ⟨k, hk, hp⟩ => Or.inl ⟨k, isSimple_of_isName hk, hp⟩
  iterate 2 exact hfinished (h.function hc) rfl
  · split
    · exact hfinished (h.function hc) rfl
    · refine (Adds.token T).first hc fun opening c₁ ho => h.expression.next ho fun inside c₂ hi => ?_
      exact (Adds.expect T _ _).bare hi fun closing c₃ hall => Ends.pure (Or.inl ⟨.parenExpr, rfl, hall.finished rfl⟩)
  · exact hfinished (h.sequence _ hc) rfl
  · split
    · exact Ends.fault_bind (Ends.pure (Or.inr ⟨((Passes.nothing hc).fault _).mono one_le_single, cons_ne_self _ _⟩))
    · refine Ends.bind (Adds.faulty_unexpected T _ hc) fun es c₁ hes => Ends.pure (Or.inr ?_)
      exact ⟨hes.toPasses.mono (one_le_single_of_isSimple rfl), hes.fault⟩

/-- A rule goes on from a node around what was read. -/
theorem around {r : Rule} (hr : r.isOperators = false) (hes : Passes T c₀ es nested c)
    (hl : nested ≤ ofKind k) (hk : isPlain k = true) (hleft : r.left = wrap k es) (hform : r.leftForm = single) :
    Ends (call r) c fun p c' => Passes T c₀ p.events r.form c' := by
  refine h r hr c₀ c ?_
  rw [hleft, hform]
  exact hes.node hk hl

theorem attachments (left : Completed) : GoesOn T (.attachments left) (attachments call left) := by
  intro c₀ c (hc : Passes T c₀ left single c)
  have hleft := hc.mono single_le_nested
  refine Ends.get_bind ?_
  split
  · refine (Adds.token T).first hc.follows fun dot c₁ hdot => (Adds.expect T _ _).bare hdot fun name c₂ hname => ?_
    exact h.around rfl (hleft.append hname) (le_refl _) rfl rfl rfl
  · split
    · refine ((h.adds_sequence _).mono (le_trans (one_le_single_of_isSimple rfl) single_le_nested)).next hleft ?_
      exact fun arguments c₁ ha => h.around rfl ha (le_refl _) rfl rfl rfl
    · split
      · refine (Adds.token T).first hc.follows fun opening c₁ ho => h.expression.next ho fun index c₂ hi => ?_
        refine (Adds.expect T _ _).bare hi fun closing c₃ hall => ?_
        exact h.around rfl (hleft.append hall) (le_refl _) rfl rfl rfl
      · exact Ends.pure hc

theorem attached : Adds T (attached call) Piece.events single := by
  intro c hc
  refine (h.starts .primary rfl rfl rfl).first hc fun first c₁ hfirst => ?_
  cases first with
  | node n => exact h (.attachments n) rfl c c₁ hfirst
  | part w => exact Ends.pure hfirst

theorem assignment : Adds T (assignment call) Piece.events single := by
  intro c hc
  refine (h.starts (.binary 0) rfl rfl rfl).first hc fun lhs c₁ hlhs => ?_
  cases lhs with
  | part w => exact Ends.pure hlhs
  | node n =>
    refine Ends.get_bind ?_
    dsimp only
    split
    · refine (Adds.take T).bare hlhs fun sign c₂ hsign => ?_
      refine (h.starts .expression rfl rfl rfl).times hsign fun rhs c₃ hall => Ends.pure ?_
      refine (hall.precedes ?_ ?_).mono (one_le_single_of_isSimple ?_) <;> split <;> rfl
    · exact Ends.pure hlhs

theorem loopBinding : Adds T (loopBinding call) Written.events nested := by
  have hattached := (h.part .attached rfl rfl rfl).written
  intro c hc
  refine Ends.get_bind ?_
  split
  iterate 3 exact hattached c hc
  · exact (Adds.identifier T).mono single_le_nested c hc

theorem loopHeader : Adds T (loopHeader call) Written.events nested := by
  intro c hc
  refine h.loopBinding.first hc fun first c₁ hfirst => (Adds.take? T _).bare hfirst fun comma c₂ hcomma => ?_
  extract_lets withSecond
  have hrest (second : Written) (c₃ : Cursor)
      (hsecond : Passes T c (first ++ comma ++ second) nested c₃) :
      Ends (withSecond second) c₃ fun es c' => Passes T c es nested c' := by
    refine Ends.get_bind ?_
    extract_lets kind withRelation
    have htarget (relation : Written) (c₄ : Cursor)
        (hrelation : Passes T c (first ++ comma ++ second ++ relation) nested c₄) :
        Ends (withRelation relation) c₄ fun es c' => Passes T c es nested c' := by
      refine h.binary.next hrelation fun target c₅ ht => (Adds.take? T _).bare ht fun keyword c₆ hk => ?_
      extract_lets withFilter
      have hdone (filter : Written) (c₇ : Cursor) (hf : Passes T c
          (first ++ comma ++ second ++ relation ++ target.events ++ keyword ++ filter) nested c₇) :
          Ends (withFilter filter) c₇ fun es c' => Passes T c es nested c' := Ends.pure hf
      split
      · exact hdone .nil c₆ (by rwa [Written.events, append_nil])
      · exact Ends.map_bind (h.binary c₆ hk.follows) fun filter c₇ hf => hdone _ c₇ (hk.append hf)
    split
    · exact (Adds.take T).bare hsecond htarget
    · exact Ends.fault_bind (htarget .nil _ (by rw [Written.events, append_nil]; exact hsecond.fault _))
  split
  · exact hrest .nil c₂ (by rwa [Written.events, append_nil])
  · exact h.loopBinding.next hcomma hrest

theorem body : Adds T (body call) Written.events nested := by
  intro c hc
  refine ((Adds.take? T _).mono one_le_nested).first hc fun keyword c₁ hk => Ends.get_bind ?_
  split
  · exact h.block.next hk fun b c₂ hb => Ends.pure hb
  · split
    · exact Ends.fault_bind (Ends.pure ⟨(hk.fault _).follows, (hk.fault _).faults, fun _ => T.mono T.nil one_le_nested⟩)
    · exact (h.part .inlineBlock rfl rfl rfl).next hk fun b c₂ hb => Ends.pure hb

theorem loop : Adds T (loop call) Piece.events single := by
  intro c hc
  refine (Adds.token T).first hc fun keyword c₁ hk => h.loopHeader.next hk fun header c₂ hh => ?_
  exact h.body.next hh fun inside c₃ hall => Ends.pure (hall.node rfl (le_refl _))

theorem alternate : Adds T (alternate call) Written.events nested := by
  intro c hc
  refine Ends.get_bind ?_
  split
  · exact (h.part .conditional rfl rfl rfl).written c hc
  · exact h.block.written c hc
  · refine ((Adds.take? T _).mono one_le_nested).first hc fun keyword c₁ hk => ?_
    exact (h.part .inlineBlock rfl rfl rfl).next hk fun b c₂ hb => Ends.pure hb

theorem conditional : Adds T (conditional call) Piece.events single := by
  intro c hc
  refine (Adds.token T).first hc fun keyword c₁ hk => h.expression.next hk fun condition c₂ hcond => ?_
  refine h.body.next hcond fun consequent c₃ hbody => Ends.get_bind ?_
  extract_lets withNewline
  have hrest (newline : Written) (c₄ : Cursor)
      (hn : Passes T c (keyword ++ condition.events ++ consequent ++ newline) nested c₄) :
      Ends (withNewline newline) c₄ fun p c' => Passes T c p.events single c' := by
    refine (Adds.take? T _).bare hn fun keywordElse c₅ he => ?_
    extract_lets withOtherwise
    have hdone (otherwise : Written) (c₆ : Cursor) (ho : Passes T c
        (keyword ++ condition.events ++ consequent ++ newline ++ keywordElse ++ otherwise) nested c₆) :
        Ends (withOtherwise otherwise) c₆ fun p c' => Passes T c p.events single c' :=
      Ends.pure (ho.node rfl (le_refl _))
    split
    · exact hdone .nil c₅ (by rwa [Written.events, append_nil])
    · exact h.alternate.next he hdone
  split
  · exact (Adds.take T).bare hbody hrest
  · exact hrest .nil c₃ (by rwa [Written.events, append_nil])

theorem readExpression : Adds T (Grammar.expression call) Piece.events single := by
  intro c hc
  refine Ends.get_bind ?_
  split
  · exact h.loop c hc
  · exact h.starts .conditional rfl rfl rfl c hc
  · exact h.assignment c hc

theorem suffixes (stmt : Completed) : GoesOn T (.suffixes stmt) (suffixes call stmt) := by
  intro c₀ c (hc : Passes T c₀ stmt single c)
  have hblock : Passes T c₀ (Completed.precede .block stmt .nil) nested c := by
    rw [Completed.events, Written.events, append_nil]
    exact ((hc.mono single_le_nested).node rfl (le_refl _)).mono single_le_nested
  refine Ends.get_bind ?_
  split
  · refine (Adds.token T).first hc.follows fun keyword c₁ hk => h.loopHeader.next hk fun header c₂ hh => ?_
    exact h.around rfl (hblock.append hh) (le_refl _) rfl rfl rfl
  · refine (Adds.token T).first hc.follows fun keyword c₁ hk => h.expression.next hk fun condition c₂ hcond => ?_
    exact h.around rfl (hblock.append hcond) (le_refl _) rfl rfl rfl
  · exact Ends.pure hc

theorem readStatement : Adds T (Grammar.statement call) Piece.events single := by
  intro c hc
  refine Ends.get_bind ?_
  split
  · refine (Adds.token T).first hc fun keyword c₁ hk => Ends.get_bind ?_
    extract_lets withValue
    have hrest (value : Written) (c₂ : Cursor) (hv : Passes T c (keyword ++ value) nested c₂) :
        Ends (withValue value) c₂ fun p c' => Passes T c p.events single c' :=
      h.around (r := .suffixes _) rfl hv (le_refl _) rfl rfl rfl
    split
    · exact Ends.map_bind (h.expression c₁ hk.follows) fun value c₂ hv => hrest _ c₂ (hk.append hv)
    · exact hrest .nil c₁ (by rwa [Written.events, append_nil])
  · refine (h.starts .expression rfl rfl rfl).first hc fun stmt c₁ hstmt => ?_
    cases stmt with
    | node n => exact h (.suffixes n) rfl c c₁ hstmt
    | part w => exact Ends.pure hstmt

theorem statements (close : Kind) : Adds T (statements call close) Piece.events nested := by
  have hmore {w : Written} {c₀ c : Cursor} (hw : Passes T c₀ w nested c) :
      Ends (do
        let more ← call (.statements close)
        pure (.part (w ++ more.written))) c fun (p : Piece) c' => Passes T c₀ p.events nested c' :=
    (h.starts (.statements close) rfl rfl rfl).next hw fun more c' hmore => Ends.pure hmore
  have hunexpected (message : String) : Adds T (unexpected message) Written.events nested :=
    (Adds.unexpected T message).mono (le_trans (one_le_single_of_isSimple rfl) single_le_nested)
  intro c hc
  refine Ends.get_bind ?_
  dsimp only
  split
  · exact (Adds.token T).first hc fun divider c₁ hd => hmore hd
  · split
    · exact Ends.pure ((Passes.nothing hc).mono one_le_nested)
    · refine h.statement.first hc fun stmt c₁ hstmt => Ends.get_bind ?_
      split
      · exact Ends.pure hstmt
      · split
        · exact (Adds.take T).bare hstmt fun divider c₂ hd => hmore hd
        · split
          iterate 2 exact (hunexpected _).next hstmt fun divider c₂ hd => hmore hd

theorem readBlock : Adds T (Grammar.block call) Piece.events (atMost .block) := by
  intro c hc
  refine (Adds.token T).first hc fun opening c₁ ho => ?_
  refine (h.starts (.statements _) rfl rfl rfl).next ho fun inside c₂ hi => ?_
  refine (Adds.expect T _ _).bare hi fun closing c₃ hall => Ends.pure ?_
  exact (hall.wrap rfl (le_refl _)).mono le_sup_right

theorem inlineRest : Adds T (inlineRest call) Piece.events nested := by
  intro c hc
  refine Ends.get_bind ?_
  split
  · refine (Adds.token T).first hc fun divider c₁ hd => h.statement.next hd fun stmt c₂ hs => ?_
    exact (h.starts .inlineRest rfl rfl rfl).next hs fun more c₃ hall => Ends.pure hall
  · exact Ends.pure ((Passes.nothing hc).mono one_le_nested)

theorem inlineBlock : Adds T (inlineBlock call) Piece.events (atMost .block) := by
  intro c hc
  refine h.statement.first hc fun stmt c₁ hs => ?_
  refine (h.starts .inlineRest rfl rfl rfl).next hs fun more c₂ hall => Ends.pure ?_
  exact (hall.wrap rfl (le_refl _)).mono le_sup_right

/-- The rules that do not take operators keep every trait. -/
theorem read {r : Rule} (hr : r.takesOperators = false) : GoesOn T r (read call r) := by
  cases r with
  | statements close => exact (h.statements close).goesOn rfl rfl
  | statement => exact h.readStatement.goesOn rfl rfl
  | suffixes stmt => exact h.suffixes stmt
  | block => exact h.readBlock.goesOn rfl rfl
  | inlineBlock => exact h.inlineBlock.goesOn rfl rfl
  | inlineRest => exact h.inlineRest.goesOn rfl rfl
  | expression => exact h.readExpression.goesOn rfl rfl
  | conditional => exact h.conditional.goesOn rfl rfl
  | binary _ | operators _ _ | unary => cases hr
  | attached => exact h.attached.goesOn rfl rfl
  | attachments left => exact h.attachments left
  | primary =>
    refine Adds.goesOn (fun c hc => (h.primary hc).mono ?_) rfl rfl
    rintro p c' (⟨k, hk, hp⟩ | hp)
    · exact hp.passes.mono (one_le_single_of_isSimple hk)
    · exact hp.toPasses
  | members s => exact (h.members s).goesOn rfl rfl

end Keeps

/-! ## Traits of every reading -/

/-- A trait that operators between operands keep. -/
def Trait.KeepsBinary (T : Trait text tokens) : Prop :=
  ∀ {es : List Event} {l : Language Kind}, T.good es l → l ≤ nested →
    T.good (Grammar.wrap .binaryExpr es) (one .binaryExpr)

/-- All rules keep a trait if operators do. -/
theorem goesOn_parse (hbinary : T.KeepsBinary)
    (hunary : ∀ call : Rule → Parser Piece, (∀ r, GoesOn T r (call r)) →
      Adds T (unary call) Piece.events single) (depth : Nat) (r : Rule) :
    GoesOn T r (parse depth r) := by
  induction depth generalizing r with
  | zero => exact fun _ _ hc => Ends.pure ⟨hc.follows, hc.faults, fun _ => T.mono T.nil r.one_le_form⟩
  | succ depth ih =>
    have hkeeps : Keeps T (parse depth) := fun r _ => ih r
    cases r with
    | unary => exact (hunary _ ih).goesOn rfl rfl
    | binary least =>
      refine Adds.goesOn (fun c hc => ((ih .unary).adds rfl rfl).first hc fun left c₁ hleft => ?_) rfl rfl
      cases left with
      | node n => exact ih (.operators least n) c c₁ hleft
      | part w => exact Ends.pure hleft
    | operators least left =>
      intro c₀ c (hc : Passes T c₀ left single c)
      refine Ends.get_bind ?_
      split
      · split
        · refine (Adds.take T).bare (hc.mono single_le_nested) fun operator c₁ ho => ?_
          refine (hkeeps.part (.binary _) rfl rfl rfl).next ho fun right c₂ hall => ?_
          refine ih (.operators _ _) c₀ c₂ ⟨hall.follows, hall.faults, fun hclean => ?_⟩
          rw [Rule.left, preceded_events]
          exact T.mono (hbinary (hall.good hclean) (le_refl _)) (node_le_single (by decide))
        · exact Ends.pure hc
      · exact Ends.pure hc
    | _ => exact hkeeps.read rfl

/-- The events of a program have a trait that is kept with faults and without. -/
theorem good_program (hclean : ¬ T.ifClean) (hbinary : T.KeepsBinary)
    (hunary : ∀ call : Rule → Parser Piece, (∀ r, GoesOn T r (call r)) →
      Adds T (unary call) Piece.events single) : T.good (program text tokens).1 (one .program) := by
  have hpiece := (goesOn_parse hbinary hunary (callsPerToken * (tokens.length + 1)) (.statements .eof)).adds rfl rfl
    { text, rest := tokens } ⟨rfl, rfl⟩
  rw [program_eq_root]
  exact T.program (hpiece.good fun h => absurd h hclean)

end Grammar

end Respell
