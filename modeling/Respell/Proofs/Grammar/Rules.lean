import Respell.Proofs.Grammar.Parens
import Respell.Proofs.Grammar.Stream

/-!
What each rule of the grammar reads, given what the rules that it calls read.

`Spec tokens call' call depth` says what `call` reads by every rule when enough depth is left, and that
`call'` reads the same there.  The depth that a rule needs is bounded by `weight`: a call after at least
one token has passed weighs less, whatever the rule, and a call at the same token goes to a rule of lower
rank.  So the bound on the depth of calls is never reached: what is read with enough depth is read with
any greater depth, whatever stands for the calls beyond it, and `program`, which starts with enough,
reads what an unbounded recursion reads.
-/

namespace Respell.Grammar

open List Syntax

variable {k : Kind} {kinds : List Kind} {p : Kind → Bool} {es' : List Event}

/-! ## Parsers that read alike -/

/-- From `c` on, the two read the same and end as `q` says. -/
def Alike {α : Type} (m' m : Parser α) (c : Cursor) (q : α → Cursor → Prop) : Prop := m' c = m c ∧ Ends m c q

theorem Ends.alike {α : Type} {m : Parser α} {c : Cursor} {q : α → Cursor → Prop} (h : Ends m c q) : Alike m m c q :=
  ⟨rfl, h⟩

namespace Alike

variable {α β γ : Type} {m m' : Parser α} {f f' : α → Parser β} {c : Cursor} {r : α → Cursor → Prop}
  {q : β → Cursor → Prop}

theorem bind (hm : Alike m' m c r) (hf : ∀ a c₁, r a c₁ → Alike (f' a) (f a) c₁ q) :
    Alike (m' >>= f') (m >>= f) c q := by
  obtain ⟨heq, he⟩ := hm
  refine ⟨?_, (hf _ _ he).2⟩
  show f' (m' c).1 (m' c).2 = f (m c).1 (m c).2
  rw [heq]
  exact (hf _ _ he).1

theorem after (hm : Ends m c r) (hf : ∀ a c₁, r a c₁ → Alike (f' a) (f a) c₁ q) :
    Alike (m >>= f') (m >>= f) c q := bind hm.alike hf

theorem map {g : α → β} (hm : Alike m' m c r) (hg : ∀ a c₁, r a c₁ → q (g a) c₁) : Alike (g <$> m') (g <$> m) c q := by
  refine ⟨?_, hg _ _ hm.2⟩
  show (g (m' c).1, (m' c).2) = (g (m c).1, (m c).2)
  rw [hm.1]

theorem map_bind {g : α → γ} {f f' : γ → Parser β} (hm : Alike m' m c r)
    (hf : ∀ a c₁, r a c₁ → Alike (f' (g a)) (f (g a)) c₁ q) : Alike (g <$> m' >>= f') (g <$> m >>= f) c q := by
  refine ⟨?_, (hf _ _ hm.2).2⟩
  show f' (g (m' c).1) (m' c).2 = f (g (m c).1) (m c).2
  rw [hm.1]
  exact (hf _ _ hm.2).1

theorem get_bind {f f' : Cursor → Parser β} (h : Alike (f' c) (f c) c q) : Alike (get >>= f') (get >>= f) c q := h

theorem fault_bind {message : String} {f f' : Unit → Parser β} (h : Alike (f' ()) (f ()) (c.fault message) q) :
    Alike (fault message >>= f') (fault message >>= f) c q := h

theorem pure_bind {a : α} (h : Alike (f' a) (f a) c q) : Alike (Pure.pure a >>= f') (Pure.pure a >>= f) c q := h

theorem pure {b : β} (h : q b c) : Alike (Pure.pure b) (Pure.pure b) c q := ⟨rfl, h⟩

theorem mono {r' : α → Cursor → Prop} (hm : Alike m' m c r) (h : ∀ a c₁, r a c₁ → r' a c₁) : Alike m' m c r' :=
  ⟨hm.1, h _ _ hm.2⟩

end Alike

/-! ## What rules promise -/

/-- Where rules call each other without a token in between, the rank goes down. -/
def Rule.rank : Rule → Nat
  | .statements _ => 12
  | .inlineBlock => 11
  | .statement => 10
  | .members _ => 9
  | .expression => 8
  | .binary _ => 7
  | .unary => 6
  | .attached => 5
  | _ => 1

theorem Rule.rank_lt (r : Rule) : r.rank < callsPerToken := by
  cases r <;> simp [rank, callsPerToken]

def weight (tokens : List Token) (r : Rule) (c : Cursor) : Nat :=
  callsPerToken * (tokens.length - c.index) + r.rank

/-- What starts with a name, `@` or a bracket can stand in the binding of a loop. -/
def attachedFrom (first : Kind) : Kind → Bool :=
  if first = .name ∨ first = .atSign ∨ first = .leftBracket then isBinding else isAttached

theorem isAttached_of_attachedFrom {first : Kind} (h : attachedFrom first k = true) : isAttached k = true := by
  unfold attachedFrom at h
  split at h
  · cases k <;> first | rfl | cases h
  · exact h

theorem attachedFrom_of_isBinding (h : isBinding k = true) (first : Kind) : attachedFrom first k = true := by
  unfold attachedFrom
  split
  · exact h
  · cases k <;> first | rfl | cases h

/-- The elements of a block; there is code among them if code lies ahead. -/
def itemsFrom (first : Kind) : Language Symbol :=
  {row | row ∈ items ∧ (first.isLayout = false → row ∈ filled)}

namespace Sequence

def opening : Sequence → Kind
  | elements => .leftBracket
  | _ => .leftParen

/-- The class of the members. -/
def isMember : Sequence → Kind → Bool
  | parameters => isParameter
  | _ => isExpression

theorem production_kind (s : Sequence) :
    production s.kind = word [s.opening] * separated (node s.isMember) * word [s.close] := by
  cases s <;> rfl

end Sequence

section Promises

variable (tokens : List Token)

/-- A piece that is complete. -/
structure Whole (c : Cursor) (l : Language Symbol) (piece : Piece) (c' : Cursor) : Prop where
  begins : Begins tokens c piece.events c' l
  complete : piece.isComplete = true

/-- A piece that others look at before they go on: without a fault it is complete, and what is complete
starts with code. -/
structure Value (c : Cursor) (l : Language Symbol) (piece : Piece) (c' : Cursor) : Prop where
  gives : Gives tokens c piece.events c' l
  complete : c'.faults = c.faults → piece.isComplete = true
  begins : piece.isComplete = true → Begins tokens c piece.events c' l

/-- A piece, complete or not, that starts with the token ahead if that is code and is nothing if it is
not. -/
structure Term (c : Cursor) (l : Language Symbol) (piece : Piece) (c' : Cursor) : Prop
    extends Value tokens c l piece c' where
  code : c.kind.isLayout = false → reachesToken piece.events = true
  layout : c.kind.isLayout = true → piece.events = [] ∧ c'.index = c.index

/-- What the rules read.  A rule that goes on from a node answers for this too. -/
structure Spec (call' call : Rule → Parser Piece) (depth : Nat) : Prop where
  statements {c : Cursor} {close : Kind} : c.On tokens → close.isLayout = true →
    weight tokens (.statements close) c < depth →
    Alike (call' (.statements close)) (call (.statements close)) c fun p c' =>
      Gives tokens c p.events c' (itemsFrom c.kind) ∧
      (c'.kind = close ∨ c'.kind = .eof) ∧ (c.kind.isLayout = false → reachesToken p.events = true)
  statement {c : Cursor} : c.On tokens → weight tokens .statement c < depth →
    Alike (call' .statement) (call .statement) c (Term tokens c Syntax.statement)
  suffixes {c₀ c : Cursor} {n : Completed} : Begins tokens c₀ n c Syntax.statement →
    weight tokens (.suffixes n) c < depth →
    Alike (call' (.suffixes n)) (call (.suffixes n)) c (Whole tokens c₀ Syntax.statement)
  block {c : Cursor} : c.On tokens → c.kind = .indent → weight tokens .block c < depth →
    Alike (call' .block) (call .block) c fun p c' => Gives tokens c p.events c' Syntax.block
  inlineBlock {c : Cursor} : c.On tokens → weight tokens .inlineBlock c < depth →
    Alike (call' .inlineBlock) (call .inlineBlock) c fun p c' => Gives tokens c p.events c' Syntax.block
  inlineRest {c : Cursor} : c.On tokens → weight tokens .inlineRest c < depth →
    Alike (call' .inlineRest) (call .inlineRest) c fun p c' => Gives tokens c p.events c' items ∧
      (c.kind ≠ .semicolon → p.events = [])
  expression {c : Cursor} : c.On tokens → weight tokens .expression c < depth →
    Alike (call' .expression) (call .expression) c (Term tokens c (node isExpression))
  conditional {c : Cursor} : c.On tokens → c.kind = .ifKw → weight tokens .conditional c < depth →
    Alike (call' .conditional) (call .conditional) c (Whole tokens c (node (· == .ifExpr)))
  binary {c : Cursor} {power : Nat} : c.On tokens → weight tokens (.binary power) c < depth →
    Alike (call' (.binary power)) (call (.binary power)) c (Term tokens c (node isOperand))
  operators {c₀ c : Cursor} {power : Nat} {n : Completed} :
    Begins tokens c₀ n c (node isOperand) → weight tokens (.operators power n) c < depth →
    Alike (call' (.operators power n)) (call (.operators power n)) c (Whole tokens c₀ (node isOperand))
  unary {c : Cursor} : c.On tokens → weight tokens .unary c < depth →
    Alike (call' .unary) (call .unary) c (Term tokens c (node isOperand))
  attached {c : Cursor} : c.On tokens → weight tokens .attached c < depth →
    Alike (call' .attached) (call .attached) c (Term tokens c (node (attachedFrom c.kind)))
  attachments {c₀ c : Cursor} {n : Completed} {first : Kind} :
    Begins tokens c₀ n c (node (attachedFrom first)) → weight tokens (.attachments n) c < depth →
    Alike (call' (.attachments n)) (call (.attachments n)) c (Whole tokens c₀ (node (attachedFrom first)))
  primary {c : Cursor} : c.On tokens → weight tokens .primary c < depth →
    Alike (call' .primary) (call .primary) c (Term tokens c (node (attachedFrom c.kind)))
  members {c : Cursor} {s : Sequence} : c.On tokens → weight tokens (.members s) c < depth →
    Alike (call' (.members s)) (call (.members s)) c fun p c' =>
      Gives tokens c p.events c' (separated (node s.isMember))

end Promises

variable {tokens : List Token} {call call' : Rule → Parser Piece} {depth : Nat} {c c₀ c' : Cursor} {r s : Rule}
  {es : List Event} {n : Completed} {l m : Language Symbol}

/-- A call behind a token, by whatever rule. -/
theorem weight_lt_of_passed (hd : weight tokens s c ≤ depth) (h : c.index < c'.index)
    (hon : c'.On tokens) : weight tokens r c' < depth := by
  have hb := hon.lt_length
  have hr := r.rank_lt
  simp only [weight, callsPerToken] at hd hr ⊢
  omega

/-- A call by a rule of lower rank. -/
theorem weight_lt_of_rank (hd : weight tokens s c ≤ depth) (h : c.index ≤ c'.index)
    (hr : r.rank < s.rank) : weight tokens r c' < depth := by
  simp only [weight, callsPerToken] at hd ⊢
  omega

namespace Whole

variable {p : Piece}

theorem mono (h : Whole tokens c l p c') (hl : l ≤ m) : Whole tokens c m p c' :=
  ⟨h.begins.mono hl, h.complete⟩

theorem gives (h : Whole tokens c l p c') : Gives tokens c p.events c' l := h.begins.gives

theorem done {k : Kind} (h : Begins tokens c es c' l)
    (hk : ∀ ss ∈ l, ss ∈ production k ∧ [Symbol.ofNode k ss] ∈ m) (hn : n.events = wrap k es) :
    Whole tokens c m (.node n) c' := by
  refine ⟨?_, rfl⟩
  show Begins tokens c n.events c' m
  rw [hn]
  exact h.wrap hk

theorem value (h : Whole tokens c l p c') : Value tokens c l p c' :=
  ⟨h.gives, fun _ => h.complete, fun _ => h.begins⟩

theorem term (h : Whole tokens c l p c') : Term tokens c l p c' :=
  ⟨h.value, fun _ => h.begins.token, fun hl => by simp [h.begins.code] at hl⟩

end Whole

/-- A piece that is given up after a fault. -/
theorem Value.failed {w : Written} (h : Gives tokens c w c' 0) : Value tokens c m (.part w) c' :=
  ⟨h.mono zero_le, fun hc => absurd hc h.not_clean, fun hc => by cases hc⟩

theorem Value.mono {p : Piece} (h : Value tokens c l p c') (hl : l ≤ m) : Value tokens c m p c' :=
  ⟨h.gives.mono hl, h.complete, fun hc => (h.begins hc).mono hl⟩

theorem Term.mono {p : Piece} (h : Term tokens c l p c') (hl : l ≤ m) : Term tokens c m p c' :=
  ⟨h.toValue.mono hl, h.code, h.layout⟩

theorem isLayout_of_mem (h : ∀ k ∈ kinds, k.isLayout = false) (hk : c.kind ∈ kinds) : c.kind.isLayout = false := h _ hk

/-- A statement starts with code. -/
theorem isLayout_of_statementFirst (h : statementFirst.contains k = true) : k.isLayout = false := by
  cases k <;> first | rfl | exact absurd h (by decide)

theorem production_wrap (hp : p k = true) (hf : k ≠ .forExpr) (hi : k ≠ .ifExpr) :
    ∀ ss ∈ production k, ss ∈ production k ∧ [Symbol.ofNode k ss] ∈ node p :=
  fun ss hss => ⟨hss, k, hp, by rw [Symbol.ofNode_of_ne hf hi]⟩

/-- How a statement becomes a block of its own. -/
theorem statement_wrap : ∀ ss ∈ Syntax.statement,
    ss ∈ production .block ∧ [Symbol.ofNode .block ss] ∈ Syntax.block := fun ss hss =>
  ⟨statement_le_block hss, .block, rfl, by rw [Symbol.ofNode_of_ne (by decide) (by decide)]⟩

/-! ## Words and nodes -/

theorem ends_thisMember (h : c.On tokens) (hk : c.kind = .atSign) :
    Ends thisMember c (Whole tokens c (node isName)) := by
  have hcode : c.kind.isLayout = false := by rw [hk]; rfl
  refine Ends.get_bind (Ends.bind (ends_take (ne_eof_of_code hcode)) ?_)
  rintro _ _ ⟨rfl, rfl⟩
  have hsign := begins_next [.atSign] h hcode (by simp [hk])
  split
  · rename_i hnext
    have hname : c.next.kind = .name := by
      rw [Cursor.next_kind, Cursor.nextKind_of_isNextAdjacent hnext]
    have hne : c.next.kind ≠ .eof := by simp [hname]
    refine Ends.bind (ends_take hne) ?_
    rintro _ _ ⟨rfl, rfl⟩
    have hall := hsign.append (gives_next [.name] hsign.gives.stop hne (by simp [hname]))
    exact Ends.pure (Whole.done hall (production_wrap (k := .thisMember) rfl (by decide) (by decide)) rfl)
  · refine Ends.pure (Whole.done (l := production .this) (hsign.mono ?_) ?_ rfl)
    · rintro ss ⟨k, hk, rfl⟩
      exact ⟨k, by simp_all, rfl⟩
    · exact production_wrap (k := .this) rfl (by decide) (by decide)

theorem ends_identifier (h : c.On tokens) : Ends identifier c fun es c' => Gives tokens c es c' (node isBinding) := by
  refine Ends.get_bind ?_
  split
  · rename_i hk
    have hname := begins_next [.name] h (by rw [hk]; rfl) (by simp [hk])
    refine Ends.bind (ends_take (by simp [hk])) ?_
    rintro _ _ ⟨rfl, rfl⟩
    exact Ends.pure (hname.wrap (production_wrap (k := .ident) rfl (by decide) (by decide))).gives
  · exact Ends.fault_bind (Ends.pure (((Gives.nothing h).fault _).mono zero_le))
  · exact (ends_unexpected h _).mono fun _ _ hes => hes.1.mono zero_le

theorem Sequence.opening_code (q : Sequence) : q.opening.isLayout = false := by cases q <;> rfl

/-- The token behind the parameters: an arrow, if the parameters have no fault. -/
theorem ends_arrow {params : Written} (harrow : arrowFollows 0 c.rest = true)
    (hparams : Begins tokens c params c' (node (· == .paramList))) :
    Ends take c' fun arrow c₂ =>
      Begins tokens c (params ++ arrow) c₂ (node (· == .paramList) * word [.arrow, .fatArrow]) := by
  by_cases hclean : c'.faults = c.faults
  · obtain ⟨f, -, hr, hf⟩ := id hparams.gives
    have hmem : c'.kind ∈ [Kind.arrow, .fatArrow] := by
      have := arrow_of_arrowFollows (hf hclean).1 (hf hclean).2 hr.tokens_eq (hr.start.rest ▸ harrow)
      rwa [Nat.add_sub_cancel' hr.le, ← hr.stop.kind] at this
    have hne : c'.kind ≠ .eof := fun he => by simp [he] at hmem
    refine (ends_take hne).mono ?_
    rintro _ _ ⟨rfl, rfl⟩
    exact hparams.append (gives_next _ hr.stop hne hmem)
  · refine (ends_take_any hparams.gives.stop).mono fun arrow c₂ harrow => ?_
    refine (hparams.append harrow).of_not_clean fun hc => ?_
    exact hclean (hparams.gives.clean harrow hc).1

theorem ends_word (h : c.On tokens) (hk : c.kind ∈ kinds) (hcode : c.kind.isLayout = false)
    (hprod : word kinds ≤ production k) (hp : p k = true) (hf : k ≠ .forExpr) (hi : k ≠ .ifExpr) :
    Ends (do return done k (← take)) c (Term tokens c (node p)) := by
  refine Ends.bind (ends_take (ne_eof_of_code hcode)) ?_
  rintro _ _ ⟨rfl, rfl⟩
  exact Ends.pure (Whole.done ((begins_next kinds h hcode hk).mono hprod) (production_wrap hp hf hi) (by rfl)).term

/-- One more attachment at the end of a piece. -/
theorem Begins.attach {first : Kind} {c₁ : Cursor} (h : Begins tokens c₀ es c (node (attachedFrom first)))
    (h' : Gives tokens c es' c₁ l) (hprod : production k = node isAttached * l) (hk : isBinding k = true) :
    Begins tokens c₀ (Grammar.wrap k (es ++ es')) c₁ (node (attachedFrom first)) := by
  refine ((h.mono (node_mono fun _ => isAttached_of_attachedFrom)).append h').wrap ?_
  rw [← hprod]
  exact production_wrap (attachedFrom_of_isBinding hk _) (by rintro rfl; cases hk) (by rintro rfl; cases hk)

theorem mem_of_isSign (h : isSign c = true) : c.kind ∈ [Kind.bang, .notKw, .operator] := by
  unfold isSign at h
  split at h <;> simp_all

theorem mem_of_power? {n : Nat} (h : power? c = some n) : c.kind ∈ [Kind.orKw, .andKw, .isKw, .isntKw, .operator] := by
  unfold power? at h
  split at h <;> simp_all

theorem isExpression_of_isOperand (h : isOperand k = true) : isExpression k = true := by
  cases k <;> first | rfl | cases h

theorem node_isExpression_le_statement : node isExpression ≤ Syntax.statement := by
  rintro _ ⟨k, hk, rfl⟩
  exact ⟨.node k, by simp [isStatement, hk], rfl⟩

/-- Behind a statement, a loop or a conditional that has it as its body. -/
theorem Begins.trail {w : Kind} {w' : Written} {c₁ : Cursor} (hs : Begins tokens c₀ n c Syntax.statement)
    (hk : k = .forExpr ∨ k = .ifExpr) (h' : Gives tokens c w' c₁ (word [w] * l))
    (hprod : Syntax.block * word [w] * l ≤ production k) :
    Begins tokens c₀ (Completed.precede k (.precede .block n .nil) w') c₁ Syntax.statement := by
  have hblock : Begins tokens c₀ (Completed.precede .block n .nil) c Syntax.block := by
    rw [Completed.events, Written.events, append_nil]
    exact hs.wrap statement_wrap
  refine (hblock.append h').wrap fun ss hss => ⟨hprod ?_, .trailing k, ?_, ?_⟩
  · rwa [mul_assoc]
  · rcases hk with rfl | rfl <;> rfl
  · rw [ofNode_of_block hss hk]

theorem mem_itemsFrom_cons {s : Symbol} {row : List Symbol} (hs : isItem s = true)
    (hk : k.isLayout = false → s.isSubstantial = true) (hrow : row ∈ items) : s :: row ∈ itemsFrom k :=
  ⟨forall_mem_cons.2 ⟨hs, hrow⟩, fun h => ⟨s, mem_cons_self, hk h⟩⟩

/-- Code follows every opening of a block. -/
def Opens (tokens : List Token) : Prop :=
  ∀ i, kindAt tokens i = .indent → (kindAt tokens (i + 1)).isLayout = false

theorem Alike.take {β : Type} {f f' : Written → Parser β} {q : β → Cursor → Prop} (h : c.On tokens)
    (hk : c.kind = k) (hcode : k.isLayout = false)
    (hf : Begins tokens c [.token c.index] c.next (word [k]) →
      Alike (f' (.token c.index)) (f (.token c.index)) c.next q) :
    Alike (Grammar.take >>= f') (Grammar.take >>= f) c q := by
  subst hk
  refine after (ends_take (ne_eof_of_code hcode)) ?_
  rintro _ _ ⟨rfl, rfl⟩
  exact hf (begins_next [c.kind] h hcode (mem_singleton_self _))

theorem Alike.takeOf {β : Type} {f f' : Written → Parser β} {q : β → Cursor → Prop} (kinds : List Kind)
    (h : c.On tokens) (hk : c.kind ∈ kinds) (hne : c.kind ≠ .eof)
    (hf : Gives tokens c [.token c.index] c.next (word kinds) →
      Alike (f' (.token c.index)) (f (.token c.index)) c.next q) :
    Alike (Grammar.take >>= f') (Grammar.take >>= f) c q := by
  refine after (ends_take hne) ?_
  rintro _ _ ⟨rfl, rfl⟩
  exact hf (gives_next kinds h hne hk)

section Rules

variable (spec : Spec tokens call' call depth)
include spec

/-! ## Names and sequences -/

theorem alike_parameter (h : c.On tokens) (hd : weight tokens s c ≤ depth) :
    Alike (parameter call') (parameter call) c (Value tokens c (node isParameter)) := by
  refine Alike.get_bind ?_
  extract_lets jp' jp
  have rest (binding : Piece) (c₁ : Cursor) (hb : Value tokens c (node isName) binding c₁) :
      Alike (jp' binding) (jp binding) c₁ (Value tokens c (node isParameter)) := by
    have hplain := hb.mono (node_mono (q := isParameter) fun k hk => by cases k <;> first | rfl | cases hk)
    cases binding with
    | part w => exact Alike.pure hplain
    | node name =>
    refine Alike.get_bind ?_
    split
    · rename_i hk
      refine Alike.takeOf [.eq] hb.gives.stop (by simp [hk]) (by simp [hk]) fun hsign => ?_
      have heq := (hb.begins rfl).append hsign
      have hw := weight_lt_of_passed (r := .expression) hd heq.progress heq.gives.stop
      refine Alike.bind (spec.expression heq.gives.stop hw) fun value c₂ hv => ?_
      exact Alike.pure (Whole.done (heq.append hv.gives)
        (production_wrap (k := .defaultParam) rfl (by decide) (by decide)) (preceded_events _ _ _ _)).value
    · exact Alike.pure hplain
  split
  · rename_i hk
    refine Alike.after (Ends.map (ends_take (by simp [hk])) ?_) rest
    rintro _ _ ⟨rfl, rfl⟩
    exact (Whole.done (begins_next [.name] h (by rw [hk]; rfl) (by simp [hk]))
      (production_wrap (k := .ident) rfl (by decide) (by decide)) (by rfl)).value
  · rename_i hk
    exact Alike.after (ends_thisMember h hk) fun binding c₁ hb => rest binding c₁ hb.value
  · refine Alike.after (Ends.map (ends_unexpected h _) ?_) rest
    intro es c₁ hes
    exact Value.failed hes.1

variable {q : Sequence}

theorem alike_member (h : c.On tokens) (hd : weight tokens (.members q) c ≤ depth) :
    Alike (member call' q) (member call q) c (Value tokens c (node q.isMember)) := by
  have hexpr := fun hr => (spec.expression h (weight_lt_of_rank hd (Nat.le_refl _) hr)).mono
    fun p c' (hp : Term tokens c (node isExpression) p c') => hp.toValue
  cases q with
  | parameters => exact alike_parameter spec h hd
  | arguments => exact hexpr (by simp [Rule.rank])
  | elements => exact hexpr (by simp [Rule.rank])

theorem alike_members (h : c.On tokens) (hd : weight tokens (.members q) c ≤ depth) :
    Alike (members call' q) (members call q) c fun p c' =>
      Gives tokens c p.events c' (separated (node q.isMember)) := by
  refine Alike.get_bind ?_
  extract_lets kind
  split
  · exact Alike.pure ((Gives.nothing h).mono (by rintro _ rfl; exact nil_mem_separated _))
  rename_i hopen
  have hne : c.kind ≠ .eof := fun he => hopen (Or.inr he)
  split
  · refine Alike.after (ends_unexpected h _) fun comma c₁ hcomma => ?_
    have hstop := hcomma.1.stop
    refine Alike.bind (spec.members hstop (weight_lt_of_passed hd (hcomma.2 hne).1 hstop)) ?_
    intro more c₂ hmore
    exact Alike.pure ((hcomma.1.append hmore).mono (by simp))
  refine Alike.bind (alike_member spec h hd) fun first c₁ hfirst => ?_
  split
  · exact Alike.pure (hfirst.gives.mono (le_separated _))
  rename_i hcompl
  have hi : c.index < c₁.index := (hfirst.begins (by simpa using hcompl)).progress
  have hone := hfirst.gives.mono (le_separated _)
  refine Alike.get_bind ?_
  split
  · rename_i hk
    refine Alike.takeOf [.comma] hone.stop (by simp [hk]) (by simp [hk]) fun hcomma => ?_
    have hlt : c.index < c₁.next.index := by simp; omega
    refine Alike.bind (spec.members hcomma.stop (weight_lt_of_passed hd hlt hcomma.stop)) ?_
    intro more c₂ hmore
    exact Alike.pure (((hfirst.gives.append hcomma).append hmore).mono (mul_separated_le _))
  refine Alike.get_bind ?_
  split
  · refine Alike.fault_bind ?_
    have hg := hone.fault "expected ','"
    refine Alike.bind (spec.members hg.stop (weight_lt_of_passed hd hi hg.stop)) ?_
    intro more c₂ hmore
    exact Alike.pure ((hg.append hmore).mono (by simp))
  · exact Alike.pure hone

theorem alike_sequence (h : c.On tokens) (hk : c.kind = q.opening) (hd : weight tokens s c ≤ depth) :
    Alike (sequence call' q) (sequence call q) c (Whole tokens c (node (· == q.kind))) := by
  refine Alike.take h hk q.opening_code fun hopen => ?_
  have hw := weight_lt_of_passed (r := .members q) hd hopen.progress hopen.gives.stop
  refine Alike.bind (spec.members hopen.gives.stop hw) fun inside c₁ hinside => ?_
  refine Alike.after (ends_expect hinside.stop (by cases q <;> decide) _) fun closing c₂ hclose => ?_
  refine Alike.pure (Whole.done (l := production q.kind) ?_ ?_ rfl)
  · rw [q.production_kind]
    exact (hopen.append hinside).append hclose
  · exact production_wrap (by simp) (by cases q <;> decide) (by cases q <;> decide)

/-! ## Functions and primary expressions -/

theorem alike_function (h : c.On tokens)
    (hk : c.kind = .leftParen ∧ arrowFollows 0 c.rest = true ∨ c.kind = .arrow ∨ c.kind = .fatArrow)
    {p : Kind → Bool} (hp : p .function = true) (hd : weight tokens s c ≤ depth) :
    Alike (function call') (function call) c (Whole tokens c (node p)) := by
  refine Alike.get_bind ?_
  extract_lets withParams' withParams
  -- What follows the parameters is the same for both forms of the head.
  have rest (params : Written) (c₁ : Cursor)
      (harrow : Ends take c₁ fun arrow c₂ => Begins tokens c (params ++ arrow) c₂ functionHead) :
      Alike (withParams' params) (withParams params) c₁ (Whole tokens c (node p)) := by
    refine Alike.after harrow fun arrow c₂ hhead => ?_
    have hdone (body : Written) (c₃ : Cursor) (hbody : Gives tokens c₂ body c₃ (1 + Syntax.block)) :=
      Alike.pure (Whole.done (n := .wrap .function (params ++ arrow ++ body)) (hhead.append hbody)
        (production_wrap (k := .function) hp (by decide) (by decide)) rfl)
    have hstop := hhead.gives.stop
    have hw {r : Rule} : weight tokens r c₂ < depth := weight_lt_of_passed hd hhead.progress hstop
    refine Alike.get_bind ?_
    extract_lets kind jp
    split
    · rename_i hindent
      refine Alike.map_bind (spec.block hstop hindent hw) fun body c₃ hbody => ?_
      exact hdone _ c₃ (hbody.mono le_add_self)
    split
    · rename_i hfirst
      have hcode : c₂.kind.isLayout = false := isLayout_of_statementFirst hfirst
      refine Alike.map_bind (spec.statement hstop hw) fun stmt c₃ hstmt => ?_
      refine hdone _ c₃ (Gives.mono (hstmt.gives.wrap ?_ statement_wrap) le_add_self)
      exact hstmt.gives.codeFirst hcode (hstmt.code hcode)
    · exact Alike.pure_bind (hdone _ c₂ ((Gives.nothing hstop).mono le_self_add))
  split
  · rename_i hparen
    have harrow : arrowFollows 0 c.rest = true := by
      rcases hk with hk | hk | hk
      · exact hk.2
      iterate 2 simp [hparen] at hk
    refine Alike.map_bind (alike_sequence spec h hparen hd) fun params c₁ hparams => rest _ c₁ ?_
    exact (ends_arrow harrow hparams.begins).mono fun arrow c₂ hhead => hhead.mono le_add_self
  · rename_i hparen
    have hk' : c.kind ∈ [Kind.arrow, .fatArrow] := by simpa [hparen] using hk
    have hcode : c.kind.isLayout = false := by rcases mem_pair.1 hk' with hk | hk <;> rw [hk] <;> rfl
    refine Alike.pure_bind (rest .nil c ((ends_take (ne_eof_of_code hcode)).mono ?_))
    rintro _ _ ⟨rfl, rfl⟩
    exact (begins_next _ h hcode hk').mono le_self_add

theorem alike_primary (h : c.On tokens) (hd : weight tokens .primary c ≤ depth) :
    Alike (primary call') (primary call) c (Term tokens c (node (attachedFrom c.kind))) := by
  have hfunction (hk : c.kind = .leftParen ∧ arrowFollows 0 c.rest = true ∨ c.kind = .arrow ∨
      c.kind = .fatArrow) {p : Kind → Bool} (hp : p .function = true) :
      Alike (function call') (function call) c (Term tokens c (node p)) :=
    (alike_function spec h hk hp hd).mono fun _ _ hv => hv.term
  refine Alike.get_bind ?_
  split
  iterate 8
    rename_i hk
    rw [hk]
    exact Ends.alike (ends_word h (by rw [hk]; decide) (by rw [hk]; rfl) le_rfl (by decide) (by decide) (by decide))
  · rename_i hk
    rw [hk]
    exact (ends_thisMember h hk).alike.mono fun _ _ hv => (hv.mono
      (node_mono fun k hk => by cases k <;> first | rfl | cases hk)).term
  iterate 2
    · rename_i hk
      rw [hk]
      exact hfunction (by simp [hk]) (by decide)
  · rename_i hk
    rw [hk]
    split
    · rename_i harrow
      exact hfunction (Or.inl ⟨hk, harrow⟩) (by decide)
    · refine Alike.take h hk rfl fun hopen => ?_
      have hw := weight_lt_of_passed (r := .expression) hd hopen.progress hopen.gives.stop
      refine Alike.bind (spec.expression hopen.gives.stop hw) fun inside c₁ hinside => ?_
      refine Alike.after (ends_expect hinside.gives.stop (by decide) _) fun closing c₂ hclose => ?_
      exact Alike.pure (Whole.done ((hopen.append hinside.gives).append hclose)
        (production_wrap (k := .parenExpr) (by decide) (by decide) (by decide)) (by rfl)).term
  · rename_i hk
    rw [hk]
    exact (alike_sequence spec h (q := .elements) hk hd).mono fun _ _ hv => (hv.mono
      (node_mono fun k hk => by cases k <;> first | rfl | cases hk)).term
  · split
    · rename_i hlayout
      refine Alike.fault_bind (Alike.pure ⟨Value.failed ((Gives.nothing h).fault _), fun hcode => ?_, ?_⟩)
      · simp [hcode] at hlayout
      · exact fun _ => ⟨rfl, rfl⟩
    · rename_i hlayout
      have hcode : c.kind.isLayout = false := by simpa using hlayout
      refine Alike.after (ends_unexpected h _) fun es c₁ hes => Alike.pure ⟨Value.failed hes.1, ?_, ?_⟩
      · exact fun _ => (hes.2 (ne_eof_of_code hcode)).2
      · exact fun hl => by simp [hcode] at hl

theorem alike_attachments {first : Kind} (hl : Begins tokens c₀ n c (node (attachedFrom first)))
    (hd : weight tokens (.attachments n) c ≤ depth) :
    Alike (attachments call' n) (attachments call n) c (Whole tokens c₀ (node (attachedFrom first))) := by
  have h := hl.gives.stop
  -- Each attachment passes a token, so the rule goes on from what it has put together.
  have more (k : Kind) (w : Written) (c₁ : Cursor) (l : Language Symbol)
      (h' : Begins tokens c w c₁ l) (hprod : production k = node isAttached * l)
      (hk : isBinding k = true) :
      Alike (call' (.attachments (.precede k n w))) (call (.attachments (.precede k n w))) c₁
        (Whole tokens c₀ (node (attachedFrom first))) :=
    spec.attachments (hl.attach h'.gives hprod hk) (weight_lt_of_passed hd h'.progress h'.gives.stop)
  refine Alike.get_bind ?_
  split
  · rename_i hk
    refine Alike.take h hk rfl fun hdot => ?_
    refine Alike.after (ends_expect hdot.gives.stop (by decide) _) fun name c₁ hname => ?_
    exact more .memberExpr _ c₁ _ (hdot.append hname) (mul_assoc _ _ _) rfl
  split
  · rename_i hk
    have hk := Cursor.kind_of_isAdjacent hk
    refine Alike.bind (alike_sequence spec h (q := .arguments) hk hd) fun args c₁ hargs => ?_
    exact more .callExpr _ c₁ _ hargs.begins rfl rfl
  split
  · rename_i hk
    have hk := Cursor.kind_of_isAdjacent hk
    refine Alike.take h hk rfl fun hopen => ?_
    have hw := weight_lt_of_passed (r := .expression) hd hopen.progress hopen.gives.stop
    refine Alike.bind (spec.expression hopen.gives.stop hw) fun inside c₁ hinside => ?_
    refine Alike.after (ends_expect hinside.gives.stop (by decide) _) fun closing c₂ hclose => ?_
    exact more .indexExpr _ c₂ _ ((hopen.append hinside.gives).append hclose)
      (by simp only [production, mul_assoc]) rfl
  · exact Alike.pure ⟨hl, rfl⟩

theorem alike_attached (h : c.On tokens) (hd : weight tokens .attached c ≤ depth) :
    Alike (attached call') (attached call) c (Term tokens c (node (attachedFrom c.kind))) := by
  have hw := weight_lt_of_rank (r := .primary) hd (Nat.le_refl _) (by decide)
  refine Alike.bind (spec.primary h hw) fun first c₁ hfirst => ?_
  cases first with
  | node n =>
    have hb := hfirst.begins rfl
    exact (spec.attachments hb (weight_lt_of_passed hd hb.progress hb.gives.stop)).mono fun _ _ hv => hv.term
  | part w => exact Alike.pure hfirst

/-! ## Operators and assignments -/

theorem alike_unary (h : c.On tokens) (hd : weight tokens .unary c ≤ depth) :
    Alike (unary call') (unary call) c (Term tokens c (node isOperand)) := by
  refine Alike.get_bind ?_
  split
  · rename_i hsign
    have hmem := mem_of_isSign hsign
    have hop := begins_next _ h (isLayout_of_mem (by decide) hmem) hmem
    refine Alike.after (ends_take (ne_eof_of_code hop.code)) ?_
    rintro _ _ ⟨rfl, rfl⟩
    have hw := weight_lt_of_passed (r := .unary) hd hop.progress hop.gives.stop
    refine Alike.bind (spec.unary hop.gives.stop hw) fun operand c₁ hoperand => ?_
    exact Alike.pure (Whole.done (hop.append hoperand.gives)
      (production_wrap (k := .prefixExpr) rfl (by decide) (by decide)) (by rfl)).term
  · refine (spec.attached h (weight_lt_of_rank hd (Nat.le_refl _) (by decide))).mono fun _ _ hv => ?_
    refine hv.mono (node_mono fun k hk => ?_)
    have := isAttached_of_attachedFrom hk
    cases k <;> first | rfl | cases this

theorem alike_operators {least : Nat}
    (hl : Begins tokens c₀ n c (node isOperand)) (hd : weight tokens (.operators least n) c ≤ depth) :
    Alike (operators call' least n) (operators call least n) c (Whole tokens c₀ (node isOperand)) := by
  have hend := Alike.pure (q := Whole tokens c₀ (node isOperand)) (b := .node n) ⟨hl, rfl⟩
  refine Alike.get_bind ?_
  split
  · rename_i power hpower
    split
    · have hmem := mem_of_power? hpower
      have hop := begins_next _ hl.gives.stop (isLayout_of_mem (by decide) hmem) hmem
      refine Alike.after (ends_take (ne_eof_of_code hop.code)) ?_
      rintro _ _ ⟨rfl, rfl⟩
      have hw {c' r} := @weight_lt_of_passed _ _ _ c' r _ hd
      refine Alike.bind (spec.binary hop.gives.stop (hw (Nat.le_refl _) hop.gives.stop)) ?_
      intro right c₁ hright
      have hall : Whole tokens c₀ (node isOperand)
          (.node (.precede .binaryExpr n (.token c.index ++ right.written))) c₁ :=
        .done ((hl.append hop.gives).append hright.gives)
          (production_wrap (k := .binaryExpr) rfl (by decide) (by decide)) (preceded_events _ _ _ _)
      exact spec.operators hall.begins (hw hright.gives.le hright.gives.stop)
    · exact hend
  · exact hend

theorem alike_binary (h : c.On tokens) {least : Nat} (hd : weight tokens (.binary least) c ≤ depth) :
    Alike (binary call' least) (binary call least) c (Term tokens c (node isOperand)) := by
  have hw := weight_lt_of_rank (r := .unary) hd (Nat.le_refl _) (by simp [Rule.rank])
  refine Alike.bind (spec.unary h hw) fun left c₁ hleft => ?_
  cases left with
  | node n =>
    have hb := hleft.begins rfl
    exact (spec.operators hb (weight_lt_of_passed hd hb.progress hb.gives.stop)).mono fun _ _ hv => hv.term
  | part w => exact Alike.pure hleft

theorem alike_assignment (h : c.On tokens) (hd : weight tokens .expression c ≤ depth) :
    Alike (assignment call') (assignment call) c (Term tokens c (node isExpression)) := by
  have hw := weight_lt_of_rank (r := .binary 0) hd (Nat.le_refl _) (by decide)
  refine Alike.bind (spec.binary h hw) fun lhs c₁ hlhs => ?_
  have hplain := hlhs.mono (node_mono fun _ => isExpression_of_isOperand)
  cases lhs with
  | part w => exact Alike.pure hplain
  | node n =>
  refine Alike.get_bind ?_
  extract_lets kind
  split
  · rename_i hk
    have hne : c₁.kind ≠ .eof := by rcases hk with hk | hk <;> simp [show c₁.kind = _ from hk]
    refine Alike.takeOf [c₁.kind] hlhs.gives.stop (mem_singleton_self _) hne fun hsign => ?_
    have hsign := (hlhs.begins rfl).append hsign
    have hw := weight_lt_of_passed (r := .expression) hd hsign.progress hsign.gives.stop
    refine Alike.bind (spec.expression hsign.gives.stop hw) fun rhs c₂ hrhs => ?_
    refine Alike.pure (Whole.done (hsign.append hrhs.gives) ?_ (preceded_events _ _ _ _)).term
    rcases hk with hk | hk
    · rw [if_pos hk, show c₁.kind = .eq from hk]
      exact production_wrap (k := .assign) rfl (by decide) (by decide)
    · rw [if_neg (by rw [hk]; decide), show c₁.kind = .existsEq from hk]
      exact production_wrap (k := .existsAssign) rfl (by decide) (by decide)
  · exact Alike.pure hplain

/-! ## Loops and conditionals -/

theorem alike_loopBinding (h : c.On tokens) (hw : weight tokens .attached c < depth) :
    Alike (loopBinding call') (loopBinding call) c fun es c' => Gives tokens c es c' (node isBinding) := by
  have hattached (hk : c.kind = .name ∨ c.kind = .atSign ∨ c.kind = .leftBracket) :
      Alike ((·.written) <$> call' .attached) ((·.written) <$> call .attached) c fun (es : Written) c' =>
        Gives tokens c es c' (node isBinding) := by
    refine Alike.map (spec.attached h hw) fun p c₁ hp => ?_
    have := hp.gives
    rwa [attachedFrom, if_pos hk] at this
  refine Alike.get_bind ?_
  split
  iterate 3 exact hattached (by simp [*])
  · exact (ends_identifier h).alike

theorem alike_loopHeader (h : c.On tokens)
    (hw : ∀ c' r, c.index ≤ c'.index → c'.On tokens → weight tokens r c' < depth) :
    Alike (loopHeader call') (loopHeader call) c fun es c' => Gives tokens c es c' Syntax.loopHeader := by
  refine Alike.bind (alike_loopBinding spec h (hw c _ (Nat.le_refl _) h)) fun first c₁ hfirst => ?_
  have hw₁ {c' : Cursor} {r : Rule} (hle : c₁.index ≤ c'.index) := hw c' r (hfirst.le.trans hle)
  refine Alike.after (ends_take? (k := .comma) (by decide)) fun comma c₂ hcomma => ?_
  extract_lets withSecond' withSecond
  have afterSecond (second : Written) (c₃ : Cursor)
      (hsecond : Gives tokens c₁ (comma ++ second) c₃ (1 + word [.comma] * node isBinding)) :
      Alike (withSecond' second) (withSecond second) c₃ fun es c' => Gives tokens c es c' Syntax.loopHeader := by
    refine Alike.get_bind ?_
    extract_lets kind withRelation' withRelation
    have afterRelation (relation : Written) (c₄ : Cursor)
        (hrel : Gives tokens c₃ relation c₄ (word [.inKw, .ofKw])) :
        Alike (withRelation' relation) (withRelation relation) c₄ fun es c' =>
          Gives tokens c es c' Syntax.loopHeader := by
      have hwt := hw₁ (r := .binary 0) (hsecond.le.trans hrel.le) hrel.stop
      refine Alike.bind (spec.binary hrel.stop hwt) fun target c₅ htarget => ?_
      refine Alike.after (ends_take? (k := .whenKw) (by decide)) fun keyword c₆ hkeyword => ?_
      extract_lets withFilter
      have afterFilter (filter : Written) (c₇ : Cursor)
          (hfilter : Gives tokens c₅ (keyword ++ filter) c₇ (1 + word [.whenKw] * node isOperand)) :
          Alike (withFilter filter) (withFilter filter) c₇ fun es c' => Gives tokens c es c' Syntax.loopHeader := by
        refine Alike.pure ?_
        have := hfirst.append (hsecond.append (hrel.append (htarget.gives.append hfilter)))
        simpa only [Syntax.loopHeader, mul_assoc, Written.events_append, append_assoc, Piece.events] using this
      rcases hkeyword with ⟨hk, rfl, rfl⟩ | ⟨_, rfl, rfl⟩
      · have hwhen := gives_next [.whenKw] htarget.gives.stop (by simp [hk]) (by simp [hk])
        have hle := hsecond.le.trans (hrel.le.trans (htarget.gives.le.trans hwhen.le))
        refine Alike.map_bind (spec.binary hwhen.stop (hw₁ hle hwhen.stop)) fun filter c₇ hfilter => ?_
        exact afterFilter _ c₇ ((hwhen.append hfilter.gives).mono le_add_self)
      · exact Alike.pure_bind (afterFilter _ _ ((Gives.nothing htarget.gives.stop).mono le_self_add))
    split
    · rename_i hk
      have hne : c₃.kind ≠ .eof := by rcases hk with hk | hk <;> simp [show c₃.kind = _ from hk]
      exact Alike.takeOf _ hsecond.stop (by simpa using hk) hne fun hrel => afterRelation _ _ hrel
    · exact Alike.fault_bind (Alike.pure_bind (afterRelation _ _ (((Gives.nothing hsecond.stop).fault _).mono zero_le)))
  rcases hcomma with ⟨hk, rfl, rfl⟩ | ⟨_, rfl, rfl⟩
  · have hnext := gives_next [.comma] hfirst.stop (by simp [hk]) (by simp [hk])
    refine Alike.bind (alike_loopBinding spec hnext.stop (hw₁ hnext.le hnext.stop)) ?_
    intro second c₃ hsecond
    exact afterSecond _ c₃ ((hnext.append hsecond).mono le_add_self)
  · exact Alike.pure_bind (afterSecond _ _ ((Gives.nothing hfirst.stop).mono le_self_add))

theorem alike_body (h : c.On tokens) (hw : ∀ c' r, c.index ≤ c'.index → c'.On tokens → weight tokens r c' < depth) :
    Alike (body call') (body call) c fun es c' => Gives tokens c es c' Syntax.body := by
  refine Alike.after (ends_optional h (by decide)) fun keyword c₁ hthen => ?_
  have hw₁ {r : Rule} := hw c₁ r hthen.le hthen.stop
  refine Alike.get_bind ?_
  split
  · rename_i hk
    exact Alike.bind (spec.block hthen.stop hk hw₁) fun b c₂ hb => Alike.pure (hthen.append hb)
  split
  · rename_i hempty
    obtain rfl := Written.eq_nil hempty
    exact Alike.fault_bind (Alike.pure ((hthen.fault _).mono zero_le))
  · exact Alike.bind (spec.inlineBlock hthen.stop hw₁) fun b c₂ hb => Alike.pure (hthen.append hb)

theorem alike_loop (h : c.On tokens) (hk : c.kind = .forKw) (hd : weight tokens .expression c ≤ depth) :
    Alike (loop call') (loop call) c (Whole tokens c (node isExpression)) := by
  refine Alike.take h hk rfl fun hfor => ?_
  have hw {c' r} := @weight_lt_of_passed _ _ _ c' r _ hd
  refine Alike.bind (alike_loopHeader spec hfor.gives.stop fun c' r => hw) fun header c₁ hheader => ?_
  refine Alike.bind (alike_body spec hheader.stop fun c' r hle => hw (hheader.le.trans hle)) ?_
  intro inside c₂ hinside
  refine Alike.pure (Whole.done ((hfor.append hheader).append hinside) (fun ss hss => ?_) rfl)
  refine ⟨Or.inl hss, .forExpr, rfl, ?_⟩
  rw [mul_assoc] at hss
  rw [ofNode_of_word hss]

theorem alike_alternate (h : c.On tokens)
    (hw : ∀ c' r, c.index ≤ c'.index → c'.On tokens → weight tokens r c' < depth) :
    Alike (alternate call') (alternate call) c fun es c' =>
      Gives tokens c es c' (node (· == .ifExpr) + Syntax.body) := by
  refine Alike.get_bind ?_
  split
  · rename_i hk
    exact Alike.map (spec.conditional h hk (hw c _ (Nat.le_refl _) h)) fun _ _ hv =>
      hv.gives.mono le_self_add
  · rename_i hk
    refine Alike.map (spec.block h hk (hw c _ (Nat.le_refl _) h)) fun _ _ hb => hb.mono ?_
    refine le_add_of_le_right ?_
    conv_lhs => rw [← one_mul Syntax.block]
    exact mul_le_mul' le_self_add le_rfl
  · refine Alike.after (ends_optional h (by decide)) fun keyword c₁ hthen => ?_
    refine Alike.bind (spec.inlineBlock hthen.stop (hw c₁ _ hthen.le hthen.stop)) fun b c₂ hb => ?_
    exact Alike.pure ((hthen.append hb).mono le_add_self)

theorem alike_conditional (h : c.On tokens) (hk : c.kind = .ifKw) (hd : weight tokens .conditional c ≤ depth) :
    Alike (conditional call') (conditional call) c (Whole tokens c (node (· == .ifExpr))) := by
  refine Alike.take h hk rfl fun hif => ?_
  have hw {c' r} := @weight_lt_of_passed _ _ _ c' r _ hd
  have hstop := hif.gives.stop
  refine Alike.bind (spec.expression hstop (hw (Nat.le_refl _) hstop)) fun cond c₁ hcond => ?_
  refine Alike.bind (alike_body spec hcond.gives.stop fun c' r hle => hw (hcond.gives.le.trans hle)) ?_
  intro conseq c₂ hconseq
  have hle₂ : c.next.index ≤ c₂.index := hcond.gives.le.trans hconseq.le
  have hdone (newline keyword otherwise : Written) (c₅ : Cursor)
      (halt : Gives tokens c₂ (newline ++ (keyword ++ otherwise)) c₅ (1 + Syntax.alternate)) :
      Whole tokens c (node (· == .ifExpr))
        (done .ifExpr (.token c.index ++ cond.written ++ conseq ++ newline ++ keyword ++ otherwise)) c₅ := by
    have hall := hif.append (hcond.gives.append (hconseq.append halt))
    simp only [← append_assoc] at hall
    refine Whole.done hall (fun ss hss => ⟨?_, .ifExpr, rfl, ?_⟩) rfl
    · rw [production, Language.mem_add]
      exact Or.inl (by simpa only [mul_assoc] using hss)
    · rw [ofNode_of_word hss]
  refine Alike.get_bind ?_
  extract_lets withNewline' withNewline
  have afterElse (newline : Written) (c₃ : Cursor) (hk₃ : c₃.kind = .elseKw)
      (hnewline : Gives tokens c₂ newline c₃ (1 + word [.newline])) :
      Alike (withNewline' newline) (withNewline newline) c₃ (Whole tokens c (node (· == .ifExpr))) := by
    refine Alike.after (ends_take? (k := .elseKw) (by decide)) fun keyword c₄ hkeyword => ?_
    rcases hkeyword with ⟨_, rfl, rfl⟩ | ⟨hno, _⟩
    · have helse := gives_next [.elseKw] hnewline.stop (by simp [hk₃]) (by simp [hk₃])
      have hle₄ : c.next.index ≤ c₃.next.index := hle₂.trans (hnewline.le.trans helse.le)
      refine Alike.bind (alike_alternate spec helse.stop fun c' r hle => hw (hle₄.trans hle)) ?_
      intro otherwise c₅ hotherwise
      refine Alike.pure (hdone _ _ _ c₅ ((hnewline.append (helse.append hotherwise)).mono ?_))
      rw [← mul_assoc]
      exact le_add_self
    · exact absurd hk₃ hno
  split
  · rename_i hnl
    exact Alike.takeOf [.newline] hconseq.stop (by simp [hnl.1]) (by simp [hnl.1]) fun hnl' =>
      afterElse _ _ (by simp [hnl.2]) (hnl'.mono le_add_self)
  · refine Alike.pure_bind ?_
    by_cases hk₂ : c₂.kind = .elseKw
    · exact afterElse _ _ hk₂ ((Gives.nothing hconseq.stop).mono le_self_add)
    · refine Alike.after (ends_take? (k := .elseKw) (by decide)) fun keyword c₄ hkeyword => ?_
      rcases hkeyword with ⟨hyes, _⟩ | ⟨_, rfl, rfl⟩
      · exact absurd hyes hk₂
      · exact Alike.pure_bind (Alike.pure (hdone .nil .nil .nil _ ((Gives.nothing hconseq.stop).mono le_self_add)))

theorem alike_expression (h : c.On tokens) (hd : weight tokens .expression c ≤ depth) :
    Alike (expression call') (expression call) c (Term tokens c (node isExpression)) := by
  refine Alike.get_bind ?_
  split
  · rename_i hk
    exact (alike_loop spec h hk hd).mono fun _ _ hv => hv.term
  · rename_i hk
    have hw := weight_lt_of_rank (r := .conditional) hd (Nat.le_refl _) (by decide)
    refine (spec.conditional h hk hw).mono fun _ _ hv => (hv.mono (node_mono fun k hk => ?_)).term
    rw [beq_iff_eq.1 hk]
    rfl
  · exact alike_assignment spec h hd

/-! ## Statements -/

theorem alike_suffixes (hs : Begins tokens c₀ n c Syntax.statement) (hd : weight tokens (.suffixes n) c ≤ depth) :
    Alike (suffixes call' n) (suffixes call n) c (Whole tokens c₀ Syntax.statement) := by
  have hw {c' r} := @weight_lt_of_passed _ _ _ c' r _ hd
  refine Alike.get_bind ?_
  split
  · rename_i hk
    refine Alike.takeOf [.forKw] hs.gives.stop (by simp [hk]) (by simp [hk]) fun hfor => ?_
    refine Alike.bind (alike_loopHeader spec hfor.stop fun c' r => hw) fun header c₁ hheader => ?_
    exact spec.suffixes (hs.trail (Or.inl rfl) (hfor.append hheader) le_add_self) (hw hheader.le hheader.stop)
  · rename_i hk
    refine Alike.takeOf [.ifKw] hs.gives.stop (by simp [hk]) (by simp [hk]) fun hif => ?_
    refine Alike.bind (spec.expression hif.stop (hw (Nat.le_refl _) hif.stop)) fun cond c₁ hcond => ?_
    exact spec.suffixes (hs.trail (Or.inr rfl) (hif.append hcond.gives) le_add_self)
      (hw hcond.gives.le hcond.gives.stop)
  · exact Alike.pure ⟨hs, rfl⟩

theorem alike_statement (h : c.On tokens) (hd : weight tokens .statement c ≤ depth) :
    Alike (statement call') (statement call) c (Term tokens c Syntax.statement) := by
  refine Alike.get_bind ?_
  split
  · rename_i hk
    refine Alike.take h hk rfl fun hret => ?_
    have hstop := hret.gives.stop
    have hw {c' r} := @weight_lt_of_passed _ _ _ c' r _ hd
    have hend (value : Written) (c₁ : Cursor)
        (hvalue : Gives tokens c.next value c₁ (1 + node isExpression)) :
        Alike (call' (.suffixes (.wrap .returnStmt (.token c.index ++ value))))
          (call (.suffixes (.wrap .returnStmt (.token c.index ++ value)))) c₁
          (Term tokens c Syntax.statement) := by
      have hall := (hret.append hvalue).wrap (k := .returnStmt) (m := Syntax.statement) fun ss hss =>
        ⟨hss, .node .returnStmt, rfl, by rw [Symbol.ofNode_of_ne (by decide) (by decide)]⟩
      exact (spec.suffixes hall (hw hvalue.le hvalue.stop)).mono fun _ _ hv => hv.term
    refine Alike.get_bind ?_
    extract_lets withValue' withValue
    split
    · refine Alike.map_bind (spec.expression hstop (hw (Nat.le_refl _) hstop)) ?_
      exact fun value c₁ hvalue => hend _ c₁ (hvalue.gives.mono le_add_self)
    · exact Alike.pure_bind (hend _ _ ((Gives.nothing hstop).mono le_self_add))
  · have hw := weight_lt_of_rank (r := .expression) hd (Nat.le_refl _) (by decide)
    refine Alike.bind (spec.expression h hw) fun stmt c₁ hstmt => ?_
    have ht := hstmt.mono node_isExpression_le_statement
    cases stmt with
    | node n =>
      exact (spec.suffixes (ht.begins rfl) (weight_lt_of_rank hd ht.gives.le (by simp [Rule.rank]))).mono
        fun _ _ hv => hv.term
    | part w => exact Alike.pure ht

theorem alike_statements (h : c.On tokens) {close : Kind}
    (hclose : close.isLayout = true) (hd : weight tokens (.statements close) c ≤ depth) :
    Alike (statements call' close) (statements call close) c fun p c' => Gives tokens c p.events c' (itemsFrom c.kind) ∧
      (c'.kind = close ∨ c'.kind = .eof) ∧ (c.kind.isLayout = false → reachesToken p.events = true) := by
  refine Alike.get_bind ?_
  extract_lets kind
  split
  · rename_i hk
    have hk : c.kind = .newline ∨ c.kind = .semicolon := hk
    have hne : c.kind ≠ .eof := by rcases hk with hk | hk <;> simp [hk]
    refine Alike.takeOf [c.kind] h (mem_singleton_self _) hne fun hdiv => ?_
    have hw := weight_lt_of_passed (r := .statements close) hd (Nat.lt_succ_self c.index) hdiv.stop
    refine Alike.bind (spec.statements hdiv.stop hclose hw) ?_
    rintro more c₁ ⟨hmore, hend, _⟩
    refine Alike.pure ⟨(hdiv.append hmore).mono ?_, hend, fun _ => rfl⟩
    rintro _ ⟨_, ⟨k, hmem, rfl⟩, row, hrow, rfl⟩
    rw [mem_singleton.1 hmem]
    refine mem_itemsFrom_cons ?_ (fun hl => by simp [Symbol.isSubstantial, hl]) hrow.1
    rcases hk with hk | hk <;> rw [hk] <;> rfl
  split
  · rename_i hk
    have hlayout : c.kind.isLayout = true := by
      rcases hk with hk | hk <;> rw [show c.kind = _ from hk]
      · exact hclose
      · rfl
    refine Alike.pure ⟨(Gives.nothing h).mono ?_, hk, fun hl => ?_⟩
    · rintro _ rfl
      exact ⟨fun s hs => (by cases hs), fun hl => by simp [hlayout] at hl⟩
    · simp [hlayout] at hl
  have hw := weight_lt_of_rank (r := .statement) hd (Nat.le_refl _) (by simp [Rule.rank])
  refine Alike.bind (spec.statement h hw) fun stmt c₁ hterm => Alike.get_bind ?_
  have hstmt := hterm.gives
  -- A statement and what follows it.
  have hlang (l : Language Symbol) (hl : l ≤ items) : Syntax.statement * l ≤ itemsFrom c.kind := by
    rintro _ ⟨_, ⟨s, hs, rfl⟩, row, hrow, rfl⟩
    exact mem_itemsFrom_cons (isItem_of_isStatement hs) (fun _ => isSubstantial_of_isStatement hs) (hl hrow)
  extract_lets next withDivider' withDivider
  split
  · rename_i hnext
    refine Alike.pure ⟨hstmt.mono ?_, hnext, hterm.code⟩
    rw [← mul_one Syntax.statement]
    exact hlang 1 (by rintro _ rfl s hs; cases hs)
  rename_i hnext
  have hne : c₁.kind ≠ .eof := fun he => hnext (Or.inr he)
  have afterDivider (divider : Written) (c₂ : Cursor) (hi : c₁.index < c₂.index)
      (hdiv : Gives tokens c₁ divider c₂ (word [.newline, .semicolon])) :
      Alike (withDivider' divider) (withDivider divider) c₂ fun p c' => Gives tokens c p.events c' (itemsFrom c.kind) ∧
        (c'.kind = close ∨ c'.kind = .eof) ∧
        (c.kind.isLayout = false → reachesToken p.events = true) := by
    have hw := weight_lt_of_passed (r := .statements close) hd (hstmt.le.trans_lt hi) hdiv.stop
    refine Alike.bind (spec.statements hdiv.stop hclose hw) ?_
    rintro more c₃ ⟨hmore, hend, _⟩
    refine Alike.pure ⟨?_, hend, fun hl => ?_⟩
    · have hall := (hstmt.append (hdiv.append hmore)).mono (hlang _ ?_)
      · rwa [← append_assoc] at hall
      · rintro _ ⟨_, ⟨k, hmem, rfl⟩, row, hrow, rfl⟩
        refine forall_mem_cons.2 ⟨?_, hrow.1⟩
        simp only [mem_cons, not_mem_nil, or_false] at hmem
        rcases hmem with rfl | rfl <;> rfl
    · exact reachesToken_append (reachesToken_append (hterm.code hl) _) _
  split
  · rename_i hk
    exact Alike.takeOf _ hstmt.stop (by simpa using hk) hne fun hdiv => afterDivider _ _ (Nat.lt_succ_self _) hdiv
  split
  iterate 2
    · exact Alike.after (ends_unexpected hstmt.stop _) fun divider c₂ hdiv =>
        afterDivider _ _ (hdiv.2 hne).1 (hdiv.1.mono zero_le)

theorem alike_block (hopens : Opens tokens) (h : c.On tokens)
    (hk : c.kind = .indent) (hd : weight tokens .block c ≤ depth) :
    Alike (block call') (block call) c fun p c' => Gives tokens c p.events c' Syntax.block := by
  refine Alike.takeOf [.indent] h (by simp [hk]) (by simp [hk]) fun hopen => ?_
  have hcode : c.next.kind.isLayout = false := by
    rw [hopen.stop.kind]
    exact hopens c.index (h.kind ▸ hk)
  have hw := weight_lt_of_passed (r := .statements .outdent) hd (Nat.lt_succ_self c.index) hopen.stop
  refine Alike.bind (spec.statements hopen.stop rfl hw) fun inside c₁ ⟨hinside, _, htoken⟩ => ?_
  refine Alike.after (ends_expect hinside.stop (by decide) _) fun closing c₂ hclose => ?_
  refine Alike.pure (((hopen.append hinside).append hclose).wrap ?_ fun ss hss => ⟨?_, .block, rfl, ?_⟩)
  · -- Behind the opening token, which is layout, comes code.
    have hfirst := (hinside.append hclose).codeFirst hcode (reachesToken_append (htoken hcode) _)
    obtain ⟨f, he, _⟩ := hinside.append hclose
    rw [he, Forest.ofEvents_events] at hfirst
    rw [append_assoc, he]
    exact (congrArg _ (Forest.ofEvents_events (.token c.index f))).mpr (Or.inr hfirst)
  · obtain ⟨_, ⟨_, ⟨k, hk, rfl⟩, row, hrow, rfl⟩, _, ⟨k', hk', rfl⟩, rfl⟩ := hss
    obtain ⟨s, hs, hsub⟩ := hrow.2 hcode
    rw [mem_singleton.1 hk, mem_singleton.1 hk']
    refine ⟨fun t ht => ?_, s, by simp [hs], hsub⟩
    simp only [cons_append, nil_append, mem_cons, mem_append, not_mem_nil, or_false] at ht
    rcases ht with rfl | ht | rfl
    · rfl
    · exact hrow.1 t ht
    · rfl
  · rw [Symbol.ofNode_of_ne (by decide) (by decide)]

theorem alike_inlineRest (h : c.On tokens) (hd : weight tokens .inlineRest c ≤ depth) :
    Alike (inlineRest call') (inlineRest call) c fun p c' => Gives tokens c p.events c' items ∧
      (c.kind ≠ .semicolon → p.events = []) := by
  refine Alike.get_bind ?_
  split
  · rename_i hk
    refine Alike.takeOf [.semicolon] h (by simp [hk.1]) (by simp [hk.1]) fun hdiv => ?_
    have hw {c' r} := @weight_lt_of_passed _ _ _ c' r _ hd
    refine Alike.bind (spec.statement hdiv.stop (hw (Nat.le_refl _) hdiv.stop)) fun stmt c₁ hstmt => ?_
    have hw₁ := hw (r := .inlineRest) hstmt.gives.le hstmt.gives.stop
    refine Alike.bind (spec.inlineRest hstmt.gives.stop hw₁) fun more c₂ hmore => ?_
    refine Alike.pure ⟨((hdiv.append hstmt.gives).append hmore.1).mono ?_, fun hno => absurd hk.1 hno⟩
    rintro _ ⟨_, ⟨_, ⟨k, hk, rfl⟩, _, ⟨s, hs, rfl⟩, rfl⟩, row, hrow, rfl⟩
    rw [mem_singleton.1 hk]
    exact forall_mem_cons.2 ⟨rfl, forall_mem_cons.2 ⟨isItem_of_isStatement hs, hrow⟩⟩
  · exact Alike.pure ⟨(Gives.nothing h).mono (by rintro _ rfl s hs; cases hs), fun _ => rfl⟩

theorem alike_inlineBlock (h : c.On tokens) (hd : weight tokens .inlineBlock c ≤ depth) :
    Alike (inlineBlock call') (inlineBlock call) c fun p c' => Gives tokens c p.events c' Syntax.block := by
  have hw := weight_lt_of_rank (r := .statement) hd (Nat.le_refl _) (by decide)
  refine Alike.bind (spec.statement h hw) fun stmt c₁ hterm => ?_
  have hstmt := hterm.gives
  have hw' := weight_lt_of_rank (r := .inlineRest) hd hstmt.le (by decide)
  refine Alike.bind (spec.inlineRest hstmt.stop hw') fun more c₂ ⟨hmore, hnone⟩ => ?_
  refine Alike.pure ((hstmt.append hmore).wrap ?_ fun ss hss => ⟨?_, .block, rfl, ?_⟩)
  · cases hl : c.kind.isLayout with
    | false => exact (hstmt.append hmore).codeFirst hl (reachesToken_append (hterm.code hl) _)
    | true =>
      -- Nothing is read in front of layout.
      obtain ⟨hes, hi⟩ := hterm.layout hl
      have hk : c₁.kind = c.kind := by rw [hstmt.stop.kind, h.kind, hi]
      rw [hes, hnone fun hsemi => by simp [← hk, hsemi, Kind.isLayout] at hl]
      trivial
  · obtain ⟨_, ⟨s, hs, rfl⟩, row, hrow, rfl⟩ := hss
    exact ⟨forall_mem_cons.2 ⟨isItem_of_isStatement hs, hrow⟩, s, by simp, isSubstantial_of_isStatement hs⟩
  · rw [Symbol.ofNode_of_ne (by decide) (by decide)]

end Rules

/-! ## All rules together -/

/-- Reads by a rule, with calls that are nested deeper read by `base`. -/
def parseOver (base : Rule → Parser Piece) : (depth : Nat) → Rule → Parser Piece
  | 0 => base
  | depth + 1 => Grammar.read (parseOver base depth)

/-- Whatever depth is left, it is enough for the rules that weigh less, and it does not matter what is beyond. -/
theorem spec_parse (hopens : Opens tokens) (base : Rule → Parser Piece) (depth : Nat) :
    Spec tokens (parseOver base depth) (parse depth) depth := by
  induction depth with
  | zero => constructor <;> intros <;> omega
  | succ depth spec =>
    constructor
    case statements => exact fun h hc hd => alike_statements spec h hc (Nat.le_of_lt_succ hd)
    case statement => exact fun h hd => alike_statement spec h (Nat.le_of_lt_succ hd)
    case suffixes => exact fun h hd => alike_suffixes spec h (Nat.le_of_lt_succ hd)
    case block => exact fun h hk hd => alike_block spec hopens h hk (Nat.le_of_lt_succ hd)
    case inlineBlock => exact fun h hd => alike_inlineBlock spec h (Nat.le_of_lt_succ hd)
    case inlineRest => exact fun h hd => alike_inlineRest spec h (Nat.le_of_lt_succ hd)
    case expression => exact fun h hd => alike_expression spec h (Nat.le_of_lt_succ hd)
    case conditional => exact fun h hk hd => alike_conditional spec h hk (Nat.le_of_lt_succ hd)
    case binary => exact fun h hd => alike_binary spec h (Nat.le_of_lt_succ hd)
    case operators => exact fun h hd => alike_operators spec h (Nat.le_of_lt_succ hd)
    case unary => exact fun h hd => alike_unary spec h (Nat.le_of_lt_succ hd)
    case attached => exact fun h hd => alike_attached spec h (Nat.le_of_lt_succ hd)
    case attachments => exact fun h hd => alike_attachments spec h (Nat.le_of_lt_succ hd)
    case primary => exact fun h hd => alike_primary spec h (Nat.le_of_lt_succ hd)
    case members => exact fun h hd => alike_members spec h (Nat.le_of_lt_succ hd)

/-- A stream with the end mark at its end and nowhere else, code in front of all layout, and code behind
every opening of a block. -/
structure Regular (tokens : List Token) : Prop where
  opens : Opens tokens
  nonempty : tokens ≠ []
  eof_iff : ∀ i < tokens.length, kindAt tokens i = .eof ↔ i = tokens.length - 1
  first : (kindAt tokens 0).isLayout = true → kindAt tokens 0 = .eof

/-- A regular stream can be read from its start. -/
theorem Regular.on_start (hreg : Regular tokens) (text : List Char) : Cursor.On tokens { text, rest := tokens } := by
  have hlen := length_pos_iff.2 hreg.nonempty
  have hlast := (hreg.eof_iff (tokens.length - 1) (by omega)).2 rfl
  exact ⟨rfl, ⟨_, Nat.zero_le _, by omega, hlast⟩, trivial⟩

/-- The depth that `program` starts with. -/
theorem weight_start (tokens : List Token) (text : List Char) :
    weight tokens (.statements .eof) { text, rest := tokens } < callsPerToken * (tokens.length + 1) := by
  simp only [weight, callsPerToken, Rule.rank]
  omega

/-- The depth that `program` starts with is enough for what it reads. -/
theorem parseOver_eq (hreg : Regular tokens) (text : List Char) (base : Rule → Parser Piece) :
    parseOver base (callsPerToken * (tokens.length + 1)) (.statements .eof) { text, rest := tokens } =
      parse (callsPerToken * (tokens.length + 1)) (.statements .eof) { text, rest := tokens } :=
  ((spec_parse hreg.opens base _).statements (hreg.on_start text) rfl (weight_start tokens text)).1

/-- The events of a program are those of a block of all tokens before the end mark, with faults at tokens of
the stream; without a fault the block is grammatical. -/
theorem program_eq (hreg : Regular tokens) (text : List Char) :
    ∃ f, (program text tokens).1 = (Forest.node .program (.node .block f .nil) .nil).events ∧
      f.tokens = List.range' 0 (tokens.length - 1) ∧
      f.CodeFirst (kindAt tokens) ∧ f.Anchored (kindAt tokens) ∧
      Reported tokens (tokens.length - 1) (program text tokens).2.reverse ∧
      ((program text tokens).2 = [] →
        f.Grammatical (kindAt tokens) id ∧ row tokens f ∈ items) := by
  have hlen := length_pos_iff.2 hreg.nonempty
  have hon := hreg.on_start text
  have hspec := ((spec_parse hreg.opens (parse 0) _).statements hon rfl (weight_start tokens text)).2
  simp only [Ends, program_eq_root, root] at hspec ⊢
  generalize parse _ (.statements .eof) { text, rest := tokens } = out at hspec ⊢
  obtain ⟨⟨f, he, hr, hf⟩, hend, htoken⟩ := hspec
  have hindex : out.2.index = tokens.length - 1 := by
    refine (hreg.eof_iff _ hr.stop.lt_length).1 ?_
    rw [← hr.stop.kind]
    exact hend.elim id id
  have hall : f.tokens = List.range' 0 (tokens.length - 1) := by
    rw [← hindex]
    exact hr.tokens_eq
  refine ⟨f, ?_, hall, ?_, hr.anchored, ?_, fun hc => ?_⟩
  · show wrap .program (wrap .block out.1.events) = _
    rw [he]
    rfl
  · cases hl : (kindAt tokens 0).isLayout with
    | false =>
      have hcode := hon.kind.symm ▸ hl
      have := Gives.codeFirst ⟨f, he, hr, hf⟩ hcode (htoken hcode)
      rwa [he, Forest.ofEvents_events] at this
    | true =>
      -- Without code in front there is nothing but the end mark.
      have hnone : tokens.length - 1 = 0 := ((hreg.eof_iff 0 hlen).1 (hreg.first hl)).symm
      refine Forest.codeFirst_of_layout fun i hi => ?_
      rw [hall, hnone] at hi
      cases hi
  · show Reported tokens _ out.2.faults.reverse.reverse
    rw [reverse_reverse, ← hindex]
    exact hr.stop.reported
  · obtain ⟨hgr, hrow⟩ := hf (reverse_eq_nil_iff.1 hc)
    exact ⟨hgr, hrow.1⟩

end Respell.Grammar
