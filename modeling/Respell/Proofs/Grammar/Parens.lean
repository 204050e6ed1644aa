import Respell.Tree.Grammar
import Respell.Proofs.Grammar.Production

/-!
Brackets of grammatical forests.

A node opens and closes its own brackets, so a scan that counts them comes out of a node at the depth at
which it went in.  The parenthesis that `arrowFollows` finds behind a list of parameters is therefore
the one that closes the list.
-/

namespace Respell

open List Syntax
open scoped Computability

/-! ## Depths -/

section Depths

variable (square : Bool)

/-- A bracket that opens; square ones count if `square`. -/
def opens : Kind → Bool
  | .leftParen => true
  | .leftBracket => square
  | _ => false

def closes : Kind → Bool
  | .rightParen => true
  | .rightBracket => square
  | _ => false

/-- The depth behind a row, unless it closes a bracket that it did not open or holds the end. -/
def nesting : (depth : Nat) → List Symbol → Option Nat
  | depth, [] => some depth
  | depth, s :: row =>
    match s with
    | .token k =>
      if opens square k then nesting (depth + 1) row
      else if closes square k then if depth ≤ 1 then none else nesting (depth - 1) row
      else if k = .eof then none
      else nesting depth row
    | _ => nesting depth row

end Depths

variable {square : Bool}

theorem nesting_append (d : Nat) (xs ys : List Symbol) :
    nesting square d (xs ++ ys) = (nesting square d xs).bind fun d' => nesting square d' ys := by
  induction xs generalizing d with
  | nil => rfl
  | cons s xs ih =>
    cases s with
    | token k =>
      simp only [cons_append, nesting]
      split
      · exact ih _
      · split
        iterate 2
          · split
            · rfl
            · exact ih _
    | node k => exact ih _
    | trailing k => exact ih _

/-- What was open before a row is open behind it. -/
theorem nesting_pos {d d' : Nat} {row : List Symbol} (hd : 0 < d) (h : nesting square d row = some d') : 0 < d' := by
  induction row generalizing d with
  | nil =>
    cases Option.some.inj h
    exact hd
  | cons s row ih =>
    cases s with
    | token k =>
      simp only [nesting] at h
      split at h
      · exact ih (Nat.succ_pos d) h
      · split at h
        · split at h
          · cases h
          · exact ih (by omega) h
        · split at h
          · cases h
          · exact ih hd h
    | node k => exact ih hd h
    | trailing k => exact ih hd h

/-- An element that is no bracket and not the end. -/
def Symbol.isPlain (square : Bool) : Symbol → Bool
  | .token k => !opens square k && !closes square k && k != .eof
  | _ => true

theorem Symbol.isPlain_ofNode (square : Bool) (k : Kind) (row : List Symbol) :
    (ofNode k row).isPlain square = true := by
  unfold ofNode
  split
  · split <;> rfl
  · rfl

theorem nesting_cons_of_isPlain {s : Symbol} (h : s.isPlain square = true) (d : Nat) (row : List Symbol) :
    nesting square d (s :: row) = nesting square d row := by
  cases s with
  | token k =>
    simp only [Symbol.isPlain, Bool.and_eq_true, Bool.not_eq_true', bne_iff_ne] at h
    simp [nesting, h]
  | node k => rfl
  | trailing k => rfl

namespace Syntax

/-- Rows that leave every depth as it is. -/
def level (square : Bool) : Language Symbol := {row | ∀ d, 0 < d → nesting square d row = some d}

theorem plain_le_level : {row | ∀ s ∈ row, s.isPlain square = true} ≤ level square := by
  intro row hrow d hd
  induction row with
  | nil => rfl
  | cons s row ih =>
    obtain ⟨hs, hrow⟩ := forall_mem_cons.1 hrow
    rw [nesting_cons_of_isPlain hs]
    exact ih hrow

theorem word_le_level {kinds : List Kind} (h : ∀ k ∈ kinds, (Symbol.token k).isPlain square = true) :
    word kinds ≤ level square := by
  rintro _ ⟨k, hk, rfl⟩
  exact plain_le_level fun s hs => mem_singleton.1 hs ▸ h k hk

theorem node_le_level (p : Kind → Bool) : node p ≤ level square := by
  rintro _ ⟨k, _, rfl⟩
  exact plain_le_level fun s hs => mem_singleton.1 hs ▸ rfl

theorem one_le_level : 1 ≤ level square := by
  rintro _ rfl d hd
  rfl

variable {l : Language Symbol}

theorem mul_le_level {m : Language Symbol} (hl : l ≤ level square) (hm : m ≤ level square) : l * m ≤ level square := by
  rintro _ ⟨xs, hxs, ys, hys, rfl⟩ d hd
  change nesting square d (xs ++ ys) = _
  rw [nesting_append, hl hxs d hd]
  exact hm hys d hd

theorem add_le_level {m : Language Symbol} (hl : l ≤ level square) (hm : m ≤ level square) : l + m ≤ level square :=
  fun _ h => h.elim (hl ·) (hm ·)

theorem kstar_le_level (h : l ≤ level square) : l∗ ≤ level square := by
  rintro _ ⟨rows, rfl, hrows⟩
  induction rows with
  | nil => exact one_le_level rfl
  | cons row rows ih =>
    obtain ⟨hrow, hrows⟩ := forall_mem_cons.1 hrows
    exact mul_le_level h le_rfl (Language.append_mem_mul hrow (ih hrows))

theorem enclosed_le_level {k k' : Kind} (h : l ≤ level square) (hk : opens square k = true)
    (hk' : opens square k' = false ∧ closes square k' = true) : word [k] * l * word [k'] ≤ level square := by
  rintro _ ⟨_, ⟨_, ⟨_, hw, rfl⟩, row, hrow, rfl⟩, _, ⟨_, hw', rfl⟩, rfl⟩ d hd
  cases mem_singleton.1 hw
  cases mem_singleton.1 hw'
  change nesting square d ([.token k] ++ row ++ [.token k']) = _
  have hclose : nesting square (d + 1) [.token k'] = some d := by
    simp [nesting, hk']
    omega
  rw [append_assoc, nesting_append]
  have hopen : nesting square d [.token k] = some (d + 1) := by simp [nesting, hk]
  rw [hopen, Option.bind_some, nesting_append, h hrow _ (Nat.succ_pos d), Option.bind_some, hclose]

theorem items_le_level : items ≤ level square := by
  refine le_trans (fun row hrow => ?_) plain_le_level
  intro s hs
  have := hrow s hs
  cases s with
  | token k => cases k <;> first | rfl | cases this
  | node k => rfl
  | trailing k => rfl

theorem separated_le_level (h : l ≤ level square) : separated l ≤ level square :=
  mul_le_level (kstar_le_level (mul_le_level h (word_le_level (by simp [Symbol.isPlain, opens, closes]))))
    (add_le_level one_le_level h)

theorem loopHeader_le_level : Syntax.loopHeader ≤ level square := by
  unfold Syntax.loopHeader
  apply_rules [add_le_level, mul_le_level, word_le_level, node_le_level, one_le_level]
  all_goals cases square <;> decide

theorem body_le_level : Syntax.body ≤ level square :=
  mul_le_level (add_le_level one_le_level (word_le_level (by simp [Symbol.isPlain, opens, closes]))) (node_le_level _)

theorem alternate_le_level : Syntax.alternate ≤ level square := by
  unfold Syntax.alternate
  apply_rules [add_le_level, mul_le_level, word_le_level, node_le_level, one_le_level, body_le_level]
  all_goals cases square <;> decide

/-- A list between square brackets, whether they count or not. -/
theorem squared_le_level (h : l ≤ level square) : word [.leftBracket] * l * word [.rightBracket] ≤ level square := by
  cases square with
  | false => exact mul_le_level (mul_le_level (word_le_level (by decide)) h) (word_le_level (by decide))
  | true => exact enclosed_le_level h rfl ⟨rfl, rfl⟩

/-- A node comes out at the depth at which it went in. -/
theorem production_le_level (k : Kind) : production k ≤ level square := by
  have hindex : production .indexExpr =
      node isAttached * (word [.leftBracket] * node isExpression * word [.rightBracket]) := by
    simp only [production, mul_assoc]
  by_cases hk : k = .indexExpr
  · rw [hk, hindex]
    exact mul_le_level (node_le_level _) (squared_le_level (node_le_level _))
  unfold production
  split
  all_goals
    try unfold functionHead
    first
    | exact zero_le
    | exact absurd rfl hk
    | exact inf_le_left.trans items_le_level
    | exact enclosed_le_level (node_le_level _) rfl ⟨rfl, rfl⟩
    | exact enclosed_le_level (separated_le_level (node_le_level _)) rfl ⟨rfl, rfl⟩
    | exact squared_le_level (separated_le_level (node_le_level _))
    | (apply_rules [add_le_level, loopHeader_le_level, body_le_level, alternate_le_level,
        separated_le_level, mul_le_level, word_le_level, node_le_level, one_le_level];
        all_goals cases square <;> decide)

end Syntax

/-! ## Scans -/

/-- A row in two halves comes from a forest in two halves. -/
theorem Forest.exists_append_of_symbols {kinds : Nat → Kind} {f : Forest Kind} {xs ys : List Symbol}
    (h : f.symbols kinds id = xs ++ ys) :
    ∃ g g' : Forest Kind, f = g.append g' ∧ g.symbols kinds id = xs ∧ g'.symbols kinds id = ys := by
  induction xs generalizing f with
  | nil => exact ⟨.nil, f, rfl, rfl, h⟩
  | cons x xs ih =>
    cases f with
    | nil => cases h
    | token i rest =>
      obtain ⟨hx, hrest⟩ := List.cons.inj h
      obtain ⟨g, g', rfl, hg, hg'⟩ := ih hrest
      exact ⟨.token i g, g', rfl, congrArg₂ _ hx hg, hg'⟩
    | node k inside rest =>
      obtain ⟨hx, hrest⟩ := List.cons.inj h
      obtain ⟨g, g', rfl, hg, hg'⟩ := ih hrest
      exact ⟨.node k inside g, g', rfl, congrArg₂ _ hx hg, hg'⟩

namespace Grammar

variable {tokens : List Token} {f : Forest Kind} {a n d e : Nat}

/-- The token at the front of what is left. -/
theorem drop_eq_cons (hk : kindAt tokens a ≠ .eof) :
    ∃ t, t.kind = kindAt tokens a ∧ tokens.drop a = t :: tokens.drop (a + 1) := by
  rcases Nat.lt_or_ge a tokens.length with hlt | hge
  · exact ⟨tokens[a], by simp [kindAt, hlt], drop_eq_getElem_cons hlt⟩
  · exact absurd (by simp [kindAt, getElem?_eq_none hge]) hk

/-- The scan passes a token and goes to the depth behind it. -/
theorem arrowFollows_step (h : nesting false d [.token (kindAt tokens a)] = some e) :
    arrowFollows d (tokens.drop a) = arrowFollows e (tokens.drop (a + 1)) := by
  have heof : kindAt tokens a ≠ .eof := fun hk => by simp [nesting, opens, closes, hk] at h
  obtain ⟨t, ht, heq⟩ := drop_eq_cons heof
  rw [heq, arrowFollows.eq_def]
  simp only [ht]
  generalize kindAt tokens a = k at h
  cases k <;> simp_all [nesting, opens, closes]

/-- The scan ends at the parenthesis that closes the outermost one. -/
theorem arrow_of_rightParen (hk : kindAt tokens a = .rightParen)
    (h : arrowFollows 1 (tokens.drop a) = true) : kindAt tokens (a + 1) ∈ [Kind.arrow, .fatArrow] := by
  obtain ⟨t, ht, heq⟩ := drop_eq_cons (a := a) (by rw [hk]; decide)
  rw [heq, arrowFollows.eq_def] at h
  simp only [ht, hk, Nat.le_refl, if_true] at h
  split at h
  · rename_i next more hrest
    have hnext : kindAt tokens (a + 1) = next.kind := by
      rw [kindAt, ← head?_drop, hrest]
      rfl
    simpa [hnext] using h
  · cases h

/-- The scan goes on behind a grammatical forest, at the depth of its row. -/
theorem arrowFollows_forest (hf : f.Grammatical (kindAt tokens) id) (ht : f.tokens = List.range' a n)
    (hd : 0 < d) (h : nesting false d (f.symbols (kindAt tokens) id) = some e) :
    arrowFollows d (tokens.drop a) = arrowFollows e (tokens.drop (a + n)) := by
  induction f generalizing a n d e with
  | nil =>
    cases Option.some.inj h
    cases n with
    | zero => rfl
    | succ n => cases ht
  | token i rest ih =>
    cases n with
    | zero => cases ht
    | succ n =>
      obtain ⟨rfl, hrest⟩ := List.cons.inj ht
      rw [Forest.symbols, ← singleton_append, nesting_append] at h
      obtain ⟨d₁, hstep, h⟩ := Option.bind_eq_some_iff.1 h
      rw [arrowFollows_step hstep, ih hf hrest (nesting_pos hd hstep) h, Nat.add_right_comm, Nat.add_assoc]
  | node k inside rest ihInside ih =>
    obtain ⟨m, hm, hinside, hrest⟩ := Forest.range'_split ht
    have hlevel : nesting false d _ = some d := production_le_level _ hf.1 d hd
    have hnode := Symbol.isPlain_ofNode false k (inside.symbols (kindAt tokens) id)
    have hmore := ih hf.2.2 hrest hd ((nesting_cons_of_isPlain hnode d _).symm.trans h)
    rw [ihInside hf.2.1 hinside hd hlevel, hmore, Nat.add_assoc, Nat.add_sub_cancel' hm]

/-- A node alone, by its symbol. -/
theorem exists_node_of_row {k : Kind} (h : f.symbols (kindAt tokens) id = [.node k]) :
    ∃ inside, f = .node k inside .nil := by
  cases f with
  | nil => cases h
  | token i rest => cases h
  | node l inside rest =>
    obtain ⟨hl, hrest⟩ := List.cons.inj h
    have hl : l = k := by
      unfold Symbol.ofNode at hl
      split at hl
      · split at hl <;> cases hl
        rfl
      · cases hl
        rfl
    cases rest with
    | nil => exact ⟨inside, by rw [hl]⟩
    | token i rest => cases hrest
    | node l inside rest => cases hrest

/-- A token alone, by its symbol. -/
theorem exists_token_of_row {k : Kind} (h : f.symbols (kindAt tokens) id = [.token k]) :
    ∃ i, f = .token i .nil ∧ kindAt tokens i = k := by
  cases f with
  | nil => cases h
  | token i rest =>
    obtain ⟨hi, hrest⟩ := List.cons.inj h
    cases Symbol.token.inj hi
    cases rest with
    | nil => exact ⟨i, rfl, rfl⟩
    | token i rest => cases hrest
    | node l inside rest => cases hrest
  | node l inside rest =>
    have hl := (List.cons.inj h).1
    unfold Symbol.ofNode at hl
    split at hl
    · split at hl <;> cases hl
    · cases hl

/-- The arrow that was looked for stands behind the parameters. -/
theorem arrow_of_arrowFollows (hf : f.Grammatical (kindAt tokens) id)
    (hrow : f.symbols (kindAt tokens) id ∈ node (· == .paramList)) (ht : f.tokens = List.range' a n)
    (h : arrowFollows 0 (tokens.drop a) = true) : kindAt tokens (a + n) ∈ [Kind.arrow, .fatArrow] := by
  obtain ⟨k, hk, hrow⟩ := hrow
  obtain ⟨inside, rfl⟩ := exists_node_of_row hrow
  rw [beq_iff_eq] at hk
  subst hk
  obtain ⟨⟨_, ⟨_, ⟨k, hk, rfl⟩, row, hmiddle, rfl⟩, _, ⟨k', hk', rfl⟩, hinside⟩, hgr, -⟩ := hf
  cases mem_singleton.1 hk
  cases mem_singleton.1 hk'
  -- The list in three parts: the opening parenthesis, the members, and the closing one.
  obtain ⟨g, last, rfl, hg, hlast⟩ := Forest.exists_append_of_symbols hinside.symm
  obtain ⟨first, middle, rfl, hfirst, hmid⟩ := Forest.exists_append_of_symbols hg
  obtain ⟨i, rfl, hi⟩ := exists_token_of_row hfirst
  obtain ⟨j, rfl, hj⟩ := exists_token_of_row hlast
  have htokens : i :: (middle.tokens ++ [j]) = List.range' a n := by
    simpa [Forest.tokens, Forest.append] using ht
  cases n with
  | zero => cases htokens
  | succ n =>
    obtain ⟨rfl, htokens⟩ := List.cons.inj htokens
    obtain ⟨m, hm, hmiddle', hj'⟩ := Forest.range'_split htokens
    have hlevel : nesting false 1 row = some 1 :=
      separated_le_level (node_le_level _) hmiddle 1 Nat.zero_lt_one
    rw [arrowFollows_step (e := 1) (by rw [hi]; rfl),
      arrowFollows_forest (by simpa [Forest.append, Forest.Grammatical] using hgr) hmiddle'
        Nat.zero_lt_one (hmid ▸ hlevel)] at h
    have hone : n - m = 1 := by simpa using (congrArg List.length hj').symm
    obtain rfl : j = i + 1 + m := by simpa [hone] using hj'
    rw [show i + (n + 1) = i + 1 + m + 1 by omega]
    exact arrow_of_rightParen hj h

end Grammar

end Respell
