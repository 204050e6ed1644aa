import Respell.Patch.Site
import Respell.Proofs.Lexing.Comments
import Respell.Proofs.Tree.Items
import Respell.Proofs.Tree.Located

/-!
Reading a stretch of a text by itself.

A stretch that starts with a token of code and ends with one is a row of pieces of the text.  Read by itself it
falls into the same pieces,

    text      … │ for x in list # c │ …
    stretch       for x in list           the same tokens and comments, counted from its start

so whether an expression holds a keyword can be seen from its own text (`Lexed.slices_ofText`): brackets, blocks and
lines around it, and what stands behind it, make no difference.
-/

namespace Respell

open List Text

variable {text : List Char}

/-! ## Further on -/

/-- The span further on by `n` bytes. -/
def Span.shift (n : Nat) (s : Span) : Span := ⟨n + s.start, n + s.stop⟩

def Token.shift (n : Nat) (t : Token) : Token := ⟨t.kind, t.range.shift n⟩

def Comment.shift (n : Nat) (c : Comment) : Comment := ⟨c.kind, c.range.shift n⟩

namespace Piece

theorem tokens_shift (n offset : Nat) (ps : List Piece) :
    located token? (n + offset) ps = (located token? offset ps).map (Token.shift n) := by
  refine located_map (fun offset p => ?_) offset ps
  cases p with
  | space c => rfl
  | comment kind chars => rfl
  | code kind chars => simp [token?, Token.shift, Span.shift, Nat.add_assoc]

theorem comments_shift (n offset : Nat) (ps : List Piece) :
    located comment? (n + offset) ps = (located comment? offset ps).map (Comment.shift n) := by
  refine located_map (fun offset p => ?_) offset ps
  cases p with
  | space c => rfl
  | comment kind chars => simp [comment?, Comment.shift, Span.shift, Nat.add_assoc]
  | code kind chars => rfl

/-! ## Rows of pieces -/

variable {ps : List Piece}

/-- One of the things that a row of pieces gives comes from one of the pieces. -/
theorem located_split {α : Type} {give : Nat → Piece → Option α} {offset : Nat} {xs ys : List α} {x : α}
    (h : located give offset ps = xs ++ x :: ys) :
    ∃ qs p rs, ps = qs ++ p :: rs ∧ located give offset qs = xs ∧
      give (offset + byteLength (Piece.text qs)) p = some x ∧
      located give (offset + byteLength (Piece.text (qs ++ [p]))) rs = ys := by
  induction ps generalizing offset xs with
  | nil => simp [located] at h
  | cons p ps ih =>
    rw [located] at h
    -- Either this piece gives `x`, or it gives nothing or something in front of it.
    have hlater {zs : List α} (hzs : (give offset p).toList ++ zs = xs)
        (hps : located give (offset + byteLength p.chars) ps = zs ++ x :: ys) :
        ∃ qs p' rs, p :: ps = qs ++ p' :: rs ∧ located give offset qs = xs ∧
          give (offset + byteLength (Piece.text qs)) p' = some x ∧
          located give (offset + byteLength (Piece.text (qs ++ [p']))) rs = ys := by
      obtain ⟨qs, p', rs, rfl, hqs, hp', hrs⟩ := ih hps
      refine ⟨p :: qs, p', rs, rfl, ?_, ?_, ?_⟩
      · rw [located, hqs, hzs]
      · rw [text_cons, byteLength_append, ← Nat.add_assoc]
        exact hp'
      · rw [cons_append, text_cons, byteLength_append, ← Nat.add_assoc]
        exact hrs
    cases hgive : give offset p with
    | none =>
      rw [hgive] at h hlater
      exact hlater rfl h
    | some y =>
      rw [hgive, Option.toList_some, singleton_append] at h
      cases xs with
      | nil =>
        obtain ⟨rfl, hps⟩ := List.cons.inj h
        exact ⟨[], p, ps, rfl, rfl, hgive, by simpa using hps⟩
      | cons y' xs =>
        rw [cons_append] at h
        obtain ⟨rfl, hps⟩ := List.cons.inj h
        exact hlater (by rw [hgive]; rfl) hps

/-- The comments of a row of pieces lie in it. -/
theorem comment_bounds {offset : Nat} {c : Comment} (hc : c ∈ located comment? offset ps) :
    offset ≤ c.range.start ∧ c.range.start ≤ c.range.stop ∧ c.range.stop ≤ offset + byteLength (Piece.text ps) := by
  obtain ⟨before, p, after, rfl, hp⟩ := exists_of_mem_located hc
  obtain ⟨body, rfl, hrange⟩ := comment?_eq_some hp
  simp only [hrange, text_append, text_cons, byteLength_append, chars]
  omega

end Piece

/-! ## Stretches -/

/-- The pieces from one token to another, with those in front of them and behind. -/
structure Piece.Stretch (text : List Char) (a b : Token) (front row back : List Piece) : Prop where
  pieces : ofText text = front ++ (row ++ back)
  start : byteLength (Piece.text front) = a.range.start
  stop : a.range.start + byteLength (Piece.text row) = b.range.stop
  first : ∃ kind chars rest, row = code kind chars :: rest ∧ a.range.stop = a.range.start + byteLength chars
  last : ∃ kind chars rest, row = rest ++ [code kind chars] ∧
    b.range.start = a.range.start + byteLength (Piece.text rest)

variable {tokens : List Token} {a b : Token}

/-- The tokens from one of code to another. -/
theorem Lexed.exists_between {i j : Nat} (hij : i ≤ j) (ha : tokens[i]? = some a) (hb : tokens[j]? = some b) :
    ∃ behind before, (tokens.take (j + 1)).drop i = a :: behind ∧ (tokens.take (j + 1)).drop i = before ++ [b] ∧
      tokens = tokens.take i ++ ((tokens.take (j + 1)).drop i ++ tokens.drop (j + 1)) := by
  obtain ⟨hj, -⟩ := List.getElem?_eq_some_iff.1 hb
  have htake : tokens.take (j + 1) = tokens.take j ++ [b] := by
    rw [take_add_one, hb, Option.toList_some]
  have hfirst : (tokens.take (j + 1))[i]? = some a := by
    rw [getElem?_take_of_lt (Nat.lt_succ_of_le hij), ha]
  obtain ⟨hi, hget⟩ := List.getElem?_eq_some_iff.1 hfirst
  refine ⟨(tokens.take (j + 1)).drop (i + 1), (tokens.take j).drop i, ?_, ?_, ?_⟩
  · rw [drop_eq_getElem_cons hi, hget]
  · rw [htake, drop_append_of_le_length]
    rw [length_take]
    omega
  · have hfront : tokens.take i = (tokens.take (j + 1)).take i := by
      rw [take_take, Nat.min_eq_left (Nat.le_succ_of_le hij)]
    rw [hfront, ← append_assoc, take_append_drop, take_append_drop]

theorem Lexed.exists_stretch {i j : Nat} (hij : i ≤ j) (ha : (Lexed.ofText text).tokens[i]? = some a)
    (hb : (Lexed.ofText text).tokens[j]? = some b) (hacode : a.isSignificant = true) (hbcode : b.isSignificant = true) :
    ∃ front row back, Piece.Stretch text a b front row back ∧
      Piece.located Piece.token? a.range.start row =
        (((Lexed.ofText text).tokens.take (j + 1)).drop i).filter Token.isSignificant := by
  have hall := (Lexed.pieces_ofText text).1
  generalize (Lexed.ofText text).tokens = tokens at ha hb hall ⊢
  obtain ⟨behind, before, hbehind, hbefore, hsplit⟩ := exists_between hij ha hb
  generalize (tokens.take (j + 1)).drop i = between at hbehind hbefore hsplit ⊢
  rw [hsplit, filter_append, filter_append] at hall
  have hfirst : between.filter Token.isSignificant = a :: behind.filter Token.isSignificant := by
    rw [hbehind, filter_cons, if_pos hacode]
  have hlast : between.filter Token.isSignificant = before.filter Token.isSignificant ++ [b] := by
    rw [hbefore, filter_append, filter_cons, if_pos hbcode, filter_nil]
  -- The piece of the first token, and then that of the last.
  have hat := hall
  rw [hfirst, cons_append] at hat
  obtain ⟨front, p, rest, hps, hfront, hp, -⟩ := Piece.located_split hat.symm
  rw [hps, Piece.located_append, hfront] at hall
  have hrow := append_cancel_left hall
  rw [hlast, append_assoc, singleton_append] at hrow
  obtain ⟨inner, q, back, hrest, hinner, hq, -⟩ := Piece.located_split hrow.symm
  obtain ⟨achars, hpcode, harange⟩ := Piece.token?_eq_some hp
  obtain ⟨bchars, hqcode, hbrange⟩ := Piece.token?_eq_some hq
  have hstart : byteLength (Piece.text front) = a.range.start := by
    rw [harange, Nat.zero_add]
  refine ⟨front, inner ++ [q], back, ⟨?_, hstart, ?_, ?_, ?_⟩, ?_⟩
  · rw [hps, hrest, append_assoc, singleton_append]
  · rw [hbrange, Piece.text_append, byteLength_append, hqcode, hstart]
    simp [Piece.chars, Nat.add_assoc]
  · cases inner with
    | nil =>
      rw [nil_append] at hrest
      obtain ⟨rfl, -⟩ := List.cons.inj hrest
      exact ⟨a.kind, achars, [], by rw [hpcode]; rfl, by rw [harange]⟩
    | cons p' inner =>
      rw [cons_append] at hrest
      obtain ⟨rfl, -⟩ := List.cons.inj hrest
      exact ⟨a.kind, achars, inner ++ [q], by rw [hpcode]; rfl, by rw [harange]⟩
  · exact ⟨b.kind, bchars, inner, by rw [hqcode], by rw [hbrange, hstart, Nat.zero_add]⟩
  · rw [hlast, Piece.located_append, ← hstart]
    rw [Nat.zero_add] at hinner hq
    rw [hinner, Piece.located, hq]
    rfl

/-- The comment stands between the two tokens. -/
def Comment.isBetween (a b : Token) (c : Comment) : Bool :=
  a.range.stop ≤ c.range.start && c.range.stop ≤ b.range.start

/-- The comments of a stretch are those between its ends. -/
theorem Piece.Stretch.comments {front row back : List Piece} (h : Stretch text a b front row back)
    (ha : a.range.start < a.range.stop) (hb : b.range.start < b.range.stop) :
    (Lexed.ofText text).comments.filter (Comment.isBetween a b) = located comment? a.range.start row := by
  rw [(Lexed.pieces_ofText text).2, h.pieces, located_append, located_append, filter_append,
    filter_append, Nat.zero_add, h.start, h.stop]
  have hfront : (located comment? 0 front).filter (Comment.isBetween a b) = [] := by
    refine filter_eq_nil_iff.2 fun c hc hbetween => ?_
    have hbounds := comment_bounds hc
    rw [h.start] at hbounds
    simp only [Comment.isBetween, Bool.and_eq_true, decide_eq_true_eq] at hbetween
    omega
  have hback : (located comment? b.range.stop back).filter (Comment.isBetween a b) = [] := by
    refine filter_eq_nil_iff.2 fun c hc hbetween => ?_
    have hbounds := comment_bounds hc
    simp only [Comment.isBetween, Bool.and_eq_true, decide_eq_true_eq] at hbetween
    omega
  -- The ends of the row are tokens, so that its comments lie between them.
  have hrow : ∀ c ∈ located comment? a.range.start row, Comment.isBetween a b c = true := by
    intro c hc
    obtain ⟨kind, chars, rest, hrest, hstop⟩ := h.first
    obtain ⟨kind', chars', rest', hrest', hstart⟩ := h.last
    have hbehind : c ∈ located comment? (a.range.start + byteLength chars) rest := by
      rw [hrest] at hc
      exact hc
    have hbefore : c ∈ located comment? a.range.start rest' := by
      rw [hrest', located_append] at hc
      exact (mem_append.1 hc).resolve_right fun hc => by cases hc
    have := comment_bounds hbehind
    have := comment_bounds hbefore
    simp only [Comment.isBetween, Bool.and_eq_true, decide_eq_true_eq]
    omega
  rw [hfront, hback, filter_eq_self.2 hrow, append_nil, nil_append]

theorem Piece.Stretch.read {front row back : List Piece} (h : Stretch text a b front row back) :
    slice? text ⟨a.range.start, b.range.stop⟩ = some (Piece.text row) ∧
      ((Lexed.ofText (Piece.text row)).tokens.filter Token.isSignificant).map (Token.shift a.range.start) =
        located token? a.range.start row ∧
      (Lexed.ofText (Piece.text row)).comments.map (Comment.shift a.range.start) =
        located comment? a.range.start row := by
  have hrow : ofText (Piece.text row) = row := (ofText_cut (ofText_cut h.pieces).2).1
  obtain ⟨hcode, hcomments⟩ := Lexed.pieces_ofText (Piece.text row)
  rw [hrow] at hcode hcomments
  refine ⟨slice?_eq_some.2 ⟨Piece.text front, Piece.text back, ?_, h.start, ?_⟩, ?_, ?_⟩
  · rw [← text_append, ← text_append, append_assoc, ← h.pieces, text_ofText]
  · rw [h.start]
    exact h.stop
  · rw [hcode, ← tokens_shift, Nat.add_zero]
  · rw [hcomments, ← comments_shift, Nat.add_zero]

/-! ## Keywords -/

theorem clauseKeywords_contains (k : Kind) :
    clauseKeywords.contains k = true ↔ k ∈ [Kind.thenKw, .ifKw, .elseKw, .forKw] := by
  cases k <;> decide

theorem isLayout_of_clause {k : Kind} (h : k ∈ [Kind.thenKw, .ifKw, .elseKw, .forKw]) : k.isLayout = false := by
  revert h
  cases k <;> decide

/-- The keywords that ask for parentheses are among the tokens of code. -/
theorem requiresParens_iff (text : List Char) :
    requiresParens text = true ↔
      ∃ t ∈ (Lexed.ofText text).tokens.filter Token.isSignificant, t.kind ∈ [Kind.thenKw, .ifKw, .elseKw, .forKw] := by
  simp only [requiresParens, any_eq_true, clauseKeywords_contains, mem_filter]
  constructor
  · rintro ⟨t, ht, hkind⟩
    exact ⟨t, ⟨ht, by simp [Token.isSignificant, isLayout_of_clause hkind]⟩, hkind⟩
  · rintro ⟨t, ⟨ht, -⟩, hkind⟩
    exact ⟨t, ht, hkind⟩

theorem mem_between_iff {i j : Nat} {t : Token} :
    t ∈ (tokens.take (j + 1)).drop i ↔ ∃ k, i ≤ k ∧ k ≤ j ∧ tokens[k]? = some t := by
  rw [mem_iff_getElem?]
  constructor
  · rintro ⟨k, hk⟩
    rw [getElem?_drop] at hk
    have hlt : i + k < j + 1 := by
      by_contra hge
      rw [getElem?_take_eq_none (by omega)] at hk
      cases hk
    rw [getElem?_take_of_lt hlt] at hk
    exact ⟨i + k, Nat.le_add_right i k, by omega, hk⟩
  · rintro ⟨k, hik, hkj, ht⟩
    refine ⟨k - i, ?_⟩
    rw [getElem?_drop, Nat.add_sub_cancel' hik, getElem?_take_of_lt (by omega), ht]

/-- A stretch asks for parentheses if there is a keyword among its tokens. -/
theorem requiresParens_stretch {i j : Nat} (hij : i ≤ j) (ha : (Lexed.ofText text).tokens[i]? = some a)
    (hb : (Lexed.ofText text).tokens[j]? = some b) (hacode : a.isSignificant = true) (hbcode : b.isSignificant = true) :
    ∃ stretch, slice? text ⟨a.range.start, b.range.stop⟩ = some stretch ∧
      (requiresParens stretch = true ↔
        ∃ k, i ≤ k ∧ k ≤ j ∧ kindAt (Lexed.ofText text).tokens k ∈ [Kind.thenKw, .ifKw, .elseKw, .forKw]) := by
  obtain ⟨front, row, back, h, htokens⟩ := Lexed.exists_stretch hij ha hb hacode hbcode
  obtain ⟨hslice, hcode, -⟩ := h.read
  refine ⟨_, hslice, ?_⟩
  have hkinds : (∃ t ∈ (Lexed.ofText (Piece.text row)).tokens.filter Token.isSignificant,
        t.kind ∈ [Kind.thenKw, .ifKw, .elseKw, .forKw]) ↔
      ∃ t ∈ (((Lexed.ofText text).tokens.take (j + 1)).drop i).filter Token.isSignificant,
        t.kind ∈ [Kind.thenKw, .ifKw, .elseKw, .forKw] := by
    rw [← hcode.trans htokens]
    simp only [mem_map, exists_exists_and_eq_and]
    rfl
  rw [requiresParens_iff, hkinds]
  constructor
  · rintro ⟨t, ht, hkind⟩
    obtain ⟨k, hik, hkj, hk⟩ := mem_between_iff.1 (mem_filter.1 ht).1
    exact ⟨k, hik, hkj, by rw [kindAt, hk]; exact hkind⟩
  · rintro ⟨k, hik, hkj, hkind⟩
    cases hk : (Lexed.ofText text).tokens[k]? with
    | none => simp [kindAt, hk] at hkind
    | some t =>
      rw [kindAt, hk, Option.map_some, Option.getD_some] at hkind
      have hsignificant : t.isSignificant = true := by simp [Token.isSignificant, isLayout_of_clause hkind]
      exact ⟨t, mem_filter.2 ⟨mem_between_iff.2 ⟨k, hik, hkj, hk⟩, hsignificant⟩, hkind⟩

/-! ## The tokens of a text -/

/-- Reading from one token of code to another gives the tokens and the comments between them, and whether the text of
a node asks for parentheses is a question of its own tokens. -/
theorem Lexed.slices_ofText (text : List Char) :
    let lexed := Lexed.ofText text
    let tree := (Parse.ofText text).tree
    (∀ i j a b, i ≤ j → lexed.tokens[i]? = some a → lexed.tokens[j]? = some b →
      a.isSignificant = true → b.isSignificant = true →
      ∃ stretch, slice? text ⟨a.range.start, b.range.stop⟩ = some stretch ∧
        ((Lexed.ofText stretch).tokens.filter Token.isSignificant).map (Token.shift a.range.start) =
          ((lexed.tokens.take (j + 1)).drop i).filter Token.isSignificant ∧
        (Lexed.ofText stretch).comments.map (Comment.shift a.range.start) =
          lexed.comments.filter (Comment.isBetween a b)) ∧
    ∀ n ∈ tree.root.descendants, n.tokens.isSome = true →
      (requiresParens (tree.nodeText n).toList = true ↔
        ∃ i ∈ n.elements.tokens, tree.kindAt i ∈ [Kind.thenKw, .ifKw, .elseKw, .forKw]) := by
  intro lexed tree
  refine ⟨?_, ?_⟩
  · intro i j a b hij ha hb hacode hbcode
    obtain ⟨front, row, back, h, htokens⟩ := Lexed.exists_stretch hij ha hb hacode hbcode
    obtain ⟨hslice, hcode, hcomments⟩ := h.read
    have hain := (inside_ofText (mem_of_getElem? ha) hacode).nonempty
    have hbin := (inside_ofText (mem_of_getElem? hb) hbcode).nonempty
    exact ⟨_, hslice, hcode.trans htokens, hcomments.trans (h.comments hain hbin).symm⟩
  · intro n hn hsome
    obtain ⟨htext, htokens⟩ : tree.text = text ∧ tree.tokens = lexed.tokens := by
      obtain ⟨f, hf⟩ := Parse.exists_block text
      exact ⟨hf.tree_eq.1, hf.tree_eq.2.1⟩
    obtain ⟨⟨a, hlocated⟩, -⟩ := Parse.exists_located hn
    cases hlocated.1 with
    | layout _ _ hends =>
      rw [show n.tokens = none from hends] at hsome
      cases hsome
    | code r hspans hrange _ =>
      obtain ⟨s, hs, hscode, hstart⟩ := hspans.first
      obtain ⟨t, ht, htcode, hstop⟩ := hspans.last
      have hbounds := hspans.bounds
      obtain ⟨stretch, hslice, hparens⟩ := requiresParens_stretch hbounds.2.1 hs ht hscode htcode
      have hnode : (tree.nodeText n).toList = stretch := by
        have hspan : n.range = ⟨s.range.start, t.range.stop⟩ := by
          rw [show n.range = r.range from hrange, hstart, hstop]
        rw [Tree.nodeText, Text.slice, htext, hspan, hslice]
        simp
      have hkind (k : Nat) : tree.kindAt k = kindAt lexed.tokens k := by
        rw [← htokens]
        rfl
      rw [hnode, hparens, hlocated.2.1.tokens_eq]
      simp only [hkind, mem_range'_1]
      constructor
      · rintro ⟨k, hfirst, hlast, hk⟩
        exact ⟨k, by omega, hk⟩
      · rintro ⟨k, hin, hk⟩
        -- Outside of the reach there is layout only.
        have hcode : Reach.ofToken lexed.tokens k ≠ none := fun hnone => by
          cases (isLayout_of_clause hk).symm.trans (Reach.ofToken_eq_none.1 hnone)
        refine ⟨k, ?_, ?_, hk⟩
        · by_contra hlt
          exact hcode (hspans.before k hin.1 (by omega))
        · by_contra hlt
          exact hcode (hspans.after k (by omega) hin.2)

/-- From `a` to `b`, inside brackets and over the end of a line with a comment; and a node with a keyword in it. -/
theorem Lexed.slices_ofText_brackets :
    let text := "f(a, # c\n  1.5 if b)\n".toList
    let stretch := "a, # c\n  1.5 if b".toList
    let tree := (Parse.ofText text).tree
    (((Lexed.ofText stretch).tokens.filter Token.isSignificant).map (Token.shift 2) =
        [⟨.name, ⟨2, 3⟩⟩, ⟨.comma, ⟨3, 4⟩⟩, ⟨.number, ⟨11, 14⟩⟩, ⟨.ifKw, ⟨15, 17⟩⟩, ⟨.name, ⟨18, 19⟩⟩]) ∧
      (Lexed.ofText stretch).comments.map (Comment.shift 2) = [⟨.line, ⟨5, 8⟩⟩] ∧
      requiresParens (tree.nodeText tree.root).toList = true := by
  intro text stretch tree
  have hfirst : (Lexed.ofText text).tokens[2]? = some ⟨.name, ⟨2, 3⟩⟩ := by decide +kernel
  have hlast : (Lexed.ofText text).tokens[6]? = some ⟨.name, ⟨18, 19⟩⟩ := by decide +kernel
  have hfound : slice? text ⟨2, 19⟩ = some stretch := by decide +kernel
  have htokens : (((Lexed.ofText text).tokens.take 7).drop 2).filter Token.isSignificant =
      [⟨.name, ⟨2, 3⟩⟩, ⟨.comma, ⟨3, 4⟩⟩, ⟨.number, ⟨11, 14⟩⟩, ⟨.ifKw, ⟨15, 17⟩⟩, ⟨.name, ⟨18, 19⟩⟩] := by
    decide +kernel
  have hcomments : (Lexed.ofText text).comments.filter (Comment.isBetween ⟨.name, ⟨2, 3⟩⟩ ⟨.name, ⟨18, 19⟩⟩) =
      [⟨.line, ⟨5, 8⟩⟩] := by decide +kernel
  have hroot : tree.root.tokens.isSome = true := by decide +kernel
  have hkeyword : 5 ∈ tree.root.elements.tokens ∧ tree.kindAt 5 = .ifKw := by decide +kernel
  -- What is left holds of any text with these tokens.
  clear_value text stretch
  obtain ⟨hslices, hnodes⟩ := Lexed.slices_ofText text
  obtain ⟨found, hslice, hread, hcommented⟩ := hslices 2 6 _ _ (by decide) hfirst hlast rfl rfl
  obtain rfl : found = stretch := Option.some.inj (hslice.symm.trans hfound)
  refine ⟨hread.trans htokens, hcommented.trans hcomments, ?_⟩
  exact (hnodes tree.root tree.root.self_mem_descendants hroot).2 ⟨5, hkeyword.1, by rw [hkeyword.2]; decide⟩

end Respell
