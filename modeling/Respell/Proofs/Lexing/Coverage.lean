import Respell.Proofs.Lexing.Comments
import Respell.Proofs.Lexing.Layout

/-!
Every byte of a text.

A text is a row of pieces, and each of them is a token of code, a comment or space:

    code   blanks   # comment   NEWLINE   blanks   code   …   end of the text

A line break in front of a line is written as a token.  So tokens of code, line breaks and comments are pieces of the
text that stand apart from each other, and all that is between them is space (`Lexed.ofText_accounts`).
-/

namespace Respell

open List Text

/-! ## Pieces -/

/-- The byte at an offset lies in the span. -/
def Span.Holds (s : Span) (b : Nat) : Prop := s.start ≤ b ∧ b < s.stop

/-- One of the spans ends before the other starts. -/
def Span.Apart (a b : Span) : Prop := a.stop ≤ b.start ∨ b.stop ≤ a.start

/-- The token stands for characters of the text: it is code, or the line break in front of a line. -/
def Token.IsText (t : Token) : Prop := t.isSignificant = true ∨ t.kind = .newline

/-- The byte at an offset is one of those that the character takes. -/
def Text.CharAt (text : List Char) (b : Nat) (c : Char) : Prop :=
  ∃ before after, text = before ++ c :: after ∧ byteLength before ≤ b ∧ b < byteLength before + c.utf8Size

/-- The byte lies in a token that stands for text, or in a comment. -/
def Accounted (tokens : List Token) (comments : List Comment) (b : Nat) : Prop :=
  (∃ t ∈ tokens, t.IsText ∧ t.range.Holds b) ∨ ∃ c ∈ comments, c.range.Holds b

/-- The character of a byte in a stretch of the text stands in the stretch. -/
theorem Text.CharAt.mem {text xs ys : List Char} {p b : Nat} {c : Char} (h : CharAt text b c)
    (hat : At text p (xs ++ ys)) (hle : p ≤ b) (hlt : b < p + byteLength xs) : c ∈ xs := by
  obtain ⟨front, htext, rfl⟩ := hat
  obtain ⟨before, after, htext', hstart, hstop⟩ := h
  have heq : front ++ (xs ++ ys) = before ++ c :: after := htext.symm.trans htext'
  -- Neither does the character end before the stretch, nor does it start behind it.
  have hfront : byteLength front ≤ byteLength before := by
    by_contra hshort
    obtain ⟨m, hm, hrest⟩ := exists_append_of_byteLength_le heq.symm (by omega)
    cases m with
    | nil =>
      rw [append_nil] at hm
      subst hm
      omega
    | cons d m =>
      obtain ⟨rfl, -⟩ := List.cons.inj hrest
      rw [hm, byteLength_append, byteLength_cons] at hle
      omega
  obtain ⟨m, hm, hrest⟩ := exists_append_of_byteLength_le heq hfront
  rw [hm, byteLength_append] at hstart
  have hshort : byteLength m ≤ byteLength xs := by omega
  obtain ⟨m', hxs, hrest'⟩ := exists_append_of_byteLength_le hrest.symm hshort
  cases m' with
  | nil =>
    rw [append_nil] at hxs
    subst hxs
    omega
  | cons d m' =>
    obtain ⟨rfl, -⟩ := List.cons.inj hrest'
    rw [hxs]
    exact mem_append_right _ mem_cons_self

/-! ## The bytes of a text -/

/-- Every byte belongs to a piece. -/
theorem Piece.exists_holds {ps : List Piece} {b : Nat} (h : b < byteLength (Piece.text ps)) :
    ∃ before p after, ps = before ++ p :: after ∧ byteLength (Piece.text before) ≤ b ∧
      b < byteLength (Piece.text before) + byteLength p.chars := by
  induction ps generalizing b with
  | nil => exact absurd h (Nat.not_lt_zero b)
  | cons p ps ih =>
    by_cases hb : b < byteLength p.chars
    · exact ⟨[], p, ps, rfl, Nat.zero_le b, by simpa using hb⟩
    · rw [text_cons, byteLength_append] at h
      obtain ⟨before, q, after, rfl, hstart, hstop⟩ := @ih (b - byteLength p.chars) (by omega)
      refine ⟨p :: before, q, after, rfl, ?_, ?_⟩ <;> rw [text_cons, byteLength_append] <;> omega

/-- A token that stands for text is a stretch of pieces without comments. -/
theorem Token.IsText.exists_pieces {text : List Char} {t : Token} (h : t.IsText)
    (ht : t ∈ (Lexed.ofText text).tokens) :
    ∃ before mid after, Piece.ofText text = before ++ mid ++ after ∧ (∀ kind chars, .comment kind chars ∉ mid) ∧
      t.range = ⟨byteLength (Piece.text before), byteLength (Piece.text (before ++ mid))⟩ := by
  rcases h with hcode | hk
  · obtain ⟨before, chars, after, hpieces, hrange⟩ := Lexed.exists_code_piece ht hcode
    exact ⟨before, [.code t.kind chars], after, by simp [hpieces], by simp, by simp [hrange, Piece.chars]⟩
  · obtain ⟨ts, heq, hordered, -⟩ := Lexed.exists_ordered text
    rw [heq, mem_append, mem_singleton] at ht
    rcases ht with ht | rfl
    · obtain ⟨before, spaces, after, hpieces, hrange⟩ := (hordered.within t ht).1.spaced hk
      exact ⟨before, spaces.map .space, after, hpieces, by simp, by simp [hrange, Piece.text_spaces]⟩
    · cases hk

/-- The tokens and comments account for the whole text. -/
structure Lexed.Accounts (text : List Char) (l : Lexed) : Prop where
  /-- Code, line breaks and comments are pieces of the text, none of them empty. -/
  tokensInside : ∀ t ∈ l.tokens, t.IsText → t.range.Inside text
  commentsInside : ∀ c ∈ l.comments, c.range.Inside text
  /-- They are in order, and stand apart from each other. -/
  tokensOrdered : l.tokens.Pairwise fun a b => a.IsText → b.IsText → a.range.stop ≤ b.range.start
  commentsOrdered : l.comments.Pairwise fun a b => a.range.stop ≤ b.range.start
  apart : ∀ c ∈ l.comments, ∀ t ∈ l.tokens, t.IsText → c.range.Apart t.range
  /-- What is left is space. -/
  covered : ∀ b < byteLength text, Accounted l.tokens l.comments b ∨ ∃ c ∈ [' ', '\t', '\r', '\n'], CharAt text b c
  /-- The end mark is empty, at the end of the text, and there is one. -/
  ends : ∃ ts, l.tokens = ts ++ [⟨.eof, .empty (byteLength text)⟩] ∧ ∀ t ∈ ts, t.kind ≠ .eof
  starts : l.tokens.Pairwise fun a b => a.range.start ≤ b.range.start

/-- Reading a text leaves no byte out. -/
theorem Lexed.ofText_accounts (text : List Char) : (Lexed.ofText text).Accounts text := by
  have hparted := parted_ofText text
  obtain ⟨ts, htokens, hordered, -⟩ := exists_ordered text
  refine ⟨?_, fun c hc => (hparted.scanned c hc).inside, ?_, hparted.ordered, ?_, ?_, ?_, starts_ofText text⟩
  · intro t ht htext
    rcases htext with hcode | hk
    · exact inside_ofText ht hcode
    · obtain ⟨before, after, hsplit⟩ := append_of_mem ht
      exact ((fits_ofText hsplit).newline hk).2.1.inside
  · exact (pairwise_ofText text).imp fun h _ _ => h
  · intro c hc t ht htext
    obtain ⟨before, mid, after, hpieces, hmid, hrange⟩ := htext.exists_pieces ht
    rw [Span.Apart, hrange]
    exact (comment_apart hc hpieces hmid).symm
  · intro b hb
    rw [← Piece.text_ofText text] at hb
    obtain ⟨before, p, after, hpieces, hstart, hstop⟩ := Piece.exists_holds hb
    obtain ⟨htokens, hcomments⟩ := pieces_ofText text
    rw [hpieces] at htokens hcomments
    cases p with
    | space d =>
      obtain ⟨c, rest, ⟨front, htext, hlen⟩, hfirst⟩ := Piece.exists_first hpieces
      obtain ⟨rfl, hspace⟩ := Piece.eq_space hfirst
      rw [← hlen] at hstart hstop
      refine Or.inr ⟨d, ?_, front, rest, htext, hstart, by simpa [Piece.chars] using hstop⟩
      simp only [isBlank, isLineBreak, Bool.or_eq_true, beq_iff_eq] at hspace
      simp only [mem_cons, not_mem_nil, or_false]
      tauto
    | comment kind chars =>
      have hmem := @Piece.mem_located _ Piece.comment? before after (.comment kind chars) _ rfl
      rw [← hcomments] at hmem
      exact Or.inl (Or.inr ⟨_, hmem, hstart, hstop⟩)
    | code kind chars =>
      have hmem := @Piece.mem_located _ Piece.token? before after (.code kind chars) _ rfl
      rw [← htokens, mem_filter] at hmem
      exact Or.inl (Or.inl ⟨_, hmem.1, Or.inl hmem.2, hstart, hstop⟩)
  · exact ⟨ts, htokens, fun t ht => (hordered.within t ht).1.ne_eof⟩

end Respell
