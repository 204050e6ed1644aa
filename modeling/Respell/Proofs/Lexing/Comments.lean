import Respell.Proofs.Lexing.Pieces

/-!
Where the comments of a text stand.

A comment is scanned from its first sign on, so that it is a piece of the text with delimiters at its ends.
Comments come one after the other and none meets a token of code.  A token of code starts with a character
that can be seen, so that a stretch of blanks and line breaks holds none.
-/

namespace Respell

open List Text

variable {text : List Char}

/-! ## What the lexer scans -/

/-- The comment is what the scanner takes where it starts. -/
def Comment.Scanned (text : List Char) (c : Comment) : Prop :=
  ∃ rest, At text c.range.start ('#' :: rest) ∧ c.kind = (Lexeme.scanComment ('#' :: rest)).1 ∧
    c.range.stop =
      c.range.start + byteLength (('#' :: rest).take (Lexeme.scanComment ('#' :: rest)).2)

/-- The token is what the scanner takes at a character that is neither a blank nor a line break. -/
def Token.Scanned (text : List Char) (t : Token) : Prop :=
  ∃ c rest, At text t.range.start (c :: rest) ∧ isBlank c = false ∧ isLineBreak c = false ∧
    t.kind = (Lexeme.scan (c :: rest)).1 ∧
    t.range.stop = t.range.start + byteLength ((c :: rest).take (Lexeme.scan (c :: rest)).2)

theorem Piece.eq_space {c d : Char} {rest : List Char} (h : space d = first c rest) :
    d = c ∧ (isBlank c = true ∨ isLineBreak c = true) := by
  unfold first at h
  split at h
  · rename_i hspace
    exact ⟨Piece.space.inj h, by simpa using hspace⟩
  · split at h <;> cases h

theorem Piece.eq_comment {c : Char} {rest chars : List Char} {kind : CommentKind}
    (h : comment kind chars = first c rest) : c = '#' ∧ kind = (Lexeme.scanComment ('#' :: rest)).1 ∧
      chars = ('#' :: rest).take (Lexeme.scanComment ('#' :: rest)).2 := by
  unfold first at h
  split at h
  · cases h
  split at h
  · rename_i hsign
    rw [beq_iff_eq] at hsign
    subst hsign
    cases h
    exact ⟨rfl, rfl, rfl⟩
  · cases h

theorem Piece.eq_code {c : Char} {rest chars : List Char} {kind : Kind} (h : code kind chars = first c rest) :
    isBlank c = false ∧ isLineBreak c = false ∧ kind = (Lexeme.scan (c :: rest)).1 ∧
      chars = (c :: rest).take (Lexeme.scan (c :: rest)).2 := by
  unfold first at h
  split at h
  · cases h
  rename_i hspace
  split at h
  · cases h
  · cases h
    exact ⟨by simp_all, by simp_all, rfl, rfl⟩

theorem Token.Scanned.inside {t : Token} (h : t.Scanned text) : t.range.Inside text := by
  obtain ⟨c, rest, hat, -, -, -, hstop⟩ := h
  obtain ⟨n, hn⟩ := Nat.exists_eq_add_of_lt (Lexeme.scan_cons c rest).2
  have hpos := c.utf8Size_pos
  refine ⟨?_, hat.isBoundary, ?_⟩
  · rw [hstop, hn, Nat.zero_add, take_succ_cons, byteLength_cons]
    omega
  · rw [← take_append_drop (Lexeme.scan (c :: rest)).2 (c :: rest)] at hat
    rw [hstop]
    exact hat.append.isBoundary

/-! ## The comments of a text -/

/-- The comments and the tokens of code of a text, apart from each other. -/
structure Lexed.Parted (text : List Char) (l : Lexed) : Prop where
  scanned : ∀ c ∈ l.comments, c.Scanned text
  ordered : l.comments.Pairwise fun a b => a.range.stop ≤ b.range.start
  apart : ∀ c ∈ l.comments, ∀ t ∈ l.tokens, t.isSignificant = true →
    t.range.stop ≤ c.range.start ∨ c.range.stop ≤ t.range.start
  code : ∀ t ∈ l.tokens, t.isSignificant = true → t.Scanned text

namespace Lexed

/-- The piece of the text that a comment stands for. -/
theorem exists_comment_piece {c : Comment} (hc : c ∈ (Lexed.ofText text).comments) :
    ∃ before chars after, Piece.ofText text = before ++ .comment c.kind chars :: after ∧
      c.range = ⟨byteLength (Piece.text before), byteLength (Piece.text before) + byteLength chars⟩ := by
  rw [(pieces_ofText text).2] at hc
  obtain ⟨before, p, after, hpieces, hp⟩ := Piece.exists_of_mem_located hc
  obtain ⟨chars, rfl, hrange⟩ := Piece.comment?_eq_some hp
  exact ⟨before, chars, after, hpieces, by rw [hrange, Nat.zero_add]⟩

/-- The piece of the text that a token of code stands for. -/
theorem exists_code_piece {t : Token} (ht : t ∈ (Lexed.ofText text).tokens) (hcode : t.isSignificant = true) :
    ∃ before chars after, Piece.ofText text = before ++ .code t.kind chars :: after ∧
      t.range = ⟨byteLength (Piece.text before), byteLength (Piece.text before) + byteLength chars⟩ := by
  have hmem := mem_filter.2 ⟨ht, hcode⟩
  rw [(pieces_ofText text).1] at hmem
  obtain ⟨before, p, after, hpieces, hp⟩ := Piece.exists_of_mem_located hmem
  obtain ⟨chars, rfl, hrange⟩ := Piece.token?_eq_some hp
  exact ⟨before, chars, after, hpieces, by rw [hrange, Nat.zero_add]⟩

/-- A comment stands apart from a stretch of the text without comments. -/
theorem comment_apart {c : Comment} (hc : c ∈ (Lexed.ofText text).comments) {before mid after : List Piece}
    (hpieces : Piece.ofText text = before ++ mid ++ after) (hmid : ∀ kind chars, .comment kind chars ∉ mid) :
    byteLength (Piece.text (before ++ mid)) ≤ c.range.start ∨ c.range.stop ≤ byteLength (Piece.text before) := by
  obtain ⟨before', chars, after', hpieces', hrange⟩ := exists_comment_piece hc
  rw [hrange]
  exact Piece.apart_of_split (hpieces.symm.trans hpieces') (hmid c.kind chars)

theorem parted_ofText (text : List Char) : (Lexed.ofText text).Parted text where
  scanned c hc := by
    obtain ⟨before, chars, after, hpieces, hrange⟩ := exists_comment_piece hc
    obtain ⟨d, rest, hat, hfirst⟩ := Piece.exists_first hpieces
    obtain ⟨rfl, hkind, rfl⟩ := Piece.eq_comment hfirst
    exact ⟨rest, by rwa [hrange], hkind, by rw [hrange]⟩
  ordered := by
    rw [(pieces_ofText text).2]
    refine Piece.located_pairwise (fun offset p c hc => ?_) 0 _
    obtain ⟨chars, rfl, hrange⟩ := Piece.comment?_eq_some hc
    exact hrange
  apart c hc t ht hcode := by
    obtain ⟨before, chars, after, hpieces, hrange⟩ := exists_code_piece ht hcode
    rw [← singleton_append, ← append_assoc] at hpieces
    have hapart := comment_apart hc hpieces (by simp)
    simpa [hrange, Piece.chars] using hapart
  code t ht hcode := by
    obtain ⟨before, chars, after, hpieces, hrange⟩ := exists_code_piece ht hcode
    obtain ⟨c, rest, hat, hfirst⟩ := Piece.exists_first hpieces
    obtain ⟨hblank, hbreak, hkind, rfl⟩ := Piece.eq_code hfirst
    exact ⟨c, rest, by rwa [hrange], hblank, hbreak, hkind, by rw [hrange]⟩

theorem inside_ofText {t : Token} (ht : t ∈ (Lexed.ofText text).tokens) (hcode : t.isSignificant = true) :
    t.range.Inside text := ((parted_ofText text).code t ht hcode).inside

end Lexed

/-! ## Delimiters -/

/-- A block comment starts with three signs. -/
theorem Lexeme.scanComment_block (h : (scanComment text).1 = .block) :
    ∃ rest, text = '#' :: '#' :: '#' :: rest ∧ (scanComment text).2 = 3 + blockRest rest := by
  unfold scanComment at h ⊢
  split at h
  · cases h
  · exact ⟨_, rfl, rfl⟩
  · cases h

namespace Comment

variable {text : List Char} {c : Comment}

theorem Scanned.exists_body (h : c.Scanned text) :
    ∃ body after, At text c.range.start (body ++ after) ∧ body.head? = some '#' ∧
      c.range.stop = c.range.start + byteLength body ∧
      (c.kind = .block → ∃ inside, body = ['#', '#', '#'] ++ inside) := by
  obtain ⟨rest, hat, hkind, hstop⟩ := h
  have hpos := Lexeme.scanComment_pos rest
  refine ⟨('#' :: rest).take (Lexeme.scanComment ('#' :: rest)).2,
    ('#' :: rest).drop (Lexeme.scanComment ('#' :: rest)).2, ?_, ?_, hstop, ?_⟩
  · rw [take_append_drop]
    exact hat
  · rw [head?_take, if_neg (by omega)]
    rfl
  · intro hblock
    obtain ⟨inside, heq, hlen⟩ := Lexeme.scanComment_block (hkind.symm.trans hblock)
    exact ⟨inside.take (Lexeme.blockRest inside), by rw [hlen, heq, Nat.add_comm]; rfl⟩

theorem Scanned.inside (h : c.Scanned text) : c.range.Inside text := by
  obtain ⟨body, after, hat, hhead, hstop, -⟩ := h.exists_body
  refine ⟨?_, hat.isBoundary, ?_⟩
  · cases body with
    | nil => cases hhead
    | cons d body =>
      have := d.utf8Size_pos
      rw [byteLength_cons] at hstop
      omega
  · rw [hstop]
    exact hat.append.isBoundary

theorem exists_append_of_isClosed {body : List Char} (h : isClosed body = true) :
    ∃ front, body = front ++ ['#', '#', '#'] ∧ 3 ≤ byteLength front := by
  simp only [isClosed, Bool.and_eq_true, decide_eq_true_eq, isSuffixOf_iff_suffix] at h
  obtain ⟨hlen, front, rfl⟩ := h
  refine ⟨front, rfl, ?_⟩
  rw [byteLength_append, show byteLength ['#', '#', '#'] = 3 from rfl] at hlen
  omega

/-- The delimiters are pieces of the comment, one after the other. -/
theorem Scanned.delimiters (h : c.Scanned text) :
    (∀ d ∈ c.delimiters text, d.1.Inside text ∧ c.range.start ≤ d.1.start ∧ d.1.stop ≤ c.range.stop) ∧
      (c.delimiters text).Pairwise fun a b => a.1.stop ≤ b.1.start := by
  obtain ⟨body, after, hat, hhead, hstop, hblock⟩ := h.exists_body
  have hopening (signs inside : List Char) (hbody : body = signs ++ inside) (hpos : 0 < byteLength signs) :
      Span.Inside text ⟨c.range.start, c.range.start + byteLength signs⟩ ∧
        c.range.start ≤ c.range.start ∧ c.range.start + byteLength signs ≤ c.range.stop := by
    subst hbody
    rw [append_assoc] at hat
    refine ⟨⟨by simp only; omega, hat.isBoundary, hat.append.isBoundary⟩, Nat.le_refl _, ?_⟩
    rw [hstop, byteLength_append]
    omega
  unfold Comment.delimiters
  split
  · refine ⟨?_, pairwise_singleton _ _⟩
    intro d hd
    rw [mem_singleton.1 hd]
    obtain ⟨rest, hrest⟩ := head?_eq_some_iff.1 hhead
    exact hopening ['#'] rest hrest (by decide)
  · rename_i hkind
    obtain ⟨inside, hinside⟩ := hblock hkind
    have hfirst := hopening _ inside hinside (by decide)
    by_cases hclosed : isClosed ((slice? text c.range).getD []) = true
    · simp only [hclosed, if_true]
      rw [hat.slice? hstop, Option.getD_some] at hclosed
      obtain ⟨front, hfront, hle⟩ := exists_append_of_isClosed hclosed
      have hlen : c.range.stop = c.range.start + byteLength front + 3 := by
        rw [hstop, hfront, byteLength_append]
        rfl
      have hlast : c.range.stop - 3 = c.range.start + byteLength front := by omega
      refine ⟨?_, ?_⟩
      · intro d hd
        rcases mem_pair.1 hd with rfl | rfl
        · exact hfirst
        · rw [hfront, append_assoc] at hat
          refine ⟨⟨by simp only; omega, ?_, h.inside.stop⟩, by simp only; omega, Nat.le_refl _⟩
          simp only [hlast]
          exact hat.append.isBoundary
      · rw [pairwise_pair]
        simp only
        omega
    · simp only [hclosed]
      refine ⟨?_, pairwise_singleton _ _⟩
      intro d hd
      rw [mem_singleton.1 hd]
      exact hfirst

end Comment

end Respell
