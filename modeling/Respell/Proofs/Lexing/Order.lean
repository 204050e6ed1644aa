import Mathlib.Data.List.TakeWhile
import Respell.Proofs.Lexing.Pieces

/-!
The order of all tokens of a text, layout included.

Code is written behind other code on its line, or at the start of a line with layout in front of it:

    code  INDENT  code                 the line is indented deeper
    code  OUTDENT …  NEWLINE  code     any other line, with one mark for each block that it leaves
    code  OUTDENT …  EOF               the end of the text

`TokenStream` says this of the tokens up to some code, and the lexer keeps it from step to step
(`Lexer.Lays.step`).  So each token ends before the next one starts, the end mark is the last of them and the only
one, and nothing but code stands first.
-/

namespace Respell

open List Text

variable {text : List Char}

/-! ## Streams -/

/-- The span is one whole line break: a line feed, a carriage return, or both. -/
def Text.IsBreak (text : List Char) (range : Span) : Prop :=
  ∃ before signs after, text = before ++ signs ++ after ∧
    range = ⟨byteLength before, byteLength before + byteLength signs⟩ ∧
    (signs = ['\r', '\n'] ∨ signs = ['\n'] ∧ before.getLast? ≠ some '\r' ∨ signs = ['\r'] ∧ after.head? ≠ some '\n')

theorem Text.IsBreak.inside {range : Span} (h : IsBreak text range) : range.Inside text := by
  obtain ⟨before, signs, after, htext, rfl, hsigns⟩ := h
  have hpos : 0 < byteLength signs := by rcases hsigns with rfl | ⟨rfl, -⟩ | ⟨rfl, -⟩ <;> decide
  have hat : At text (byteLength before) (signs ++ after) := ⟨before, by rw [htext, append_assoc], rfl⟩
  exact ⟨Nat.lt_add_of_pos_right hpos, hat.isBoundary, hat.append.isBoundary⟩

/-- The span is a stretch of space. -/
def Text.Spaced (text : List Char) (range : Span) : Prop :=
  ∃ before spaces after, Piece.ofText text = before ++ spaces.map .space ++ after ∧
    range = ⟨byteLength (Piece.text before), byteLength (Piece.text before) + byteLength spaces⟩

theorem Text.Spaced.le {range : Span} (h : Spaced text range) : range.start ≤ range.stop := by
  obtain ⟨before, spaces, after, -, rfl⟩ := h
  exact Nat.le_add_right _ _

/-- Code that starts behind an offset. -/
structure Token.Follows (offset : Nat) (t : Token) : Prop where
  code : t.isSignificant = true
  behind : offset ≤ t.range.start
  ordered : t.range.start ≤ t.range.stop

theorem Token.Follows.of_le {a b : Nat} {t : Token} (h : t.Follows b) (hab : a ≤ b) : t.Follows a :=
  ⟨h.code, Nat.le_trans hab h.behind, h.ordered⟩

/-- Tokens up to some code, with the number of open blocks and brackets and the end of that code. -/
inductive TokenStream (text : List Char) : List Token → (blocks depth lastEnd : Nat) → Prop
  | first {t : Token} (code : t.Follows 0) : TokenStream text [t] 1 (Lexer.bracketDepth 0 t.kind) t.range.stop
  | code {ts : List Token} {blocks depth lastEnd : Nat} (h : TokenStream text ts blocks depth lastEnd) {t : Token}
    (code : t.Follows lastEnd) :
    TokenStream text (ts ++ [t]) blocks (Lexer.bracketDepth depth t.kind) t.range.stop
  | indent {ts : List Token} {blocks lastEnd : Nat} (h : TokenStream text ts blocks 0 lastEnd) {t : Token}
    (code : t.Follows lastEnd) :
    TokenStream text (ts ++ [⟨.indent, .empty t.range.start⟩] ++ [t]) (blocks + 1) (Lexer.bracketDepth 0 t.kind)
      t.range.stop
  | newline {ts : List Token} {blocks lastEnd left : Nat} (h : TokenStream text ts blocks 0 lastEnd)
    (hleft : left < blocks) {range : Span} (isBreak : IsBreak text range) (spaced : Spaced text range)
    (behind : lastEnd ≤ range.start) {t : Token} (code : t.Follows range.stop) :
    TokenStream text (ts ++ List.replicate left ⟨.outdent, .empty lastEnd⟩ ++ [⟨.newline, range⟩] ++ [t])
      (blocks - left) (Lexer.bracketDepth 0 t.kind) t.range.stop

theorem Token.kind_ne_of_isSignificant {t : Token} (h : t.isSignificant = true) {k : Kind} (hk : k.isLayout = true) :
    t.kind ≠ k := by
  rintro rfl
  simp [Token.isSignificant, hk] at h

/-- The token is not the end, and if it is a line break, then a stretch of space. -/
structure Token.Placed (text : List Char) (t : Token) : Prop where
  ne_eof : t.kind ≠ .eof
  ordered : t.range.start ≤ t.range.stop
  spaced : t.kind = .newline → Spaced text t.range

theorem Token.Follows.placed {t : Token} {offset : Nat} (h : t.Follows offset) : t.Placed text :=
  ⟨kind_ne_of_isSignificant h.code rfl, h.ordered, fun hk => absurd hk (kind_ne_of_isSignificant h.code rfl)⟩

theorem Token.placed_empty {k : Kind} (hk : k ≠ .eof ∧ k ≠ .newline) (offset : Nat) :
    Token.Placed text ⟨k, .empty offset⟩ :=
  ⟨hk.1, Nat.le_refl _, fun h => absurd h hk.2⟩

/-- Tokens that end one after the other and not behind `bound`. -/
structure Ordered (text : List Char) (ts : List Token) (bound : Nat) : Prop where
  within : ∀ t ∈ ts, t.Placed text ∧ t.range.stop ≤ bound
  pairwise : ts.Pairwise fun a b => a.range.stop ≤ b.range.start

namespace Ordered

variable {ts : List Token} {a : Nat}

theorem nil (a : Nat) : Ordered text [] a := ⟨fun t ht => (by cases ht), List.Pairwise.nil⟩

theorem concat (h : Ordered text ts a) {t : Token} (ht : t.Placed text) (hstart : a ≤ t.range.start) :
    Ordered text (ts ++ [t]) t.range.stop where
  within u hu := by
    rcases mem_append.1 hu with hu | hu
    · obtain ⟨hplaced, hbound⟩ := h.within u hu
      exact ⟨hplaced, Nat.le_trans hbound (Nat.le_trans hstart ht.ordered)⟩
    · rw [mem_singleton.1 hu]
      exact ⟨ht, Nat.le_refl _⟩
  pairwise := by
    refine pairwise_append.2 ⟨h.pairwise, pairwise_singleton _ _, fun u hu v hv => ?_⟩
    rw [mem_singleton.1 hv]
    exact Nat.le_trans (h.within u hu).2 hstart

theorem outdents (h : Ordered text ts a) (n : Nat) :
    Ordered text (ts ++ List.replicate n ⟨.outdent, .empty a⟩) a := by
  induction n with
  | zero => simpa using h
  | succ n ih =>
    rw [replicate_succ', ← append_assoc]
    exact ih.concat (Token.placed_empty (by decide) a) (Nat.le_refl a)

end Ordered

namespace TokenStream

variable {ts : List Token} {blocks depth lastEnd : Nat}

theorem blocks_pos (h : TokenStream text ts blocks depth lastEnd) : 0 < blocks := by
  induction h with
  | first => exact Nat.one_pos
  | code _ _ ih => exact ih
  | indent => exact Nat.succ_pos _
  | newline _ hleft => exact Nat.sub_pos_of_lt hleft

theorem ordered (h : TokenStream text ts blocks depth lastEnd) : Ordered text ts lastEnd := by
  induction h with
  | first code => exact (Ordered.nil 0).concat code.placed code.behind
  | code _ code ih => exact ih.concat code.placed code.behind
  | indent _ code ih =>
    exact (ih.concat (Token.placed_empty (by decide) _) code.behind).concat code.placed (Nat.le_refl _)
  | newline _ _ _ spaced behind code ih =>
    exact ((ih.outdents _).concat ⟨Kind.noConfusion, spaced.le, fun _ => spaced⟩ behind).concat code.placed code.behind

/-- Code stands first. -/
theorem head (h : TokenStream text ts blocks depth lastEnd) : ∃ t ∈ ts.head?, t.isSignificant = true := by
  induction h with
  | first code => exact ⟨_, rfl, code.code⟩
  | code _ _ ih | indent _ _ ih | newline _ _ _ _ _ _ ih =>
    obtain ⟨t, ht, hcode⟩ := ih
    exact ⟨t, by simp [head?_append, Option.mem_def.1 ht], hcode⟩

end TokenStream

/-! ## Where a lexeme ends -/

namespace Lexeme

variable {n : Nat} {c : Char}

/-- What is taken from the text goes to its end, or does not end with a carriage return. -/
def EndsClear (text : List Char) (n : Nat) : Prop :=
  text.drop n = [] ∨ ∃ front c, text.take n = front ++ [c] ∧ c ≠ '\r'

theorem EndsClear.cons (h : EndsClear text n) (c : Char) : EndsClear (c :: text) (n + 1) := by
  rcases h with h | ⟨front, d, h, hd⟩
  · exact Or.inl h
  · exact Or.inr ⟨c :: front, d, by rw [take_succ_cons, h]; rfl, hd⟩

theorem EndsClear.getLast?_ne (h : EndsClear text n) (hne : text.drop n ≠ []) (before : List Char) :
    (before ++ text.take n).getLast? ≠ some '\r' := by
  rcases h with hnil | ⟨front, c, hfront, hc⟩
  · exact absurd hnil hne
  · rw [hfront, ← append_assoc, getLast?_concat]
    simpa using hc

theorem EndsClear.of_not_mem (hpos : 0 < n) (h : '\r' ∉ text.take n) : EndsClear text n := by
  rcases eq_nil_or_concat (text.take n) with hnil | ⟨front, c, hlast⟩
  · rcases take_eq_nil_iff.1 hnil with hn | rfl
    · omega
    · exact Or.inl drop_nil
  · rw [concat_eq_append] at hlast
    refine Or.inr ⟨front, c, hlast, ?_⟩
    rintro rfl
    exact h (by rw [hlast]; simp)

/-- A run of characters holds those of its class only. -/
theorem not_mem_run {p : Char → Bool} (hp : p '\r' = false) (text : List Char) : '\r' ∉ text.take (run p text) := by
  rw [run, ← prefix_iff_eq_take.1 ( takeWhile_prefix p)]
  intro hc
  cases hp.symm.trans (mem_takeWhile_imp hc)

theorem not_mem_one_run {p : Char → Bool} {a : Char} (ha : a ≠ '\r') (hp : p '\r' = false) (text : List Char) :
    '\r' ∉ (a :: text).take (1 + run p text) := by
  simp [Nat.add_comm 1, ha.symm, not_mem_run hp]

theorem not_mem_two_run {p : Char → Bool} {a b : Char} (ha : a ≠ '\r') (hb : b ≠ '\r') (hp : p '\r' = false)
    (text : List Char) : '\r' ∉ (a :: b :: text).take (2 + run p text) := by
  simp [Nat.add_comm 2, ha.symm, hb.symm, not_mem_run hp]

theorem not_mem_fraction (text : List Char) : '\r' ∉ text.take (fraction text) := by
  unfold fraction
  split
  · split
    · exact not_mem_one_run (by decide) (by decide) _
    · simp
  · simp

theorem not_mem_exponent (text : List Char) : '\r' ∉ text.take (exponent text) := by
  unfold exponent
  split
  · rename_i e rest
    split
    · rename_i he
      have hne : e ≠ '\r' := by
        rintro rfl
        cases he
      split
      iterate 2 exact not_mem_two_run hne (by decide) (by decide) _
      · exact not_mem_one_run hne (by decide) _
    · simp
  · simp

theorem not_mem_number (text : List Char) : '\r' ∉ text.take (number text) := by
  unfold number
  split
  iterate 3 exact not_mem_two_run (by decide) (by decide) (by decide) _
  rw [take_add, take_add, mem_append, mem_append, not_or, not_or]
  exact ⟨⟨not_mem_run (by decide) _, not_mem_fraction _⟩, not_mem_exponent _⟩

theorem endsClear_quoted {quote : Char} (hquote : quote ≠ '\r') (text : List Char) :
    EndsClear text (quoted quote text).2 := by
  fun_induction quoted quote text with
  | case1 => exact Or.inl rfl
  | case2 => exact Or.inl rfl
  | case3 c text kind n heq ih =>
    rw [heq] at ih
    exact (ih.cons c).cons '\\'
  | case4 c text _ _ hc => exact Or.inr ⟨[], c, rfl, by rintro rfl; cases hc⟩
  | case5 c text _ _ _ hc => exact Or.inr ⟨[], c, rfl, by rw [beq_iff_eq.1 hc]; exact hquote⟩
  | case6 c text _ _ _ _ kind n heq ih =>
    rw [heq] at ih
    exact ih.cons c

theorem endsClear_scan (hc : c ≠ '\r') (rest : List Char) : EndsClear (c :: rest) (scan (c :: rest)).2 := by
  have hone {c : Char} (hc : c ≠ '\r') (rest : List Char) : EndsClear (c :: rest) 1 := Or.inr ⟨[], c, rfl, hc⟩
  have htwo {b d : Char} {tail : List Char} (heq : c :: rest = b :: d :: tail) (hd : d ≠ '\r') :
      EndsClear (c :: rest) 2 := Or.inr ⟨[b], d, by rw [heq]; rfl, hd⟩
  unfold scan
  split
  case h_1 h => cases h
  all_goals try exact hone hc _
  all_goals try exact htwo (by assumption) (by decide)
  -- A string, a number, a name, or a character that starts no token.
  rename_i heq
  obtain ⟨rfl, rfl⟩ := List.cons.inj heq
  split
  · exact (endsClear_quoted hc rest).cons c
  split
  · exact .of_not_mem (number_pos ‹_› rest) (not_mem_number _)
  split
  · refine .of_not_mem (Nat.succ_pos _) ?_
    have hrun := @not_mem_run isNamePart (by decide +kernel) rest
    simp [run, hc.symm] at hrun ⊢
    exact hrun
  · exact hone hc rest

theorem endsClear_blockRest (text : List Char) : EndsClear text (blockRest text) := by
  fun_induction blockRest text with
  | case1 => exact Or.inl rfl
  | case2 text => exact Or.inr ⟨['#', '#'], '#', rfl, by decide⟩
  | case3 c text _ ih =>
    rw [Nat.add_comm]
    exact ih.cons c

theorem endsClear_scanComment (rest : List Char) : EndsClear ('#' :: rest) (scanComment ('#' :: rest)).2 := by
  have hline : EndsClear ('#' :: rest) (run (!isLineBreak ·) ('#' :: rest)) :=
    .of_not_mem (by simp [run, isLineBreak]) (not_mem_run (by decide) _)
  unfold scanComment
  split
  · exact hline
  · rename_i inside _ heq
    rw [heq, Nat.add_comm]
    exact (((endsClear_blockRest inside).cons '#').cons '#').cons '#'
  · exact hline

end Lexeme

/-! ## From step to step -/

namespace Lexer

variable {s : Lexer} {rest : List Char} {ps : List Piece}

/-- What was passed outside of brackets does not end with a carriage return, unless all was passed. -/
def Clear (text : List Char) (s : Lexer) : Prop :=
  ∃ before, text = before ++ s.rest ∧ s.offset = byteLength before ∧
    (s.depth = 0 → s.rest ≠ [] → before.getLast? ≠ some '\r')

/-- What is written between two steps: nothing, or a stream, with a line break behind it that is kept back in front of
a line. -/
inductive Lays (text : List Char) (s : Lexer) : Prop
  | start {column : Nat} (place : s.place = .front none column) (tokens : s.tokens = []) (blocks : s.blocks = [])
    (depth : s.depth = 0)
  | inside (place : s.place = .inside) (clear : Clear text s)
    (stream : TokenStream text s.tokens.reverse s.blocks.length s.depth s.lastEnd) (passed : s.lastEnd ≤ s.offset)
  | front {range : Span} {column : Nat} (place : s.place = .front (some range) column) (isBreak : IsBreak text range)
    (spaced : Spaced text range) (depth : s.depth = 0)
    (stream : TokenStream text s.tokens.reverse s.blocks.length 0 s.lastEnd) (behind : s.lastEnd ≤ range.start)
    (passed : range.stop ≤ s.offset)

theorem Clear.skip (h : Clear text s) {n : Nat} (hn : s.depth = 0 → Lexeme.EndsClear s.rest n) (place : Place)
    (comments : List Comment) : Clear text { s.skip n with place, comments } := by
  obtain ⟨before, htext, hoffset, -⟩ := h
  refine ⟨before ++ s.rest.take n, ?_, ?_, fun hdepth hne => ?_⟩
  · simp [Lexer.skip, htext]
  · simp [Lexer.skip, hoffset]
  · exact (hn hdepth).getLast?_ne hne before

/-- A line break is taken whole. -/
theorem Clear.isBreak (h : Clear text s) (hdepth : s.depth = 0) {c : Char} (hrest : s.rest = c :: rest)
    (hc : isLineBreak c = true) : IsBreak text ⟨s.offset, (s.skip (lineBreak s.rest)).offset⟩ := by
  obtain ⟨before, htext, hoffset, hclear⟩ := h
  refine ⟨before, s.rest.take (lineBreak s.rest), s.rest.drop (lineBreak s.rest), ?_, ?_, ?_⟩
  · rw [append_assoc, take_append_drop]
    exact htext
  · rw [← hoffset]
    rfl
  · have hlast := hclear hdepth (by simp [hrest])
    rw [hrest]
    unfold lineBreak
    split
    · rename_i heq
      rw [heq]
      exact Or.inl rfl
    · rename_i hnot
      have hc : c = '\n' ∨ c = '\r' := by simpa [isLineBreak] using hc
      rcases hc with rfl | rfl
      · exact Or.inr (Or.inl ⟨rfl, hlast⟩)
      · refine Or.inr (Or.inr ⟨rfl, fun hhead => ?_⟩)
        obtain ⟨more, hmore⟩ := head?_eq_some_iff.1 hhead
        exact hnot more (by rw [← hmore]; rfl)

theorem lays_token (hat : At text s.offset s.rest) {c : Char} (hrest : s.rest = c :: rest) (hc : c ≠ '\r')
    (hstream : ∀ t : Token, t.Follows s.offset → t.range.start = s.offset →
      TokenStream text (s.tokens.reverse ++ [t]) s.blocks.length (bracketDepth s.depth t.kind) t.range.stop) :
    Lays text s.token := by
  obtain ⟨t, htokens, hcode, hkind, hrange, hlt⟩ := token_spec (s := s) (by simp [hrest])
  have hdepth : s.token.depth = bracketDepth s.depth t.kind := by rw [hkind]; rfl
  have hlast : s.token.lastEnd = t.range.stop := by rw [hrange]; rfl
  refine .inside rfl ?_ ?_ (Nat.le_refl _)
  · obtain ⟨before, htext, hoffset⟩ := hat
    have hrest' : s.token.rest = s.rest.drop (Lexeme.scan s.rest).2 := rfl
    have hoffset' : s.token.offset = s.offset + byteLength (s.rest.take (Lexeme.scan s.rest).2) := rfl
    refine ⟨before ++ s.rest.take (Lexeme.scan s.rest).2, ?_, ?_, fun _ hne => ?_⟩
    · rw [hrest', append_assoc, take_append_drop, htext]
    · rw [hoffset', ← hoffset, byteLength_append]
    · have hends : Lexeme.EndsClear s.rest (Lexeme.scan s.rest).2 := hrest ▸ Lexeme.endsClear_scan hc rest
      exact hends.getLast?_ne (hrest' ▸ hne) before
  · rw [htokens, hdepth, hlast, reverse_cons]
    exact hstream t ⟨hcode, by rw [hrange], by rw [hrange]; exact Nat.le_of_lt hlt⟩ (by rw [hrange])

theorem length_dedent (column : Nat) (blocks : List Nat) : (dedent column blocks).length ≤ blocks.length ∧
    (blocks ≠ [] → 0 < (dedent column blocks).length) := by
  fun_induction dedent column blocks with
  | case1 top below more _ ih => exact ⟨Nat.le_succ_of_le ih.1, fun _ => ih.2 (cons_ne_nil _ _)⟩
  | case2 => exact ⟨Nat.le_refl _, fun _ => Nat.succ_pos _⟩
  | case3 => exact ⟨Nat.le_refl _, length_pos_of_ne_nil⟩

/-- Layout in front of code goes on with the stream. -/
theorem Lays.layout {newline : Option Span} {column : Nat} (h : Lays text s) (hplace : s.place = .front newline column)
    (t : Token) (code : t.Follows s.offset) (hstart : t.range.start = s.offset) :
    TokenStream text ((s.layout newline column).tokens.reverse ++ [t]) (s.layout newline column).blocks.length
      (bracketDepth s.depth t.kind) t.range.stop := by
  cases h with
  | inside place => cases place.symm.trans hplace
  | start place tokens blocks depth =>
    cases place.symm.trans hplace
    rw [depth]
    simp only [Lexer.layout, tokens]
    exact .first (code.of_le (Nat.zero_le _))
  | front place isBreak spaced depth stream behind passed =>
    cases place.symm.trans hplace
    rw [depth]
    simp only [Lexer.layout]
    split
    · simp only [push, reverse_cons]
      rw [← hstart]
      have := spaced.le
      exact stream.indent (code.of_le (by omega))
    · obtain ⟨hle, hpos⟩ := length_dedent column s.blocks
      have hne := stream.blocks_pos
      have hpos := hpos (ne_nil_of_length_pos hne)
      have hleft : s.blocks.length - (dedent column s.blocks).length < s.blocks.length := by omega
      have hnext := stream.newline hleft isBreak spaced behind (code.of_le passed)
      simp only [push, outdent, reverse_cons, reverse_append, reverse_replicate]
      convert hnext using 1
      omega

/-- Space and comments leave what is known of the line. -/
theorem Lays.skip (h : Lays text s) {n : Nat} (hn : s.place = .inside → s.depth = 0 → Lexeme.EndsClear s.rest n)
    (k : Nat) (comments : List Comment) : Lays text { s.skip n with place := s.place.moved k, comments } := by
  have hle := s.offset_le_skip n
  cases h with
  | start place tokens blocks depth => exact .start (by rw [place]; rfl) tokens blocks depth
  | inside place clear stream passed =>
    exact .inside (by rw [place]; rfl) (clear.skip (hn place) _ comments) stream (Nat.le_trans passed hle)
  | front place isBreak spaced depth stream behind passed =>
    exact .front (by rw [place]; rfl) isBreak spaced depth stream behind (Nat.le_trans passed hle)

theorem Lays.step (h : Lays text s) (htook : Took text s ps) : Lays text s.step := by
  have hreturn {c : Char} (hbreak : isLineBreak c = false) : c ≠ '\r' := by
    rintro rfl
    cases hbreak
  rcases s.step_cases with ⟨-, heq⟩ | ⟨c, rest, n, place, hrest, -, hspace, heq, hplace⟩ |
    ⟨rest, place, k, hrest, heq, rfl⟩ | ⟨c, rest, hrest, -, hbreak, -, ⟨hplace, heq⟩ |
    ⟨newline, column, hplace, heq⟩⟩ <;> rw [heq]
  · exact h
  · rcases hplace with ⟨⟨k, rfl⟩, rfl, hblank⟩ | ⟨hplace, hdepth, hbreak, rfl, rfl⟩
    · refine h.skip (fun hplace hdepth => Or.inr ⟨[], c, by rw [hrest]; rfl, ?_⟩) k s.comments
      rintro rfl
      cases hblank hplace hdepth
    · cases h with
      | start place | front place => cases place.symm.trans hplace
      | inside _ clear stream passed =>
        rw [hdepth] at stream
        have hspaced : Spaced text ⟨s.offset, (s.skip (lineBreak s.rest)).offset⟩ :=
          ⟨ps, _, _, (htook.spaces hspace .inside).pieces, by rw [← htook.offset]; rfl⟩
        exact .front rfl (clear.isBreak hdepth hrest hbreak) hspaced hdepth stream passed (Nat.le_refl _)
  · refine h.skip (fun _ _ => ?_) k _
    rw [hrest]
    exact Lexeme.endsClear_scanComment rest
  · cases h with
    | start place | front place => cases place.symm.trans hplace
    | inside _ clear stream passed =>
      exact lays_token htook.passed hrest (hreturn hbreak) fun t code _ => stream.code (code.of_le passed)
  · obtain ⟨hoffset, -, hdepth⟩ := s.layout_same newline column
    refine lays_token (htook.layout newline column).passed ((s.layout_rest newline column).trans hrest)
      (hreturn hbreak) ?_
    rw [hoffset, hdepth]
    exact h.layout hplace

/-- What a step keeps of a text that is read from its start. -/
theorem lays_steps (text : List Char) (n : Nat) :
    Lays text (steps n { rest := text }) ∧ ∃ ps, Took text (steps n { rest := text }) ps :=
  steps_induction (P := fun s => Lays text s ∧ ∃ ps, Took text s ps)
    (fun _ ⟨h, _, htook⟩ => ⟨h.step htook, htook.step⟩) n ⟨.start rfl rfl rfl rfl, _, .start text⟩

end Lexer

/-! ## The tokens of a text -/

namespace Lexed

/-- The tokens of a text are a stream, unless there is no code, and behind it all blocks are closed. -/
theorem stream_ofText (text : List Char) :
    (Lexed.ofText text).tokens = [⟨.eof, .empty (byteLength text)⟩] ∨
      ∃ ts blocks depth lastEnd, TokenStream text ts blocks depth lastEnd ∧ lastEnd ≤ byteLength text ∧
        (Lexed.ofText text).tokens = ts ++ List.replicate (blocks - 1) ⟨.outdent, .empty lastEnd⟩ ++
          [⟨.eof, .empty (byteLength text)⟩] := by
  obtain ⟨h, ps, htook⟩ := Lexer.lays_steps text text.length
  have hoffset : (Lexer.steps text.length { rest := text }).offset = byteLength text := by
    obtain ⟨before, htext, hlen⟩ := htook.passed
    rw [Lexer.rest_steps (s := { rest := text }) (Nat.le_refl _), append_nil] at htext
    rw [← hlen, ← htext]
  rw [Lexed.ofText, Lexer.tokens_finish, hoffset]
  cases h with
  | start _ tokens blocks =>
    rw [tokens, blocks]
    exact Or.inl rfl
  | inside _ _ stream passed => exact Or.inr ⟨_, _, _, _, stream, hoffset ▸ passed, rfl⟩
  | front _ _ spaced _ stream behind passed =>
    have := spaced.le
    exact Or.inr ⟨_, _, _, _, stream, by omega, rfl⟩

/-- The end mark stands behind all other tokens, which are in order. -/
theorem exists_ordered (text : List Char) :
    ∃ ts, (Lexed.ofText text).tokens = ts ++ [⟨.eof, .empty (byteLength text)⟩] ∧ Ordered text ts (byteLength text) ∧
      ∀ t ∈ ts.head?, t.isSignificant = true := by
  rcases stream_ofText text with h | ⟨ts, blocks, depth, lastEnd, stream, hle, h⟩
  · exact ⟨[], h, .nil _, fun t ht => by cases ht⟩
  · obtain ⟨hwithin, hpairwise⟩ := stream.ordered.outdents (blocks - 1)
    refine ⟨_, h, ⟨fun t ht => ?_, hpairwise⟩, fun t ht => ?_⟩
    · obtain ⟨hplaced, hstop⟩ := hwithin t ht
      exact ⟨hplaced, Nat.le_trans hstop hle⟩
    · obtain ⟨u, hu, hcode⟩ := stream.head
      rw [head?_append, Option.mem_def.1 hu] at ht
      cases ht
      exact hcode

/-- Each token ends before the next one starts. -/
theorem pairwise_ofText (text : List Char) :
    (Lexed.ofText text).tokens.Pairwise fun a b => a.range.stop ≤ b.range.start := by
  obtain ⟨ts, heq, h, -⟩ := exists_ordered text
  rw [heq, pairwise_append]
  refine ⟨h.pairwise, pairwise_singleton _ _, fun a ha b hb => ?_⟩
  rw [mem_singleton.1 hb]
  exact (h.within a ha).2

theorem ordered_ofText (text : List Char) : (Lexed.ofText text).tokens.Pairwise Token.Before :=
  (pairwise_ofText text).imp fun h _ _ => h

theorem starts_ofText (text : List Char) :
    (Lexed.ofText text).tokens.Pairwise fun a b => a.range.start ≤ b.range.start := by
  obtain ⟨ts, heq, h, -⟩ := exists_ordered text
  refine (pairwise_ofText text).imp_of_mem fun {a b} ha _ hab => Nat.le_trans ?_ hab
  rw [heq] at ha
  rcases mem_append.1 ha with ha | ha
  · exact (h.within a ha).1.ordered
  · rw [mem_singleton.1 ha]
    exact Nat.le_refl _

/-- The end mark is the last token, and no other token is one. -/
theorem eof_iff {text : List Char} {i : Nat} {t : Token} (ht : (Lexed.ofText text).tokens[i]? = some t) :
    t.kind = .eof ↔ i + 1 = (Lexed.ofText text).tokens.length := by
  obtain ⟨ts, heq, h, -⟩ := exists_ordered text
  rw [heq] at ht ⊢
  rw [length_append, length_singleton, Nat.add_right_cancel_iff]
  rcases Nat.lt_or_ge i ts.length with hlt | hge
  · rw [getElem?_append_left hlt] at ht
    exact iff_of_false (h.within t (mem_of_getElem? ht)).1.ne_eof (Nat.ne_of_lt hlt)
  · obtain ⟨hi, rfl⟩ := List.getElem?_eq_some_iff.1 ht
    rw [length_append, length_singleton] at hi
    obtain rfl : i = ts.length := by omega
    simp

/-- A text without code in front has no code. -/
theorem eof_of_layout {text : List Char} {t : Token} (ht : (Lexed.ofText text).tokens[0]? = some t)
    (hs : t.isSignificant = false) : t.kind = .eof := by
  obtain ⟨ts, heq, -, hfirst⟩ := exists_ordered text
  rw [heq, ← head?_eq_getElem?] at ht
  cases ts with
  | nil =>
    cases ht
    rfl
  | cons u us =>
    cases ht
    cases (hfirst t rfl).symm.trans hs

theorem getLast?_ofText (text : List Char) :
    (Lexed.ofText text).tokens.getLast? = some ⟨.eof, .empty (byteLength text)⟩ := by
  obtain ⟨ts, heq, -, -⟩ := exists_ordered text
  rw [heq, getLast?_concat]

theorem length_pos (text : List Char) : 0 < (Lexed.ofText text).tokens.length := by
  obtain ⟨ts, heq, -, -⟩ := exists_ordered text
  rw [heq, length_append, length_singleton]
  omega

end Lexed

end Respell
