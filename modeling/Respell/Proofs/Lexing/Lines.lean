import Respell.Proofs.Lexing.Layout

/-!
Lines of code and their indentation.

A line is a row of pieces between line breaks outside of brackets.  Its *column* are the blanks that stand directly in
front of its code, since the last comment if there is one in front of it:

    a                        0
      b                      2
      ### c ### d            1
    # e
      ### f ###   g          3

The tokens of a text are the code of its lines with layout between them, which follows from the columns alone
(`Lexed.kinds_ofText`): what the lexer has written and what it is going to write is the same before and after every
step.  Where every column is deeper than that of the line before or the column of a block around it, the layout is the
one that indentation calls for (`Lexed.layout_between`): a deeper line is indented, any other line leaves the deeper
blocks, and lines of the same column are siblings.

With a comment between the blanks that a line starts with and its code, those blanks do not count
(`Lexed.comment_in_front`).
-/

namespace Respell

open List Text

/-! ## Rows of pieces -/

namespace Piece

variable {depth : Nat} {p : Piece}

def isSpace : Piece → Bool
  | space _ => true
  | _ => false

def kind? : Piece → Option Kind
  | code kind _ => some kind
  | _ => none

/-- The open brackets behind a piece. -/
def depthAfter (depth : Nat) : Piece → Nat
  | code kind _ => Lexer.bracketDepth depth kind
  | _ => depth

/-- The piece ends a line: it is a line break outside of brackets. -/
def endsLine (depth : Nat) : Piece → Bool
  | space c => isLineBreak c && depth == 0
  | _ => false

/-- The rest of the line, and the lines behind it. -/
def rows : (depth : Nat) → List Piece → List Piece × List (List Piece)
  | _, [] => ([], [])
  | depth, p :: ps =>
    let behind := rows (p.depthAfter depth) ps
    if p.endsLine depth then ([], behind.1 :: behind.2) else (p :: behind.1, behind.2)

/-- The code of a row. -/
def kinds (row : List Piece) : List Kind := row.filterMap kind?

/-- The blanks that a row starts with. -/
def blanks (row : List Piece) : Nat := (row.takeWhile isSpace).length

/-- The blanks directly in front of the code, when some were passed. -/
def columnFrom (column : Nat) : List Piece → Nat
  | [] => column
  | space _ :: row => columnFrom (column + 1) row
  | comment _ _ :: row => columnFrom 0 row
  | code _ _ :: _ => column

/-- The blanks directly in front of the code, since the last comment. -/
def column (row : List Piece) : Nat := columnFrom 0 row

/-- Nothing but blanks stands in front of the code. -/
def Bare (row : List Piece) : Prop := ∃ kind chars rest, row.dropWhile isSpace = code kind chars :: rest

/-- The rows of a text that hold code. -/
def codeRows (text : List Char) : List (List Piece) :=
  ((rows 0 (ofText text)).1 :: (rows 0 (ofText text)).2).filter fun row => !(kinds row).isEmpty

theorem rows_ends (h : p.endsLine depth = true) (ps : List Piece) :
    rows depth (p :: ps) = ([], (rows (p.depthAfter depth) ps).1 :: (rows (p.depthAfter depth) ps).2) := by
  rw [rows]
  exact if_pos h

theorem rows_goes (h : p.endsLine depth = false) (ps : List Piece) :
    rows depth (p :: ps) = (p :: (rows (p.depthAfter depth) ps).1, (rows (p.depthAfter depth) ps).2) := by
  rw [rows]
  exact if_neg (Bool.eq_false_iff.1 h)

theorem endsLine_blank {c : Char} (h : isBlank c = true) (depth : Nat) : (space c).endsLine depth = false := by
  have hc : c = ' ' ∨ c = '\t' := by simpa [isBlank] using h
  rcases hc with rfl | rfl <;> rfl

theorem endsLine_break {c : Char} (h : isLineBreak c = true) : (space c).endsLine 0 = true := by
  simp [endsLine, h]

theorem exists_space_of_endsLine (h : p.endsLine depth = true) : ∃ c, p = space c := by
  cases p with
  | space c => exact ⟨c, rfl⟩
  | comment _ _ | code _ _ => cases h

end Piece

/-! ## Lines -/

/-- A line of code. -/
structure Line where
  column : Nat
  kinds : List Kind
deriving DecidableEq, Repr

namespace Line

/-- The line of a row in front of which blanks were passed, if there is code in it. -/
def ofRow? (column : Nat) (row : List Piece) : Option Line :=
  if (Piece.kinds row).isEmpty then none else some ⟨Piece.columnFrom column row, Piece.kinds row⟩

def ofRows (rows : List (List Piece)) : List Line := rows.filterMap (ofRow? 0)

/-- The lines of code of a text. -/
def ofText (text : List Char) : List Line :=
  ofRows ((Piece.rows 0 (Piece.ofText text)).1 :: (Piece.rows 0 (Piece.ofText text)).2)

/-- The layout that the lexer writes in front of a line, by the columns of the open blocks. -/
def marks (blocks : List Nat) (column : Nat) : List Kind :=
  if blocks = [] then []
  else if blocks.headD 0 < column then [.indent]
  else List.replicate (blocks.length - (Lexer.dedent column blocks).length) .outdent ++ [.newline]

/-- The columns of the open blocks behind a line. -/
def blocksAfter (blocks : List Nat) (column : Nat) : List Nat :=
  if blocks = [] then [column] else if blocks.headD 0 < column then column :: blocks else Lexer.dedent column blocks

/-- What is written for lines, up to the end of the text. -/
def written (blocks : List Nat) : List Line → List Kind
  | [] => List.replicate (blocks.length - 1) .outdent ++ [.eof]
  | l :: ls => marks blocks l.column ++ l.kinds ++ written (blocksAfter blocks l.column) ls

theorem ofRow?_code (column : Nat) (kind : Kind) (chars : List Char) (row : List Piece) :
    ofRow? column (.code kind chars :: row) = some ⟨column, kind :: Piece.kinds row⟩ := rfl

theorem ofRows_cons (row : List Piece) (rows : List (List Piece)) :
    ofRows (row :: rows) = (ofRow? 0 row).toList ++ ofRows rows := by
  unfold ofRows
  cases h : ofRow? 0 row with
  | none => rw [filterMap_cons_none h]; rfl
  | some l => rw [filterMap_cons_some h]; rfl

end Line

namespace Lexer

variable {text rest : List Char} {s : Lexer} {newline : Option Span} {column : Nat} {c : Char}

/-- What is still to be written where the lexer stands. -/
def ahead (s : Lexer) : List Kind :=
  let rows := Piece.rows s.depth (Piece.ofText s.rest)
  match s.place with
  | .front _ column => Line.written s.blocks ((Line.ofRow? column rows.1).toList ++ Line.ofRows rows.2)
  | .inside => Piece.kinds rows.1 ++ Line.written s.blocks (Line.ofRows rows.2)

/-- All that is written in the end. -/
def foretold (s : Lexer) : List Kind := s.tokens.reverse.map (·.kind) ++ s.ahead

theorem ahead_front (h : s.place = .front newline column) :
    s.ahead = Line.written s.blocks ((Line.ofRow? column (Piece.rows s.depth (Piece.ofText s.rest)).1).toList ++
      Line.ofRows (Piece.rows s.depth (Piece.ofText s.rest)).2) := by
  rw [ahead, h]

theorem ahead_inside (h : s.place = .inside) :
    s.ahead = Piece.kinds (Piece.rows s.depth (Piece.ofText s.rest)).1 ++
      Line.written s.blocks (Line.ofRows (Piece.rows s.depth (Piece.ofText s.rest)).2) := by
  rw [ahead, h]

theorem layout_kinds (h : newline = none ↔ s.blocks = []) (column : Nat) :
    (s.layout newline column).tokens.reverse.map (·.kind) =
        s.tokens.reverse.map (·.kind) ++ Line.marks s.blocks column ∧
      (s.layout newline column).blocks = Line.blocksAfter s.blocks column := by
  unfold Lexer.layout Line.marks Line.blocksAfter
  cases newline with
  | none =>
    have hblocks := h.1 rfl
    simp [hblocks]
  | some range =>
    have hblocks : s.blocks ≠ [] := fun hnil => by cases h.2 hnil
    simp only [if_neg hblocks]
    split
    · simp [push]
    · simp [push, outdent]

theorem pieces_space (hrest : s.rest = c :: rest) (hc : isBlank c = true ∨ isLineBreak c = true) :
    Piece.ofText s.rest = .space c :: Piece.ofText (s.skip 1).rest := by
  have hone : ∀ d ∈ [c], isBlank d = true ∨ isLineBreak d = true := fun d hd => mem_singleton.1 hd ▸ hc
  rw [skip, hrest]
  exact Piece.ofText_spaces hone rest

/-- The lexer has written nothing since `s`, and stands at the same brackets and blocks. -/
structure Passes (s s' : Lexer) : Prop where
  tokens : s'.tokens = s.tokens
  blocks : s'.blocks = s.blocks
  depth : s'.depth = s.depth

variable {s' : Lexer} {p : Piece}

theorem Passes.inside (h : Passes s s') (hplace : s.place = .inside) (hplace' : s'.place = .inside)
    (hpieces : Piece.ofText s.rest = p :: Piece.ofText s'.rest) (hgoes : p.endsLine s.depth = false)
    (hdepth : p.depthAfter s.depth = s.depth) (hkind : p.kind? = none) : s'.foretold = s.foretold := by
  rw [foretold, foretold, ahead_inside hplace, ahead_inside hplace', hpieces, Piece.rows_goes hgoes, hdepth, h.tokens,
    h.blocks, h.depth, Piece.kinds, Piece.kinds, filterMap_cons_none hkind]

theorem Passes.front (h : Passes s s') {newline' : Option Span} {column' : Nat}
    (hplace : s.place = .front newline column) (hplace' : s'.place = .front newline' column')
    (hpieces : Piece.ofText s.rest = p :: Piece.ofText s'.rest) (hgoes : p.endsLine s.depth = false)
    (hdepth : p.depthAfter s.depth = s.depth) (hrow : ∀ row, Line.ofRow? column (p :: row) = Line.ofRow? column' row) :
    s'.foretold = s.foretold := by
  rw [foretold, foretold, ahead_front hplace, ahead_front hplace', hpieces, Piece.rows_goes hgoes, hdepth, h.tokens,
    h.blocks, h.depth, hrow]

/-- A line break ends the line, with or without code in it. -/
theorem Passes.ends (h : Passes s s') (hplace' : s'.place = .front newline 0)
    (hpieces : Piece.ofText s.rest = .space c :: Piece.ofText s'.rest) (hbreak : isLineBreak c = true)
    (hdepth : s.depth = 0) : s'.foretold = s.foretold := by
  have hends := Piece.endsLine_break hbreak
  rw [foretold, foretold, ahead_front hplace', h.tokens, h.blocks, h.depth, hdepth]
  cases hplace : s.place with
  | inside =>
    rw [ahead_inside hplace, hdepth, hpieces, Piece.rows_ends hends, Line.ofRows_cons]
    rfl
  | front newline column =>
    rw [ahead_front hplace, hdepth, hpieces, Piece.rows_ends hends, Line.ofRows_cons]
    rfl

/-- Code is written behind what was written before. -/
theorem foretold_token (hpieces : Piece.ofText s.rest = .code (Lexeme.scan s.rest).1
      (s.rest.take (Lexeme.scan s.rest).2) :: Piece.ofText s.token.rest) :
    s.token.foretold = s.tokens.reverse.map (·.kind) ++
      (Piece.kinds (Piece.rows s.depth (Piece.ofText s.rest)).1 ++
        Line.written s.blocks (Line.ofRows (Piece.rows s.depth (Piece.ofText s.rest)).2)) := by
  rw [hpieces, Piece.rows_goes rfl, foretold, ahead_inside rfl]
  simp only [token, push, skip, reverse_cons, map_append, append_assoc]
  rfl

theorem foretold_layout
    (hpieces : Piece.ofText s.rest =
      .code (Lexeme.scan s.rest).1 (s.rest.take (Lexeme.scan s.rest).2) :: Piece.ofText s.token.rest)
    (hplace : s.place = .front newline column) (hstarted : newline = none ↔ s.blocks = []) :
    (s.layout newline column).token.foretold = s.foretold := by
  have hrest := s.layout_rest newline column
  obtain ⟨hkinds, hblocks⟩ := layout_kinds hstarted column
  have hpieces' : Piece.ofText (s.layout newline column).rest = .code (Lexeme.scan (s.layout newline column).rest).1
      ((s.layout newline column).rest.take (Lexeme.scan (s.layout newline column).rest).2) ::
        Piece.ofText (s.layout newline column).token.rest := by
    show _ = _ :: Piece.ofText ((s.layout newline column).rest.drop _)
    rw [hrest]
    exact hpieces
  rw [foretold_token hpieces', hkinds, hblocks, hrest, (s.layout_same newline column).2.2, foretold,
    ahead_front hplace, hpieces, Piece.rows_goes rfl, Line.ofRow?_code]
  simp [Line.written, Piece.kinds, Piece.kind?]

/-- A line break of two signs ends a line and an empty one. -/
theorem foretold_break (hrest : s.rest = c :: rest) (hbreak : isLineBreak c = true) (hdepth : s.depth = 0)
    (newline : Option Span) :
    ({ s.skip (lineBreak s.rest) with place := .front newline 0 } : Lexer).foretold = s.foretold := by
  have hone : ({ s.skip 1 with place := .front newline 0 } : Lexer).foretold = s.foretold :=
    Passes.ends ⟨rfl, rfl, rfl⟩ rfl (pieces_space hrest (Or.inr hbreak)) hbreak hdepth
  rw [← hone]
  unfold lineBreak
  split
  · rename_i rest' heq
    have hpieces : Piece.ofText (s.rest.drop 1) = .space '\n' :: Piece.ofText (s.rest.drop 2) := by
      rw [heq]
      exact Piece.ofText_spaces (forall_mem_singleton.2 (Or.inr rfl)) rest'
    exact Passes.ends ⟨rfl, rfl, rfl⟩ rfl hpieces rfl hdepth
  · rfl

/-- No step changes what is written in the end. -/
theorem foretold_step (h : Lays text s) : s.step.foretold = s.foretold := by
  unfold Lexer.step
  split
  · rfl
  rename_i c rest hrest
  split
  · rename_i newline column hplace
    have hdepth : s.depth = 0 := by
      cases h with
      | inside place => cases place.symm.trans hplace
      | start _ _ _ depth | front _ _ _ depth => exact depth
    have hstarted : newline = none ↔ s.blocks = [] := by
      cases h with
      | inside place => cases place.symm.trans hplace
      | start place _ blocks =>
        cases place.symm.trans hplace
        exact ⟨fun _ => blocks, fun _ => rfl⟩
      | front place _ _ _ stream =>
        cases place.symm.trans hplace
        have hne := ne_nil_of_length_pos stream.blocks_pos
        exact ⟨fun hnone => absurd hnone (Option.some_ne_none _), fun hnil => absurd hnil hne⟩
    split
    · rename_i hblank
      exact Passes.front ⟨rfl, rfl, rfl⟩ hplace rfl (pieces_space hrest (Or.inl hblank))
        (Piece.endsLine_blank hblank s.depth) rfl fun row => rfl
    split
    · rename_i hbreak
      exact Passes.ends ⟨rfl, rfl, rfl⟩ rfl (pieces_space hrest (Or.inr hbreak)) hbreak hdepth
    split
    · rename_i hsign
      rw [beq_iff_eq.1 hsign] at hrest
      exact Passes.front ⟨rfl, rfl, rfl⟩ hplace rfl (pieces_comment hrest) rfl rfl fun row => rfl
    · rename_i hblank hbreak hsign
      exact foretold_layout (pieces_token hrest (Bool.eq_false_iff.2 hblank) (Bool.eq_false_iff.2 hbreak)
        (mt beq_iff_eq.2 hsign)) hplace hstarted
  · rename_i hplace
    split
    · rename_i hblank
      exact Passes.inside ⟨rfl, rfl, rfl⟩ hplace hplace (pieces_space hrest (Or.inl hblank))
        (Piece.endsLine_blank hblank s.depth) rfl rfl
    split
    · rename_i hsign
      rw [beq_iff_eq.1 hsign] at hrest
      exact Passes.inside ⟨rfl, rfl, rfl⟩ hplace hplace (pieces_comment hrest) rfl rfl rfl
    split
    · rename_i hbreak
      split
      · rename_i hdepth
        have hgoes : (Piece.space c).endsLine s.depth = false := by simp [Piece.endsLine]; omega
        exact Passes.inside ⟨rfl, rfl, rfl⟩ hplace hplace (pieces_space hrest (Or.inr hbreak)) hgoes rfl rfl
      · rename_i hdepth
        exact foretold_break hrest hbreak (Nat.eq_zero_of_not_pos hdepth) _
    · rename_i hblank hsign hbreak
      have hpieces := pieces_token hrest (Bool.eq_false_iff.2 hblank) (Bool.eq_false_iff.2 hbreak)
        (mt beq_iff_eq.2 hsign)
      rw [foretold_token hpieces, foretold, ahead_inside hplace]

/-- At the end of the text only the ends of blocks and the end mark are still to be written. -/
theorem foretold_finish (h : s.rest = []) : s.finish.tokens.map (·.kind) = s.foretold := by
  have hahead : s.ahead = List.replicate (s.blocks.length - 1) .outdent ++ [.eof] := by
    unfold ahead
    rw [h]
    cases s.place <;> rfl
  rw [foretold, hahead, tokens_finish]
  simp

end Lexer

/-- The tokens of a text are the code of its lines, with the layout between them that follows from their columns. -/
theorem Lexed.kinds_ofText (text : List Char) :
    (Lexed.ofText text).tokens.map (·.kind) = Line.written [] (Line.ofText text) := by
  have hrest : (Lexer.steps text.length { rest := text }).rest = [] := Lexer.rest_steps (Nat.le_refl _)
  obtain ⟨hsteps, -⟩ := Lexer.steps_induction
    (P := fun s => s.foretold = Lexer.foretold { rest := text } ∧ Lexer.Lays text s ∧ ∃ ps, Lexer.Took text s ps)
    (fun _ ⟨heq, h, _, htook⟩ => ⟨(Lexer.foretold_step h).trans heq, h.step htook, htook.step⟩)
    text.length ⟨rfl, .start rfl rfl rfl rfl, _, .start text⟩
  rw [Lexed.ofText, Lexer.foretold_finish hrest, hsteps, Lexer.foretold, Lexer.ahead_front rfl, ← Line.ofRows_cons]
  rfl

/-! ## Columns -/

namespace Line

/-- The columns of the blocks around a line of this column, its own first. -/
def around (blocks : List Nat) (column : Nat) : List Nat := column :: blocks.dropWhile (column ≤ ·)

/-- The columns of the blocks that are open behind lines of these columns. -/
def enclosing (columns : List Nat) : List Nat := columns.foldl around []

/-- Every column is deeper than the innermost open block, or that of an open block. -/
def Aligned (blocks : List Nat) : List Nat → Prop
  | [] => True
  | c :: cs => (∀ top ∈ blocks.head?, top < c ∨ c ∈ blocks) ∧ Aligned (around blocks c) cs

instance decidableAligned : (blocks columns : List Nat) → Decidable (Aligned blocks columns)
  | _, [] => inferInstanceAs (Decidable True)
  | blocks, c :: cs =>
    have := decidableAligned (around blocks c) cs
    inferInstanceAs (Decidable ((∀ top ∈ blocks.head?, top < c ∨ c ∈ blocks) ∧ Aligned (around blocks c) cs))

variable {blocks : List Nat} {c d : Nat}

theorem lt_of_mem_dropWhile (h : blocks.Pairwise (· > ·)) : ∀ b ∈ blocks.dropWhile (c ≤ ·), b < c := by
  induction blocks with
  | nil => exact fun b hb => by cases hb
  | cons a blocks ih =>
    obtain ⟨ha, hblocks⟩ := pairwise_cons.1 h
    by_cases hle : c ≤ a
    · rw [dropWhile_cons_of_pos (by simpa using hle)]
      exact ih hblocks
    · rw [dropWhile_cons_of_neg (by simpa using hle)]
      refine forall_mem_cons.2 ⟨by omega, fun b hb => ?_⟩
      have := ha b hb
      omega

/-- Blocks are nested: each is deeper than those around it. -/
theorem around_pairwise (h : blocks.Pairwise (· > ·)) (c : Nat) : (around blocks c).Pairwise (· > ·) :=
  pairwise_cons.2 ⟨lt_of_mem_dropWhile h, h.sublist (dropWhile_sublist _)⟩

theorem enclosing_concat (columns : List Nat) (c : Nat) : enclosing (columns ++ [c]) = around (enclosing columns) c :=
  foldl_concat ..

theorem enclosing_pairwise (columns : List Nat) : (enclosing columns).Pairwise (· > ·) := by
  induction columns using List.reverseRecOn with
  | nil => exact List.Pairwise.nil
  | append_singleton columns c ih =>
    rw [enclosing_concat]
    exact around_pairwise ih c

/-- An open block stands between the deeper ones and those around it. -/
theorem split_of_mem (h : blocks.Pairwise (· > ·)) (hc : c ∈ blocks) :
    ∃ inner outer, blocks = inner ++ c :: outer ∧ (∀ b ∈ inner, c < b) ∧ ∀ b ∈ outer, b < c := by
  obtain ⟨inner, outer, rfl⟩ := append_of_mem hc
  obtain ⟨-, houter, hacross⟩ := pairwise_append.1 h
  exact ⟨inner, outer, rfl, fun b hb => hacross b hb c mem_cons_self, (pairwise_cons.1 houter).1⟩

/-- The lexer leaves the deeper blocks when a line has the column of an open one. -/
theorem dedent_append {inner outer : List Nat} (h : ∀ b ∈ inner, c < b) :
    Lexer.dedent c (inner ++ c :: outer) = c :: outer := by
  induction inner with
  | nil =>
    cases outer with
    | nil => rfl
    | cons b outer => simp [Lexer.dedent]
  | cons b inner ih =>
    obtain ⟨hb, hinner⟩ := forall_mem_cons.1 h
    have hmore : inner ++ c :: outer ≠ [] := by simp
    cases hrest : inner ++ c :: outer with
    | nil => exact absurd hrest hmore
    | cons d rest =>
      rw [cons_append, hrest, Lexer.dedent, if_pos hb, ← hrest]
      exact ih hinner

/-- The layout that indentation calls for in front of a line, by the blocks around the line before. -/
def gap (blocks : List Nat) (column : Nat) : List Kind :=
  if blocks.headD 0 < column then [.indent]
  else List.replicate (blocks.countP (column < ·)) .outdent ++ [.newline]

theorem gap_eq_indent_iff : gap (around blocks c) d = [.indent] ↔ c < d := by
  unfold gap
  split
  · rename_i hlt
    exact ⟨fun _ => hlt, fun _ => rfl⟩
  · rename_i hlt
    refine ⟨fun heq => ?_, fun hlt' => absurd hlt' hlt⟩
    have hlast := congrArg List.getLast? heq
    rw [getLast?_concat] at hlast
    cases hlast

/-- A line of the same column leaves no block. -/
theorem gap_eq_newline (h : blocks.Pairwise (· > ·)) : gap (around blocks c) c = [.newline] := by
  have hnone : (around blocks c).countP (c < ·) = 0 := by
    refine countP_eq_zero.2 fun b hb hlt => ?_
    have hlt : c < b := of_decide_eq_true hlt
    rcases mem_cons.1 hb with rfl | hb
    · exact Nat.lt_irrefl _ hlt
    · exact Nat.lt_asymm hlt (lt_of_mem_dropWhile h b hb)
  rw [gap, hnone]
  exact if_neg (Nat.lt_irrefl c)

/-- In front of an aligned line the lexer writes that layout, and keeps the blocks around it. -/
theorem marks_eq {top : Nat} (h : (top :: blocks).Pairwise (· > ·)) (hc : top < c ∨ c ∈ top :: blocks) :
    marks (top :: blocks) c = gap (top :: blocks) c ∧ blocksAfter (top :: blocks) c = around (top :: blocks) c := by
  rw [marks, gap, blocksAfter, if_neg (cons_ne_nil _ _), if_neg (cons_ne_nil _ _), headD_cons]
  split
  · rename_i hdeeper
    rw [around, dropWhile_cons_of_neg (by simpa using hdeeper)]
    exact ⟨rfl, rfl⟩
  · rename_i hdeeper
    obtain ⟨inner, outer, heq, hinner, houter⟩ := split_of_mem h (hc.resolve_left hdeeper)
    have hcount : outer.countP (c < ·) = 0 :=
      countP_eq_zero.2 fun b hb hlt => Nat.lt_asymm (houter b hb) (of_decide_eq_true hlt)
    have hall : inner.countP (c < ·) = inner.length :=
      countP_eq_length.2 fun b hb => decide_eq_true (hinner b hb)
    have hdrop : outer.dropWhile (c ≤ ·) = outer := by
      cases outer with
      | nil => rfl
      | cons b outer =>
        have := houter b mem_cons_self
        exact dropWhile_cons_of_neg (by simpa using this)
    rw [heq, dedent_append hinner, around, dropWhile_append_of_pos fun b hb =>
      decide_eq_true (Nat.le_of_lt (hinner b hb)), dropWhile_cons_of_pos (by simp), hdrop]
    simp [hcount, hall]

theorem blocksAfter_eq (h : blocks.Pairwise (· > ·)) (hc : ∀ top ∈ blocks.head?, top < c ∨ c ∈ blocks) :
    blocksAfter blocks c = around blocks c := by
  cases blocks with
  | nil => rfl
  | cons top blocks => exact (marks_eq h (hc top rfl)).2

theorem marks_layout (blocks : List Nat) (c : Nat) : (marks blocks c).filter (!·.isLayout) = [] := by
  unfold marks
  split
  · rfl
  split
  · rfl
  · simp [Kind.isLayout]

/-- The layout in front of an aligned line, with what is written before and behind the two lines. -/
theorem written_split {before after : List Line} {l m : Line} (h : blocks.Pairwise (· > ·))
    (haligned : Aligned blocks ((before ++ l :: m :: after).map (·.column))) :
    ∃ front back, written blocks (before ++ l :: m :: after) =
        front ++ l.kinds ++ gap (around ((before.map (·.column)).foldl around blocks) l.column) m.column ++
          m.kinds ++ back ∧
      front.filter (!·.isLayout) = (before.flatMap (·.kinds)).filter (!·.isLayout) := by
  induction before generalizing blocks with
  | nil =>
    obtain ⟨hl, hm, -⟩ := haligned
    refine ⟨marks blocks l.column, written (blocksAfter (around blocks l.column) m.column) after, ?_,
      marks_layout blocks l.column⟩
    rw [nil_append, written, written, blocksAfter_eq h hl]
    rw [around] at hm ⊢
    rw [(marks_eq (around_pairwise h l.column) (hm l.column rfl)).1]
    simp [around]
  | cons b before ih =>
    obtain ⟨hb, hmore⟩ := haligned
    obtain ⟨front, back, hwritten, hfront⟩ := ih (around_pairwise h b.column) hmore
    refine ⟨marks blocks b.column ++ b.kinds ++ front, back, ?_, ?_⟩
    · rw [cons_append, written, blocksAfter_eq h hb, hwritten]
      simp
    · rw [filter_append, filter_append, marks_layout, hfront, flatMap_cons, filter_append]
      rfl

end Line

/-! ## Code rows -/

namespace Piece

variable {row : List Piece}

theorem columnFrom_eq (h : Bare row) (column : Nat) : columnFrom column row = column + blanks row := by
  obtain ⟨kind, chars, rest, hrest⟩ := h
  induction row generalizing column with
  | nil => cases hrest
  | cons p row ih =>
    cases p with
    | space c =>
      rw [columnFrom, ih (column + 1) hrest, blanks, blanks, takeWhile_cons_of_pos rfl, length_cons]
      omega
    | comment _ _ => cases hrest
    | code _ _ => rfl

/-- The column is the number of blanks, unless there are comments among them. -/
theorem column_eq_blanks (h : Bare row) : column row = blanks row := (columnFrom_eq h 0).trans (Nat.zero_add _)

/-- Rows lose no code. -/
theorem kinds_rows (depth : Nat) (ps : List Piece) :
    kinds (rows depth ps).1 ++ (rows depth ps).2.flatMap kinds = kinds ps := by
  induction ps generalizing depth with
  | nil => rfl
  | cons p ps ih =>
    cases hends : p.endsLine depth with
    | true =>
      obtain ⟨c, rfl⟩ := exists_space_of_endsLine hends
      rw [rows_ends hends]
      exact ih depth
    | false =>
      rw [rows_goes hends, kinds, kinds, filterMap_cons, filterMap_cons, ← kinds, ← kinds, ← ih (p.depthAfter depth)]
      cases p.kind? <;> rfl

theorem kinds_located (offset : Nat) (ps : List Piece) : (located token? offset ps).map (·.kind) = kinds ps := by
  induction ps generalizing offset with
  | nil => rfl
  | cons p ps ih =>
    rw [located, map_append, ih]
    cases p <;> rfl

/-- The kinds of code are none of layout. -/
theorem isLayout_of_mem_kinds {text : List Char} (hrow : row ∈ codeRows text) :
    ∀ k ∈ kinds row, k.isLayout = false := by
  intro k hk
  have hmem : k ∈ kinds (ofText text) := by
    rw [← kinds_rows 0]
    rcases mem_cons.1 (mem_of_mem_filter hrow) with rfl | hrow
    · exact mem_append_left _ hk
    · exact mem_append_right _ (mem_flatMap.2 ⟨row, hrow, hk⟩)
  rw [← kinds_located 0, ← (Lexed.pieces_ofText text).1] at hmem
  obtain ⟨t, ht, rfl⟩ := mem_map.1 hmem
  have hcode := (mem_filter.1 ht).2
  simpa [Token.isSignificant] using hcode

end Piece

def Line.ofRow (row : List Piece) : Line := ⟨Piece.column row, Piece.kinds row⟩

theorem Line.ofText_eq (text : List Char) : Line.ofText text = (Piece.codeRows text).map Line.ofRow := by
  unfold Line.ofText Line.ofRows Piece.codeRows
  induction (Piece.rows 0 (Piece.ofText text)).1 :: (Piece.rows 0 (Piece.ofText text)).2 with
  | nil => rfl
  | cons row rows ih =>
    cases hcode : (Piece.kinds row).isEmpty with
    | true =>
      have hrow : Line.ofRow? 0 row = none := if_pos hcode
      rw [filterMap_cons_none hrow, filter_cons_of_neg (by simp [hcode]), ih]
    | false =>
      have hrow : Line.ofRow? 0 row = some (Line.ofRow row) := if_neg (Bool.eq_false_iff.1 hcode)
      rw [filterMap_cons_some hrow, filter_cons_of_pos (by simp [hcode]), ih]
      rfl

/-- Between two aligned lines of code stands an indent where the second one is deeper, and otherwise an outdent for each
block that it leaves and a line break. -/
theorem Lexed.layout_between {text : List Char} {before after : List (List Piece)} {l m : List Piece}
    (haligned : Line.Aligned [] ((Piece.codeRows text).map Piece.column))
    (hrows : Piece.codeRows text = before ++ l :: m :: after) :
    (∀ row ∈ Piece.codeRows text, Piece.Bare row → Piece.column row = Piece.blanks row) ∧
    ∃ front gap back,
      (Lexed.ofText text).tokens.map (·.kind) = front ++ Piece.kinds l ++ gap ++ Piece.kinds m ++ back ∧
      front.filter (!·.isLayout) = before.flatMap Piece.kinds ∧
      (gap = [.indent] ↔ Piece.column l < Piece.column m) ∧
      (Piece.column m ≤ Piece.column l → gap = List.replicate
        ((Line.enclosing ((before ++ [l]).map Piece.column)).countP (Piece.column m < ·)) .outdent ++ [.newline]) ∧
      (Piece.column l = Piece.column m → gap = [.newline]) := by
  refine ⟨fun row _ hbare => Piece.column_eq_blanks hbare, ?_⟩
  have haligned' : Line.Aligned [] ((before.map Line.ofRow ++ Line.ofRow l :: Line.ofRow m ::
      after.map Line.ofRow).map (·.column)) := by
    rw [hrows] at haligned
    simpa [Line.ofRow, Function.comp_def] using haligned
  obtain ⟨front, back, hwritten, hfront⟩ := Line.written_split List.Pairwise.nil haligned'
  have hcolumns : ((before.map Line.ofRow).map (·.column)).foldl Line.around [] =
      Line.enclosing (before.map Piece.column) := by
    rw [map_map]
    rfl
  have henclosing : Line.enclosing ((before ++ [l]).map Piece.column) =
      Line.around (Line.enclosing (before.map Piece.column)) (Piece.column l) := by
    rw [map_append, ← Line.enclosing_concat]
    rfl
  rw [hcolumns] at hwritten
  refine ⟨front, Line.gap (Line.around (Line.enclosing (before.map Piece.column)) (Piece.column l)) (Piece.column m),
    back, ?_, ?_, Line.gap_eq_indent_iff, fun hle => ?_, fun heq => ?_⟩
  · rw [Lexed.kinds_ofText, Line.ofText_eq, hrows, map_append, map_cons, map_cons, hwritten]
    rfl
  · rw [hfront, flatMap_map]
    refine filter_eq_self.2 fun k hk => ?_
    obtain ⟨row, hrow, hk⟩ := mem_flatMap.1 hk
    have hmem : row ∈ Piece.codeRows text := by
      rw [hrows]
      exact mem_append_left _ hrow
    rw [Piece.isLayout_of_mem_kinds hmem k hk]
    rfl
  · rw [henclosing]
    exact if_neg (Nat.not_lt.2 hle)
  · rw [← heq]
    exact Line.gap_eq_newline (Line.enclosing_pairwise _)

/-- Comments stand between the lines and behind code, and the last line leaves two blocks. -/
theorem Lexed.layout_between_left :
    let text := "if a\n  if b\n    c # d\n# e\n\n    f\n  ### g ###\nh\n".toList
    Line.Aligned [] ((Piece.codeRows text).map Piece.column) ∧
      ∃ front back, (Lexed.ofText text).tokens.map (·.kind) =
          front ++ [.name] ++ [.outdent, .outdent, .newline] ++ [.name] ++ back ∧
        front.filter (!·.isLayout) = [.ifKw, .name, .ifKw, .name, .name] := by
  intro text
  have haligned : Line.Aligned [] ((Piece.codeRows text).map Piece.column) := by decide +kernel
  have hsplit : Piece.codeRows text = (Piece.codeRows text).take 3 ++ (Piece.codeRows text)[3]?.getD [] ::
      (Piece.codeRows text)[4]?.getD [] :: [] := by decide +kernel
  have hbefore : ((Piece.codeRows text).take 3).flatMap Piece.kinds = [.ifKw, .name, .ifKw, .name, .name] := by
    decide +kernel
  have hcolumns : ((Piece.codeRows text).take 3 ++ [(Piece.codeRows text)[3]?.getD []]).map Piece.column =
      [0, 2, 4, 4] := by decide +kernel
  have hl : Piece.kinds ((Piece.codeRows text)[3]?.getD []) = [.name] ∧
      Piece.column ((Piece.codeRows text)[3]?.getD []) = 4 := by decide +kernel
  have hm : Piece.kinds ((Piece.codeRows text)[4]?.getD []) = [.name] ∧
      Piece.column ((Piece.codeRows text)[4]?.getD []) = 0 := by decide +kernel
  clear_value text
  refine ⟨haligned, ?_⟩
  obtain ⟨-, front, gap, back, htokens, hfront, -, hgap, -⟩ := Lexed.layout_between haligned hsplit
  rw [hcolumns, hl.2, hm.2] at hgap
  rw [hl.1, hm.1, hgap (by decide)] at htokens
  rw [hbefore] at hfront
  exact ⟨front, back, htokens, hfront⟩

/-- A comment between the blanks of a line and its code hides the blanks in front of it: two lines that start with the
same number of blanks are no siblings. -/
theorem Lexed.comment_in_front :
    let text := "if a\n  b\n  ### c ### d\n".toList
    (Piece.codeRows text).map Piece.blanks = [0, 2, 2] ∧ Line.Aligned [] [0, 2, 2] ∧
      (Piece.codeRows text).map Piece.kinds = [[.ifKw, .name], [.name], [.name]] ∧
      (Lexed.ofText text).tokens.map (·.kind) =
        [.ifKw, .name, .indent, .name, .outdent, .newline, .name, .eof] := by
  decide +kernel

end Respell
