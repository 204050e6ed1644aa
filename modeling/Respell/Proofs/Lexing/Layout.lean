import Mathlib.Data.List.Induction
import Respell.Proofs.Lexing.Order

/-!
The layout of a text.

Where a mark of layout may stand is said by what is before it and by the next token (`Token.Fits`): a block is opened
in front of code and closed behind it, and a line ends in front of code.  All marks of a stream stand like this.  So
the marks of blocks are balanced, they stand where code ends or starts, and lines end outside of brackets only
(`Lexed.ofText_laidOut`).
-/

namespace Respell

open List Text

/-! ## Tokens in order -/

/-- How many brackets the tokens open. -/
def bracketStarts (ts : List Token) : Nat := ts.countP fun t => t.kind == .leftParen || t.kind == .leftBracket

/-- How many brackets the tokens close. -/
def bracketEnds (ts : List Token) : Nat := ts.countP fun t => t.kind == .rightParen || t.kind == .rightBracket

/-- The brackets that are open behind the tokens: from one of the tokens on, there are so many more opening than closing
ones, and from none on there are more.  So a closing one without an opening one counts for nothing. -/
def openBrackets : List Token → Nat
  | [] => 0
  | t :: ts => max (bracketStarts (t :: ts) - bracketEnds (t :: ts)) (openBrackets ts)

/-- The last token of code. -/
def lastCode? (ts : List Token) : Option Token := (ts.filter Token.isSignificant).getLast?

/-- How many blocks the tokens open. -/
def blockStarts (ts : List Token) : Nat := ts.countP (·.kind == .indent)

/-- How many blocks the tokens close. -/
def blockEnds (ts : List Token) : Nat := ts.countP (·.kind == .outdent)

/-- The token may stand behind `before` and in front of `next`. -/
structure Token.Fits (text : List Char) (before : List Token) (t : Token) (next : Option Token) : Prop where
  indent : t.kind = .indent → openBrackets before = 0 ∧
    ∃ u ∈ next, u.isSignificant = true ∧ t.range = .empty u.range.start
  newline : t.kind = .newline → openBrackets before = 0 ∧ IsBreak text t.range ∧ ∃ u ∈ next, u.isSignificant = true
  outdent : t.kind = .outdent → blockEnds before < blockStarts before ∧
    (∃ last ∈ lastCode? before, t.range = .empty last.range.stop) ∧
    ∃ u ∈ next, u.kind = .outdent ∨ u.kind = .newline ∨ u.kind = .eof

/-- Each of the tokens may stand where it does, with `before` in front of all and `next` behind. -/
def AllFit (text : List Char) : (before : List Token) → List Token → (next : Option Token) → Prop
  | _, [], _ => True
  | before, t :: ts, next => t.Fits text before (ts.head?.or next) ∧ AllFit text (before ++ [t]) ts next

variable {text : List Char} {before ts us : List Token} {t : Token} {next : Option Token}

theorem le_openBrackets (ts : List Token) : bracketStarts ts - bracketEnds ts ≤ openBrackets ts := by
  cases ts with
  | nil => exact Nat.le_refl 0
  | cons t ts => exact Nat.le_max_left _ _

/-- A token opens a bracket, closes one, or does neither. -/
theorem bracketDepth_cases (t : Token) :
    (bracketStarts [t] = 1 ∧ bracketEnds [t] = 0 ∧ ∀ depth, Lexer.bracketDepth depth t.kind = depth + 1) ∨
    (bracketStarts [t] = 0 ∧ bracketEnds [t] = 1 ∧ ∀ depth, Lexer.bracketDepth depth t.kind = depth - 1) ∨
    (bracketStarts [t] = 0 ∧ bracketEnds [t] = 0 ∧ ∀ depth, Lexer.bracketDepth depth t.kind = depth) := by
  obtain ⟨kind, range⟩ := t
  cases kind <;> simp [bracketStarts, bracketEnds, Lexer.bracketDepth]

/-- The lexer's depth, counted on from any depth. -/
theorem foldl_bracketDepth (ts : List Token) (depth : Nat) :
    ts.foldl (fun depth t => Lexer.bracketDepth depth t.kind) depth =
      max (depth + bracketStarts ts - bracketEnds ts) (openBrackets ts) := by
  induction ts generalizing depth with
  | nil => exact (Nat.max_eq_left (Nat.zero_le _)).symm
  | cons t ts ih =>
    have hstarts : bracketStarts (t :: ts) = bracketStarts [t] + bracketStarts ts := @countP_append _ _ [t] ts
    have hends : bracketEnds (t :: ts) = bracketEnds [t] + bracketEnds ts := @countP_append _ _ [t] ts
    have hle := le_openBrackets ts
    rw [foldl_cons, ih, openBrackets, hstarts, hends]
    rcases bracketDepth_cases t with h | h | h <;> rw [h.1, h.2.1, h.2.2] <;> omega

/-- The brackets that are open are the lexer's depth. -/
theorem openBrackets_eq_foldl (ts : List Token) :
    openBrackets ts = ts.foldl (fun depth t => Lexer.bracketDepth depth t.kind) 0 := by
  rw [foldl_bracketDepth, Nat.zero_add, Nat.max_eq_right (le_openBrackets ts)]

theorem openBrackets_append (ts us : List Token) :
    openBrackets (ts ++ us) = us.foldl (fun depth t => Lexer.bracketDepth depth t.kind) (openBrackets ts) := by
  rw [openBrackets_eq_foldl, openBrackets_eq_foldl, foldl_append]

/-- Layout opens and closes no bracket. -/
theorem openBrackets_layout (h : ∀ t ∈ us, t.isSignificant = false) (ts : List Token) :
    openBrackets (ts ++ us) = openBrackets ts := by
  rw [openBrackets_append]
  generalize openBrackets ts = d
  induction us generalizing d with
  | nil => rfl
  | cons u us ih =>
    obtain ⟨hu, hus⟩ := forall_mem_cons.1 h
    have hsame : Lexer.bracketDepth d u.kind = d := by
      unfold Lexer.bracketDepth
      split <;> simp_all [Token.isSignificant, Kind.isLayout]
    rw [foldl_cons, hsame]
    exact ih hus d

theorem lastCode?_layout (h : ∀ t ∈ us, t.isSignificant = false) (ts : List Token) :
    lastCode? (ts ++ us) = lastCode? ts := by
  have hnone : us.filter Token.isSignificant = [] := filter_eq_nil_iff.2 fun t ht => by simp [h t ht]
  rw [lastCode?, filter_append, hnone, append_nil]
  rfl

theorem lastCode?_concat (h : t.isSignificant = true) (ts : List Token) : lastCode? (ts ++ [t]) = some t := by
  rw [lastCode?, filter_append, filter_singleton, h]
  exact getLast?_concat

theorem blockStarts_append (ts us : List Token) : blockStarts (ts ++ us) = blockStarts ts + blockStarts us :=
  countP_append

theorem blockEnds_append (ts us : List Token) : blockEnds (ts ++ us) = blockEnds ts + blockEnds us := countP_append

theorem blockStarts_of_isSignificant (h : t.isSignificant = true) : blockStarts [t] = 0 := by
  simp [blockStarts, Token.kind_ne_of_isSignificant h (k := .indent) rfl]

theorem blockEnds_of_isSignificant (h : t.isSignificant = true) : blockEnds [t] = 0 := by
  simp [blockEnds, Token.kind_ne_of_isSignificant h (k := .outdent) rfl]

theorem blockEnds_replicate (n : Nat) (range : Span) : blockEnds (List.replicate n ⟨.outdent, range⟩) = n := by
  simp [blockEnds, countP_replicate]

theorem blockStarts_replicate (n : Nat) (range : Span) : blockStarts (List.replicate n ⟨.outdent, range⟩) = 0 := by
  simp [blockStarts, countP_replicate]

/-- Code may stand anywhere. -/
theorem Token.Fits.of_isSignificant (h : t.isSignificant = true) : t.Fits text before next where
  indent hk := absurd hk (Token.kind_ne_of_isSignificant h rfl)
  newline hk := absurd hk (Token.kind_ne_of_isSignificant h rfl)
  outdent hk := absurd hk (Token.kind_ne_of_isSignificant h rfl)

/-- So may the end of the text. -/
theorem Token.Fits.of_eof (h : t.kind = .eof) : t.Fits text before next where
  indent hk := absurd (h.symm.trans hk) (by decide)
  newline hk := absurd (h.symm.trans hk) (by decide)
  outdent hk := absurd (h.symm.trans hk) (by decide)

theorem allFit_append : AllFit text before (ts ++ us) next ↔
    AllFit text before ts (us.head?.or next) ∧ AllFit text (before ++ ts) us next := by
  induction ts generalizing before with
  | nil => simp [AllFit]
  | cons t ts ih =>
    have hnext : (ts ++ us).head?.or next = ts.head?.or (us.head?.or next) := by
      rw [head?_append, Option.or_assoc]
    rw [cons_append, AllFit, AllFit, hnext, ih, and_assoc, append_assoc, singleton_append]

theorem AllFit.of_split (h : AllFit text before (ts ++ t :: us) next) :
    t.Fits text (before ++ ts) (us.head?.or next) := (allFit_append.1 h).2.1

/-- Ends of blocks in a row, behind code and with no more of them than there are open blocks. -/
theorem AllFit.outdents {last u : Token} (hlast : lastCode? before = some last) (n : Nat)
    (hn : blockEnds before + n ≤ blockStarts before) (hu : u.kind = .newline ∨ u.kind = .eof) :
    AllFit text before (List.replicate n ⟨.outdent, .empty last.range.stop⟩) (some u) := by
  induction n generalizing before with
  | zero => trivial
  | succ n ih =>
    obtain ⟨o, ho⟩ : ∃ o : Token, o = ⟨.outdent, .empty last.range.stop⟩ := ⟨_, rfl⟩
    have hkind : o.kind = .outdent := by rw [ho]
    rw [replicate_succ, ← ho]
    refine ⟨⟨fun hk => ?_, fun hk => ?_, fun _ => ⟨by omega, ⟨last, hlast, by rw [ho]⟩, ?_⟩⟩, ?_⟩
    iterate 2 cases hkind.symm.trans hk
    · cases n with
      | zero => exact ⟨u, rfl, Or.inr hu⟩
      | succ n => exact ⟨o, by rw [replicate_succ]; rfl, Or.inl hkind⟩
    · rw [ho]
      apply ih
      · rw [lastCode?_layout (by simp [Token.isSignificant, Kind.isLayout])]
        exact hlast
      · rw [blockEnds_append, blockStarts_append]
        show blockEnds before + 1 + n ≤ blockStarts before + 0
        omega

/-! ## Streams -/

namespace TokenStream

variable {blocks depth lastEnd : Nat}

/-- The tokens have these counts of open brackets and blocks. -/
structure Counts (ts : List Token) (blocks depth : Nat) : Prop where
  brackets : openBrackets ts = depth
  marks : blockStarts ts + 1 = blockEnds ts + blocks

theorem Counts.code (h : Counts ts blocks depth) (code : t.isSignificant = true) :
    Counts (ts ++ [t]) blocks (Lexer.bracketDepth depth t.kind) where
  brackets := by
    rw [openBrackets_append, h.brackets]
    rfl
  marks := by
    rw [blockStarts_append, blockEnds_append, blockStarts_of_isSignificant code, blockEnds_of_isSignificant code]
    exact h.marks

theorem counts (h : TokenStream text ts blocks depth lastEnd) : Counts ts blocks depth := by
  induction h with
  | @first t code =>
    have hempty : Counts [] 1 0 := ⟨rfl, rfl⟩
    exact hempty.code code.code
  | code _ code ih => exact ih.code code.code
  | @indent ts blocks _ _ t code ih =>
    refine Counts.code ⟨?_, ?_⟩ code.code
    · rw [openBrackets_layout (by simp [Token.isSignificant, Kind.isLayout]), ih.brackets]
    · have := ih.marks
      rw [blockStarts_append, blockEnds_append]
      show blockStarts ts + 1 + 1 = blockEnds ts + 0 + (blocks + 1)
      omega
  | @newline ts blocks lastEnd left _ hleft range _ _ _ t code ih =>
    refine Counts.code ⟨?_, ?_⟩ code.code
    · rw [openBrackets_layout (by simp [Token.isSignificant, Kind.isLayout]),
        openBrackets_layout (by simp [Token.isSignificant, Kind.isLayout]), ih.brackets]
    · have := ih.marks
      simp only [blockStarts_append, blockEnds_append, blockEnds_replicate, blockStarts_replicate]
      show blockStarts ts + 0 + 0 + 1 = blockEnds ts + left + 0 + (blocks - left)
      omega

theorem lastCode (h : TokenStream text ts blocks depth lastEnd) : ∃ last, lastCode? ts = some last ∧
    last.range.stop = lastEnd := by
  cases h with
  | first code => exact ⟨_, lastCode?_concat code.code [], rfl⟩
  | code _ code | indent _ code | newline _ _ _ _ _ code => exact ⟨_, lastCode?_concat code.code _, rfl⟩

/-- Every token of a stream may stand where it does, whatever follows. -/
theorem allFit (h : TokenStream text ts blocks depth lastEnd) (next : Option Token) : AllFit text [] ts next := by
  induction h generalizing next with
  | first code => exact ⟨.of_isSignificant code.code, trivial⟩
  | code _ code ih => exact allFit_append.2 ⟨ih _, .of_isSignificant code.code, trivial⟩
  | @indent ts blocks _ h t code ih =>
    refine allFit_append.2 ⟨allFit_append.2 ⟨ih _, ⟨?_, nofun, nofun⟩, trivial⟩, .of_isSignificant code.code, trivial⟩
    exact fun _ => ⟨h.counts.brackets, t, rfl, code.code, rfl⟩
  | @newline ts blocks lastEnd left h hleft range isBreak _ _ t code ih =>
    obtain ⟨last, hlast, rfl⟩ := h.lastCode
    obtain ⟨hdepth, hblocks⟩ := h.counts
    refine allFit_append.2 ⟨allFit_append.2 ⟨allFit_append.2 ⟨ih _, ?_⟩, ⟨nofun, ?_, nofun⟩, trivial⟩,
      .of_isSignificant code.code, trivial⟩
    · exact AllFit.outdents hlast left (by omega) (Or.inl rfl)
    · refine fun _ => ⟨?_, isBreak, t, rfl, code.code⟩
      rw [nil_append, openBrackets_layout (by simp [Token.isSignificant, Kind.isLayout]), hdepth]

/-- At the end of the text all blocks are closed. -/
theorem finish (h : TokenStream text ts blocks depth lastEnd) (stop : Nat) :
    AllFit text [] (ts ++ List.replicate (blocks - 1) ⟨.outdent, .empty lastEnd⟩ ++ [⟨.eof, .empty stop⟩]) none ∧
      blockEnds (ts ++ List.replicate (blocks - 1) ⟨.outdent, .empty lastEnd⟩ ++ [⟨.eof, .empty stop⟩]) =
        blockStarts (ts ++ List.replicate (blocks - 1) ⟨.outdent, .empty lastEnd⟩ ++ [⟨.eof, .empty stop⟩]) := by
  obtain ⟨last, hlast, rfl⟩ := h.lastCode
  have hmarks := h.counts.marks
  have hpos := h.blocks_pos
  refine ⟨allFit_append.2 ⟨allFit_append.2 ⟨h.allFit _, ?_⟩, .of_eof rfl, trivial⟩, ?_⟩
  · exact AllFit.outdents hlast (blocks - 1) (by omega) (Or.inr rfl)
  · simp only [blockEnds_append, blockStarts_append, blockEnds_replicate, blockStarts_replicate]
    show blockEnds ts + (blocks - 1) + 0 = blockStarts ts + 0 + 0
    omega

end TokenStream

/-! ## The tokens of a text -/

/-- The layout among the tokens of a text. -/
structure Lexed.LaidOut (text : List Char) (tokens : List Token) : Prop where
  /-- No more blocks are closed than were opened, and in the end all are closed. -/
  nested : ∀ before, before <+: tokens → blockEnds before ≤ blockStarts before
  balanced : blockEnds tokens = blockStarts tokens
  first : ∃ t ∈ tokens.head?, t.isSignificant = true ∨ t.kind = .eof
  /-- A block is opened outside of brackets, where its first code starts. -/
  indent : ∀ before t after, tokens = before ++ t :: after → t.kind = .indent → openBrackets before = 0 ∧
    ∃ next ∈ after.head?, next.isSignificant = true ∧ t.range = .empty next.range.start
  /-- A line is ended outside of brackets by one line break, and code follows. -/
  newline : ∀ before t after, tokens = before ++ t :: after → t.kind = .newline → openBrackets before = 0 ∧
    IsBreak text t.range ∧ ∃ next ∈ after.head?, next.isSignificant = true
  /-- A block is closed where the last code ends. -/
  outdent : ∀ before t after, tokens = before ++ t :: after → t.kind = .outdent →
    (∃ last ∈ lastCode? before, t.range = .empty last.range.stop) ∧
    ∃ next ∈ after.head?, next.kind = .outdent ∨ next.kind = .newline ∨ next.kind = .eof
  /-- Blocks that end with a line are closed outside of brackets. -/
  outdents : ∀ before marks t after, tokens = before ++ marks ++ t :: after → (∀ m ∈ marks, m.kind = .outdent) →
    t.kind = .newline → openBrackets before = 0

/-- Every token of a text may stand where it does. -/
theorem Lexed.allFit_ofText (text : List Char) : AllFit text [] (Lexed.ofText text).tokens none ∧
    blockEnds (Lexed.ofText text).tokens = blockStarts (Lexed.ofText text).tokens := by
  rcases stream_ofText text with h | ⟨ts, blocks, depth, lastEnd, stream, -, h⟩
  · rw [h]
    exact ⟨⟨.of_eof rfl, trivial⟩, rfl⟩
  · rw [h]
    exact stream.finish (byteLength text)

theorem Lexed.fits_ofText {t : Token} (h : (Lexed.ofText text).tokens = before ++ t :: ts) :
    t.Fits text before ts.head? := by
  have hall := (allFit_ofText text).1
  rw [h] at hall
  simpa using hall.of_split

/-- Behind every opening of a block stands code. -/
theorem Lexed.closed_ofText {i : Nat} (ht : (Lexed.ofText text).tokens[i]? = some t) (hk : t.kind = .indent) :
    ∃ u, (Lexed.ofText text).tokens[i + 1]? = some u ∧ u.isSignificant = true := by
  obtain ⟨hi, rfl⟩ := List.getElem?_eq_some_iff.1 ht
  have hsplit := (take_append_drop i (Lexed.ofText text).tokens).symm
  rw [drop_eq_getElem_cons hi] at hsplit
  obtain ⟨-, u, hu, hcode, -⟩ := (fits_ofText hsplit).indent hk
  rw [head?_drop] at hu
  exact ⟨u, hu, hcode⟩

/-- At every point no more blocks were closed than opened, since each end of a block finds one open. -/
theorem AllFit.blockEnds_le (h : AllFit text [] ts none) :
    ∀ before, before <+: ts → blockEnds before ≤ blockStarts before := by
  intro before
  induction before using List.reverseRecOn with
  | nil => exact fun _ => Nat.le_refl _
  | append_singleton before t ih =>
    rintro ⟨after, rfl⟩
    rw [append_assoc, singleton_append] at h
    have hle := ih ⟨t :: after, by simp⟩
    have hfits : t.Fits text before _ := h.of_split
    rw [blockEnds_append, blockStarts_append]
    by_cases hk : t.kind = .outdent
    · have hlt := (hfits.outdent hk).1
      have hone : blockEnds [t] = 1 := by simp [blockEnds, hk]
      omega
    · have hzero : blockEnds [t] = 0 := by simp [blockEnds, hk]
      omega

/-- The layout of a text: blocks are balanced, and the marks of blocks and lines stand in their places. -/
theorem Lexed.ofText_laidOut (text : List Char) : LaidOut text (Lexed.ofText text).tokens := by
  obtain ⟨hfit, hbalanced⟩ := allFit_ofText text
  refine ⟨hfit.blockEnds_le, hbalanced, ?_, ?_, ?_, ?_, ?_⟩
  · cases hfirst : (Lexed.ofText text).tokens[0]? with
    | none =>
      have := length_pos text
      have := List.getElem?_eq_none_iff.1 hfirst
      omega
    | some t =>
      refine ⟨t, by rw [head?_eq_getElem?]; exact hfirst, ?_⟩
      cases hcode : t.isSignificant with
      | true => exact Or.inl rfl
      | false => exact Or.inr (eof_of_layout hfirst hcode)
  · exact fun before t after heq => (fits_ofText heq).indent
  · exact fun before t after heq => (fits_ofText heq).newline
  · exact fun before t after heq hk => ((fits_ofText heq).outdent hk).2
  · intro before marks t after heq hmarks hk
    have hdepth := ((fits_ofText heq).newline hk).1
    rwa [openBrackets_layout fun m hm => by simp [Token.isSignificant, hmarks m hm, Kind.isLayout]] at hdepth

end Respell
