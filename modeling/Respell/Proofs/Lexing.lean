import Respell.Token.Lexer
import Respell.Proofs.Cut

/-!
What the lexer takes from a text.

A step takes a stretch of space, a comment, or a token with layout in front of it, and never nothing as long as
there is text left (`Lexer.step_cases`, `Lexer.rest_steps`).  All that is known of the tokens and comments of a text
follows from this.
-/

namespace Respell

open List Text

/-! ## One token -/

namespace Lexeme

theorem ofKeyword?_isLayout {word : String} {k : Kind} (h : Kind.ofKeyword? word = some k) : k.isLayout = false := by
  unfold Kind.ofKeyword? at h
  split at h <;> cases h <;> rfl

theorem nameKind_isLayout (letters : List Char) : (nameKind letters).isLayout = false := by
  unfold nameKind
  cases h : Kind.ofKeyword? (String.ofList letters) with
  | none => rfl
  | some k => exact ofKeyword?_isLayout h

theorem quoted_isLayout (quote : Char) (text : List Char) : (quoted quote text).1.isLayout = false := by
  fun_induction quoted quote text <;> simp_all [Kind.isLayout]

theorem number_pos {c : Char} (h : c.isDigit = true) (text : List Char) : 0 < number (c :: text) := by
  unfold number
  split
  · omega
  · omega
  · omega
  · have : isDigitOrGap c = true := by simp [isDigitOrGap, h]
    have hrun : run isDigitOrGap (c :: text) = run isDigitOrGap text + 1 := by simp [run, this]
    simp only [hrun]
    omega

/-- A token is of code, and not empty. -/
theorem scan_cons (c : Char) (text : List Char) : (scan (c :: text)).1.isLayout = false ∧ 0 < (scan (c :: text)).2 := by
  unfold scan
  split
  case h_1 h => cases h
  all_goals try exact ⟨rfl, by decide⟩
  -- A string, a number, a name, or a character that starts no token.
  split
  · exact ⟨quoted_isLayout _ _, Nat.succ_pos _⟩
  split
  · exact ⟨rfl, number_pos ‹_› _⟩
  split
  · exact ⟨nameKind_isLayout _, Nat.succ_pos _⟩
  · exact ⟨rfl, by decide⟩

theorem scanComment_pos (rest : List Char) : 0 < (scanComment ('#' :: rest)).2 := by
  have hrun : 0 < run (!isLineBreak ·) ('#' :: rest) := by simp [run, isLineBreak]
  unfold scanComment
  split
  · exact hrun
  · exact Nat.lt_of_lt_of_le (by decide) (Nat.le_add_right 3 _)
  · exact hrun

end Lexeme

/-! ## What a step takes -/

namespace Lexer

/-- The same place at another column. -/
def Place.moved (column : Nat) : Place → Place
  | .front newline _ => .front newline column
  | .inside => .inside

theorem lineBreak_spec {c : Char} (h : isLineBreak c = true) (rest : List Char) :
    0 < lineBreak (c :: rest) ∧ ∀ d ∈ (c :: rest).take (lineBreak (c :: rest)), isLineBreak d = true := by
  unfold lineBreak
  split
  · refine ⟨by decide, fun d hd => ?_⟩
    rename_i heq
    rw [heq] at hd
    rcases mem_pair.1 hd with rfl | rfl <;> rfl
  · refine ⟨by decide, fun d hd => ?_⟩
    rw [mem_singleton.1 hd]
    exact h

/-- What a step takes: nothing at the end, a stretch of space, a comment, or a token with layout before it.
A line is ended outside of brackets only. -/
theorem step_cases (s : Lexer) :
    (s.rest = [] ∧ s.step = s) ∨
      (∃ c rest n place, s.rest = c :: rest ∧ 0 < n ∧
        (∀ d ∈ s.rest.take n, isBlank d = true ∨ isLineBreak d = true) ∧ s.step = { s.skip n with place } ∧
        ((∃ column, place = s.place.moved column) ∧ n = 1 ∧ (s.place = .inside → s.depth = 0 → isBlank c = true) ∨
          s.place = .inside ∧ s.depth = 0 ∧ isLineBreak c = true ∧ n = lineBreak s.rest ∧
            place = .front (some ⟨s.offset, (s.skip n).offset⟩) 0)) ∨
      (∃ rest place column, s.rest = '#' :: rest ∧ s.step = { s.comment with place } ∧
        place = s.place.moved column) ∨
      ∃ c rest, s.rest = c :: rest ∧ isBlank c = false ∧ isLineBreak c = false ∧ c ≠ '#' ∧
        (s.place = .inside ∧ s.step = s.token ∨
          ∃ newline column, s.place = .front newline column ∧ s.step = (s.layout newline column).token) := by
  unfold step
  split
  · exact Or.inl ⟨‹_›, rfl⟩
  rename_i c rest hrest
  right
  have hone (h : isBlank c = true ∨ isLineBreak c = true) :
      ∀ d ∈ s.rest.take 1, isBlank d = true ∨ isLineBreak d = true := by
    simpa [hrest] using h
  have hcode (hblank : ¬ isBlank c = true) (hbreak : ¬ isLineBreak c = true) (hsign : ¬ (c == '#') = true) :
      s.rest = c :: rest ∧ isBlank c = false ∧ isLineBreak c = false ∧ c ≠ '#' :=
    ⟨hrest, Bool.eq_false_iff.2 hblank, Bool.eq_false_iff.2 hbreak, mt beq_iff_eq.2 hsign⟩
  split
  · rename_i newline column hplace
    have hmoved (k : Nat) : Place.front newline k = s.place.moved k := by
      rw [hplace]
      rfl
    have hfront : ¬ s.place = .inside := by simp [hplace]
    split
    · rename_i hblank
      exact Or.inl ⟨c, rest, 1, _, hrest, Nat.one_pos, hone (Or.inl hblank), rfl,
        Or.inl ⟨⟨_, hmoved _⟩, rfl, fun _ _ => hblank⟩⟩
    split
    · rename_i hbreak
      exact Or.inl ⟨c, rest, 1, _, hrest, Nat.one_pos, hone (Or.inr hbreak), rfl,
        Or.inl ⟨⟨_, hmoved _⟩, rfl, fun hinside => absurd hinside hfront⟩⟩
    split
    · rename_i hsign
      exact Or.inr (Or.inl ⟨rest, _, _, by rw [hrest, beq_iff_eq.1 hsign], rfl, hmoved _⟩)
    · rename_i hblank hbreak hsign
      obtain ⟨hrest, hblank, hbreak, hsign⟩ := hcode hblank hbreak hsign
      exact Or.inr (Or.inr ⟨c, rest, hrest, hblank, hbreak, hsign, Or.inr ⟨newline, column, hplace, rfl⟩⟩)
  · rename_i hplace
    have hmoved : s.place = s.place.moved 0 := by
      rw [hplace]
      rfl
    split
    · rename_i hblank
      exact Or.inl ⟨c, rest, 1, s.place, hrest, Nat.one_pos, hone (Or.inl hblank), rfl,
        Or.inl ⟨⟨_, hmoved⟩, rfl, fun _ _ => hblank⟩⟩
    split
    · rename_i hsign
      exact Or.inr (Or.inl ⟨rest, s.place, _, by rw [hrest, beq_iff_eq.1 hsign], rfl, hmoved⟩)
    split
    · rename_i hbreak
      split
      · exact Or.inl ⟨c, rest, 1, s.place, hrest, Nat.one_pos, hone (Or.inr hbreak), rfl,
          Or.inl ⟨⟨_, hmoved⟩, rfl, fun _ hdepth => by omega⟩⟩
      · rename_i hdepth
        obtain ⟨hpos, htaken⟩ := lineBreak_spec hbreak rest
        rw [← hrest] at hpos htaken
        exact Or.inl ⟨c, rest, _, _, hrest, hpos, fun d hd => Or.inr (htaken d hd), rfl,
          Or.inr ⟨hplace, Nat.eq_zero_of_not_pos hdepth, hbreak, rfl, rfl⟩⟩
    · rename_i hblank hsign hbreak
      obtain ⟨hrest, hblank, hbreak, hsign⟩ := hcode hblank hbreak hsign
      exact Or.inr (Or.inr ⟨c, rest, hrest, hblank, hbreak, hsign, Or.inl ⟨hplace, rfl⟩⟩)

theorem steps_induction {P : Lexer → Prop} (hstep : ∀ s, P s → P s.step) (n : Nat) {s : Lexer} (h : P s) :
    P (steps n s) := by
  induction n generalizing s with
  | zero => exact h
  | succ n ih => exact ih (hstep s h)

theorem offset_le_skip (s : Lexer) (n : Nat) : s.offset ≤ (s.skip n).offset := Nat.le_add_right _ _

theorem offset_lt_skip {s : Lexer} {n : Nat} (hne : s.rest ≠ []) (hn : 0 < n) : s.offset < (s.skip n).offset := by
  obtain ⟨c, rest, hrest⟩ := exists_cons_of_ne_nil hne
  obtain ⟨m, rfl⟩ := Nat.exists_eq_add_of_lt hn
  have := c.utf8Size_pos
  simp only [skip, hrest, Nat.zero_add, take_succ_cons, byteLength_cons]
  omega

theorem token_spec {s : Lexer} (hne : s.rest ≠ []) :
    ∃ t : Token, s.token.tokens = t :: s.tokens ∧ t.isSignificant = true ∧ t.kind = (Lexeme.scan s.rest).1 ∧
      t.range = ⟨s.offset, s.token.offset⟩ ∧ s.offset < s.token.offset := by
  obtain ⟨c, rest, hrest⟩ := exists_cons_of_ne_nil hne
  obtain ⟨hlayout, hpos⟩ := Lexeme.scan_cons c rest
  rw [← hrest] at hlayout hpos
  exact ⟨⟨(Lexeme.scan s.rest).1, ⟨s.offset, s.token.offset⟩⟩, rfl, by simp [Token.isSignificant, hlayout], rfl, rfl,
    offset_lt_skip hne hpos⟩

theorem layout_rest (s : Lexer) (newline : Option Span) (column : Nat) : (s.layout newline column).rest = s.rest := by
  unfold layout
  split
  · rfl
  · split <;> rfl

/-- Layout is all that stands in front of a token. -/
theorem layout_tokens (s : Lexer) (newline : Option Span) (column : Nat) :
    ∃ ts : List Token, (s.layout newline column).tokens = ts ++ s.tokens ∧
      ∀ t ∈ ts, t.isSignificant = false := by
  unfold layout
  split
  · exact ⟨[], rfl, fun _ h => by cases h⟩
  split
  · refine ⟨[⟨.indent, .empty s.offset⟩], rfl, ?_⟩
    intro t ht
    rw [mem_singleton.1 ht]
    rfl
  · rename_i range _
    refine ⟨⟨.newline, range⟩ :: List.replicate (s.blocks.length - (dedent column s.blocks).length)
      ⟨.outdent, .empty s.lastEnd⟩, rfl, ?_⟩
    intro t ht
    rcases mem_cons.1 ht with rfl | ht
    · rfl
    · rw [eq_of_mem_replicate ht]
      rfl

theorem layout_same (s : Lexer) (newline : Option Span) (column : Nat) :
    (s.layout newline column).offset = s.offset ∧ (s.layout newline column).comments = s.comments ∧
      (s.layout newline column).depth = s.depth := by
  unfold layout
  split
  · exact ⟨rfl, rfl, rfl⟩
  · split <;> exact ⟨rfl, rfl, rfl⟩

theorem length_step {s : Lexer} (h : s.rest ≠ []) : s.step.rest.length < s.rest.length := by
  have hdrop {n : Nat} (hn : 0 < n) : (s.rest.drop n).length < s.rest.length := by
    have := length_pos_of_ne_nil h
    rw [length_drop]
    omega
  rcases s.step_cases with ⟨hnil, -⟩ | ⟨c, rest, n, place, -, hn, -, heq, -⟩ | ⟨rest, place, k, hrest, heq, -⟩ |
    ⟨c, rest, hrest, -, -, -, ⟨-, heq⟩ | ⟨newline, column, -, heq⟩⟩
  · exact absurd hnil h
  all_goals rw [heq]
  · exact hdrop hn
  · exact hdrop (hrest ▸ Lexeme.scanComment_pos rest)
  · exact hdrop (hrest ▸ (Lexeme.scan_cons c rest).2)
  · show ((s.layout newline column).rest.drop _).length < _
    rw [layout_rest]
    exact hdrop (hrest ▸ (Lexeme.scan_cons c rest).2)

theorem rest_steps {s : Lexer} {n : Nat} (h : s.rest.length ≤ n) : (steps n s).rest = [] := by
  induction n generalizing s with
  | zero => exact eq_nil_of_length_eq_zero (Nat.le_zero.1 h)
  | succ n ih =>
    apply ih
    by_cases hnil : s.rest = []
    · have hstep : s.step = s := by simp only [step, hnil]
      rw [hstep, hnil]
      exact Nat.zero_le _
    · have := length_step hnil
      omega

theorem tokens_finish (s : Lexer) : s.finish.tokens = s.tokens.reverse ++
    List.replicate (s.blocks.length - 1) ⟨.outdent, .empty s.lastEnd⟩ ++ [⟨.eof, .empty s.offset⟩] := by
  simp only [finish, push, outdent, reverse_cons, reverse_append, reverse_replicate]

end Lexer

/-! ## Where a piece of the text stands -/

/-- A piece of the text that is not empty. -/
structure Span.Inside (text : List Char) (s : Span) : Prop where
  nonempty : s.start < s.stop
  start : isBoundary text s.start = true
  stop : isBoundary text s.stop = true

/-- A piece of the text, which may be empty. -/
structure Span.Cuts (text : List Char) (s : Span) : Prop where
  ordered : s.start ≤ s.stop
  start : isBoundary text s.start = true
  stop : isBoundary text s.stop = true

theorem Span.Inside.cuts {text : List Char} {s : Span} (h : s.Inside text) : s.Cuts text :=
  ⟨Nat.le_of_lt h.nonempty, h.start, h.stop⟩

/-- A token of code that ends before a later one starts. -/
def Token.Before (a b : Token) : Prop :=
  a.isSignificant = true → b.isSignificant = true → a.range.stop ≤ b.range.start

variable {text : List Char}

/-- The text goes on like this at an offset. -/
def Text.At (text : List Char) (offset : Nat) (rest : List Char) : Prop :=
  ∃ before, text = before ++ rest ∧ byteLength before = offset

theorem Text.At.isBoundary {rest : List Char} {p : Nat} (h : At text p rest) : isBoundary text p = true := by
  obtain ⟨before, htext, hlen⟩ := h
  exact isBoundary_iff.2 ⟨before, rest, htext, hlen⟩

theorem Text.At.append {xs ys : List Char} {p : Nat} (h : At text p (xs ++ ys)) : At text (p + byteLength xs) ys := by
  obtain ⟨before, htext, hlen⟩ := h
  exact ⟨before ++ xs, by rw [htext, append_assoc], by rw [byteLength_append, hlen]⟩

theorem Text.At.slice? {xs ys : List Char} {range : Span} (h : At text range.start (xs ++ ys))
    (hstop : range.stop = range.start + byteLength xs) : slice? text range = some xs := by
  obtain ⟨before, htext, hlen⟩ := h
  exact slice?_eq_some.2 ⟨before, ys, by rw [htext, append_assoc], hlen, by rw [hlen, hstop]⟩

end Respell
