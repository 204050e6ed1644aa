import Respell.Proofs.Lexing

/-!
The pieces of a text.

Read from left to right, a text is a row of pieces: single characters of space, comments, and tokens of code.
A piece does not depend on what follows it,

    scan (xs ++ ys) takes no more than xs  →  scan xs = scan (xs ++ ys)

although a scanner may look further than it takes: `1` is a number in front of `.x` and not in front of `.5`.
So a row of pieces can be cut between any two of them (`Piece.ofText_cut`).  The lexer reads one piece after the
other and writes a token for each piece of code and a comment for each comment, whatever layout it puts between
them (`Lexed.pieces_ofText`).
-/

namespace Respell

open List Text

/-! ## Scanners at the end of a text -/

namespace Lexeme

variable {c : Char}

/-- What the scanner takes does not depend on what stands behind it. -/
def Local {β : Type} (size : β → Nat) (scanner : List Char → β) : Prop :=
  ∀ xs ys : List Char, size (scanner (xs ++ ys)) ≤ xs.length → scanner xs = scanner (xs ++ ys)

theorem local_run (p : Char → Bool) : Local id (run p) := by
  intro xs ys h
  induction xs with
  | nil => exact (Nat.le_zero.1 h).symm
  | cons c xs ih =>
    by_cases hc : p c = true
    · have hcons (text : List Char) : run p (c :: text) = run p text + 1 := by simp [run, hc]
      rw [cons_append, hcons, length_cons] at h
      rw [cons_append, hcons, hcons, ih (Nat.le_of_succ_le_succ h)]
    · simp [run, hc]

namespace Local

variable {g : List Char → Nat}

/-- One scanner goes on where another one stops. -/
theorem andThen {f : List Char → Nat} (hf : Local id f) (hg : Local id g) :
    Local id fun text => f text + g (text.drop (f text)) := by
  intro xs ys h
  dsimp only [id] at h ⊢
  have hfirst := hf xs ys (Nat.le_trans (Nat.le_add_right _ _) h)
  rw [← hfirst] at h ⊢
  rw [drop_append_of_le_length (by omega)] at h ⊢
  rw [← hg _ _ (by rw [length_drop]; dsimp only [id]; omega)]

/-- A character in front of what another scanner takes; it may be needed that this takes something. -/
theorem cons {f : List Char → Nat} (hg : Local id g) (p : Char → Bool) (join : Nat → Nat)
    (hjoin : ∀ n, n = 0 ∨ join n = n + 1) (hnil : f [] = 0)
    (hcons : ∀ c text, f (c :: text) = if p c then join (g text) else 0) : Local id f := by
  intro xs ys h
  cases xs with
  | nil => exact hnil.trans (Nat.le_zero.1 h).symm
  | cons c xs =>
    rw [cons_append, hcons, id, length_cons] at h
    rw [cons_append, hcons, hcons]
    split
    · rename_i hc
      rw [if_pos hc] at h
      have hle : g (xs ++ ys) ≤ xs.length := by rcases hjoin (g (xs ++ ys)) with hzero | hsucc <;> omega
      rw [hg xs ys hle]
    · rfl

/-- A mark at the front decides between two scanners. -/
theorem marked {β : Type} {size : β → Nat} {f : List Char → β} (hf : Local size f) (hg : Local id g)
    (mark : List Char) (make : Nat → β) (hmake : ∀ n, size (make n) = mark.length + n) :
    Local size fun text => if mark <+: text then make (g (text.drop mark.length)) else f text := by
  intro xs ys h
  dsimp only at h ⊢
  by_cases hmark : mark <+: xs ++ ys
  · rw [if_pos hmark, hmake] at h
    have hle : mark.length ≤ xs.length := Nat.le_trans (Nat.le_add_right _ _) h
    have hfront := prefix_of_prefix_length_le hmark (prefix_append xs ys) hle
    rw [drop_append_of_le_length hle] at h
    rw [if_pos hmark, if_pos hfront, drop_append_of_le_length hle,
      ← hg _ _ (by rw [length_drop]; dsimp only [id]; omega)]
  · rw [if_neg hmark] at h
    rw [if_neg hmark, if_neg fun hfront => hmark (hfront.trans (prefix_append xs ys)), hf xs ys h]

end Local

theorem takeWhile_eq_take_run (p : Char → Bool) (text : List Char) : text.takeWhile p = text.take (run p text) :=
  prefix_iff_eq_take.1 ( takeWhile_prefix p)

/-! ### Numbers -/

/-- Digits, the first of which is not a gap. -/
def digits : List Char → Nat
  | d :: text => if d.isDigit then run isDigitOrGap text + 1 else 0
  | [] => 0

def sign : List Char → Nat
  | c :: _ => if c == '-' || c == '+' then 1 else 0
  | [] => 0

theorem local_fraction : Local id fraction := by
  have hdigits : Local id digits :=
    (local_run isDigitOrGap).cons Char.isDigit (· + 1) (fun _ => Or.inr rfl) rfl fun _ _ => rfl
  refine hdigits.cons (· == '.') (fun n => if n = 0 then 0 else n + 1) (fun n => ?_) rfl fun c text => ?_
  · by_cases hn : n = 0
    · exact Or.inl hn
    · exact Or.inr (if_neg hn)
  by_cases hc : c = '.'
  · subst hc
    cases text with
    | nil => rfl
    | cons d text => by_cases hd : d.isDigit = true <;> simp [fraction, digits, run, isDigitOrGap, hd, Nat.add_comm]
  · simp [fraction, hc]

theorem local_exponent : Local id exponent := by
  have hsign : Local id sign := Local.cons (g := fun _ => 0) (fun _ _ _ => rfl) (fun c => c == '-' || c == '+')
    (· + 1) (fun _ => Or.inr rfl) rfl fun _ _ => rfl
  refine (hsign.andThen (local_run isDigitOrGap)).cons (fun e => e == 'e' || e == 'E') (· + 1) (fun _ => Or.inr rfl)
    rfl fun e text => ?_
  cases text with
  | nil => simp [exponent, sign, run]
  | cons d text =>
    by_cases hd : d = '-' ∨ d = '+'
    · rcases hd with rfl | rfl <;> simp [exponent, sign, Nat.add_comm, ← Nat.add_assoc]
    · obtain ⟨hminus, hplus⟩ := not_or.1 hd
      simp [exponent, sign, hminus, hplus, Nat.add_comm]

/-- A number without a mark of its base. -/
def decimal (text : List Char) : Nat :=
  let whole := run isDigitOrGap text
  let part := fraction (text.drop whole)
  whole + part + exponent (text.drop (whole + part))

theorem number_eq (text : List Char) :
    number text =
      if ['0', 'x'] <+: text then 2 + run isHexDigitOrGap (text.drop 2)
      else if ['0', 'b'] <+: text then 2 + run isDigitOrGap (text.drop 2)
      else if ['0', 'o'] <+: text then 2 + run isDigitOrGap (text.drop 2)
      else decimal text := by
  unfold number
  split
  · rw [if_pos ⟨_, rfl⟩]
    rfl
  · rw [if_neg (by simp), if_pos ⟨_, rfl⟩]
    rfl
  · rw [if_neg (by simp), if_neg (by simp), if_pos ⟨_, rfl⟩]
    rfl
  · rename_i hx hb ho
    rw [if_neg fun ⟨more, hmore⟩ => hx more hmore.symm, if_neg fun ⟨more, hmore⟩ => hb more hmore.symm,
      if_neg fun ⟨more, hmore⟩ => ho more hmore.symm]
    rfl

theorem local_number : Local id number := by
  have hdecimal : Local id decimal := ((local_run isDigitOrGap).andThen local_fraction).andThen local_exponent
  have hbase (digit : Char → Bool) (mark : Char) {f : List Char → Nat} (hf : Local id f) :
      Local id fun text => if ['0', mark] <+: text then 2 + run digit (text.drop 2) else f text :=
    hf.marked (local_run digit) ['0', mark] (2 + ·) fun _ => rfl
  rw [funext number_eq]
  exact hbase isHexDigitOrGap 'x' (hbase isDigitOrGap 'b' (hbase isDigitOrGap 'o' hdecimal))

/-! ### Strings -/

/-- What is left of a string takes a character if there is one. -/
theorem quoted_pos (quote c : Char) (text : List Char) : 0 < (quoted quote (c :: text)).2 := by
  unfold quoted
  split
  · rename_i heq
    cases heq
  · exact Nat.one_pos
  · exact Nat.succ_pos _
  · split
    · exact Nat.one_pos
    · split
      · exact Nat.one_pos
      · exact Nat.succ_pos _

theorem quoted_cons (hc : c ≠ '\\') (quote : Char) (text : List Char) :
    quoted quote (c :: text) =
      if c = '\n' then (.unknown, 1)
      else if c = quote then (.string, 1)
      else ((quoted quote text).1, (quoted quote text).2 + 1) := by
  simp [quoted, hc]

theorem local_quoted (quote : Char) : Local Prod.snd (quoted quote) := by
  intro xs ys h
  match xs with
  | [] =>
    cases ys with
    | nil => rfl
    | cons c ys =>
      have := quoted_pos quote c ys
      rw [nil_append, length_nil] at h
      omega
  | c :: xs =>
    by_cases hc : c = '\\'
    · subst hc
      match xs, ys with
      | [], [] => rfl
      | [], d :: ys => simp [quoted] at h
      | d :: xs, ys =>
        simp only [cons_append, quoted, length_cons] at h ⊢
        rw [local_quoted quote xs ys (by omega)]
    · rw [cons_append, quoted_cons hc, length_cons] at h
      rw [cons_append, quoted_cons hc, quoted_cons hc]
      split
      · rfl
      rename_i hbreak
      rw [if_neg hbreak] at h
      split
      · rfl
      · rename_i hquote
        rw [if_neg hquote] at h
        rw [local_quoted quote xs ys (Nat.le_of_succ_le_succ h)]

/-! ### Tokens -/

/-- A token that is no sign: a string, a number, a name, or a character that starts no token. -/
def word (c : Char) (text : List Char) : Kind × Nat :=
  if c == '"' || c == '\'' then ((quoted c text).1, (quoted c text).2 + 1)
  else if c.isDigit then (.number, number (c :: text))
  else if isNameStart c then (nameKind (c :: text.takeWhile isNamePart), run isNamePart text + 1)
  else (.unknown, 1)

theorem word_append {xs ys : List Char} (h : (word c (xs ++ ys)).2 ≤ xs.length + 1) :
    word c xs = word c (xs ++ ys) := by
  unfold word at h ⊢
  split
  · rename_i hquote
    rw [if_pos hquote] at h
    rw [local_quoted c xs ys (Nat.le_of_succ_le_succ h)]
  rename_i hquote
  rw [if_neg hquote] at h
  split
  · rename_i hdigit
    rw [if_pos hdigit] at h
    rw [local_number (c :: xs) ys h, cons_append]
  rename_i hdigit
  rw [if_neg hdigit] at h
  split
  · rename_i hname
    rw [if_pos hname] at h
    have hrun : run isNamePart xs = run isNamePart (xs ++ ys) :=
      local_run isNamePart xs ys (Nat.le_of_succ_le_succ h)
    have hletters : xs.takeWhile isNamePart = (xs ++ ys).takeWhile isNamePart := by
      rw [takeWhile_eq_take_run, takeWhile_eq_take_run, ← hrun, take_append_of_le_length]
      rw [hrun]
      exact Nat.le_of_succ_le_succ h
    rw [hrun, hletters]
  · rfl

/-- A sign takes one character, or two if one of some characters follows. -/
def IsSign (c : Char) : Prop :=
  ∃ (double : Char → Option Kind) (single : Kind), ∀ text, scan (c :: text) =
    ((text.head?.bind double).map fun kind => (kind, 2)).getD (single, 1)

theorem scan_shape (c : Char) : IsSign c ∨ ∀ text, scan (c :: text) = word c text := by
  have hsingle {single : Kind} (h : ∀ text, scan (c :: text) = (single, 1)) : IsSign c :=
    ⟨fun _ => none, single, fun text => by rw [h]; cases text <;> rfl⟩
  have hpair {next : Char} {double single : Kind} (hnil : scan [c] = (single, 1))
      (hcons : ∀ d text, scan (c :: d :: text) = if d = next then (double, 2) else (single, 1)) : IsSign c := by
    refine ⟨fun d => if d = next then some double else none, single, fun text => ?_⟩
    cases text with
    | nil => exact hnil
    | cons d text =>
      rw [hcons]
      by_cases hd : d = next <;> simp [hd]
  by_cases hone : c ∈ ['(', ')', '[', ']', ',', '.', ';', '@', '+', '*', '/', '%']
  · left
    simp only [mem_cons, not_mem_nil, or_false] at hone
    rcases hone with rfl | rfl | rfl | rfl | rfl | rfl | rfl | rfl | rfl | rfl | rfl | rfl
    all_goals exact hsingle fun text => rfl
  by_cases htwo : c ∈ ['-', '!', '<', '>', '?', '&', '|']
  · left
    simp only [mem_cons, not_mem_nil, or_false] at htwo
    rcases htwo with rfl | rfl | rfl | rfl | rfl | rfl | rfl
    · exact @hpair '>' .arrow .operator rfl fun d text => by by_cases hd : d = '>' <;> simp [scan, hd]
    · exact @hpair '=' .operator .bang rfl fun d text => by by_cases hd : d = '=' <;> simp [scan, hd]
    iterate 2 exact @hpair '=' .operator .operator rfl fun d text => by by_cases hd : d = '=' <;> simp [scan, hd]
    -- These signs stand for nothing alone.
    · exact @hpair '=' .existsEq .unknown (by decide) fun d text => by
        by_cases hd : d = '=' <;> simp [scan, hd, show isNameStart '?' = false by decide]
    · exact @hpair '&' .operator .unknown (by decide) fun d text => by
        by_cases hd : d = '&' <;> simp [scan, hd, show isNameStart '&' = false by decide]
    · exact @hpair '|' .operator .unknown (by decide) fun d text => by
        by_cases hd : d = '|' <;> simp [scan, hd, show isNameStart '|' = false by decide]
  by_cases heq : c = '='
  · left
    subst heq
    refine ⟨fun d => if d = '>' then some .fatArrow else if d = '=' then some .operator else none, .eq, fun text => ?_⟩
    cases text with
    | nil => rfl
    | cons d text =>
      by_cases hgt : d = '>'
      · simp [scan, hgt]
      · by_cases heq : d = '=' <;> simp [scan, hgt, heq]
  · right
    intro text
    simp only [mem_cons, not_mem_nil, or_false, not_or] at hone htwo
    simp [scan, hone, htwo, heq, word, run]

/-- A token does not depend on what stands behind it. -/
theorem scan_append {xs ys : List Char} (h : (scan (c :: (xs ++ ys))).2 ≤ xs.length + 1) :
    scan (c :: xs) = scan (c :: (xs ++ ys)) := by
  rcases scan_shape c with ⟨double, single, hsign⟩ | hword
  · rw [hsign] at h
    rw [hsign, hsign]
    cases xs with
    | nil =>
      cases hd : ys.head?.bind double with
      | none => simp [hd]
      | some kind => simp [hd] at h
    | cons d xs => rfl
  · rw [hword] at h
    rw [hword, hword]
    exact word_append h

/-! ### Comments -/

theorem blockRest_cons (c : Char) (text : List Char) :
    blockRest (c :: text) = if ['#', '#', '#'] <+: c :: text then 3 else 1 + blockRest text := by
  split
  · rename_i h
    obtain ⟨more, hmore⟩ := h
    rw [← hmore]
    rfl
  · rename_i h
    rw [blockRest]
    rintro more rfl rfl
    exact h ⟨more, rfl⟩

theorem local_blockRest : Local id blockRest := by
  intro xs ys h
  induction xs with
  | nil => exact (Nat.le_zero.1 h).symm
  | cons c xs ih =>
    rw [cons_append, blockRest_cons, id, length_cons] at h
    rw [cons_append, blockRest_cons, blockRest_cons]
    by_cases hclosed : ['#', '#', '#'] <+: c :: (xs ++ ys)
    · rw [if_pos hclosed] at h
      have hinside : ['#', '#', '#'] <+: c :: xs :=
        prefix_of_prefix_length_le hclosed (prefix_append (c :: xs) ys) h
      rw [if_pos hclosed, if_pos hinside]
    · rw [if_neg hclosed] at h
      have hinside : ¬ ['#', '#', '#'] <+: c :: xs := fun hinside =>
        hclosed (hinside.trans (prefix_append (c :: xs) ys))
      rw [if_neg hclosed, if_neg hinside, ih (by dsimp only [id]; omega)]

/-- Three signs and no fourth one open a block comment. -/
theorem scanComment_eq (text : List Char) :
    scanComment text =
      if ['#', '#', '#', '#'] <+: text then (.line, 4 + run (!isLineBreak ·) (text.drop 4))
      else if ['#', '#', '#'] <+: text then (.block, 3 + blockRest (text.drop 3))
      else (.line, run (!isLineBreak ·) text) := by
  unfold scanComment
  split
  · rw [if_pos ⟨_, rfl⟩]
    simp [run, isLineBreak, Nat.add_comm, ← Nat.add_assoc]
  · rename_i inside hnot
    rw [if_neg, if_pos ⟨_, rfl⟩]
    · rfl
    · rintro ⟨more, hmore⟩
      exact hnot more (by simpa using hmore.symm)
  · rename_i hfour hthree
    rw [if_neg, if_neg]
    · rintro ⟨more, hmore⟩
      exact hthree more hmore.symm
    · rintro ⟨more, hmore⟩
      exact hfour more hmore.symm

/-- A comment does not depend on what stands behind it. -/
theorem local_scanComment : Local Prod.snd scanComment := by
  have hline : Local Prod.snd fun text => (CommentKind.line, run (!isLineBreak ·) text) := fun xs ys h =>
    congrArg _ (local_run _ xs ys h)
  rw [funext scanComment_eq]
  have hblock := hline.marked local_blockRest ['#', '#', '#'] (fun n => (.block, 3 + n)) fun _ => rfl
  exact hblock.marked (local_run _) ['#', '#', '#', '#'] (fun n => (.line, 4 + n)) fun _ => rfl

end Lexeme

/-! ## Pieces -/

/-- What the lexer takes from a text at once. -/
inductive Piece where
  | space (c : Char)
  | comment (kind : CommentKind) (chars : List Char)
  | code (kind : Kind) (chars : List Char)
deriving DecidableEq, Repr

namespace Piece

variable {c : Char} {α : Type}

def chars : Piece → List Char
  | space c => [c]
  | comment _ chars => chars
  | code _ chars => chars

/-- The piece at the front of a text that starts with `c`. -/
def first (c : Char) (rest : List Char) : Piece :=
  if isBlank c || isLineBreak c then space c
  else if c == '#' then
    comment (Lexeme.scanComment (c :: rest)).1 ((c :: rest).take (Lexeme.scanComment (c :: rest)).2)
  else code (Lexeme.scan (c :: rest)).1 ((c :: rest).take (Lexeme.scan (c :: rest)).2)

/-- The first `n` pieces of a text. -/
def firsts : Nat → List Char → List Piece
  | n + 1, c :: rest => first c rest :: firsts n ((c :: rest).drop (first c rest).chars.length)
  | _, _ => []

/-- The pieces of a text.  Each takes a character, so that there are no more of them than characters. -/
def ofText (text : List Char) : List Piece := firsts text.length text

/-- The text of a row of pieces. -/
def text (ps : List Piece) : List Char := ps.flatMap chars

@[simp] theorem text_nil : text [] = [] := rfl

@[simp] theorem text_cons (p : Piece) (ps : List Piece) : text (p :: ps) = p.chars ++ text ps := flatMap_cons

@[simp] theorem text_append (ps qs : List Piece) : text (ps ++ qs) = text ps ++ text qs := flatMap_append

/-- A piece is a beginning of the text, and not empty. -/
theorem first_spec (c : Char) (rest : List Char) :
    ∃ more tail, (first c rest).chars = c :: more ∧ rest = more ++ tail := by
  have htake {n : Nat} (hn : 0 < n) : ∃ more tail, (c :: rest).take n = c :: more ∧ rest = more ++ tail := by
    obtain ⟨m, rfl⟩ := Nat.exists_eq_add_of_lt hn
    exact ⟨rest.take m, rest.drop m, by rw [Nat.zero_add, take_succ_cons], (take_append_drop m rest).symm⟩
  unfold first
  split
  · exact ⟨[], rest, rfl, rfl⟩
  split
  · rename_i hsign
    rw [beq_iff_eq] at hsign
    subst hsign
    exact htake (Lexeme.scanComment_pos rest)
  · exact htake (Lexeme.scan_cons c rest).2

/-- A piece does not depend on what stands behind it. -/
theorem first_append {xs ys : List Char} (h : (first c (xs ++ ys)).chars.length ≤ xs.length + 1) :
    first c xs = first c (xs ++ ys) := by
  rcases eq_nil_or_concat ys with rfl | hys
  · rw [append_nil]
  have hys : 0 < ys.length := by
    obtain ⟨front, d, rfl⟩ := hys
    simp
  -- There is more behind the piece, so that it is all that its scanner takes.
  have htaken {n : Nat} (hn : ((c :: (xs ++ ys)).take n).length ≤ xs.length + 1) :
      n ≤ xs.length + 1 ∧ (c :: xs).take n = (c :: (xs ++ ys)).take n := by
    rw [length_take, length_cons, length_append] at hn
    have hle : n ≤ xs.length + 1 := by omega
    exact ⟨hle, (take_append_of_le_length hle).symm⟩
  unfold first at h ⊢
  split
  · rfl
  rename_i hspace
  rw [if_neg hspace] at h
  split
  · rename_i hsign
    rw [if_pos hsign] at h
    obtain ⟨hle, heq⟩ := htaken h
    rw [Lexeme.local_scanComment (c :: xs) ys hle, cons_append, heq]
  · rename_i hsign
    rw [if_neg hsign] at h
    obtain ⟨hle, heq⟩ := htaken h
    rw [Lexeme.scan_append hle, heq]

theorem firsts_eq {n m : Nat} {text : List Char} (hn : text.length ≤ n) (hm : text.length ≤ m) :
    firsts n text = firsts m text := by
  induction n generalizing m text with
  | zero =>
    rw [eq_nil_of_length_eq_zero (Nat.le_zero.1 hn)]
    cases m <;> rfl
  | succ n ih =>
    cases text with
    | nil => cases m <;> rfl
    | cons c rest =>
      obtain ⟨m, rfl⟩ : ∃ k, m = k + 1 := ⟨m - 1, by rw [length_cons] at hm; omega⟩
      obtain ⟨more, tail, hchars, -⟩ := first_spec c rest
      have hlen : ((c :: rest).drop (first c rest).chars.length).length ≤ rest.length := by
        rw [length_drop, hchars, length_cons, length_cons]
        omega
      rw [length_cons] at hn hm
      rw [firsts, firsts, ih (m := m) (by omega) (by omega)]

theorem ofText_nil : ofText [] = [] := rfl

/-- The first piece, and those of what is behind it. -/
theorem ofText_cons (c : Char) (rest : List Char) :
    ∃ tail, c :: rest = (first c rest).chars ++ tail ∧ ofText (c :: rest) = first c rest :: ofText tail := by
  obtain ⟨more, tail, hchars, rfl⟩ := first_spec c rest
  refine ⟨tail, by rw [hchars]; rfl, ?_⟩
  have hdrop : (c :: (more ++ tail)).drop (first c (more ++ tail)).chars.length = tail := by
    rw [hchars, ← cons_append, drop_left]
  rw [ofText, length_cons, firsts, hdrop, ofText]
  rw [firsts_eq (by simp) (Nat.le_refl _)]

theorem text_ofText (text : List Char) : Piece.text (ofText text) = text := by
  induction h : text.length using Nat.strongRecOn generalizing text with
  | ind n ih =>
    cases text with
    | nil => rfl
    | cons c rest =>
      obtain ⟨tail, htext, hpieces⟩ := ofText_cons c rest
      obtain ⟨more, -, hchars, -⟩ := first_spec c rest
      have hlt : tail.length < n := by
        rw [← h, htext, hchars, length_append, length_cons]
        omega
      rw [hpieces, text_cons, ih _ hlt tail rfl, ← htext]

/-- A text that is cut between two pieces falls into the pieces before the cut and those behind it. -/
theorem ofText_cut {text : List Char} {ps qs : List Piece} (h : ofText text = ps ++ qs) :
    ofText (Piece.text ps) = ps ∧ ofText (Piece.text qs) = qs := by
  induction ps generalizing text with
  | nil =>
    have htext := text_ofText text
    rw [h, nil_append] at htext
    rw [htext, h]
    exact ⟨rfl, rfl⟩
  | cons p ps ih =>
    cases text with
    | nil => cases h
    | cons c rest =>
      obtain ⟨tail, htext, hpieces⟩ := ofText_cons c rest
      rw [hpieces, cons_append] at h
      obtain ⟨rfl, htail⟩ := List.cons.inj h
      obtain ⟨hps, hqs⟩ := ih htail
      refine ⟨?_, hqs⟩
      obtain ⟨more, tail', hchars, hrest⟩ := first_spec c rest
      have hfront : Piece.text (first c rest :: ps) = c :: (more ++ Piece.text ps) := by
        rw [text_cons, hchars]
        rfl
      have hbehind : rest = (more ++ Piece.text ps) ++ Piece.text qs := by
        have hsplit := text_ofText tail
        rw [htail, text_append] at hsplit
        rw [hchars, cons_append] at htext
        rw [(List.cons.inj htext).2, ← hsplit, append_assoc]
      have hsame : first c (more ++ Piece.text ps) = first c rest := by
        rw [hbehind]
        apply first_append
        rw [← hbehind, hchars, length_cons, length_append]
        omega
      obtain ⟨tail'', htext'', hpieces''⟩ := ofText_cons c (more ++ Piece.text ps)
      rw [hsame, hchars] at htext''
      rw [← cons_append] at htext''
      have heq : tail'' = Piece.text ps := (append_cancel_left htext'').symm
      rw [hfront, hpieces'', hsame, heq, hps]

/-! ## Tokens and comments -/

/-- The token of a piece at an offset. -/
def token? (offset : Nat) : Piece → Option Token
  | code kind chars => some ⟨kind, ⟨offset, offset + byteLength chars⟩⟩
  | _ => none

/-- The comment of a piece at an offset. -/
def comment? (offset : Nat) : Piece → Option Comment
  | comment kind chars => some ⟨kind, ⟨offset, offset + byteLength chars⟩⟩
  | _ => none

/-- A piece that gives a token is one of code. -/
theorem token?_eq_some {offset : Nat} {p : Piece} {t : Token} (h : p.token? offset = some t) :
    ∃ chars, p = .code t.kind chars ∧ t.range = ⟨offset, offset + byteLength chars⟩ := by
  cases p with
  | space | comment => cases h
  | code kind chars =>
    cases h
    exact ⟨chars, rfl, rfl⟩

theorem comment?_eq_some {offset : Nat} {p : Piece} {c : Comment} (h : p.comment? offset = some c) :
    ∃ chars, p = .comment c.kind chars ∧ c.range = ⟨offset, offset + byteLength chars⟩ := by
  cases p with
  | space | code => cases h
  | comment kind chars =>
    cases h
    exact ⟨chars, rfl, rfl⟩

/-- What a row of pieces gives, the first of which stands at an offset. -/
def located {α : Type} (give : Nat → Piece → Option α) : Nat → List Piece → List α
  | _, [] => []
  | offset, p :: ps => (give offset p).toList ++ located give (offset + byteLength p.chars) ps

theorem located_append (give : Nat → Piece → Option α) (offset : Nat) (ps qs : List Piece) :
    located give offset (ps ++ qs) =
      located give offset ps ++ located give (offset + byteLength (Piece.text ps)) qs := by
  induction ps generalizing offset with
  | nil => rfl
  | cons p ps ih =>
    rw [cons_append, located, located, ih, text_cons, byteLength_append, append_assoc, Nat.add_assoc]

theorem located_map {give : Nat → Piece → Option α} {move : α → α} {n : Nat}
    (h : ∀ offset p, give (n + offset) p = (give offset p).map move) (offset : Nat) (ps : List Piece) :
    located give (n + offset) ps = (located give offset ps).map move := by
  induction ps generalizing offset with
  | nil => rfl
  | cons p ps ih =>
    rw [located, located, h, Nat.add_assoc, ih, map_append]
    cases give offset p <;> rfl

theorem first_space (h : isBlank c = true ∨ isLineBreak c = true) (rest : List Char) : first c rest = space c := by
  rw [first, if_pos (by simpa using h)]

theorem ofText_spaces {spaces : List Char} (h : ∀ c ∈ spaces, isBlank c = true ∨ isLineBreak c = true)
    (rest : List Char) : ofText (spaces ++ rest) = spaces.map space ++ ofText rest := by
  induction spaces with
  | nil => rfl
  | cons c spaces ih =>
    obtain ⟨hc, hspaces⟩ := forall_mem_cons.1 h
    obtain ⟨tail, htext, hpieces⟩ := ofText_cons c (spaces ++ rest)
    rw [first_space hc] at htext hpieces
    have htail : tail = spaces ++ rest := (List.cons.inj htext).2.symm
    rw [cons_append, hpieces, htail, ih hspaces]
    rfl

/-- The first piece is what a scanner takes. -/
theorem ofText_taken {rest : List Char} {n : Nat} (h : (first c rest).chars = (c :: rest).take n) :
    ofText (c :: rest) = first c rest :: ofText ((c :: rest).drop n) := by
  obtain ⟨tail, htext, hpieces⟩ := ofText_cons c rest
  rw [h] at htext
  have htail : tail = (c :: rest).drop n :=
    append_cancel_left (htext.symm.trans (take_append_drop n (c :: rest)).symm)
  rw [hpieces, htail]

theorem ofText_comment (rest : List Char) :
    ofText ('#' :: rest) =
      comment (Lexeme.scanComment ('#' :: rest)).1 (('#' :: rest).take (Lexeme.scanComment ('#' :: rest)).2) ::
        ofText (('#' :: rest).drop (Lexeme.scanComment ('#' :: rest)).2) := by
  have hfirst : first '#' rest = comment (Lexeme.scanComment ('#' :: rest)).1
      (('#' :: rest).take (Lexeme.scanComment ('#' :: rest)).2) := by
    rw [first, if_neg (by decide), if_pos (by decide)]
  rw [ofText_taken (by rw [hfirst]; rfl), hfirst]

theorem ofText_code (hblank : isBlank c = false) (hbreak : isLineBreak c = false) (hsign : c ≠ '#') (rest : List Char) :
    ofText (c :: rest) =
      code (Lexeme.scan (c :: rest)).1 ((c :: rest).take (Lexeme.scan (c :: rest)).2) ::
        ofText ((c :: rest).drop (Lexeme.scan (c :: rest)).2) := by
  have hfirst : first c rest = code (Lexeme.scan (c :: rest)).1 ((c :: rest).take (Lexeme.scan (c :: rest)).2) := by
    rw [first, if_neg (by simp [hblank, hbreak]), if_neg (by simpa using hsign)]
  rw [ofText_taken (by rw [hfirst]; rfl), hfirst]

theorem located_spaces {give : Nat → Piece → Option α} (h : ∀ offset c, give offset (space c) = none) (offset : Nat)
    (spaces : List Char) : located give offset (spaces.map space) = [] := by
  induction spaces generalizing offset with
  | nil => rfl
  | cons c spaces ih => rw [map_cons, located, h, ih]; rfl

theorem text_spaces (spaces : List Char) : Piece.text (spaces.map space) = spaces := by
  induction spaces with
  | nil => rfl
  | cons c spaces ih => rw [map_cons, text_cons, ih]; rfl

/-! ### Places -/

/-- A piece stands where the pieces before it end, and is what is taken there. -/
theorem exists_first {text : List Char} {before after : List Piece} {p : Piece}
    (h : ofText text = before ++ p :: after) :
    ∃ c rest, At text (byteLength (Piece.text before)) (c :: rest) ∧ p = first c rest := by
  have hcut := (ofText_cut h).2
  have htext := text_ofText text
  rw [h, text_append] at htext
  cases hrest : Piece.text (p :: after) with
  | nil =>
    rw [hrest] at hcut
    cases hcut
  | cons c rest =>
    obtain ⟨tail, -, hpieces⟩ := ofText_cons c rest
    rw [hrest, hpieces] at hcut
    exact ⟨c, rest, ⟨Piece.text before, by rw [← htext, hrest], rfl⟩, (List.cons.inj hcut).1.symm⟩

theorem exists_of_mem_located {give : Nat → Piece → Option α} {offset : Nat} {ps : List Piece} {x : α}
    (h : x ∈ located give offset ps) :
    ∃ before p after, ps = before ++ p :: after ∧ give (offset + byteLength (Piece.text before)) p = some x := by
  induction ps generalizing offset with
  | nil => cases h
  | cons p ps ih =>
    rw [located, mem_append, Option.mem_toList] at h
    rcases h with h | h
    · exact ⟨[], p, ps, rfl, h⟩
    · obtain ⟨before, q, after, rfl, hq⟩ := ih h
      exact ⟨p :: before, q, after, rfl, by rwa [text_cons, byteLength_append, ← Nat.add_assoc]⟩

theorem mem_located {give : Nat → Piece → Option α} {before after : List Piece} {p : Piece} {x : α}
    (h : give (byteLength (Piece.text before)) p = some x) : x ∈ located give 0 (before ++ p :: after) := by
  rw [located_append, located, Nat.zero_add, h]
  exact mem_append_right _ mem_cons_self

/-- What the pieces give is in order. -/
theorem located_pairwise {give : Nat → Piece → Option α} {range : α → Span}
    (hrange : ∀ offset p x, give offset p = some x → range x = ⟨offset, offset + byteLength p.chars⟩) (offset : Nat)
    (ps : List Piece) : (located give offset ps).Pairwise fun a b => (range a).stop ≤ (range b).start := by
  induction ps generalizing offset with
  | nil => exact List.Pairwise.nil
  | cons p ps ih =>
    refine pairwise_append.2 ⟨?_, ih _, fun a ha b hb => ?_⟩
    · cases give offset p with
      | none => exact List.Pairwise.nil
      | some x => exact pairwise_singleton _ x
    · obtain ⟨before, q, after, -, hq⟩ := exists_of_mem_located hb
      rw [hrange _ _ _ (Option.mem_toList.1 ha), hrange _ _ _ hq]
      exact Nat.le_add_right _ _

/-- A piece stands before or behind a stretch of other pieces. -/
theorem apart_of_split {before mid after before' after' : List Piece} {p : Piece}
    (h : before ++ mid ++ after = before' ++ p :: after') (hp : p ∉ mid) :
    byteLength (Piece.text (before ++ mid)) ≤ byteLength (Piece.text before') ∨
      byteLength (Piece.text before') + byteLength p.chars ≤ byteLength (Piece.text before) := by
  have hle (ps qs : List Piece) : byteLength (Piece.text ps) ≤ byteLength (Piece.text (ps ++ qs)) := by
    rw [text_append, byteLength_append]
    exact Nat.le_add_right _ _
  rcases append_eq_append_iff.1 h with ⟨as, rfl, -⟩ | ⟨as, has, hafter⟩
  · exact Or.inl (hle _ as)
  rcases as with _ | ⟨q, as⟩
  · rw [has, append_nil]
    exact Or.inl (Nat.le_refl _)
  obtain ⟨rfl, -⟩ := List.cons.inj hafter
  rcases append_eq_append_iff.1 has with ⟨bs, -, rfl⟩ | ⟨bs, rfl, hmid⟩
  · exact absurd (mem_append_right _ mem_cons_self) hp
  rcases bs with _ | ⟨q, bs⟩
  · rw [nil_append] at hmid
    exact absurd (hmid ▸ mem_cons_self) hp
  · obtain ⟨rfl, -⟩ := List.cons.inj hmid
    exact Or.inr (by simp)

end Piece

/-! ## From step to step -/

namespace Lexer

variable {text rest : List Char} {s : Lexer}

/-- The lexer has taken these pieces from the text. -/
structure Took (text : List Char) (s : Lexer) (ps : List Piece) : Prop where
  pieces : Piece.ofText text = ps ++ Piece.ofText s.rest
  offset : s.offset = byteLength (Piece.text ps)
  code : s.tokens.reverse.filter Token.isSignificant = Piece.located Piece.token? 0 ps
  comments : s.comments.reverse = Piece.located Piece.comment? 0 ps

variable {ps : List Piece}

theorem pieces_comment (hrest : s.rest = '#' :: rest) :
    Piece.ofText s.rest = .comment (Lexeme.scanComment s.rest).1 (s.rest.take (Lexeme.scanComment s.rest).2) ::
      Piece.ofText s.comment.rest := by
  show _ = _ :: Piece.ofText (s.rest.drop _)
  rw [hrest]
  exact Piece.ofText_comment rest

theorem pieces_token {c : Char} (hrest : s.rest = c :: rest) (hblank : isBlank c = false)
    (hbreak : isLineBreak c = false) (hsign : c ≠ '#') :
    Piece.ofText s.rest = .code (Lexeme.scan s.rest).1 (s.rest.take (Lexeme.scan s.rest).2) ::
      Piece.ofText s.token.rest := by
  show _ = _ :: Piece.ofText (s.rest.drop _)
  rw [hrest]
  exact Piece.ofText_code hblank hbreak hsign rest

theorem Took.start (text : List Char) : Took text { rest := text } [] := ⟨rfl, rfl, rfl, rfl⟩

theorem Took.passed (h : Took text s ps) : At text s.offset s.rest := by
  have htext := Piece.text_ofText text
  rw [h.pieces, Piece.text_append, Piece.text_ofText] at htext
  exact ⟨Piece.text ps, htext.symm, h.offset.symm⟩

theorem Took.spaces (h : Took text s ps) {n : Nat}
    (hspace : ∀ c ∈ s.rest.take n, isBlank c = true ∨ isLineBreak c = true) (place : Place) :
    Took text { s.skip n with place } (ps ++ (s.rest.take n).map .space) where
  pieces := by
    have hsplit := Piece.ofText_spaces hspace (s.rest.drop n)
    rw [take_append_drop] at hsplit
    rw [h.pieces, hsplit, append_assoc]
    rfl
  offset := by
    rw [Piece.text_append, Piece.text_spaces, byteLength_append, ← h.offset]
    rfl
  code := by
    rw [Piece.located_append, Piece.located_spaces fun _ _ => rfl, append_nil]
    exact h.code
  comments := by
    rw [Piece.located_append, Piece.located_spaces fun _ _ => rfl, append_nil]
    exact h.comments

theorem Took.comment (h : Took text s ps) (hrest : s.rest = '#' :: rest) (place : Place) :
    Took text { s.comment with place }
      (ps ++ [.comment (Lexeme.scanComment s.rest).1 (s.rest.take (Lexeme.scanComment s.rest).2)]) where
  pieces := by
    rw [h.pieces, append_assoc]
    exact congrArg (ps ++ ·) (pieces_comment hrest)
  offset := by
    rw [Piece.text_append, byteLength_append, ← h.offset]
    simp [Piece.chars, Lexer.comment, Lexer.skip]
  code := by
    rw [Piece.located_append, ← h.code]
    exact (append_nil _).symm
  comments := by
    rw [Piece.located_append, ← h.comments, Nat.zero_add, ← h.offset]
    simp [Piece.located, Piece.comment?, Lexer.comment, Lexer.skip]

/-- Layout in front of a token changes nothing that was taken. -/
theorem Took.layout (h : Took text s ps) (newline : Option Span) (column : Nat) :
    Took text (s.layout newline column) ps := by
  obtain ⟨ts, htokens, hlayout⟩ := s.layout_tokens newline column
  obtain ⟨hoffset, hcomments, -⟩ := s.layout_same newline column
  refine ⟨by rw [layout_rest]; exact h.pieces, by rw [hoffset]; exact h.offset, ?_, by rw [hcomments]; exact h.comments⟩
  have hnone : ts.reverse.filter Token.isSignificant = [] :=
    filter_eq_nil_iff.2 fun t ht => by simp [hlayout t (mem_reverse.1 ht)]
  rw [htokens, reverse_append, filter_append, hnone, append_nil]
  exact h.code

theorem Took.token (h : Took text s ps) {c : Char} (hrest : s.rest = c :: rest) (hblank : isBlank c = false)
    (hbreak : isLineBreak c = false) (hsign : c ≠ '#') :
    Took text s.token (ps ++ [.code (Lexeme.scan s.rest).1 (s.rest.take (Lexeme.scan s.rest).2)]) where
  pieces := by
    rw [h.pieces, append_assoc]
    exact congrArg (ps ++ ·) (pieces_token hrest hblank hbreak hsign)
  offset := by
    rw [Piece.text_append, byteLength_append, ← h.offset]
    simp [Piece.chars, Lexer.token, Lexer.push, Lexer.skip]
  code := by
    have hcode : (Lexeme.scan s.rest).1.isLayout = false := by
      rw [hrest]
      exact (Lexeme.scan_cons c rest).1
    rw [Piece.located_append, ← h.code, Nat.zero_add, ← h.offset]
    simp [Piece.located, Piece.token?, Lexer.token, Lexer.push, Lexer.skip, Token.isSignificant, hcode]
  comments := by
    rw [Piece.located_append, ← h.comments]
    exact (append_nil _).symm

theorem Took.step (h : Took text s ps) : ∃ qs, Took text s.step qs := by
  rcases s.step_cases with ⟨-, heq⟩ | ⟨c, rest, n, place, -, -, hspace, heq, -⟩ | ⟨rest, place, k, hrest, heq, -⟩ |
    ⟨c, rest, hrest, hblank, hbreak, hsign, ⟨-, heq⟩ | ⟨newline, column, -, heq⟩⟩ <;> rw [heq]
  · exact ⟨ps, h⟩
  · exact ⟨_, h.spaces hspace place⟩
  · exact ⟨_, h.comment hrest place⟩
  · exact ⟨_, h.token hrest hblank hbreak hsign⟩
  · exact ⟨_, (h.layout newline column).token ((s.layout_rest newline column).trans hrest) hblank hbreak hsign⟩

end Lexer

/-! ## The pieces of a text -/

/-- The lexer writes a token for each piece of code and a comment for each comment. -/
theorem Lexed.pieces_ofText (text : List Char) :
    (Lexed.ofText text).tokens.filter Token.isSignificant = Piece.located Piece.token? 0 (Piece.ofText text) ∧
      (Lexed.ofText text).comments = Piece.located Piece.comment? 0 (Piece.ofText text) := by
  obtain ⟨ps, h⟩ := Lexer.steps_induction (P := fun s => ∃ ps, Lexer.Took text s ps)
    (fun _ ⟨_, h⟩ => h.step) text.length ⟨_, .start text⟩
  have hrest : (Lexer.steps text.length { rest := text }).rest = [] := Lexer.rest_steps (Nat.le_refl _)
  have hpieces := h.pieces
  rw [hrest, Piece.ofText_nil, append_nil] at hpieces
  rw [hpieces, ← h.code, ← h.comments]
  refine ⟨?_, rfl⟩
  rw [Lexed.ofText, Lexer.tokens_finish, filter_append, filter_append, filter_replicate]
  simp [Token.isSignificant, Kind.isLayout]

end Respell
