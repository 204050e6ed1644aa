import Respell.Proofs.Lexing.Comments
import Respell.Proofs.Tree.Items
import Respell.Proofs.Tree.Parsed

/-!
The texts of identifiers.

A name is scanned letter by letter, so an identifier consists of the characters of names and of nothing else.
-/

namespace Respell

open List Text

namespace Lexeme

/-- Characters of names, at least one. -/
def IsName (letters : List Char) : Prop := letters ≠ [] ∧ ∀ c ∈ letters, isNamePart c = true

theorem isNamePart_of_start {c : Char} (h : isNameStart c = true) : isNamePart c = true := by
  simp only [isNameStart, Bool.or_eq_true, beq_iff_eq] at h
  rcases h with (rfl | rfl) | h
  · decide
  · decide
  · simp [isNamePart, isIdentifierPart_of_start h]

theorem quoted_ne_name (quote : Char) (text : List Char) : (quoted quote text).1 ≠ .name := by
  fun_induction quoted quote text <;> simp_all

/-- A name is scanned to the end of its letters. -/
theorem isName_of_scan {c : Char} {rest : List Char} (h : (scan (c :: rest)).1 = .name) :
    IsName ((c :: rest).take (scan (c :: rest)).2) := by
  have hscan : isNameStart c = true ∧ (scan (c :: rest)).2 = (c :: rest.takeWhile isNamePart).length := by
    revert h
    unfold scan
    split
    case h_1 heq => cases heq
    all_goals try exact fun h => by cases h
    rename_i heq
    cases heq
    split
    · exact fun h => absurd h (quoted_ne_name _ _)
    split
    · exact fun h => by cases h
    split
    · exact fun _ => ⟨‹_›, rfl⟩
    · exact fun h => by cases h
  rw [hscan.2, length_cons, take_succ_cons, ← prefix_iff_eq_take.1 ( takeWhile_prefix _)]
  refine ⟨cons_ne_nil _ _, fun d hd => ?_⟩
  rcases mem_cons.1 hd with rfl | hd
  · exact isNamePart_of_start hscan.1
  · exact all_eq_true.1 (all_takeWhile) d hd

end Lexeme

variable {tree : Tree} {n : Node}

theorem Token.Scanned.slice {text : List Char} {t : Token} (h : t.Scanned text) :
    ∃ c rest, t.kind = (Lexeme.scan (c :: rest)).1 ∧
      Text.slice text t.range = String.ofList ((c :: rest).take (Lexeme.scan (c :: rest)).2) := by
  obtain ⟨c, rest, hat, -, -, hkind, hstop⟩ := h
  refine ⟨c, rest, hkind, ?_⟩
  rw [← take_append_drop (Lexeme.scan (c :: rest)).2 (c :: rest)] at hat
  rw [Text.slice, hat.slice? hstop]
  rfl

/-- The text of an identifier is a name. -/
theorem Node.Sound.nodeText_isName (h : n.Sound tree) (hk : n.kind = .ident)
    (hscanned : ∀ t ∈ tree.tokens, t.isSignificant = true → t.Scanned tree.text) :
    Lexeme.IsName (tree.nodeText n).toList := by
  have hrows := h.rows
  rw [hk] at hrows
  obtain ⟨i, hitems, hi⟩ := Rows.word hrows
  have hi : tree.kindAt i = .name := by simpa using hi
  have hcode : (tree.kindAt i).isLayout = false := by
    rw [hi]
    rfl
  obtain ⟨t, ht, htk, hreach⟩ := Tree.exists_token hcode
  have htiled := h.tiled
  rw [Forest.ranges_eq_flatMap, show n.elements.items = [.token i] from hitems] at htiled
  simp only [flatMap_cons, flatMap_nil, append_nil, Item.ranges, hreach, Option.map_some, Option.toList_some] at htiled
  obtain ⟨hstart, -, hstop⟩ := htiled
  have hrange : n.range = t.range := by
    cases hn : n.range
    cases htr : t.range
    simp_all
  have hsig : t.isSignificant = true := by simp [Token.isSignificant, htk, hi, Kind.isLayout]
  obtain ⟨c, rest, hkind, hslice⟩ := (hscanned t (mem_of_getElem? ht) hsig).slice
  rw [Tree.nodeText, hrange, hslice, String.toList_ofList]
  exact Lexeme.isName_of_scan (by rw [← hkind, htk, hi])

/-- The tokens of a parsed text are scanned from it. -/
theorem Parse.scanned_ofText (text : List Char) :
    ∀ t ∈ (Parse.ofText text).tree.tokens, t.isSignificant = true → t.Scanned (Parse.ofText text).tree.text := by
  obtain ⟨f, hf⟩ := Parse.exists_block text
  obtain ⟨htext, htokens, -⟩ := hf.tree_eq
  rw [htext, htokens]
  exact (Lexed.parted_ofText text).code

end Respell
