import Respell.Proofs.Lexing.Comments

/-!
Comments as JavaScript writes them.

The lexer looks for the end of a block comment behind its opening delimiter; that a comment has a closing one is told
from its ends alone.  Both come to the same answer (`Comment.isClosed_iff`).  A line comment is one comment in
JavaScript as well.  What stands between the delimiters is copied as it is, so a block comment is one comment unless it
holds a `*/` of its own (`Lexed.javascript_ofText`).
-/

namespace Respell

open List Text

variable {text : List Char} {c : Comment}

/-! ## The end of a comment -/

/-- What opens a block comment and ends it. -/
abbrev Comment.fence : List Char := ['#', '#', '#']

open Comment (fence)

/-- A block comment ends with `###` if there is one behind its opening, and else with the text. -/
theorem Lexeme.take_blockRest (behind : List Char) :
    (fence <:+: behind ∧ ∃ inside, behind.take (blockRest behind) = inside ++ fence) ∨
      (¬ fence <:+: behind ∧ behind.take (blockRest behind) = behind) := by
  induction behind with
  | nil => exact Or.inr ⟨by simp, rfl⟩
  | cons d behind ih =>
    rw [blockRest_cons, infix_cons_iff]
    by_cases hfront : fence <+: d :: behind
    · obtain ⟨rest, hrest⟩ := hfront
      rw [if_pos ⟨rest, hrest⟩]
      exact Or.inl ⟨Or.inl ⟨rest, hrest⟩, [], by rw [← hrest]; rfl⟩
    · rw [if_neg hfront, Nat.add_comm, take_succ_cons]
      rcases ih with ⟨hin, inside, heq⟩ | ⟨hnot, heq⟩
      · exact Or.inl ⟨Or.inr hin, d :: inside, by rw [heq]; rfl⟩
      · exact Or.inr ⟨fun h => h.elim hfront hnot, by rw [heq]⟩

namespace Comment

/-- There is a `###` behind the one that opens the comment. -/
def Terminated (text : List Char) (c : Comment) : Prop :=
  ∃ behind, At text (c.range.start + 3) behind ∧ fence <:+: behind

/-- A comment is closed if a `###` was found behind its opening. -/
theorem isClosed_iff (behind : List Char) :
    isClosed (fence ++ behind.take (Lexeme.blockRest behind)) = true ↔ fence <:+: behind := by
  rcases Lexeme.take_blockRest behind with ⟨hin, inside, heq⟩ | ⟨hnot, heq⟩
  · refine iff_of_true ?_ hin
    rw [heq, isClosed, byteLength_append, byteLength_append, Bool.and_eq_true, decide_eq_true_iff,
      isSuffixOf_iff_suffix]
    exact ⟨by simp only [show byteLength fence = 3 from rfl]; omega, fence ++ inside, by simp⟩
  · refine iff_of_false (fun hclosed => hnot ?_) hnot
    obtain ⟨front, hfront, hle⟩ := exists_append_of_isClosed hclosed
    rw [heq] at hfront
    rcases append_eq_append_iff.1 hfront with ⟨more, rfl, rfl⟩ | ⟨more, hsigns, hmore⟩
    · exact (suffix_append more _).isInfix
    · cases more with
      | nil => exact (show fence = behind from hmore) ▸ infix_rfl
      | cons d more =>
        have hlen : 3 = byteLength (front ++ d :: more) := congrArg byteLength hsigns
        rw [byteLength_append, byteLength_cons] at hlen
        have := d.utf8Size_pos
        omega

theorem Scanned.slice_line (h : c.Scanned text) (hk : c.kind = .line) :
    ∃ inside, slice? text c.range = some ('#' :: inside) ∧ ∀ d ∈ inside, isLineBreak d = false := by
  obtain ⟨rest, hat, hkind, hstop⟩ := h
  have hrun : (Lexeme.scanComment ('#' :: rest)).2 = Lexeme.run (!isLineBreak ·) ('#' :: rest) := by
    rw [hk] at hkind
    unfold Lexeme.scanComment at hkind ⊢
    split at hkind
    · rfl
    · cases hkind
    · rfl
  rw [hrun, Lexeme.run, takeWhile_cons_of_pos rfl, length_cons, take_succ_cons,
    ← prefix_iff_eq_take.1 ( takeWhile_prefix _)] at hstop
  rw [← takeWhile_append_dropWhile (p := (!isLineBreak ·)) (l := rest)] at hat
  refine ⟨_, @Text.At.slice? text _ (rest.dropWhile (!isLineBreak ·)) c.range hat hstop, fun d hd => ?_⟩
  simpa using all_eq_true.1 all_takeWhile d hd

theorem Scanned.slice_block (h : c.Scanned text) (hk : c.kind = .block) :
    ∃ behind, At text (c.range.start + 3) behind ∧
      slice? text c.range = some (fence ++ behind.take (Lexeme.blockRest behind)) := by
  obtain ⟨rest, hat, hkind, hstop⟩ := h
  obtain ⟨behind, heq, hlen⟩ := Lexeme.scanComment_block (hkind.symm.trans hk)
  rw [hlen, Nat.add_comm 3, heq] at hstop
  rw [heq] at hat
  refine ⟨behind, @Text.At.append text fence _ _ hat, ?_⟩
  rw [← take_append_drop (Lexeme.blockRest behind) behind] at hat
  exact @Text.At.slice? text (fence ++ _) _ _ hat hstop

/-! ## Comments of JavaScript -/

/-- One comment of JavaScript and nothing else: `//` up to the end of the line, or `/*` up to the first `*/`.  Lines end
at line feeds and carriage returns; U+2028 and U+2029, at which JavaScript ends a line too, are left out. -/
def IsJavascript : CommentKind → List Char → Prop
  | .line, text => ∃ inside, text = '/' :: '/' :: inside ∧ ∀ d ∈ inside, isLineBreak d = false
  | .block, text => ∃ inside, text = '/' :: '*' :: inside ∧ ['*', '/'] <:+ inside ∧
      ∀ front back, inside = front ++ '*' :: '/' :: back → back = []

theorem isJavascript_block_iff (inside : List Char) :
    IsJavascript .block ('/' :: '*' :: (inside ++ ['*', '/'])) ↔ ¬ ['*', '/'] <:+: inside := by
  constructor
  · rintro ⟨_, heq, -, hfirst⟩ ⟨front, back, rfl⟩
    cases heq
    have hnil := hfirst front (back ++ ['*', '/']) (by simp)
    exact append_ne_nil_of_right_ne_nil _ (cons_ne_nil _ _) hnil
  · intro hnot
    refine ⟨_, rfl, suffix_append _ _, fun front back heq => ?_⟩
    rcases append_eq_append_iff.1 heq with ⟨more, -, hmore⟩ | ⟨more, rfl, hmore⟩
    · have hlen := congrArg List.length hmore
      simp only [length_append, length_cons, length_nil] at hlen
      exact length_eq_zero_iff.1 (by omega)
    · rcases more with _ | ⟨d, _ | ⟨e, more⟩⟩
      · exact (List.cons.inj (List.cons.inj hmore).2).2
      · cases (List.cons.inj (List.cons.inj hmore).2).1
      · cases hmore
        exact absurd ⟨front, more, by simp⟩ hnot

end Comment

theorem Text.At.unique {xs ys : List Char} {p : Nat} (hx : At text p xs) (hy : At text p ys) : xs = ys := by
  obtain ⟨_, hx⟩ := hx
  obtain ⟨_, hy⟩ := hy
  cases (splitBytes?_eq_some.2 hx).symm.trans (splitBytes?_eq_some.2 hy)
  rfl

theorem Text.dropBytes_append (xs ys : List Char) : dropBytes (byteLength xs) (xs ++ ys) = ys := by
  rw [dropBytes, splitBytes?_byteLength]
  rfl

namespace Comment

theorem Scanned.javascript_line (h : c.Scanned text) (hk : c.kind = .line) :
    IsJavascript .line (c.javascript text).toList := by
  obtain ⟨inside, hslice, hbreak⟩ := h.slice_line hk
  refine ⟨inside, ?_, hbreak⟩
  simp only [javascript, hk, hslice, Option.getD_some]
  rw [show dropBytes 1 ('#' :: inside) = inside from dropBytes_append ['#'] inside]
  simp

/-- A block comment with an end is written with the delimiters of JavaScript around the same text. -/
theorem Scanned.javascript_block (h : c.Scanned text) (hk : c.kind = .block) :
    ((⟨c.range.stop - 3, c.range.stop⟩, "*/") ∈ c.delimiters text ↔ c.Terminated text) ∧
    (c.Terminated text → ∃ inside, slice? text c.range = some (fence ++ inside ++ fence) ∧
      (c.javascript text).toList = '/' :: '*' :: (inside ++ ['*', '/'])) := by
  obtain ⟨behind, hat, hslice⟩ := h.slice_block hk
  have hterminated : c.Terminated text ↔ fence <:+: behind := by
    refine ⟨?_, fun hin => ⟨behind, hat, hin⟩⟩
    rintro ⟨other, hother, hin⟩
    rwa [hat.unique hother]
  have hclosed := isClosed_iff behind
  rw [hterminated]
  constructor
  · simp only [Comment.delimiters, hk, hslice, Option.getD_some]
    rw [← hclosed]
    split
    · exact iff_of_true (mem_cons_of_mem _ mem_cons_self) ‹_›
    · exact iff_of_false (by simp) ‹_›
  · intro hin
    rw [hslice, Comment.javascript]
    simp only [hk, hslice, Option.getD_some, if_pos (hclosed.2 hin)]
    obtain ⟨inside, heq⟩ : ∃ inside, behind.take (Lexeme.blockRest behind) = inside ++ fence := by
      rcases Lexeme.take_blockRest behind with ⟨-, hfound⟩ | ⟨hnot, -⟩
      · exact hfound
      · exact absurd hin hnot
    rw [heq]
    have hfront : (fence ++ (inside ++ fence)).take ((fence ++ (inside ++ fence)).length - 3) = fence ++ inside := by
      rw [← append_assoc]
      exact take_left' (by simp)
    refine ⟨inside, by simp, ?_⟩
    rw [hfront, show dropBytes 3 (fence ++ inside) = inside from dropBytes_append fence inside]
    simp

end Comment

/-- The delimiters of a comment are pieces of it, one after the other, and a block comment has a closing one just if it
ends.  Line comments, and block comments that end, are one comment in JavaScript; but a block comment is so only if
there is no `*/` in it. -/
theorem Lexed.javascript_ofText (text : List Char) :
    ∀ c ∈ (Lexed.ofText text).comments,
      ((∀ d ∈ c.delimiters text, d.1.Inside text ∧ c.range.start ≤ d.1.start ∧ d.1.stop ≤ c.range.stop) ∧
        (c.delimiters text).Pairwise fun a b => a.1.stop ≤ b.1.start) ∧
      (c.kind = .line → Comment.IsJavascript .line (c.javascript text).toList) ∧
      (c.kind = .block →
        ((⟨c.range.stop - 3, c.range.stop⟩, "*/") ∈ c.delimiters text ↔ c.Terminated text) ∧
        (c.Terminated text → ∃ inside, slice? text c.range = some (fence ++ inside ++ fence) ∧
          (Comment.IsJavascript .block (c.javascript text).toList ↔ ¬ ['*', '/'] <:+: inside))) := by
  intro c hc
  have hscanned := (Lexed.parted_ofText text).scanned c hc
  refine ⟨hscanned.delimiters, hscanned.javascript_line, fun hk => ?_⟩
  obtain ⟨hclosing, hterminated⟩ := hscanned.javascript_block hk
  refine ⟨hclosing, fun hend => ?_⟩
  obtain ⟨inside, hslice, hwritten⟩ := hterminated hend
  exact ⟨inside, hslice, hwritten ▸ Comment.isJavascript_block_iff inside⟩

/-- Stars in front of the closing delimiter do no harm. -/
theorem Lexed.javascript_ofText_stars :
    let text := "### a **###\n".toList
    let c : Comment := ⟨.block, ⟨0, 11⟩⟩
    c ∈ (Lexed.ofText text).comments ∧ c.javascript text = "/* a ***/" ∧
      Comment.IsJavascript .block (c.javascript text).toList := by
  intro text c
  have hmem : c ∈ (Lexed.ofText text).comments := by decide +kernel
  have hterminated : c.Terminated text := ⟨" a **###\n".toList, ⟨"###".toList, by decide +kernel⟩, by decide +kernel⟩
  obtain ⟨inside, hslice, hiff⟩ := ((Lexed.javascript_ofText text c hmem).2.2 rfl).2 hterminated
  have hbody : slice? text c.range = some (fence ++ " a **".toList ++ fence) := by decide +kernel
  obtain rfl : " a **".toList = inside :=
    append_cancel_left (append_cancel_right (Option.some.inj (hbody.symm.trans hslice)))
  exact ⟨hmem, by decide +kernel, hiff.2 (by decide +kernel)⟩

/-- A `*/` in a block comment ends it in JavaScript. -/
theorem Lexed.comment_closed_early :
    let text := "### a */ b ###\n".toList
    let c : Comment := ⟨.block, ⟨0, 14⟩⟩
    c ∈ (Lexed.ofText text).comments ∧ c.Terminated text ∧ c.javascript text = "/* a */ b */" ∧
      ¬ Comment.IsJavascript .block (c.javascript text).toList := by
  intro text c
  have hwritten : c.javascript text = "/* a */ b */" := by decide +kernel
  refine ⟨by decide +kernel, ⟨" a */ b ###\n".toList, ⟨"###".toList, by decide +kernel⟩, by decide +kernel⟩, hwritten,
    ?_⟩
  rw [hwritten]
  exact (not_congr (Comment.isJavascript_block_iff " a */ b ".toList)).2 (not_not.2 (by decide +kernel))

end Respell
