import Respell.Proofs.Editor.Rendering
import Respell.Proofs.Normalize.Translation
import Respell.Proofs.Tree.Geometry

/-!
Patchworks as readings of an edited text.

If a reading writes a text of its own for each of some pieces and is clear between them, then what it writes
for a stretch with these pieces is a patchwork.  A piece takes what stands ahead of its start and not what
stands ahead of its end, so that pieces may touch:

    lead start (source ⟨start, stop⟩)  =  ahead start  ++  patchwork start stop pieces

Pieces that do not touch may take what stands ahead of both their ends (`fill_patchwork`).
-/

namespace Respell

open List Text

namespace Reading

theorem lead_append (r : Reading) (pos : Nat) (xs ys : List Char) :
    r.lead pos (xs ++ ys) = r.lead pos xs ++ r.lead (pos + byteLength xs) ys := by
  induction xs generalizing pos with
  | nil => simp [lead]
  | cons c cs ih => simp [lead, ih, Nat.add_assoc]

/-- Characters that are not edited. -/
theorem lead_eq_ahead_append {r : Reading} {pos : Nat} {c : Char} {cs : List Char}
    (ha : ∀ p, pos < p → p < pos + byteLength (c :: cs) → r.ahead p = [])
    (hi : ∀ p, pos ≤ p → p < pos + byteLength (c :: cs) → r.instead p = [] ∧ r.covers p = false) :
    r.lead pos (c :: cs) = r.ahead pos ++ c :: cs := by
  have hpos := c.utf8Size_pos
  simp only [byteLength_cons] at ha hi
  obtain ⟨h1, h2⟩ := hi pos (Nat.le_refl _) (by omega)
  have hrest : r.lead (pos + c.utf8Size) cs = cs := lead_of_bare (b := false) fun p h1 h2 =>
    ⟨ha p (by omega) (by omega), hi p (by omega) (by omega)⟩
  rw [lead, hrest, h1, h2]
  simp

end Reading

namespace Normalize

/-! ## The source between boundaries -/

theorem source_eq {text before inside after : List Char} (h : text = before ++ inside ++ after) :
    source text ⟨byteLength before, byteLength before + byteLength inside⟩ = inside := by
  rw [source, slice?_eq_some.2 ⟨before, after, h, rfl, rfl⟩, Option.getD_some]

variable {text : List Char} {a b c : Nat}

theorem source_self (ha : isBoundary text a = true) : source text ⟨a, a⟩ = [] := by
  obtain ⟨before, after, rfl, rfl⟩ := isBoundary_iff.1 ha
  exact @source_eq _ before [] after (by simp)

/-- Two boundaries cut a text in three. -/
theorem exists_source (ha : isBoundary text a = true) (hb : isBoundary text b = true) (hab : a ≤ b) :
    ∃ before after, text = before ++ source text ⟨a, b⟩ ++ after ∧ byteLength before = a ∧
      byteLength before + byteLength (source text ⟨a, b⟩) = b := by
  obtain ⟨before, inside, after, h, rfl, rfl⟩ := exists_slice? ha hb hab
  rw [source_eq h]
  exact ⟨before, after, h, rfl, rfl⟩

theorem add_byteLength_source (ha : isBoundary text a = true) (hb : isBoundary text b = true)
    (hab : a ≤ b) : a + byteLength (source text ⟨a, b⟩) = b := by
  obtain ⟨before, after, -, hbefore, h⟩ := exists_source ha hb hab
  rwa [hbefore] at h

theorem source_append (ha : isBoundary text a = true) (hb : isBoundary text b = true)
    (hc : isBoundary text c = true) (hab : a ≤ b) (hbc : b ≤ c) :
    source text ⟨a, c⟩ = source text ⟨a, b⟩ ++ source text ⟨b, c⟩ := by
  obtain ⟨x, y, hxy, hx, hab'⟩ := exists_source ha hb hab
  obtain ⟨z, w, hzw, hz, hbc'⟩ := exists_source hb hc hbc
  generalize source text ⟨a, b⟩ = s at *
  generalize source text ⟨b, c⟩ = t at *
  obtain ⟨rfl, rfl⟩ := append_inj_of_byteLength
    (show (x ++ s) ++ y = z ++ (t ++ w) by rw [← hxy, hzw, append_assoc])
    (by rw [byteLength_append]; omega)
  subst hx
  have hlen : c = byteLength x + byteLength (s ++ t) := by rw [byteLength_append]; omega
  rw [hlen]
  exact @source_eq _ x (s ++ t) w (by rw [hzw]; simp)

theorem source_ne_nil (ha : isBoundary text a = true) (hb : isBoundary text b = true) (hab : a < b) :
    source text ⟨a, b⟩ ≠ [] := by
  intro h
  have := add_byteLength_source ha hb (Nat.le_of_lt hab)
  rw [h] at this
  simp at this
  omega

theorem source_whole (text : List Char) : source text ⟨0, byteLength text⟩ = text := by
  have := @source_eq text [] text [] (by simp)
  simpa using this

/-! ## Patchworks -/

variable {gap : Nat} {pieces : List Piece}

/-- The offset lies in none of the pieces. -/
def Outside (pieces : List Piece) (p : Nat) : Prop := ∀ q ∈ pieces, p < q.1.start ∨ q.1.stop ≤ p

/-- A stretch that was not edited before, with pieces rewritten. -/
theorem lead_patchwork {r r' : Reading} (ha : isBoundary text a = true) (hb : isBoundary text b = true)
    (hab : a < b) (hp : InOrder text gap a b (pieces.map Prod.fst)) (hold : ∀ p, a < p → p < b → r.ahead p = [])
    (htext : ∀ q ∈ pieces, r'.lead q.1.start (source text q.1) = r.ahead q.1.start ++ q.2)
    (hgap : ∀ p, a ≤ p → p < b → Outside pieces p →
      r'.ahead p = r.ahead p ∧ r'.instead p = [] ∧ r'.covers p = false) :
    r'.lead a (source text ⟨a, b⟩) = r.ahead a ++ patchwork text a b pieces := by
  have plain : ∀ {a b}, isBoundary text a = true → isBoundary text b = true → a < b →
      (∀ p, a ≤ p → p < b → r'.ahead p = r.ahead p ∧ r'.instead p = [] ∧ r'.covers p = false) →
      (∀ p, a < p → p < b → r.ahead p = []) →
      r'.lead a (source text ⟨a, b⟩) = r.ahead a ++ source text ⟨a, b⟩ := by
    intro a b ha hb hab hsame hold
    have hlen := add_byteLength_source ha hb (Nat.le_of_lt hab)
    cases hs : source text ⟨a, b⟩ with
    | nil => exact absurd hs (source_ne_nil ha hb hab)
    | cons c cs =>
      rw [hs] at hlen
      rw [Reading.lead_eq_ahead_append, (hsame a (Nat.le_refl _) hab).1]
      · intro p h1 h2
        rw [(hsame p (by omega) (by omega)).1, hold p h1 (by omega)]
      · exact fun p h1 h2 => (hsame p h1 (by omega)).2
  induction pieces generalizing a with
  | nil => exact plain ha hb hab (fun p h1 h2 => hgap p h1 h2 (fun _ hq => absurd hq not_mem_nil)) hold
  | cons q more ih =>
    obtain ⟨range, new⟩ := q
    simp only [map_cons] at hp
    have hstop : range.stop ≤ b := (InOrder.mem hp mem_cons_self).2.2
    have hbefore : ∀ {p}, p < range.start → ∀ q ∈ (range, new) :: more, p < q.1.start :=
      fun h q hq => InOrder.lt_start hp h _ (mem_map_of_mem hq)
    obtain ⟨hstart, hin, hmore⟩ := hp
    have hne := hin.nonempty
    -- What comes before the piece, the piece, and what comes after it.
    have hfront : r'.lead a (source text ⟨a, range.start⟩) ++ r.ahead range.start =
        r.ahead a ++ source text ⟨a, range.start⟩ := by
      rcases Nat.eq_or_lt_of_le (show a ≤ range.start by omega) with heq | hlt
      · rw [← heq, source_self ha]
        simp [Reading.lead]
      · rw [plain ha hin.start hlt (fun p h1 h2 => hgap p h1 (by omega) fun q hq => Or.inl (hbefore h2 q hq))
          (fun p h1 h2 => hold p h1 (by omega)), hold range.start hlt (by omega), append_nil]
    have hback : r'.lead range.stop (source text ⟨range.stop, b⟩) = patchwork text range.stop b more := by
      rcases Nat.eq_or_lt_of_le hstop with heq | hlt
      · cases more with
        | nil => rw [heq, source_self hb, patchwork, source_self hb, Reading.lead]
        | cons q' more =>
          obtain ⟨h1, h2, h3⟩ := InOrder.mem hmore (mem_map_of_mem mem_cons_self)
          have := h2.nonempty
          omega
      · rw [ih hin.stop hlt hmore (fun p h1 h2 => hold p (by omega) h2)
          (fun q hq => htext q (mem_cons_of_mem _ hq))
          (fun p h1 h2 hout => hgap p (by omega) h2 (forall_mem_cons.2 ⟨Or.inr h1, hout⟩)),
          hold range.stop (by omega) hlt, nil_append]
    rw [source_append ha hin.start hb (by omega) (by omega),
      source_append hin.start hin.stop hb (by omega) hstop,
      Reading.lead_append, Reading.lead_append, add_byteLength_source ha hin.start (by omega),
      add_byteLength_source hin.start hin.stop (by omega), htext (range, new) mem_cons_self, hback,
      ← append_assoc, ← append_assoc, hfront]
    simp [patchwork]

/-- The same with what stands ahead of the end of each piece, and ahead of the end. -/
theorem fill_patchwork {r : Reading} (ha : isBoundary text a = true) (hb : isBoundary text b = true)
    (hp : InOrder text 1 a b (pieces.map Prod.fst))
    (htext : ∀ q ∈ pieces, r.ahead q.1.start ++ r.fill q.1.start (source text q.1) = q.2)
    (hahead : ∀ p, a < p → p ≤ b → (∀ q ∈ pieces, p < q.1.start ∨ q.1.stop < p) → r.ahead p = [])
    (hinstead : ∀ p, a ≤ p → p < b → Outside pieces p → r.instead p = [] ∧ r.covers p = false) :
    r.fill a (source text ⟨a, b⟩) = patchwork text a b pieces := by
  have plain : ∀ {a b}, isBoundary text a = true → isBoundary text b = true → a < b →
      (∀ p, a < p → p < b → r.ahead p = []) →
      (∀ p, a ≤ p → p < b → r.instead p = [] ∧ r.covers p = false) →
      r.fill a (source text ⟨a, b⟩) = source text ⟨a, b⟩ ++ r.ahead b := by
    intro a b ha hb hab hahead hinstead
    have hlen := add_byteLength_source ha hb (Nat.le_of_lt hab)
    have hboth := r.ahead_append_fill_eq_lead a (source text ⟨a, b⟩)
    rw [hlen] at hboth
    cases hs : source text ⟨a, b⟩ with
    | nil => exact absurd hs (source_ne_nil ha hb hab)
    | cons c cs =>
      rw [hs] at hlen hboth
      rw [Reading.lead_eq_ahead_append (fun p h1 h2 => hahead p h1 (by omega))
        (fun p h1 h2 => hinstead p h1 (by omega)), append_assoc] at hboth
      exact append_cancel_left hboth
  induction pieces generalizing a with
  | nil =>
    rcases Nat.eq_or_lt_of_le (show a ≤ b from hp) with rfl | hab
    · rw [patchwork, source_self ha, Reading.fill]
    · rw [plain ha hb hab (fun p h1 h2 => hahead p h1 (by omega) (fun _ hq => absurd hq not_mem_nil))
        (fun p h1 h2 => hinstead p h1 h2 (fun _ hq => absurd hq not_mem_nil)),
        hahead b hab (Nat.le_refl _) (fun _ hq => absurd hq not_mem_nil), append_nil, patchwork]
  | cons q more ih =>
    obtain ⟨range, new⟩ := q
    simp only [map_cons] at hp
    have hbefore : ∀ {p}, p < range.start → ∀ q ∈ (range, new) :: more, p < q.1.start :=
      fun h q hq => InOrder.lt_start hp h _ (mem_map_of_mem hq)
    have hstop : range.stop ≤ b := (InOrder.mem hp mem_cons_self).2.2
    obtain ⟨hstart, hin, hmore⟩ := hp
    have hne := hin.nonempty
    have hfront := plain ha hin.start (by omega)
      (fun p h1 h2 => hahead p h1 (by omega) fun q hq => Or.inl (hbefore h2 q hq))
      (fun p h1 h2 => hinstead p h1 (by omega) fun q hq => Or.inl (hbefore h2 q hq))
    have hback := ih hin.stop hmore (fun q hq => htext q (mem_cons_of_mem _ hq))
      (fun p h1 h2 hout => hahead p (by omega) h2 (forall_mem_cons.2 ⟨Or.inr h1, hout⟩))
      (fun p h1 h2 hout => hinstead p (by omega) h2 (forall_mem_cons.2 ⟨Or.inr h1, hout⟩))
    have hpiece := htext (range, new) mem_cons_self
    rw [source_append ha hin.start hb (by omega) (by omega),
      source_append hin.start hin.stop hb (by omega) hstop,
      Reading.fill_append, Reading.fill_append, add_byteLength_source ha hin.start (by omega),
      add_byteLength_source hin.start hin.stop (by omega), hback, hfront]
    simp only at hpiece
    simp only [patchwork, ← hpiece, append_assoc]

end Normalize

end Respell
