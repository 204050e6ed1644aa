import Respell.Editor
import Respell.Proofs.Cut
import Mathlib.Data.List.Sort

/-!
Readings: an edited text, position by position.

A reading says of each offset what stands ahead of the character there, what stands in place of the
characters from there on, and whether the character itself is replaced.  `fill pos cs` writes the
characters `cs`, the first of which stands at `pos`, with all that belongs to them: what stands ahead of
`pos` belongs to the character before, so it is left out, and what stands ahead of the end is taken.  This
makes a reading additive:

    r.fill pos (xs ++ ys) = r.fill pos xs ++ r.fill (pos + byteLength xs) ys

Weaving a sequence of splices in which each ends before the next one starts is such a reading
(`weave_eq_fill`).
-/

namespace Respell

open List Text

/-- What is written at each offset of a text. -/
@[ext]
structure Reading where
  /-- What stands ahead of the character at the offset. -/
  ahead : Nat → List Char
  /-- What stands in place of the characters from the offset on. -/
  instead : Nat → List Char
  /-- The character at the offset is replaced. -/
  covers : Nat → Bool

namespace Reading

variable {pos p : Nat} {cs : List Char}

/-- The characters from `pos` on, edited, without what stands ahead of `pos` and with what stands
ahead of the end. -/
def fill (r : Reading) : (pos : Nat) → List Char → List Char
  | _, [] => []
  | pos, c :: cs =>
    r.instead pos ++ (if r.covers pos then [] else [c]) ++ r.ahead (pos + c.utf8Size) ++
      r.fill (pos + c.utf8Size) cs

@[simp] theorem fill_nil (r : Reading) (pos : Nat) : r.fill pos [] = [] := rfl

theorem fill_append (r : Reading) (pos : Nat) (xs ys : List Char) :
    r.fill pos (xs ++ ys) = r.fill pos xs ++ r.fill (pos + byteLength xs) ys := by
  induction xs generalizing pos with
  | nil => simp
  | cons c cs ih => simp [fill, ih, Nat.add_assoc]

variable {r : Reading}

/-- Filling looks at the characters' own offsets, and ahead of the offsets after them. -/
theorem fill_congr {s : Reading} (ha : ∀ p, pos < p → p ≤ pos + byteLength cs → r.ahead p = s.ahead p)
    (hi : ∀ p, pos ≤ p → p < pos + byteLength cs → r.instead p = s.instead p)
    (hc : ∀ p, pos ≤ p → p < pos + byteLength cs → r.covers p = s.covers p) : r.fill pos cs = s.fill pos cs := by
  induction cs generalizing pos with
  | nil => rfl
  | cons c cs ih =>
    have hpos := c.utf8Size_pos
    simp only [byteLength_cons] at ha hi hc
    simp only [fill]
    rw [hi pos (by omega) (by omega), hc pos (by omega) (by omega), ha (pos + c.utf8Size) (by omega) (by omega)]
    rw [ih (fun p h1 h2 => ha p (by omega) (by omega)) (fun p h1 h2 => hi p (by omega) (by omega))
      (fun p h1 h2 => hc p (by omega) (by omega))]

/-- The characters from `pos` on, edited, with what stands ahead of `pos` and without what stands
ahead of the end. -/
def lead (r : Reading) : (pos : Nat) → List Char → List Char
  | _, [] => []
  | pos, c :: cs =>
    r.ahead pos ++ r.instead pos ++ (if r.covers pos then [] else [c]) ++ r.lead (pos + c.utf8Size) cs

/-- What stands ahead belongs to the character before or to the one behind. -/
theorem ahead_append_fill_eq_lead (r : Reading) (pos : Nat) (cs : List Char) :
    r.ahead pos ++ r.fill pos cs = r.lead pos cs ++ r.ahead (pos + byteLength cs) := by
  induction cs generalizing pos with
  | nil => simp [lead]
  | cons c cs ih =>
    have := ih (pos + c.utf8Size)
    simp only [fill, lead, append_assoc, byteLength_cons, ← Nat.add_assoc, this]

theorem lead_congr {s : Reading}
    (h : ∀ p, pos ≤ p → p < pos + byteLength cs →
      r.ahead p = s.ahead p ∧ r.instead p = s.instead p ∧ r.covers p = s.covers p) : r.lead pos cs = s.lead pos cs := by
  induction cs generalizing pos with
  | nil => rfl
  | cons c cs ih =>
    have hpos := c.utf8Size_pos
    simp only [byteLength_cons] at h
    obtain ⟨ha, hi, hc⟩ := h pos (by omega) (by omega)
    simp only [lead, ha, hi, hc]
    rw [ih fun p h1 h2 => h p (by omega) (by omega)]

/-- Where nothing is put in, the characters stand or they are gone. -/
theorem lead_of_bare {b : Bool}
    (h : ∀ p, pos ≤ p → p < pos + byteLength cs → r.ahead p = [] ∧ r.instead p = [] ∧ r.covers p = b) :
    r.lead pos cs = if b then [] else cs := by
  induction cs generalizing pos with
  | nil => simp [lead]
  | cons c cs ih =>
    have hpos := c.utf8Size_pos
    simp only [byteLength_cons] at h
    obtain ⟨ha, hi, hc⟩ := h pos (by omega) (by omega)
    rw [lead, ha, hi, hc, @ih (pos + c.utf8Size) fun p h1 h2 => h p (by omega) (by omega)]
    cases b <;> rfl

/-- Where nothing is edited, only what stands ahead of the end comes in. -/
theorem ahead_append_fill
    (h : ∀ p, pos ≤ p → p < pos + byteLength cs → r.ahead p = [] ∧ r.instead p = [] ∧ r.covers p = false) :
    r.ahead pos ++ r.fill pos cs = cs ++ r.ahead (pos + byteLength cs) := by
  rw [ahead_append_fill_eq_lead, lead_of_bare h]
  rfl

/-- Characters in place of which nothing stands leave only what stands ahead of their end. -/
theorem fill_covered {c : Char} (hc : ∀ p, pos ≤ p → p < pos + byteLength (c :: cs) → r.covers p = true)
    (hi : ∀ p, pos < p → p < pos + byteLength (c :: cs) → r.instead p = [] ∧ r.ahead p = []) :
    r.fill pos (c :: cs) = r.instead pos ++ r.ahead (pos + byteLength (c :: cs)) := by
  have hpos := c.utf8Size_pos
  simp only [byteLength_cons] at hc hi
  have hgone : r.lead (pos + c.utf8Size) cs = [] := lead_of_bare (b := true) fun p h1 h2 =>
    ⟨(hi p (by omega) (by omega)).2, (hi p (by omega) (by omega)).1, hc p (by omega) (by omega)⟩
  rw [fill, hc pos (by omega) (by omega), append_assoc, ahead_append_fill_eq_lead, hgone]
  simp [Nat.add_assoc]

/-! ## The reading of a sequence of splices -/

/-- Inserts stand ahead of their offset, replacements in place of their range. -/
def ofSplices (ss : List Editor.Splice) : Reading where
  ahead p := (ss.filter fun s => s.range.isEmpty && s.range.start == p).flatMap (·.text.toList)
  instead p := (ss.filter fun s => !s.range.isEmpty && s.range.start == p).flatMap (·.text.toList)
  covers p := ss.any fun s => s.range.start ≤ p && p < s.range.stop

variable {ss : List Editor.Splice}

theorem ofSplices_ahead_eq_nil (h : ∀ s ∈ ss, s.range.start = p → s.range.stop ≠ p) : (ofSplices ss).ahead p = [] := by
  have hf : (ss.filter fun s => s.range.isEmpty && s.range.start == p) = [] := by
    rw [filter_eq_nil_iff]
    intro s hs
    have := h s hs
    simp [Span.isEmpty]
    omega
  simp [ofSplices, hf]

theorem ofSplices_instead_eq_nil (h : ∀ s ∈ ss, s.range.start = p → s.range.stop = p) :
    (ofSplices ss).instead p = [] := by
  have hf : (ss.filter fun s => !s.range.isEmpty && s.range.start == p) = [] := by
    rw [filter_eq_nil_iff]
    intro s hs
    have := h s hs
    simp [Span.isEmpty]
    omega
  simp [ofSplices, hf]

theorem ofSplices_covers_eq_false (h : ∀ s ∈ ss, s.range.start ≤ p → s.range.stop ≤ p) :
    (ofSplices ss).covers p = false := by
  simp only [ofSplices, any_eq_false]
  intro s hs
  have := h s hs
  simp
  omega

variable {s : Editor.Splice}

/-- A splice in front is not seen at offsets other than its own. -/
theorem ofSplices_cons_ahead_of_ne (h : s.range.start = p → s.range.stop ≠ p) :
    (ofSplices (s :: ss)).ahead p = (ofSplices ss).ahead p := by
  have hs : (s.range.isEmpty && s.range.start == p) = false := by
    simp [Span.isEmpty]
    omega
  simp [ofSplices, hs]

theorem ofSplices_cons_ahead_of_eq (h : s.range.start = s.range.stop) :
    (ofSplices (s :: ss)).ahead s.range.start = s.text.toList ++ (ofSplices ss).ahead s.range.start := by
  have hs : (s.range.isEmpty && s.range.start == s.range.start) = true := by simp [Span.isEmpty, h]
  simp only [ofSplices, filter_cons, hs, if_true, flatMap_cons]

theorem ofSplices_cons_instead_of_ne (h : s.range.start = p → s.range.stop = p) :
    (ofSplices (s :: ss)).instead p = (ofSplices ss).instead p := by
  have hs : (!s.range.isEmpty && s.range.start == p) = false := by
    simp [Span.isEmpty]
    omega
  simp [ofSplices, hs]

theorem ofSplices_cons_covers_of_ne (h : s.range.start ≤ p → s.range.stop ≤ p) :
    (ofSplices (s :: ss)).covers p = (ofSplices ss).covers p := by
  have hs : (decide (s.range.start ≤ p) && decide (p < s.range.stop)) = false := by
    simp
    omega
  simp only [ofSplices, any_cons, hs, Bool.false_or]

/-- Behind a splice, what was in front of it is not seen. -/
theorem ofSplices_cons_fill (h : s.range.start ≤ s.range.stop) :
    (ofSplices (s :: ss)).fill s.range.stop cs = (ofSplices ss).fill s.range.stop cs :=
  fill_congr (fun _ _ _ => ofSplices_cons_ahead_of_ne (by omega))
    (fun _ _ _ => ofSplices_cons_instead_of_ne (by omega))
    (fun _ _ _ => ofSplices_cons_covers_of_ne (by omega))

/-- The replacement in front of a sequence, up to its end. -/
theorem ofSplices_cons_fill_replaced (hne : s.range.start < s.range.stop)
    (hcs : s.range.start + byteLength cs = s.range.stop)
    (hss : ∀ t ∈ ss, s.range.stop ≤ t.range.start ∧ t.range.start ≤ t.range.stop) :
    (ofSplices (s :: ss)).fill s.range.start cs = s.text.toList ++ (ofSplices ss).ahead s.range.stop := by
  cases cs with
  | nil => simp at hcs; omega
  | cons c cs =>
    have hins : (ofSplices (s :: ss)).instead s.range.start = s.text.toList := by
      have hs : (!s.range.isEmpty && s.range.start == s.range.start) = true := by
        simp [Span.isEmpty]
        omega
      have hrest : (ofSplices ss).instead s.range.start = [] :=
        ofSplices_instead_eq_nil fun t ht => by have := hss t ht; omega
      simp only [ofSplices] at hrest
      simp only [ofSplices, filter_cons, hs, if_true, flatMap_cons, hrest, append_nil]
    rw [fill_covered, hins, hcs]
    · rw [ofSplices_cons_ahead_of_ne (by omega)]
    · intro p h1 h2
      simp only [ofSplices, any_cons, Bool.or_eq_true]
      left
      simp
      omega
    · intro p h1 h2
      constructor
      · rw [ofSplices_cons_instead_of_ne (by omega)]
        exact ofSplices_instead_eq_nil fun t ht => by have := hss t ht; omega
      · rw [ofSplices_cons_ahead_of_ne (by omega)]
        exact ofSplices_ahead_eq_nil fun t ht => by have := hss t ht; omega

end Reading

namespace Editor

/-! ## Weaving -/

theorem slice_eq_ok {e : Editor} {before inside after : List Char}
    (h : e.source = before ++ inside ++ after) :
    e.slice ⟨byteLength before, byteLength before + byteLength inside⟩ = .ok inside := by
  have hs : Text.slice? e.source ⟨byteLength before, byteLength before + byteLength inside⟩ =
      some inside := Text.slice?_eq_some.2 ⟨before, after, h, rfl, rfl⟩
  simp [Editor.slice, hs]

/-- A splice that lies in the text between two offsets, at boundaries. -/
def Splice.Fits (e : Editor) (pos stop : Nat) (s : Splice) : Prop :=
  pos ≤ s.range.start ∧ s.range.start ≤ s.range.stop ∧ s.range.stop ≤ stop ∧
    isBoundary e.source s.range.start = true ∧ isBoundary e.source s.range.stop = true

/-- Weaving splices of which each ends before the next one starts is filling by their reading. -/
theorem weave_eq_fill {e : Editor} {ss : List Splice} {before cs after : List Char}
    (hsrc : e.source = before ++ cs ++ after)
    (hss : ss.Pairwise fun a b => a.range.stop ≤ b.range.start)
    (hfit : ∀ s ∈ ss, s.Fits e (byteLength before) (byteLength before + byteLength cs)) :
    e.weave (byteLength before + byteLength cs) (byteLength before) ss =
      .ok ((Reading.ofSplices ss).ahead (byteLength before) ++ (Reading.ofSplices ss).fill (byteLength before) cs) := by
  induction ss generalizing before cs with
  | nil =>
    have hfill := @Reading.ahead_append_fill (byteLength before) cs (Reading.ofSplices [])
      fun p _ _ => by simp [Reading.ofSplices]
    rw [hfill]
    simp [weave, slice_eq_ok hsrc, Reading.ofSplices]
  | cons s ss ih =>
    obtain ⟨hlo, hss0, hhi, hb1, hb2⟩ := hfit s mem_cons_self
    obtain ⟨hsep, hss⟩ := pairwise_cons.1 hss
    have hafter : ∀ t ∈ ss, s.range.stop ≤ t.range.start ∧ t.range.start ≤ t.range.stop :=
      fun t ht => ⟨hsep t ht, (hfit t (mem_cons_of_mem _ ht)).2.1⟩
    -- The characters up to the splice, those it replaces, and those behind it.
    obtain ⟨x, y, hx, hxl⟩ := isBoundary_iff.1 hb1
    obtain ⟨xs, hxs, hrest⟩ := exists_append_of_byteLength_le
      (a := before) (b := cs ++ after) (by rw [← hx, hsrc, append_assoc]) (by omega)
    obtain ⟨z, w, hz, hzl⟩ := isBoundary_iff.1 hb2
    obtain ⟨zs, hzs, hyw⟩ := exists_append_of_byteLength_le (hx.symm.trans hz) (by omega)
    have hcs : byteLength xs + byteLength zs ≤ byteLength cs := by
      rw [hzs, hxs] at hzl
      simp at hzl
      omega
    obtain ⟨ws, hcsw, haft⟩ := exists_append_of_byteLength_le
      (a := xs ++ zs) (b := w) (c := cs) (d := after) (by rw [hrest, hyw, append_assoc]) (by simpa using hcs)
    have hstart : s.range.start = byteLength before + byteLength xs := by
      rw [← hxl, hxs, byteLength_append]
    have hstop : s.range.stop = byteLength before + byteLength xs + byteLength zs := by
      rw [← hzl, hzs, hxs, byteLength_append, byteLength_append]
    have hlen : byteLength before + byteLength cs = byteLength (before ++ xs ++ zs) + byteLength ws := by
      rw [hcsw]
      simp
      omega
    have hslice : e.slice ⟨byteLength before, s.range.start⟩ = .ok xs := by
      rw [hstart]
      exact @slice_eq_ok e before xs (zs ++ w) (by rw [hz, hzs, hxs]; simp)
    have htail := @ih (before ++ xs ++ zs) ws (by rw [hz, hzs, hxs, haft]; simp)
      hss (fun t ht => by
        obtain ⟨-, h2, h3, h4, h5⟩ := hfit t (mem_cons_of_mem _ ht)
        have := hsep t ht
        exact ⟨by simp; omega, h2, by omega, h4, h5⟩)
    rw [← hlen] at htail
    have hpos : byteLength (before ++ xs ++ zs) = s.range.stop := by simp; omega
    rw [hpos] at htail
    have hskip : ¬ s.range.start < byteLength before := by omega
    simp only [weave, hskip, if_false, hslice, htail]
    -- Up to the splice nothing is edited.
    have hclear := @Reading.ahead_append_fill (byteLength before) xs
      (Reading.ofSplices (s :: ss)) fun p h1 h2 => by
        refine ⟨Reading.ofSplices_ahead_eq_nil ?_, Reading.ofSplices_instead_eq_nil ?_,
          Reading.ofSplices_covers_eq_false ?_⟩ <;>
        · intro t ht
          rcases mem_cons.1 ht with rfl | ht
          · omega
          · have := hafter t ht
            omega
    rw [← hstart] at hclear
    have hfill : (Reading.ofSplices (s :: ss)).ahead (byteLength before) ++
        (Reading.ofSplices (s :: ss)).fill (byteLength before) cs =
        xs ++ s.text.toList ++ ((Reading.ofSplices ss).ahead s.range.stop ++
          (Reading.ofSplices ss).fill s.range.stop ws) := by
      rw [hcsw, append_assoc, Reading.fill_append, ← append_assoc, hclear, ← hstart, Reading.fill_append]
      rcases Nat.eq_or_lt_of_le hss0 with hempty | hne
      · -- An insert.
        have hzs0 : zs = [] := byteLength_eq_zero (by omega)
        subst hzs0
        have hahead := @Reading.ofSplices_cons_ahead_of_eq ss s hempty
        have hf := @Reading.ofSplices_cons_fill ws ss s hss0
        rw [← hempty] at hf ⊢
        simp [hahead, hf]
      · -- A replacement.
        have hahead : (Reading.ofSplices (s :: ss)).ahead s.range.start = [] :=
          Reading.ofSplices_ahead_eq_nil fun t ht => by
            rcases mem_cons.1 ht with rfl | ht
            · omega
            · have := hafter t ht
              omega
        have hrep := @Reading.ofSplices_cons_fill_replaced zs ss s hne (by omega) hafter
        have hz' : s.range.start + byteLength zs = s.range.stop := by omega
        rw [hahead, hrep, hz', Reading.ofSplices_cons_fill hss0]
        simp
    rw [hfill]
    rfl

end Editor

end Respell
