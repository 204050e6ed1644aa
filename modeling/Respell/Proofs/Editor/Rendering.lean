import Respell.Proofs.Editor.Soundness
import Mathlib.Data.List.Pairwise

/-!
Rendering is filling by the reading.

    e.render                              = .ok (r.ahead 0 ++ r.fill 0 source)
    e.renderRange ⟨a, b⟩                  = .ok (r.fill a [a, b))
    e.renderRangeInclusive ⟨a, b⟩         = .ok (r.ahead a ++ r.fill a [a, b))

for a sound editor `e` with reading `r` whose edits are all in bounds.  The splices of a range come out
of sorting with each ending before the next one starts, and at one offset they stand in the order that
`lineUp` gives.
-/

namespace Respell.Editor

open List Text

variable {e : Editor} {range : Span} {leading : Bool} {inserts : List Insert} {p : Nat}

/-! ## The splices of a range -/

def Splice.ofInsert (i : Insert) : Splice := ⟨.empty i.offset, i.text, i.order⟩

def Splice.ofReplacement (r : Replacement) : Splice := ⟨r.range, r.text, 0⟩

/-- An offset belongs to a range: its end does, its start if `leading`. -/
def inRange (range : Span) (leading : Bool) (o : Nat) : Bool :=
  (range.start < o || (leading && o == range.start)) && o ≤ range.stop

/-- The splices of a range before they are sorted. -/
def unsorted (e : Editor) (range : Span) (leading : Bool) : List Splice :=
  (e.live.filter fun i => inRange range leading i.offset).map Splice.ofInsert ++
    (e.active.filter fun r => range.contains r.range).map Splice.ofReplacement

theorem splices_eq_sort (e : Editor) (range : Span) (leading : Bool) :
    e.splices range leading = Splice.sort (e.unsorted range leading) := rfl

variable {s : Splice}

theorem mem_unsorted :
    s ∈ e.unsorted range leading ↔
      (∃ i ∈ e.live, inRange range leading i.offset = true ∧ Splice.ofInsert i = s) ∨
        (∃ r ∈ e.active, range.contains r.range = true ∧ Splice.ofReplacement r = s) := by
  simp [unsorted, and_assoc]

theorem mem_splices : s ∈ e.splices range leading ↔ s ∈ e.unsorted range leading := by
  rw [splices_eq_sort]
  exact (Splice.sort_perm _).mem_iff

/-- Of two splices of a sound editor one ends before the other starts. -/
theorem unsorted_pairwise (h : Sound e) (range : Span) (leading : Bool) :
    (e.unsorted range leading).Pairwise fun a b =>
      a.range.stop ≤ b.range.start ∨ b.range.stop ≤ a.range.start := by
  refine pairwise_append.2 ⟨?_, ?_, ?_⟩
  · refine pairwise_map.2 (pairwise_of_forall fun i j => ?_)
    simp only [Splice.ofInsert, Span.empty]
    omega
  · exact pairwise_map.2 (h.apart.filter _)
  · intro a ha b hb
    obtain ⟨i, hi, rfl⟩ := mem_map.1 ha
    obtain ⟨r, hr, rfl⟩ := mem_map.1 hb
    have := h.outside i (mem_filter.1 hi).1 r (mem_filter.1 hr).1
    simp only [Splice.ofInsert, Splice.ofReplacement, Span.empty]
    omega

theorem start_le_stop_of_mem (h : Sound e) (hs : s ∈ e.unsorted range leading) : s.range.start ≤ s.range.stop := by
  rcases mem_unsorted.1 hs with ⟨i, hi, -, rfl⟩ | ⟨r, hr, -, rfl⟩
  · exact Nat.le_refl _
  · exact Nat.le_of_lt (h.nonempty r hr)

/-- Sorted splices stand in the order in which they are written. -/
theorem splices_sorted (h : Sound e) (range : Span) (leading : Bool) :
    (e.splices range leading).Pairwise fun a b => a.precedes b = true := by
  rw [splices_eq_sort]
  apply Splice.sort_pairwise
  refine (unsorted_pairwise h range leading).imp_of_mem fun {a b} ha hb hab => ?_
  have h1 := start_le_stop_of_mem h ha
  have h2 := start_le_stop_of_mem h hb
  simp only [Splice.precedes, Span.isEmpty, beq_iff_eq]
  by_cases hs : a.range.start = b.range.start
  · simp only [hs, if_true, Bool.and_eq_true, Bool.or_eq_true, beq_iff_eq, Bool.not_eq_true',
      beq_eq_false_iff_ne, decide_eq_true_eq]
    omega
  · have hs' : ¬ b.range.start = a.range.start := fun h => hs h.symm
    simp only [hs, hs', if_false, decide_eq_true_eq]
    omega

theorem splices_pairwise (h : Sound e) (range : Span) (leading : Bool) :
    (e.splices range leading).Pairwise fun a b => a.range.stop ≤ b.range.start := by
  have hapart : (e.splices range leading).Pairwise fun a b =>
      a.range.stop ≤ b.range.start ∨ b.range.stop ≤ a.range.start := by
    rw [splices_eq_sort]
    exact (unsorted_pairwise h range leading).perm (Splice.sort_perm _).symm (fun h => h.symm)
  refine (List.Pairwise.and (splices_sorted h range leading) hapart).imp_of_mem fun {a b} ha hb hab => ?_
  have h1 := start_le_stop_of_mem h (mem_splices.1 ha)
  have h2 := start_le_stop_of_mem h (mem_splices.1 hb)
  obtain ⟨hp, hk⟩ := hab
  simp only [Splice.precedes, Span.isEmpty, beq_iff_eq] at hp
  split at hp
  · simp at hp
    omega
  · simp at hp
    omega

/-! ## The reading of the splices of a range -/

theorem eq_of_order_eq (h : Sound e) {i j : Insert} (hi : i ∈ e.inserts) (hj : j ∈ e.inserts) (ho : i.order = j.order) :
    i = j := by
  by_contra hne
  have hsymm : Std.Symm fun a b : Insert => a.order ≠ b.order := ⟨fun _ _ hab => hab.symm⟩
  have hdiff : e.inserts.Pairwise fun a b => a.order ≠ b.order :=
    h.numbered.imp fun {a b} hab => by intro heq; rw [heq] at hab; omega
  exact hdiff.forall hi hj hne ho

theorem lineUp_perm (h : ∀ i ∈ inserts, i.order ≠ 0) (p : Nat) :
    (lineUp inserts p).Perm (inserts.filter (·.offset == p)) := by
  have hpos : (inserts.filter (·.offset == p)).filter (0 < ·.order) =
      (inserts.filter (·.offset == p)).filter (fun i => !decide (i.order < 0)) := by
    refine filter_congr fun i hi => ?_
    have := h i (mem_filter.1 hi).1
    rw [Bool.eq_iff_iff]
    simp only [decide_eq_true_eq, Bool.not_eq_true', decide_eq_false_iff_not]
    omega
  simp only [lineUp, hpos]
  exact ((reverse_perm _).append_right _).trans (filter_append_perm _ _)

theorem lineUp_pairwise (h : inserts.Pairwise fun a b => a.order.natAbs < b.order.natAbs) (p : Nat) :
    (lineUp inserts p).Pairwise fun a b => a.order ≤ b.order := by
  have hhere := h.filter (·.offset == p)
  refine pairwise_append.2 ⟨pairwise_reverse.2 ?_, ?_, ?_⟩
  · refine (hhere.filter (·.order < 0)).imp_of_mem fun {a b} ha hb hab => ?_
    have h1 := (mem_filter.1 ha).2
    have h2 := (mem_filter.1 hb).2
    simp at h1 h2
    omega
  · refine (hhere.filter (0 < ·.order)).imp_of_mem fun {a b} ha hb hab => ?_
    have h1 := (mem_filter.1 ha).2
    have h2 := (mem_filter.1 hb).2
    simp at h1 h2
    omega
  · intro a ha b hb
    have h1 := (mem_filter.1 (mem_reverse.1 ha)).2
    have h2 := (mem_filter.1 hb).2
    simp at h1 h2
    omega

theorem filter_unsorted_inserts (h : Sound e) (hp : inRange range leading p = true) :
    (e.unsorted range leading).filter (fun s => s.range.isEmpty && s.range.start == p) =
      (e.live.filter (·.offset == p)).map Splice.ofInsert := by
  have hr : ((e.active.filter fun r => range.contains r.range).map Splice.ofReplacement).filter
      (fun s => s.range.isEmpty && s.range.start == p) = [] := by
    rw [filter_eq_nil_iff]
    intro s hs
    obtain ⟨r, hr, rfl⟩ := mem_map.1 hs
    have := h.nonempty r (mem_filter.1 hr).1
    simp [Splice.ofReplacement, Span.isEmpty]
    omega
  rw [unsorted, filter_append, hr, append_nil, filter_map, filter_filter]
  congr 1
  refine filter_congr fun i _ => ?_
  by_cases hi : i.offset = p
  · simp [Splice.ofInsert, Span.empty, Span.isEmpty, hi, hp]
  · simp [Splice.ofInsert, Span.empty, Span.isEmpty, hi]

/-- At an offset of the range the inserts stand in the order of `lineUp`. -/
theorem filter_splices_inserts (h : Sound e) (hp : inRange range leading p = true) :
    (e.splices range leading).filter (fun s => s.range.isEmpty && s.range.start == p) =
      (lineUp e.live p).map Splice.ofInsert := by
  have hlive : ∀ i ∈ e.live, i ∈ e.inserts := fun i hi => (mem_live.1 hi).1
  have hperm : ((e.splices range leading).filter fun s => s.range.isEmpty && s.range.start == p).Perm
      ((lineUp e.live p).map Splice.ofInsert) := by
    rw [splices_eq_sort]
    refine ((Splice.sort_perm _).filter _).trans ?_
    rw [filter_unsorted_inserts h hp]
    exact ((lineUp_perm (fun i hi => (h.counted i (hlive i hi)).1) p).map _).symm
  refine @List.Perm.eq_of_pairwise _ (fun a b => a.order ≤ b.order) _ _ ?_ ?_ ?_ hperm
  · intro a b ha hb hab hba
    obtain ⟨i, hi, rfl⟩ := mem_map.1 (hperm.subset ha)
    obtain ⟨j, hj, rfl⟩ := mem_map.1 hb
    have hmem : ∀ k ∈ lineUp e.live p, k ∈ e.inserts := fun k hk =>
      hlive k (mem_filter.1 ((lineUp_perm (fun i hi => (h.counted i (hlive i hi)).1) p).subset hk)).1
    have hij : i.order = j.order := by simp only [Splice.ofInsert] at hab hba; omega
    rw [eq_of_order_eq h (hmem i hi) (hmem j hj) hij]
  · refine ((splices_sorted h range leading).filter _).imp_of_mem fun {a b} ha hb hab => ?_
    have h1 := (mem_filter.1 ha).2
    have h2 := (mem_filter.1 hb).2
    simp only [Span.isEmpty, Bool.and_eq_true, beq_iff_eq] at h1 h2
    simp only [Splice.precedes, Span.isEmpty, h1.2, h2.2, beq_self_eq_true, if_true,
      Bool.and_eq_true, Bool.or_eq_true, Bool.not_eq_true', beq_eq_false_iff_ne, decide_eq_true_eq] at hab
    omega
  · exact pairwise_map.2 (lineUp_pairwise (h.numbered.filter _) p)

theorem ahead_splices (h : Sound e) (hp : inRange range leading p = true) :
    (Reading.ofSplices (e.splices range leading)).ahead p = e.reading.ahead p := by
  simp only [Reading.ofSplices, reading, filter_splices_inserts h hp, flatMap_map]
  rfl

/-- At most one replacement starts at an offset. -/
theorem active_start_unique (h : Sound e) (p : Nat) :
    e.active.filter (·.range.start == p) = [] ∨ ∃ r, e.active.filter (·.range.start == p) = [r] := by
  have hap := h.apart.filter (·.range.start == p)
  cases hf : e.active.filter (·.range.start == p) with
  | nil => exact Or.inl rfl
  | cons r rs =>
    right
    cases rs with
    | nil => exact ⟨r, rfl⟩
    | cons q qs =>
      exfalso
      rw [hf] at hap
      have hr := mem_filter.1 (hf ▸ mem_cons_self : r ∈ e.active.filter (·.range.start == p))
      have hq := mem_filter.1 (hf ▸ mem_cons_of_mem _ mem_cons_self : q ∈ e.active.filter (·.range.start == p))
      have := (pairwise_cons.1 hap).1 q mem_cons_self
      have h1 := h.nonempty r hr.1
      have h2 := h.nonempty q hq.1
      have h3 := hr.2
      have h4 := hq.2
      simp at h3 h4
      omega

/-- No end of the range lies strictly inside a replacement that counts. -/
def Clear (e : Editor) (range : Span) : Prop :=
  ∀ r ∈ e.active, (range.start ≤ r.range.start ∨ r.range.stop ≤ range.start) ∧
    (range.stop ≤ r.range.start ∨ r.range.stop ≤ range.stop)

theorem filter_splices_replacements (h : Sound e) (range : Span) (leading : Bool) (p : Nat) :
    ((e.splices range leading).filter fun s => !s.range.isEmpty && s.range.start == p).Perm
      ((e.active.filter fun r => r.range.start == p && range.contains r.range).map Splice.ofReplacement) := by
  rw [splices_eq_sort]
  refine ((Splice.sort_perm _).filter _).trans (List.Perm.of_eq ?_)
  have hi : ((e.live.filter fun i => inRange range leading i.offset).map Splice.ofInsert).filter
      (fun s => !s.range.isEmpty && s.range.start == p) = [] := by
    rw [filter_eq_nil_iff]
    intro s hs
    obtain ⟨i, -, rfl⟩ := mem_map.1 hs
    simp [Splice.ofInsert, Span.isEmpty, Span.empty]
  rw [unsorted, filter_append, hi, nil_append, filter_map, filter_filter]
  congr 1
  refine filter_congr fun r hr => ?_
  have hne : (!r.range.isEmpty) = true := by
    have := h.nonempty r hr
    simp [Span.isEmpty]
    omega
  simp [Splice.ofReplacement, hne]

theorem instead_splices (h : Sound e) (hc : e.Clear range) (h1 : range.start ≤ p) (h2 : p < range.stop) :
    (Reading.ofSplices (e.splices range leading)).instead p = e.reading.instead p := by
  have hperm := filter_splices_replacements h range leading p
  -- A replacement that starts in the range lies in it.
  have hin : (e.active.filter fun r => r.range.start == p && range.contains r.range) =
      e.active.filter (·.range.start == p) := by
    refine filter_congr fun r hr => ?_
    have hne := h.nonempty r hr
    have hcr := hc r hr
    by_cases hp : r.range.start = p
    · have hcon : range.contains r.range = true := by
        simp only [Span.contains, Bool.and_eq_true, decide_eq_true_eq]
        omega
      simp [hp, hcon]
    · have hp' : (r.range.start == p) = false := by simpa using hp
      simp [hp']
  rw [hin] at hperm
  simp only [Reading.ofSplices, reading]
  rcases active_start_unique h p with hnil | ⟨r, hone⟩
  · rw [hnil] at hperm ⊢
    rw [map_nil, perm_nil] at hperm
    rw [hperm]
    rfl
  · rw [hone] at hperm ⊢
    rw [map_cons, map_nil, perm_singleton] at hperm
    rw [hperm]
    rfl

theorem covers_splices (hc : e.Clear range) (h1 : range.start ≤ p) (h2 : p < range.stop) :
    (Reading.ofSplices (e.splices range leading)).covers p = e.reading.covers p := by
  rw [Bool.eq_iff_iff]
  simp only [Reading.ofSplices, reading, any_eq_true, Bool.and_eq_true, decide_eq_true_eq]
  constructor
  · rintro ⟨s, hs, hsp⟩
    rcases mem_unsorted.1 (mem_splices.1 hs) with ⟨i, -, -, rfl⟩ | ⟨r, hr, -, rfl⟩
    · simp only [Splice.ofInsert, Span.empty] at hsp
      omega
    · exact ⟨r, hr, hsp⟩
  · rintro ⟨r, hr, hrp⟩
    have hcr := hc r hr
    refine ⟨Splice.ofReplacement r, mem_splices.2 (mem_unsorted.2 (Or.inr ⟨r, hr, ?_, rfl⟩)), hrp⟩
    simp only [Span.contains, Bool.and_eq_true, decide_eq_true_eq]
    omega

/-! ## Rendering -/

theorem fits_splices (h : Sound e) (hb : InBounds e) (hs : s ∈ e.splices range leading) :
    s.Fits e range.start range.stop := by
  rcases mem_unsorted.1 (mem_splices.1 hs) with ⟨i, hi, hin, rfl⟩ | ⟨r, hr, hin, rfl⟩
  · have hbi := hb.inserts i (mem_live.1 hi).1
    simp only [inRange, Bool.and_eq_true, Bool.or_eq_true, beq_iff_eq, decide_eq_true_eq] at hin
    refine ⟨?_, Nat.le_refl _, ?_, hbi, hbi⟩
    · simp only [Splice.ofInsert, Span.empty]
      omega
    · exact hin.2
  · have hbr := hb.replacements r (mem_active.1 hr).1
    simp only [Span.contains, Bool.and_eq_true, decide_eq_true_eq] at hin
    exact ⟨hin.1, Nat.le_of_lt (h.nonempty r hr), hin.2, hbr.1, hbr.2⟩

theorem renderBetween_eq (h : Sound e) (hb : InBounds e) {before cs after : List Char}
    (hsrc : e.source = before ++ cs ++ after) (hc : e.Clear ⟨byteLength before, byteLength before + byteLength cs⟩)
    (leading : Bool) :
    e.renderBetween ⟨byteLength before, byteLength before + byteLength cs⟩ leading =
      .ok (String.ofList ((if leading then e.reading.ahead (byteLength before) else []) ++
        e.reading.fill (byteLength before) cs)) := by
  have hweave := weave_eq_fill hsrc
    (splices_pairwise h ⟨byteLength before, byteLength before + byteLength cs⟩ leading)
    (fun s hs => fits_splices h hb hs)
  have hfill : (Reading.ofSplices (e.splices
      ⟨byteLength before, byteLength before + byteLength cs⟩ leading)).fill (byteLength before) cs =
      e.reading.fill (byteLength before) cs := by
    refine Reading.fill_congr (fun p h1 h2 => ahead_splices h ?_)
      (fun p h1 h2 => instead_splices h hc h1 h2) (fun p h1 h2 => covers_splices hc h1 h2)
    simp only [inRange, Bool.and_eq_true, Bool.or_eq_true, decide_eq_true_eq]
    exact ⟨Or.inl h1, h2⟩
  have hahead : (Reading.ofSplices (e.splices
      ⟨byteLength before, byteLength before + byteLength cs⟩ leading)).ahead (byteLength before) =
      if leading then e.reading.ahead (byteLength before) else [] := by
    cases leading with
    | true =>
      refine ahead_splices h ?_
      simp [inRange]
    | false =>
      refine Reading.ofSplices_ahead_eq_nil fun s hs heq => ?_
      rcases mem_unsorted.1 (mem_splices.1 hs) with ⟨i, -, hin, rfl⟩ | ⟨r, hr, -, rfl⟩
      · simp only [Splice.ofInsert, Span.empty] at heq
        simp [inRange, heq] at hin
      · have := h.nonempty r hr
        simp only [Splice.ofReplacement] at heq ⊢
        omega
  unfold renderBetween
  rw [hweave, hahead, hfill]
  rfl

theorem checkBounds_eq_ok :
    e.checkBounds range = .ok () ↔
      isBoundary e.source range.start = true ∧ isBoundary e.source range.stop = true := by
  unfold checkBounds
  split
  iterate 2 next h => simpa using h

theorem clear_whole (hb : InBounds e) : e.Clear ⟨0, byteLength e.source⟩ := by
  intro r hr
  have := le_byteLength_of_isBoundary (hb.replacements r (mem_active.1 hr).1).2
  simp only
  omega

/-- Checking a list of ranges stops at the first one that is out of bounds. -/
theorem forM_checkBounds {α : Type} (e : Editor) (f : α → Span) (l : List α) :
    ((∀ a ∈ l, e.checkBounds (f a) = .ok ()) ∧ (l.forM fun a => e.checkBounds (f a)) = .ok ()) ∨
      ∃ a ∈ l, e.checkBounds (f a) ≠ .ok () ∧
        (l.forM fun a => e.checkBounds (f a)) = .error (.render (f a)) := by
  induction l with
  | nil => exact Or.inl ⟨fun a ha => (by cases ha), rfl⟩
  | cons a l ih =>
    by_cases ha : e.checkBounds (f a) = .ok ()
    · simp only [List.forM, ha]
      rcases ih with ⟨hall, hok⟩ | ⟨b, hb, hne, herr⟩
      · refine Or.inl ⟨fun b hb => ?_, hok⟩
        rcases mem_cons.1 hb with rfl | hb
        · exact ha
        · exact hall b hb
      · exact Or.inr ⟨b, mem_cons_of_mem _ hb, hne, herr⟩
    · refine Or.inr ⟨a, mem_cons_self, ha, ?_⟩
      have herr : e.checkBounds (f a) = .error (.render (f a)) := by
        unfold checkBounds at ha ⊢
        split at ha
        · exact absurd rfl ha
        · next h => rw [if_neg h]
      simp only [List.forM, herr]
      rfl

theorem render_of_inBounds (hb : InBounds e) : e.render = e.renderBetween ⟨0, byteLength e.source⟩ true := by
  have h1 : (e.inserts.forM fun i => e.checkBounds (.empty i.offset)) = .ok () := by
    rcases forM_checkBounds e (fun i : Insert => .empty i.offset) e.inserts with h | ⟨i, hi, hne, -⟩
    · exact h.2
    · exact absurd (checkBounds_eq_ok.2 ⟨hb.inserts i hi, hb.inserts i hi⟩) hne
  have h2 : (e.replacements.forM fun r => e.checkBounds r.range) = .ok () := by
    rcases forM_checkBounds e (fun r : Replacement => r.range) e.replacements with h | ⟨r, hr, hne, -⟩
    · exact h.2
    · exact absurd (checkBounds_eq_ok.2 (hb.replacements r hr)) hne
  unfold render
  rw [h1, h2]
  rfl

/-- The whole text of a sound editor whose edits are all in bounds. -/
theorem render_eq (h : Sound e) (hb : InBounds e) :
    e.render = .ok (String.ofList (e.reading.ahead 0 ++ e.reading.fill 0 e.source)) := by
  have hc := clear_whole hb
  have hbetween := @renderBetween_eq e h hb [] e.source [] (by simp) (by simpa using hc) true
  simp only [byteLength_nil, Nat.zero_add, if_true] at hbetween
  rw [render_of_inBounds hb, hbetween]

/-- An edit out of bounds stops rendering, whether it still counts or not. -/
theorem render_eq_error (h : ¬ InBounds e) : ∃ range, e.render = .error (.render range) := by
  unfold render
  rcases forM_checkBounds e (fun i : Insert => .empty i.offset) e.inserts with ⟨h1, hok1⟩ | ⟨i, -, -, h1⟩
  · rw [hok1]
    rcases forM_checkBounds e (fun r : Replacement => r.range) e.replacements with
      ⟨h2, hok2⟩ | ⟨r, -, -, h2⟩
    · refine absurd ⟨fun i hi => ?_, fun r hr => ?_⟩ h
      · exact (checkBounds_eq_ok.1 (h1 i hi)).1
      · exact checkBounds_eq_ok.1 (h2 r hr)
    · rw [h2]
      exact ⟨r.range, rfl⟩
  · rw [h1]
    exact ⟨.empty i.offset, rfl⟩

theorem checkCrossing_eq_ok :
    e.checkCrossing range = .ok () ↔
      isBoundary e.source range.start = true ∧ isBoundary e.source range.stop = true ∧ e.Clear range := by
  unfold checkCrossing
  by_cases hb : e.checkBounds range = .ok ()
  · rw [hb]
    have hb' := checkBounds_eq_ok.1 hb
    simp only [hb', true_and]
    cases hf : e.active.find? (fun r =>
        r.range.strictlyContains range.start || r.range.strictlyContains range.stop) with
    | some r =>
      have hr := find?_some hf
      have hm := mem_of_find?_eq_some hf
      simp only [Span.strictlyContains, Bool.or_eq_true, Bool.and_eq_true, decide_eq_true_eq] at hr
      constructor
      · intro h
        cases h
      · intro h
        have := h r hm
        omega
    | none =>
      have hn := find?_eq_none.1 hf
      refine ⟨fun _ r hr => ?_, fun _ => rfl⟩
      have := hn r hr
      simp only [Span.strictlyContains, Bool.or_eq_true, Bool.and_eq_true, decide_eq_true_eq] at this
      omega
  · constructor
    · intro h
      cases hc : e.checkBounds range with
      | ok u => exact absurd hc hb
      | error x => rw [hc] at h; cases h
    · rintro ⟨h1, h2, -⟩
      exact absurd (checkBounds_eq_ok.2 ⟨h1, h2⟩) hb

/-- The text of a range, without what stands ahead of it and with it. -/
theorem renderRanges_eq (h : Sound e) (hb : InBounds e) {a b : Nat} (before cs after : List Char)
    (hsrc : e.source = before ++ cs ++ after) (hbefore : byteLength before = a)
    (hcs : byteLength before + byteLength cs = b) (hc : e.Clear ⟨a, b⟩) :
    e.renderRange ⟨a, b⟩ = .ok (String.ofList (e.reading.fill a cs)) ∧
      e.renderRangeInclusive ⟨a, b⟩ = .ok (String.ofList (e.reading.ahead a ++ e.reading.fill a cs)) := by
  subst hbefore hcs
  have hb1 : isBoundary e.source (byteLength before) = true :=
    isBoundary_iff.2 ⟨before, cs ++ after, by rw [hsrc, append_assoc], rfl⟩
  have hb2 : isBoundary e.source (byteLength before + byteLength cs) = true :=
    isBoundary_iff.2 ⟨before ++ cs, after, hsrc, by simp⟩
  unfold renderRange renderRangeInclusive
  rw [checkCrossing_eq_ok.2 ⟨hb1, hb2, hc⟩]
  exact ⟨renderBetween_eq h hb hsrc hc false, renderBetween_eq h hb hsrc hc true⟩

end Respell.Editor
