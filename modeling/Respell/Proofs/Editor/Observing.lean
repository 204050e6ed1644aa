import Respell.Proofs.Editor.Invariant

/-!
What can be seen of an editor.

An editor shows its edits by rendering, in full or in a range.  A range may be cut wherever no replacement has
the cut inside, and the parts give the whole (`renderRange_splits`).  Editors that hold the same texts at the
same offsets show the same, however their inserts are numbered (`Alike.shows`); edits that do not meet lead to
such editors in either order (`independent_commute`).
-/

namespace Respell.Editor

open List Text

variable {e e' : Editor} {source : List Char}

/-! ## Parts of a range -/

/-- A boundary of the text that no replacement that counts has strictly inside. -/
structure Free (e : Editor) (o : Nat) : Prop where
  boundary : isBoundary e.source o = true
  outside : ∀ r ∈ e.active, ¬ (r.range.start < o ∧ o < r.range.stop)

theorem Free.clear {a b : Nat} (ha : e.Free a) (hb : e.Free b) : e.Clear ⟨a, b⟩ := by
  intro r hr
  have h1 := ha.outside r hr
  have h2 := hb.outside r hr
  simp only
  omega

/-- Three boundaries in order cut the text into four. -/
theorem exists_cuts {a b c : Nat} (ha : isBoundary source a = true) (hb : isBoundary source b = true)
    (hc : isBoundary source c = true) (hab : a ≤ b) (hbc : b ≤ c) :
    ∃ before xs ys after, source = before ++ xs ++ ys ++ after ∧ byteLength before = a ∧
      byteLength before + byteLength xs = b ∧ byteLength before + byteLength xs + byteLength ys = c := by
  obtain ⟨before, xs, rest, hsrc, rfl, rfl⟩ := exists_slice? ha hb hab
  obtain ⟨upto, ys, after, hsrc', hupto, rfl⟩ := exists_slice? hb hc hbc
  rw [append_assoc upto] at hsrc'
  obtain ⟨rfl, rfl⟩ := append_inj_of_byteLength (hsrc.symm.trans hsrc') (by simpa using hupto.symm)
  exact ⟨before, xs, ys, after, by simpa using hsrc, rfl, rfl, by rw [hupto]⟩

/-- A range in bounds is refused if an end of it lies inside a replacement, and the error names such a one. -/
theorem checkCrossing_eq_overlapping {range : Span} (h1 : isBoundary e.source range.start = true)
    (h2 : isBoundary e.source range.stop = true) (hc : ¬ e.Clear range) :
    ∃ r ∈ e.active, e.checkCrossing range = .error (.overlapping r.range range) := by
  unfold checkCrossing
  rw [checkBounds_eq_ok.2 ⟨h1, h2⟩]
  cases hf : e.active.find? (fun r =>
      r.range.strictlyContains range.start || r.range.strictlyContains range.stop) with
  | some r => exact ⟨r, mem_of_find?_eq_some hf, rfl⟩
  | none =>
    refine absurd (fun r hr => ?_) hc
    have := find?_eq_none.1 hf r hr
    simp only [Span.strictlyContains, Bool.or_eq_true, Bool.and_eq_true, decide_eq_true_eq] at this
    omega

/-- How the texts of the ranges of an editor go together, and which ranges have none. -/
structure Splits (e : Editor) : Prop where
  parts : ∀ a b c, a ≤ b → b ≤ c → e.Free a → e.Free b → e.Free c → ∃ x y z,
    e.renderRange ⟨a, b⟩ = .ok x ∧ e.renderRange ⟨b, c⟩ = .ok y ∧ e.renderRangeInclusive ⟨a, b⟩ = .ok z ∧
      e.renderRange ⟨a, c⟩ = .ok (x ++ y) ∧ e.renderRangeInclusive ⟨a, c⟩ = .ok (z ++ y)
  whole : ∃ x, e.render = .ok x ∧ e.renderRangeInclusive ⟨0, byteLength e.source⟩ = .ok x
  crossing : ∀ range : Span, isBoundary e.source range.start = true → isBoundary e.source range.stop = true →
    ∀ r ∈ e.active, (r.range.start < range.start ∧ range.start < r.range.stop) ∨
      (r.range.start < range.stop ∧ range.stop < r.range.stop) →
    ∃ r' ∈ e.active, e.renderRange range = .error (.overlapping r'.range range) ∧
      e.renderRangeInclusive range = .error (.overlapping r'.range range)
  invalid : ∀ range : Span, ¬ (isBoundary e.source range.start = true ∧ isBoundary e.source range.stop = true) →
    e.renderRange range = .error (.render range) ∧ e.renderRangeInclusive range = .error (.render range)

theorem Sound.splits (hs : Sound e) (hin : InBounds e) : Splits e where
  parts a b c hab hbc ha hb hc := by
    obtain ⟨before, xs, ys, after, hsrc, hbefore, hxs, hys⟩ :=
      exists_cuts ha.boundary hb.boundary hc.boundary hab hbc
    have text := @renderRanges_eq e hs hin
    obtain ⟨hx, hz⟩ := text before xs (ys ++ after) (by simpa using hsrc) hbefore hxs (ha.clear hb)
    obtain ⟨hy, -⟩ := text (before ++ xs) ys after hsrc (by simpa using hxs) (by simpa using hys) (hb.clear hc)
    obtain ⟨hxy, hzy⟩ := text before (xs ++ ys) after (by simpa using hsrc) hbefore
      (by simpa [Nat.add_assoc] using hys) (ha.clear hc)
    have hfill : e.reading.fill a (xs ++ ys) = e.reading.fill a xs ++ e.reading.fill b ys := by
      rw [Reading.fill_append, ← hbefore, hxs]
    refine ⟨_, _, _, hx, hy, hz, ?_, ?_⟩
    · rw [hxy, hfill, String.ofList_append]
    · rw [hzy, hfill, ← String.ofList_append, append_assoc]
  whole := by
    have htext := renderRanges_eq hs hin [] e.source [] (by simp) rfl (Nat.zero_add _) (clear_whole hin)
    exact ⟨_, render_eq hs hin, htext.2⟩
  crossing range h1 h2 r hr hcross := by
    have hc : ¬ e.Clear range := fun hclear => by
      have := hclear r hr
      omega
    obtain ⟨r', hr', herr⟩ := checkCrossing_eq_overlapping h1 h2 hc
    refine ⟨r', hr', ?_, ?_⟩
    · rw [renderRange, herr]
      rfl
    · rw [renderRangeInclusive, herr]
      rfl
  invalid range hinvalid := by
    have herr : e.checkCrossing range = .error (.render range) := by
      rw [checkCrossing, checkBounds, if_neg (by simpa using hinvalid)]
      rfl
    refine ⟨?_, ?_⟩
    · rw [renderRange, herr]
      rfl
    · rw [renderRangeInclusive, herr]
      rfl

/-- After any requests that leave all edits in bounds, ranges are cut at free offsets. -/
theorem renderRange_splits (source : List Char) (requests : List Request)
    (h : InBounds ((ofText source).run requests)) : Splits ((ofText source).run requests) :=
  (follows_run source requests).sound.splits h

/-- Free offsets on both sides of a replacement that has an insert in front and one at its end. -/
theorem renderRange_splits_touching :
    let e := (ofText ['a', 'b', 'c', 'd', 'e']).run
      [.insert 1 "x", .insert 2 "u", .overwrite ⟨1, 3⟩ "y" (by decide), .prepend 3 "z"]
    InBounds e ∧ e.Free 0 ∧ e.Free 1 ∧ e.Free 3 ∧ Splits e := by
  intro e
  have hin : InBounds e := ⟨by decide, by decide⟩
  exact ⟨hin, ⟨by decide, by decide⟩, ⟨by decide, by decide⟩, ⟨by decide, by decide⟩, renderRange_splits _ _ hin⟩

/-! ## Editors that show the same -/

/-- Rendering, in full or of any range, gives the same text or fails in both. -/
structure Shows (e e' : Editor) : Prop where
  render : e.render.toOption = e'.render.toOption
  renderRange : ∀ range, (e.renderRange range).toOption = (e'.renderRange range).toOption
  renderRangeInclusive : ∀ range, (e.renderRangeInclusive range).toOption = (e'.renderRangeInclusive range).toOption

theorem Shows.refl (e : Editor) : Shows e e := ⟨rfl, fun _ => rfl, fun _ => rfl⟩

/-- The same texts stand at the same offsets. -/
structure Alike (e e' : Editor) : Prop where
  source : e.source = e'.source
  inBounds : InBounds e ↔ InBounds e'
  inserts : ∀ p, (lineUp e.live p).map (·.text.toList) = (lineUp e'.live p).map (·.text.toList)
  active : (e.active.map fun r => (r.range, r.text.toList)).Perm (e'.active.map fun r => (r.range, r.text.toList))

/-- What is written of a splice, and where. -/
def Splice.written (s : Splice) : Span × List Char := (s.range, s.text.toList)

/-- Splices are ordered by their start, and inserts stand in front of a replacement. -/
def rank (w : Span × List Char) : Nat := 2 * w.1.start + (!w.1.isEmpty).toNat

theorem weave_congr (hsrc : e.source = e'.source) {ss ss' : List Splice}
    (h : ss.map Splice.written = ss'.map Splice.written) (stop pos : Nat) :
    e.weave stop pos ss = e'.weave stop pos ss' := by
  have hslice : ∀ range, e.slice range = e'.slice range := fun range => by rw [slice, slice, hsrc]
  induction ss generalizing ss' pos with
  | nil =>
    obtain rfl : ss' = [] := by simpa using h.symm
    exact hslice _
  | cons s ss ih =>
    cases ss' with
    | nil => simp at h
    | cons s' ss' =>
      simp only [map_cons, List.cons.injEq, Splice.written, Prod.mk.injEq] at h
      obtain ⟨⟨hrange, htext⟩, hrest⟩ := h
      simp only [weave, hrange, htext, hslice, ih hrest]

/-- Sequences that are ordered by rank and have the same entries, in the same order, of each rank. -/
theorem eq_of_ranks {α : Type} {f : α → Nat} {l l' : List α} (h : l.Pairwise fun a b => f a ≤ f b)
    (h' : l'.Pairwise fun a b => f a ≤ f b) (hf : ∀ k, l.filter (f · == k) = l'.filter (f · == k)) : l = l' := by
  have hmem : ∀ {l l' : List α}, (∀ k, l.filter (f · == k) = l'.filter (f · == k)) → ∀ a ∈ l, a ∈ l' := by
    intro l l' hf a ha
    have : a ∈ l'.filter (f · == f a) := hf (f a) ▸ mem_filter.2 ⟨ha, by simp⟩
    exact (mem_filter.1 this).1
  induction l generalizing l' with
  | nil =>
    refine (eq_nil_iff_forall_not_mem.2 fun a ha => ?_).symm
    cases hmem (fun k => (hf k).symm) a ha
  | cons a l ih =>
    cases l' with
    | nil => cases hmem hf a mem_cons_self
    | cons b l' =>
      obtain ⟨ha, hl⟩ := pairwise_cons.1 h
      obtain ⟨hb, hl'⟩ := pairwise_cons.1 h'
      -- Each head is among the entries of the other sequence, so neither ranks below the other.
      have hab : f a ≤ f b := by
        rcases mem_cons.1 (hmem (fun k => (hf k).symm) b mem_cons_self) with rfl | hin
        · exact Nat.le_refl _
        · exact ha b hin
      have hba : f b ≤ f a := by
        rcases mem_cons.1 (hmem hf a mem_cons_self) with rfl | hin
        · exact Nat.le_refl _
        · exact hb a hin
      have hrank : f a = f b := Nat.le_antisymm hab hba
      have hheads := hf (f b)
      simp only [filter_cons, hrank, beq_self_eq_true, if_true, List.cons.injEq] at hheads
      obtain ⟨rfl, -⟩ := hheads
      refine congrArg (a :: ·) (ih hl hl' fun k => ?_)
      have hk := hf k
      by_cases heq : f a = k
      iterate 2 simpa [filter_cons, heq] using hk

theorem filter_written (ss : List Splice) (p : Nat) (replaced : Bool) :
    (ss.map Splice.written).filter (rank · == 2 * p + replaced.toNat) =
      (ss.filter fun s => (s.range.isEmpty ^^ replaced) && s.range.start == p).map Splice.written := by
  rw [filter_map]
  congr 1
  refine filter_congr fun s _ => ?_
  rw [Bool.eq_iff_iff]
  simp only [Function.comp_apply, rank, Splice.written, Bool.and_eq_true, beq_iff_eq]
  cases s.range.isEmpty <;> cases replaced <;> simp <;> omega

theorem splices_ranked (h : Sound e) (range : Span) (leading : Bool) :
    ((e.splices range leading).map Splice.written).Pairwise fun a b => rank a ≤ rank b := by
  refine pairwise_map.2 ((splices_sorted h range leading).imp fun {a b} hab => ?_)
  simp only [Splice.precedes] at hab
  simp only [rank, Splice.written]
  by_cases hs : a.range.start = b.range.start
  · cases ha : a.range.isEmpty <;> simp_all
  · have hlt : a.range.start < b.range.start := by simpa [hs] using hab
    have := Bool.toNat_le (!a.range.isEmpty)
    omega

/-- Of the inserts at an offset, what is written is their texts in the order of `lineUp`. -/
theorem written_inserts (h : Sound e) (range : Span) (leading : Bool) (p : Nat) :
    ((e.splices range leading).filter fun s => s.range.isEmpty && s.range.start == p).map Splice.written =
      if inRange range leading p then ((lineUp e.live p).map (·.text.toList)).map (Prod.mk (.empty p)) else [] := by
  split
  · rename_i hp
    rw [filter_splices_inserts h hp, map_map, map_map]
    refine map_congr_left fun i hi => ?_
    have hzero : ∀ j ∈ e.live, j.order ≠ 0 := fun j hj => (h.counted j (mem_live.1 hj).1).1
    have hat : i.offset = p := by simpa using (mem_filter.1 ((lineUp_perm hzero p).subset hi)).2
    simp [Splice.written, Splice.ofInsert, hat]
  · rename_i hp
    rw [map_eq_nil_iff, filter_eq_nil_iff]
    intro s hs
    rcases mem_unsorted.1 (mem_splices.1 hs) with ⟨i, -, hin, rfl⟩ | ⟨r, hr, -, rfl⟩
    · intro hat
      simp only [Splice.ofInsert, Span.empty, Bool.and_eq_true, beq_iff_eq] at hat
      exact hp (hat.2 ▸ hin)
    · have := h.nonempty r hr
      simp [Splice.ofReplacement, Span.isEmpty]
      omega

/-- Of the replacements at an offset, the one that lies in the range is written. -/
theorem written_replacements (h : Sound e) (range : Span) (leading : Bool) (p : Nat) :
    (((e.splices range leading).filter fun s => !s.range.isEmpty && s.range.start == p).map Splice.written).Perm
      ((e.active.map fun r => (r.range, r.text.toList)).filter fun w => w.1.start == p && range.contains w.1) := by
  rw [filter_map]
  have := (filter_splices_replacements h range leading p).map Splice.written
  rwa [map_map] at this

/-- At most one replacement of a range starts at an offset. -/
theorem written_replacements_pairwise (h : Sound e) (range : Span) (leading : Bool) (p : Nat) :
    (((e.splices range leading).filter fun s => !s.range.isEmpty && s.range.start == p).map
      Splice.written).Pairwise fun _ _ => False := by
  refine pairwise_map.2 (((splices_pairwise h range leading).filter _).imp_of_mem fun {a b} ha hb hab => ?_)
  obtain ⟨hmem, ha⟩ := mem_filter.1 ha
  have hb := (mem_filter.1 hb).2
  have hle := start_le_stop_of_mem h (mem_splices.1 hmem)
  simp only [Span.isEmpty, Bool.and_eq_true, Bool.not_eq_true', beq_eq_false_iff_ne, beq_iff_eq] at ha hb
  omega

/-- Editors that are alike write the same splices into a range. -/
theorem Alike.splices (h : Alike e e') (hs : Sound e) (hs' : Sound e') (range : Span) (leading : Bool) :
    (e.splices range leading).map Splice.written = (e'.splices range leading).map Splice.written := by
  refine eq_of_ranks (splices_ranked hs range leading) (splices_ranked hs' range leading) fun k => ?_
  obtain ⟨p, replaced, rfl⟩ : ∃ (p : Nat) (replaced : Bool), k = 2 * p + replaced.toNat :=
    ⟨k / 2, k % 2 == 1, by rcases Nat.mod_two_eq_zero_or_one k with hk | hk <;> simp [hk] <;> omega⟩
  rw [filter_written, filter_written]
  cases replaced with
  | false =>
    simp only [Bool.xor_false]
    rw [written_inserts hs, written_inserts hs', h.inserts]
  | true =>
    simp only [Bool.xor_true]
    have hperm := ((written_replacements hs range leading p).trans (h.active.filter _)).trans
      (written_replacements hs' range leading p).symm
    exact @List.Perm.eq_of_pairwise _ (fun _ _ => False) _ _ (fun _ _ _ _ hab => hab.elim)
      (written_replacements_pairwise hs range leading p) (written_replacements_pairwise hs' range leading p) hperm

theorem Alike.renderBetween (h : Alike e e') (hs : Sound e) (hs' : Sound e') (range : Span) (leading : Bool) :
    e.renderBetween range leading = e'.renderBetween range leading := by
  rw [Editor.renderBetween, Editor.renderBetween, weave_congr h.source (h.splices hs hs' range leading)]

theorem Alike.clear_iff (h : Alike e e') (range : Span) : e.Clear range ↔ e'.Clear range := by
  have hclear : ∀ e : Editor, e.Clear range ↔ ∀ w ∈ e.active.map fun r => (r.range, r.text.toList),
      (range.start ≤ w.1.start ∨ w.1.stop ≤ range.start) ∧ (range.stop ≤ w.1.start ∨ w.1.stop ≤ range.stop) :=
    fun e => by simp [Clear]
  rw [hclear, hclear]
  exact ⟨fun hall w hw => hall w (h.active.mem_iff.2 hw), fun hall w hw => hall w (h.active.mem_iff.1 hw)⟩

theorem Alike.checkCrossing (h : Alike e e') (range : Span) :
    (e.checkCrossing range).toOption = (e'.checkCrossing range).toOption := by
  have hiff : e.checkCrossing range = .ok () ↔ e'.checkCrossing range = .ok () := by
    rw [checkCrossing_eq_ok, checkCrossing_eq_ok, h.source, h.clear_iff]
  cases he : e.checkCrossing range with
  | ok u => rw [hiff.1 he]
  | error x =>
    cases he' : e'.checkCrossing range with
    | ok u => cases (hiff.2 he').symm.trans he
    | error x' => rfl

theorem Alike.shows (h : Alike e e') (hs : Sound e) (hs' : Sound e') : Shows e e' := by
  have hrange : ∀ range leading,
      (do e.checkCrossing range; e.renderBetween range leading).toOption =
        (do e'.checkCrossing range; e'.renderBetween range leading).toOption := by
    intro range leading
    have hcheck := h.checkCrossing range
    rw [h.renderBetween hs hs']
    cases he : e.checkCrossing range <;> cases he' : e'.checkCrossing range <;> simp_all [Except.toOption]; rfl
  refine ⟨?_, fun range => hrange range false, fun range => hrange range true⟩
  by_cases hb : InBounds e
  · rw [render_of_inBounds hb, render_of_inBounds (h.inBounds.1 hb), h.renderBetween hs hs', h.source]
  · obtain ⟨range, herr⟩ := render_eq_error hb
    obtain ⟨range', herr'⟩ := render_eq_error fun hb' => hb (h.inBounds.2 hb')
    rw [herr, herr']
    rfl

/-! ## Edits that do not meet -/

/-- Inserts at different offsets, replacements of disjoint ranges, and an insert that is neither inside a
replaced range nor at its end. -/
def Edit.Independent : Edit → Edit → Prop
  | replace a _, replace b _ => a.stop ≤ b.start ∨ b.stop ≤ a.start
  | replace range _, insert o _ | replace range _, prepend o _ | insert o _, replace range _
  | prepend o _, replace range _ => o ≤ range.start ∨ range.stop < o
  | insert o _, insert o' _ | insert o _, prepend o' _ | prepend o _, insert o' _
  | prepend o _, prepend o' _ => o ≠ o'

theorem Edit.Independent.symm {x y : Edit} (h : x.Independent y) : y.Independent x := by
  cases x <;> cases y <;> simp_all only [Edit.Independent] <;> omega

variable {q q' : Request} {x y : Edit}

theorem after_of_conflicts (hq : q.edit? = some x) (h : x.Conflicts e) : e.after q = e := by
  obtain ⟨err, herr⟩ := (Request.apply_of_edit? hq).1 h
  rw [after, herr]

theorem after_of_free (hq : q.edit? = some x) (h : ¬ x.Conflicts e) : e.after q = x.make e := by
  rw [after, (Request.apply_of_edit? hq).2 h]

theorem accepts_iff (hq : q.edit? = some x) : (∃ f, q.apply e = .ok f) ↔ ¬ x.Conflicts e := by
  refine ⟨fun ⟨f, hf⟩ hconflict => ?_, fun hfree => ⟨_, (Request.apply_of_edit? hq).2 hfree⟩⟩
  obtain ⟨err, herr⟩ := (Request.apply_of_edit? hq).1 hconflict
  cases hf.symm.trans herr

/-- A replacement that is made changes nothing for what does not meet its range. -/
theorem exists_active_iff {range : Span} {text : String} {P : Span → Prop}
    (hactive : e'.active = e.active.filter (fun r => !range.contains r.range) ++ [⟨range, text, true⟩])
    (hP : ∀ r, range.contains r = true → ¬ P r) : (∃ r ∈ e'.active, P r.range) ↔ ∃ r ∈ e.active, P r.range := by
  rw [hactive]
  constructor
  · rintro ⟨r, hr, hpr⟩
    rcases mem_append.1 hr with hr | hr
    · exact ⟨r, (mem_filter.1 hr).1, hpr⟩
    · rw [mem_singleton.1 hr] at hpr
      exact absurd hpr (hP range (by simp [Span.contains]))
  · rintro ⟨r, hr, hpr⟩
    have hout : range.contains r.range = false := by
      by_contra hin
      exact hP _ (by simpa using hin) hpr
    exact ⟨r, mem_append_left _ (mem_filter.2 ⟨hr, by simp [hout]⟩), hpr⟩

/-- An independent edit conflicts after the other if and only if it does before. -/
theorem conflicts_make (hq : q.edit? = some x) (hfree : ¬ x.Conflicts e) (hxy : x.Independent y) :
    y.Conflicts (x.make e) ↔ y.Conflicts e := by
  cases x with
  | insert o text => cases y <;> exact Iff.rfl
  | prepend o text => cases y <;> exact Iff.rfl
  | replace range text =>
    have hne := Request.nonempty_of_edit? hq
    have hactive := active_of_overwrite hne ((overwrite_cases hne).2 hfree)
    cases y with
    | insert o t | prepend o t =>
      refine exists_active_iff (P := fun r => r.start < o ∧ o < r.stop) hactive fun r hin => ?_
      simp only [Span.contains, Bool.and_eq_true, decide_eq_true_eq] at hin
      simp only [Edit.Independent] at hxy
      omega
    | replace range' t =>
      refine exists_active_iff (P := fun r => (∃ p, (r.start ≤ p ∧ p < r.stop) ∧ range'.start ≤ p ∧
        p < range'.stop) ∧ ¬ (range'.start ≤ r.start ∧ r.stop ≤ range'.stop)) hactive fun r hin => ?_
      simp only [Span.contains, Bool.and_eq_true, decide_eq_true_eq] at hin
      simp only [Edit.Independent] at hxy
      rintro ⟨⟨p, hp⟩, -⟩
      omega

theorem conflicts_after (hq : q.edit? = some x) (hxy : x.Independent y) : y.Conflicts (e.after q) ↔ y.Conflicts e := by
  by_cases hconflict : x.Conflicts e
  · rw [after_of_conflicts hq hconflict]
  · rw [after_of_free hq hconflict]
    exact conflicts_make hq hconflict hxy

theorem takes_eq_false (hq : q.edit? = some x) (hxy : x.Independent y) : y.takes x = false := by
  cases y with
  | insert o t => cases x <;> rfl
  | prepend o t => cases x <;> rfl
  | replace range t =>
    cases x with
    | insert o u | prepend o u =>
      simp only [Edit.Independent] at hxy
      simp only [Edit.takes, Bool.and_eq_false_iff, decide_eq_false_iff_not]
      omega
    | replace range' u =>
      have hne := Request.nonempty_of_edit? hq
      simp only [Edit.Independent] at hxy
      simp only [Edit.takes, Span.contains, Bool.and_eq_false_iff, decide_eq_false_iff_not]
      omega

/-- Two edits of which the later does not take the earlier are both left. -/
theorem left_pair (edits : List Edit) (h : y.takes x = false) :
    Edit.left (edits ++ [x] ++ [y]) = (Edit.left edits).filter (fun z => !x.takes z && !y.takes z) ++ [x, y] := by
  rw [Edit.left_append, Edit.left_append, filter_append, filter_filter]
  simp [h, Bool.and_comm]

theorem filterMap_pair {f : Edit → Option (List Char)} (edits : List Edit) (h : f x = none ∨ f y = none) :
    (edits ++ [x, y]).filterMap f = (edits ++ [y, x]).filterMap f := by
  rw [filterMap_append, filterMap_append]
  rcases h with h | h <;> simp [filterMap_cons, h]

/-- What is written of an edit, and where. -/
def Edit.written : Edit → Span × List Char
  | insert o text | prepend o text => (.empty o, text.toList)
  | replace range text => (range, text.toList)

variable {edits : List Edit}

/-- Two edits that are independent lead to editors that are alike. -/
theorem Follows.alike (h : Follows source (edits ++ [x] ++ [y]) e) (h' : Follows source (edits ++ [y] ++ [x]) e')
    (hxy : x.Independent y) (hx : x.takes y = false) (hy : y.takes x = false) : Alike e e' := by
  have hleft := left_pair edits hy
  have hleft' := left_pair edits hx
  simp only [Bool.and_comm (!y.takes _)] at hleft'
  refine ⟨h.source_eq.trans h'.source_eq.symm, ?_, fun p => ?_, ?_⟩
  · rw [h.inBounds_iff, h'.inBounds_iff]
    simp only [mem_append, mem_singleton, or_assoc, or_comm (a := _ = x)]
  · -- At one offset at most one of the two edits puts text in.
    have hins : Edit.insertedAt p x = none ∨ Edit.insertedAt p y = none := by
      cases x <;> cases y <;> simp_all [Edit.insertedAt, Edit.Independent]
      omega
    have hpre : Edit.prependedAt p x = none ∨ Edit.prependedAt p y = none := by
      cases x <;> cases y <;> simp_all [Edit.prependedAt, Edit.Independent]
      omega
    rw [h.records.lineUp_texts h.sound, h'.records.lineUp_texts h'.sound, hleft, hleft', filterMap_pair _ hins,
      filterMap_pair _ hpre]
  · have hperm : (e.active.map Edit.ofReplacement).Perm (e'.active.map Edit.ofReplacement) := by
      rw [h.records.active, h'.records.active, hleft, hleft']
      exact ((List.Perm.swap y x []).append_left _).filter _
    have := hperm.map Edit.written
    rw [map_map, map_map] at this
    exact this

theorem Follows.after (h : Follows source edits e) (hq : q.edit? = some x) (hfree : ¬ x.Conflicts e) :
    Follows source (edits ++ [x]) (e.after q) := by
  have := h.apply ((Request.apply_of_edit? hq).2 hfree)
  rwa [hq, ← after_of_free hq hfree] at this

/-- Independent edits of any editor that requests lead to are accepted or refused alike in either order, and
show the same. -/
theorem independent_commute (source : List Char) (requests : List Request) (hq : q.edit? = some x)
    (hq' : q'.edit? = some y) (hxy : x.Independent y) :
    let e := (ofText source).run requests
    ((∃ f, q.apply e = .ok f) ↔ ∃ f, q.apply (e.after q') = .ok f) ∧
      ((∃ f, q'.apply e = .ok f) ↔ ∃ f, q'.apply (e.after q) = .ok f) ∧
      Shows (e.run [q, q']) (e.run [q', q]) := by
  intro e
  have hx := conflicts_after (e := e) hq' hxy.symm
  have hy := conflicts_after (e := e) hq hxy
  refine ⟨by rw [accepts_iff hq, accepts_iff hq, hx], by rw [accepts_iff hq', accepts_iff hq', hy], ?_⟩
  show Shows ((e.after q).after q') ((e.after q').after q)
  by_cases hcx : x.Conflicts e
  · rw [after_of_conflicts hq hcx, after_of_conflicts hq (hx.2 hcx)]
    exact Shows.refl _
  by_cases hcy : y.Conflicts e
  · rw [after_of_conflicts hq' hcy, after_of_conflicts hq' (hy.2 hcy)]
    exact Shows.refl _
  have hbefore := follows_run source requests
  have h := (hbefore.after hq hcx).after hq' (mt hy.1 hcy)
  have h' := (hbefore.after hq' hcy).after hq (mt hx.1 hcx)
  exact (h.alike h' hxy (takes_eq_false hq' hxy.symm) (takes_eq_false hq hxy)).shows h.sound h'.sound

/-- An insert and a replacement that starts at its offset, in a text in which the replacement takes another
insert. -/
theorem independent_commute_touching :
    let e := (ofText ['a', 'b', 'c', 'd', 'e']).run [.insert 3 "u"]
    let q := Request.insert 1 "x"
    let q' := Request.overwrite ⟨1, 3⟩ "y" (by decide)
    (Edit.insert 1 "x").Independent (.replace ⟨1, 3⟩ "y") ∧
      ((∃ f, q.apply e = .ok f) ↔ ∃ f, q.apply (e.after q') = .ok f) ∧
      ((∃ f, q'.apply e = .ok f) ↔ ∃ f, q'.apply (e.after q) = .ok f) ∧
      Shows (e.run [q, q']) (e.run [q', q]) := by
  intro e q q'
  have hxy : (Edit.insert 1 "x").Independent (.replace ⟨1, 3⟩ "y") := Or.inl (Nat.le_refl 1)
  exact ⟨hxy, independent_commute _ _ rfl rfl hxy⟩

/-- An empty range is overwritten by an insert at its start, which stands in the order of the calls with other
inserts there. -/
theorem empty_overwrite_in_order :
    let e := ofText ['a', 'b']
    let q := Request.insert 1 "x"
    let q' := Request.overwrite ⟨1, 1⟩ "y" (by decide)
    (1 ≤ (⟨1, 1⟩ : Span).start ∨ (⟨1, 1⟩ : Span).stop < 1) ∧
      (e.run [q, q']).render.toOption = some "axyb" ∧ (e.run [q', q]).render.toOption = some "ayxb" ∧
      ¬ Shows (e.run [q, q']) (e.run [q', q]) := by
  intro e q q'
  have hfirst : (e.run [q, q']).render.toOption = some "axyb" := by decide
  have hsecond : (e.run [q', q]).render.toOption = some "ayxb" := by decide
  refine ⟨Or.inl (Nat.le_refl 1), hfirst, hsecond, fun hshows => ?_⟩
  have hsame := hfirst.symm.trans (hshows.render.trans hsecond)
  exact absurd hsame (by decide)

end Respell.Editor
