import Respell.Proofs.Editor.Reading

/-!
Editors as readings.

`Editor.reading` says what an editor writes at each offset.  A *sound* editor keeps its replacements
apart and its inserts out of them, and numbers its inserts in the order in which they were made.  Every
edit keeps this, and changes the reading in one place:

    e.insert o x = .ok e'      →  e'.reading = e.reading.insert o x
    e.prepend o x = .ok e'     →  e'.reading = e.reading.prepend o x
    e.overwrite r x = .ok e'   →  e'.reading = e.reading.replace r x

and rendering a range whose ends lie in no replacement is filling it by the reading.
-/

namespace Respell

open List Text

/-! ## Edits of a reading -/

namespace Reading

variable {r : Reading} {pos : Nat} {cs text : List Char}

def insert (r : Reading) (offset : Nat) (text : List Char) : Reading :=
  { r with ahead := fun p => if p = offset then r.ahead p ++ text else r.ahead p }

def prepend (r : Reading) (offset : Nat) (text : List Char) : Reading :=
  { r with ahead := fun p => if p = offset then text ++ r.ahead p else r.ahead p }

/-- What stood in the range and ahead of its end goes; what stood ahead of its start stays. -/
def replace (r : Reading) (range : Span) (text : List Char) : Reading where
  ahead p := if range.start < p ∧ p ≤ range.stop then [] else r.ahead p
  instead p :=
    if p = range.start then text else if range.start < p ∧ p < range.stop then [] else r.instead p
  covers p := (range.start ≤ p && p < range.stop) || r.covers p

/-- Text that comes in at the end of some characters is the last of what is written for them. -/
theorem ahead_append_fill_insert :
    (r.insert (pos + byteLength cs) text).ahead pos ++ (r.insert (pos + byteLength cs) text).fill pos cs =
      r.ahead pos ++ r.fill pos cs ++ text := by
  have hlead : (r.insert (pos + byteLength cs) text).lead pos cs = r.lead pos cs :=
    lead_congr fun p _ h => ⟨if_neg (by omega), rfl, rfl⟩
  rw [ahead_append_fill_eq_lead, ahead_append_fill_eq_lead, hlead, append_assoc]
  simp [insert]

theorem fill_insert_of_le {offset : Nat} (h : offset ≤ pos) : (r.insert offset text).fill pos cs = r.fill pos cs :=
  fill_congr (fun _ _ _ => if_neg (by omega)) (fun _ _ _ => rfl) (fun _ _ _ => rfl)

/-- Text put in front at the end of some characters comes before what stands ahead of their end. -/
theorem ahead_append_fill_prepend :
    (r.prepend (pos + byteLength cs) text).ahead pos ++ (r.prepend (pos + byteLength cs) text).fill pos cs =
      r.lead pos cs ++ text ++ r.ahead (pos + byteLength cs) := by
  have hlead : (r.prepend (pos + byteLength cs) text).lead pos cs = r.lead pos cs :=
    lead_congr fun p _ h => ⟨if_neg (by omega), rfl, rfl⟩
  rw [ahead_append_fill_eq_lead, hlead, append_assoc]
  simp [prepend]

theorem fill_prepend_of_le {offset : Nat} (h : offset ≤ pos) : (r.prepend offset text).fill pos cs = r.fill pos cs :=
  fill_congr (fun _ _ _ => if_neg (by omega)) (fun _ _ _ => rfl) (fun _ _ _ => rfl)

/-- Up to its start a replacement changes nothing. -/
theorem ahead_append_fill_replace {stop : Nat} :
    (r.replace ⟨pos + byteLength cs, stop⟩ text).ahead pos ++ (r.replace ⟨pos + byteLength cs, stop⟩ text).fill pos cs =
      r.ahead pos ++ r.fill pos cs := by
  have hlead : (r.replace ⟨pos + byteLength cs, stop⟩ text).lead pos cs = r.lead pos cs :=
    lead_congr fun p _ h => by
      refine ⟨if_neg (by simp only; omega), ?_, ?_⟩
      · simp only [replace]
        rw [if_neg (by omega), if_neg (by omega)]
      · simp only [replace]
        rw [decide_eq_false (by omega)]
        rfl
  rw [ahead_append_fill_eq_lead, ahead_append_fill_eq_lead, hlead]
  simp [replace]

/-- In place of its range stands the text of a replacement. -/
theorem fill_replace (h : cs ≠ []) : (r.replace ⟨pos, pos + byteLength cs⟩ text).fill pos cs = text := by
  cases cs with
  | nil => exact absurd rfl h
  | cons c cs =>
    have hpos := c.utf8Size_pos
    have hend : (r.replace ⟨pos, pos + byteLength (c :: cs)⟩ text).ahead (pos + byteLength (c :: cs)) = [] :=
      if_pos (by simp; omega)
    rw [fill_covered, hend]
    · simp [replace]
    · intro p h1 h2
      simp only [replace, decide_eq_true h1, decide_eq_true h2]
      rfl
    · intro p h1 h2
      refine ⟨?_, if_pos (by simp only; omega)⟩
      simp only [replace]
      rw [if_neg (by omega), if_pos (by omega)]

/-- Behind its end a replacement changes nothing. -/
theorem fill_replace_of_le {range : Span} (hr : range.start < range.stop) (h : range.stop ≤ pos) :
    (r.replace range text).fill pos cs = r.fill pos cs := by
  refine fill_congr (fun p h1 h2 => if_neg (by omega)) (fun p h1 h2 => ?_) (fun p h1 h2 => ?_)
  · simp only [replace]
    rw [if_neg (by omega), if_neg (by omega)]
  · have : (decide (range.start ≤ p) && decide (p < range.stop)) = false := by
      simp
      omega
    simp only [replace, this, Bool.false_or]

end Reading

namespace Editor

variable {e e' : Editor} {i : Insert} {r : Replacement} {offset : Nat} {text : String} {order : Int}
  {live : List Insert} {range : Span}

/-! ## Sorting -/

theorem Splice.precedes_trans {a b c : Splice} (hab : a.precedes b = true) (hbc : b.precedes c = true) :
    a.precedes c = true := by
  simp only [Splice.precedes, Span.isEmpty, beq_iff_eq] at *
  split at hab <;> split at hbc <;> split <;> simp at hab hbc ⊢ <;> omega

theorem Splice.insert_perm (s : Splice) (ts : List Splice) : (Splice.insert s ts).Perm (s :: ts) := by
  induction ts with
  | nil => exact List.Perm.refl _
  | cons t ts ih =>
    simp only [Splice.insert]
    split
    · exact List.Perm.refl _
    · exact (ih.cons t).trans (List.Perm.swap s t ts)

theorem Splice.sort_perm (ss : List Splice) : (Splice.sort ss).Perm ss := by
  induction ss with
  | nil => exact List.Perm.refl _
  | cons s ss ih => exact (Splice.insert_perm s _).trans (ih.cons s)

theorem Splice.insert_pairwise {s : Splice} {ts : List Splice}
    (hs : ∀ t ∈ ts, s.precedes t = true ∨ t.precedes s = true)
    (hts : ts.Pairwise fun a b => a.precedes b = true) :
    (Splice.insert s ts).Pairwise fun a b => a.precedes b = true := by
  induction ts with
  | nil => simp [Splice.insert]
  | cons t ts ih =>
    obtain ⟨ht, htt⟩ := pairwise_cons.1 hts
    simp only [Splice.insert]
    split
    · next hst =>
      refine pairwise_cons.2 ⟨fun u hu => ?_, hts⟩
      rcases mem_cons.1 hu with rfl | hu
      · exact hst
      · exact Splice.precedes_trans hst (ht u hu)
    · next hst =>
      have hts' : t.precedes s = true := (hs t mem_cons_self).resolve_left hst
      refine pairwise_cons.2 ⟨fun u hu => ?_, ih (fun u hu => hs u (mem_cons_of_mem _ hu)) htt⟩
      rcases mem_cons.1 ((Splice.insert_perm s ts).subset hu) with rfl | hu
      · exact hts'
      · exact ht u hu

theorem Splice.sort_pairwise {ss : List Splice}
    (h : ss.Pairwise fun a b => a.precedes b = true ∨ b.precedes a = true) :
    (Splice.sort ss).Pairwise fun a b => a.precedes b = true := by
  induction ss with
  | nil => simp [Splice.sort]
  | cons s ss ih =>
    obtain ⟨hs, hss⟩ := pairwise_cons.1 h
    exact Splice.insert_pairwise (fun t ht => hs t ((Splice.sort_perm ss).subset ht)) (ih hss)

/-! ## The reading of an editor -/

/-- The inserts at an offset in the order in which they are written: those put in front, the latest
first, then the others. -/
def lineUp (inserts : List Insert) (offset : Nat) : List Insert :=
  let here := inserts.filter (·.offset == offset)
  (here.filter (·.order < 0)).reverse ++ here.filter (0 < ·.order)

def reading (e : Editor) : Reading where
  ahead p := (lineUp e.live p).flatMap (·.text.toList)
  instead p := (e.active.filter (·.range.start == p)).flatMap (·.text.toList)
  covers p := e.active.any fun r => r.range.start ≤ p && p < r.range.stop

/-- Replacements that count are not empty and lie apart, inserts that are left lie in none of them, and
the inserts are numbered as they came. -/
structure Sound (e : Editor) : Prop where
  nonempty : ∀ r ∈ e.active, r.range.start < r.range.stop
  apart : e.active.Pairwise fun a b => a.range.stop ≤ b.range.start ∨ b.range.stop ≤ a.range.start
  outside : ∀ i ∈ e.live, ∀ r ∈ e.active, i.offset ≤ r.range.start ∨ r.range.stop ≤ i.offset
  numbered : e.inserts.Pairwise fun a b => a.order.natAbs < b.order.natAbs
  counted : ∀ i ∈ e.inserts, i.order ≠ 0 ∧ i.order.natAbs ≤ e.count

/-- Every recorded edit is at boundaries of the text. -/
structure InBounds (e : Editor) : Prop where
  inserts : ∀ i ∈ e.inserts, isBoundary e.source i.offset = true
  replacements : ∀ r ∈ e.replacements,
    isBoundary e.source r.range.start = true ∧ isBoundary e.source r.range.stop = true

theorem mem_live : i ∈ e.live ↔ i ∈ e.inserts ∧ i.isSubsumed = false := by
  simp [live]

theorem mem_active : r ∈ e.active ↔ r ∈ e.replacements ∧ r.isActive = true := by
  simp [active]

theorem sound_ofText (source : List Char) : Sound (ofText source) := by
  constructor <;> simp [ofText, active, live]

/-! ## Inserts -/

/-- An insert is refused strictly inside a replacement; otherwise it is the last one. -/
theorem place_eq_ok :
    e.place offset text order = .ok e' ↔
      (∀ r ∈ e.active, offset ≤ r.range.start ∨ r.range.stop ≤ offset) ∧
        e' = { e with inserts := e.inserts ++ [{ offset, text, order }], count := e.count + 1 } := by
  unfold place
  cases hf : e.active.find? (·.range.strictlyContains offset) with
  | some r =>
    have hr := find?_some hf
    have hm := mem_of_find?_eq_some hf
    simp only [Span.strictlyContains, Bool.and_eq_true, decide_eq_true_eq] at hr
    simp only [reduceCtorEq, false_iff, not_and]
    intro h
    have := h r hm
    omega
  | none =>
    have hn := find?_eq_none.1 hf
    simp only [Except.ok.injEq]
    constructor
    · rintro rfl
      refine ⟨fun r hr => ?_, rfl⟩
      have := hn r hr
      simp only [Span.strictlyContains, Bool.and_eq_true, decide_eq_true_eq] at this
      omega
    · rintro ⟨-, rfl⟩
      rfl

theorem live_of_place (he : e.place offset text order = .ok e') :
    e'.live = e.live ++ [⟨offset, text, order, false⟩] := by
  obtain ⟨-, rfl⟩ := place_eq_ok.1 he
  simp [live]

theorem active_of_place (he : e.place offset text order = .ok e') : e'.active = e.active := by
  obtain ⟨-, rfl⟩ := place_eq_ok.1 he
  rfl

theorem sound_of_place (h : Sound e) (ho : order.natAbs = e.count + 1) (he : e.place offset text order = .ok e') :
    Sound e' := by
  have hlive := live_of_place he
  have hactive := active_of_place he
  obtain ⟨hfree, rfl⟩ := place_eq_ok.1 he
  constructor
  · exact h.nonempty
  · exact h.apart
  · intro i hi r hr
    rw [hlive] at hi
    rcases mem_append.1 hi with hi | hi
    · exact h.outside i hi r hr
    · rw [mem_singleton.1 hi]
      exact hfree r hr
  · refine pairwise_append.2 ⟨h.numbered, by simp, fun i hi j hj => ?_⟩
    rw [mem_singleton.1 hj]
    have := (h.counted i hi).2
    simp only
    omega
  · intro i hi
    rcases mem_append.1 hi with hi | hi
    · have := h.counted i hi
      exact ⟨this.1, by simp only; omega⟩
    · rw [mem_singleton.1 hi]
      simp only
      omega

theorem lineUp_append_of_ne {p : Nat} (h : i.offset ≠ p) : lineUp (live ++ [i]) p = lineUp live p := by
  simp [lineUp, h]

theorem lineUp_append_of_pos (h : 0 < i.order) : lineUp (live ++ [i]) i.offset = lineUp live i.offset ++ [i] := by
  have hneg : ¬ i.order < 0 := by omega
  simp [lineUp, h, hneg]

theorem lineUp_append_of_neg (h : i.order < 0) : lineUp (live ++ [i]) i.offset = i :: lineUp live i.offset := by
  have hpos : ¬ 0 < i.order := by omega
  simp [lineUp, h, hpos]

/-- Inserts that are kept or not by their offset are kept or not together. -/
theorem lineUp_filter (live : List Insert) (keep : Nat → Bool) (p : Nat) :
    lineUp (live.filter fun i => keep i.offset) p = if keep p then lineUp live p else [] := by
  have hf : (live.filter fun i => keep i.offset).filter (·.offset == p) =
      if keep p then live.filter (·.offset == p) else [] := by
    rw [filter_filter]
    split
    · next hk =>
      refine filter_congr fun i _ => ?_
      by_cases hi : i.offset = p
      · simp [hi, hk]
      · simp [hi]
    · next hk =>
      rw [filter_eq_nil_iff]
      intro i _
      simp only [Bool.and_eq_true, beq_iff_eq, not_and]
      rintro rfl
      simpa using hk
  simp only [lineUp, hf]
  split <;> simp

theorem sound_of_insert (h : Sound e) (he : e.insert offset text = .ok e') : Sound e' :=
  sound_of_place h (by omega) he

theorem sound_of_prepend (h : Sound e) (he : e.prepend offset text = .ok e') : Sound e' :=
  sound_of_place h (by omega) he

theorem reading_of_insert (he : e.insert offset text = .ok e') : e'.reading = e.reading.insert offset text.toList := by
  have hlive := live_of_place he
  have hactive := active_of_place he
  refine Reading.ext (funext fun p => ?_) (by simp [reading, Reading.insert, hactive])
    (by simp [reading, Reading.insert, hactive])
  simp only [reading, Reading.insert, hlive]
  by_cases hp : p = offset
  · subst hp
    rw [lineUp_append_of_pos (i := ⟨p, text, (e.count + 1 : Nat), false⟩) (by simp only; omega)]
    simp
  · rw [lineUp_append_of_ne (fun h => hp h.symm)]
    simp [hp]

theorem reading_of_prepend (he : e.prepend offset text = .ok e') :
    e'.reading = e.reading.prepend offset text.toList := by
  have hlive := live_of_place he
  have hactive := active_of_place he
  refine Reading.ext (funext fun p => ?_) (by simp [reading, Reading.prepend, hactive])
    (by simp [reading, Reading.prepend, hactive])
  simp only [reading, Reading.prepend, hlive]
  by_cases hp : p = offset
  · subst hp
    rw [lineUp_append_of_neg (i := ⟨p, text, -((e.count + 1 : Nat) : Int), false⟩) (by simp only; omega)]
    simp
  · rw [lineUp_append_of_ne (fun h => hp h.symm)]
    simp [hp]

/-! ## Replacements -/

theorem crosses_eq_false {new existing : Span} (hn : new.start < new.stop)
    (he : existing.start < existing.stop) :
    crosses new existing = false ↔
      new.stop ≤ existing.start ∨ existing.stop ≤ new.start ∨
        (new.start ≤ existing.start ∧ existing.stop ≤ new.stop) := by
  simp only [crosses, Span.overlaps, Span.contains, Bool.and_eq_false_iff, decide_eq_false_iff_not,
    Bool.not_eq_false', Bool.and_eq_true, decide_eq_true_eq]
  omega

/-- A replacement as the range of a later one leaves it. -/
def retire (range : Span) (r : Replacement) : Replacement :=
  if range.contains r.range then { r with isActive := false } else r

/-- An insert as a later replacement leaves it. -/
def subsume (range : Span) (i : Insert) : Insert :=
  if range.start < i.offset ∧ i.offset ≤ range.stop then { i with isSubsumed := true } else i

/-- A replacement is refused if it crosses one that counts. -/
theorem overwrite_eq_ok (hne : range.start < range.stop) :
    e.overwrite range text = .ok e' ↔
      (∀ r ∈ e.active, crosses range r.range = false) ∧
        e' = { e with
          inserts := e.inserts.map (subsume range)
          replacements := e.replacements.map (retire range) ++ [{ range, text }]
          count := e.count + 1 } := by
  have hempty : range.isEmpty = false := by
    simp [Span.isEmpty]
    omega
  unfold overwrite
  rw [hempty]
  simp only [Bool.false_eq_true, if_false]
  cases hf : e.active.find? (fun r => crosses range r.range) with
  | some r =>
    have hr := find?_some hf
    have hm := mem_of_find?_eq_some hf
    simp only [reduceCtorEq, false_iff, not_and]
    intro h
    rw [h r hm] at hr
    cases hr
  | none =>
    have hn := find?_eq_none.1 hf
    simp only [Except.ok.injEq]
    constructor
    · rintro rfl
      exact ⟨fun r hr => by simpa using hn r hr, rfl⟩
    · rintro ⟨-, rfl⟩
      rfl

theorem live_of_overwrite (hne : range.start < range.stop) (he : e.overwrite range text = .ok e') :
    e'.live = e.live.filter fun i => !(range.start < i.offset && i.offset ≤ range.stop) := by
  obtain ⟨-, rfl⟩ := (overwrite_eq_ok hne).1 he
  simp only [live]
  induction e.inserts with
  | nil => rfl
  | cons i is ih =>
    by_cases hi : range.start < i.offset ∧ i.offset ≤ range.stop
    · cases hs : i.isSubsumed <;> simp [subsume, hi, hs, ih]
    · cases hs : i.isSubsumed <;> simp [filter_cons, subsume, hi, hs, ih]

theorem active_of_overwrite (hne : range.start < range.stop) (he : e.overwrite range text = .ok e') :
    e'.active = e.active.filter (fun r => !range.contains r.range) ++ [⟨range, text, true⟩] := by
  obtain ⟨-, rfl⟩ := (overwrite_eq_ok hne).1 he
  simp only [active, filter_append]
  congr 1
  induction e.replacements with
  | nil => rfl
  | cons r rs ih =>
    cases hr : range.contains r.range <;> cases ha : r.isActive <;> simp [retire, hr, ha, ih]

/-- The replacements that stay lie apart from the new one. -/
theorem apart_of_kept (h : Sound e) (hne : range.start < range.stop)
    (hx : ∀ r ∈ e.active, crosses range r.range = false) (hr : r ∈ e.active.filter fun r => !range.contains r.range) :
    r ∈ e.active ∧ (r.range.stop ≤ range.start ∨ range.stop ≤ r.range.start) := by
  obtain ⟨hm, hk⟩ := mem_filter.1 hr
  have := (crosses_eq_false hne (h.nonempty r hm)).1 (hx r hm)
  simp only [Span.contains, Bool.not_eq_true', Bool.and_eq_false_iff, decide_eq_false_iff_not] at hk
  refine ⟨hm, ?_⟩
  omega

theorem sound_of_overwrite (h : Sound e) (hne : range.start < range.stop) (he : e.overwrite range text = .ok e') :
    Sound e' := by
  have hlive := live_of_overwrite hne he
  have hactive := active_of_overwrite hne he
  obtain ⟨hx, rfl⟩ := (overwrite_eq_ok hne).1 he
  have horder : ∀ i, (subsume range i).order = i.order := fun i => by
    unfold subsume
    split <;> rfl
  constructor
  · intro r hr
    rw [hactive] at hr
    rcases mem_append.1 hr with hr | hr
    · exact h.nonempty r (apart_of_kept h hne hx hr).1
    · rw [mem_singleton.1 hr]
      exact hne
  · rw [hactive]
    refine pairwise_append.2 ⟨h.apart.filter _, by simp, fun r hr q hq => ?_⟩
    rw [mem_singleton.1 hq]
    exact (apart_of_kept h hne hx hr).2
  · intro i hi r hr
    rw [hlive] at hi
    rw [hactive] at hr
    obtain ⟨hi, hout⟩ := mem_filter.1 hi
    rcases mem_append.1 hr with hr | hr
    · exact h.outside i hi r (apart_of_kept h hne hx hr).1
    · rw [mem_singleton.1 hr]
      simp only [Bool.not_eq_true', Bool.and_eq_false_iff, decide_eq_false_iff_not] at hout
      simp only
      omega
  · refine pairwise_map.2 (h.numbered.imp fun hab => ?_)
    rw [horder, horder]
    exact hab
  · intro i hi
    obtain ⟨j, hj, rfl⟩ := mem_map.1 hi
    have := h.counted j hj
    rw [horder]
    exact ⟨this.1, by simp only; omega⟩

theorem reading_of_overwrite (h : Sound e) (hne : range.start < range.stop) (he : e.overwrite range text = .ok e') :
    e'.reading = e.reading.replace range text.toList := by
  have hlive := live_of_overwrite hne he
  have hactive := active_of_overwrite hne he
  obtain ⟨hx, -⟩ := (overwrite_eq_ok hne).1 he
  have hcross : ∀ r ∈ e.active, range.stop ≤ r.range.start ∨ r.range.stop ≤ range.start ∨
      (range.start ≤ r.range.start ∧ r.range.stop ≤ range.stop) :=
    fun r hr => (crosses_eq_false hne (h.nonempty r hr)).1 (hx r hr)
  refine Reading.ext (funext fun p => ?_) (funext fun p => ?_) (funext fun p => ?_)
  · simp only [reading, Reading.replace, hlive]
    rw [lineUp_filter e.live fun o => !(range.start < o && o ≤ range.stop)]
    by_cases hp : range.start < p ∧ p ≤ range.stop
    · simp [hp]
    · have hk : (!(decide (range.start < p) && decide (p ≤ range.stop))) = true := by
        simp only [Bool.not_eq_true', Bool.and_eq_false_iff, decide_eq_false_iff_not]
        omega
      simp only [hk, hp, if_true, if_false]
  · simp only [reading, Reading.replace, hactive, filter_append, filter_filter]
    by_cases hin : range.start ≤ p ∧ p < range.stop
    · -- What starts in the range shares text with it, so it is held by it.
      have hgone : e.active.filter (fun r => (r.range.start == p) && !range.contains r.range) = [] := by
        rw [filter_eq_nil_iff]
        intro r hr
        have h1 := hcross r hr
        have h2 := h.nonempty r hr
        simp only [Span.contains, Bool.and_eq_true, beq_iff_eq, Bool.not_eq_true', Bool.and_eq_false_iff,
          decide_eq_false_iff_not]
        omega
      by_cases hp : p = range.start
      · subst hp
        rw [hgone]
        simp
      · have h1 : (range.start == p) = false := by simp; omega
        have h2 : range.start < p ∧ p < range.stop := by omega
        simp [hgone, hp, h1, h2]
    · have hkept : e.active.filter (fun r => (r.range.start == p) && !range.contains r.range) =
          e.active.filter (fun r => r.range.start == p) := by
        refine filter_congr fun r hr => ?_
        have h2 := h.nonempty r hr
        by_cases hp : r.range.start = p
        · have : range.contains r.range = false := by
            simp only [Span.contains, Bool.and_eq_false_iff, decide_eq_false_iff_not]
            omega
          simp [this]
        · simp [hp]
      have h1 : (range.start == p) = false := by simp; omega
      have h2 : ¬ p = range.start := by omega
      have h3 : ¬ (range.start < p ∧ p < range.stop) := by omega
      simp only [hkept, filter_cons, h1, h2, h3, Bool.false_eq_true, if_false, filter_nil, append_nil]
  · simp only [reading, Reading.replace, hactive, any_append, any_cons, any_nil, Bool.or_false]
    rw [Bool.or_comm]
    by_cases hin : range.start ≤ p ∧ p < range.stop
    · simp [hin]
    · congr 1
      rw [Bool.eq_iff_iff]
      simp only [any_filter, any_eq_true, Bool.and_eq_true, Bool.not_eq_true',
        decide_eq_true_eq, Span.contains, Bool.and_eq_false_iff, decide_eq_false_iff_not]
      constructor
      · rintro ⟨r, hr, -, h2⟩
        exact ⟨r, hr, h2⟩
      · rintro ⟨r, hr, h2⟩
        exact ⟨r, hr, by omega, h2⟩

/-! ## Boundaries -/

theorem inBounds_of_place {o : Nat} {x : String} (hb : InBounds e) (ho : isBoundary e.source o = true)
    (he : e.place o x order = .ok e') : InBounds e' := by
  obtain ⟨-, rfl⟩ := place_eq_ok.1 he
  refine ⟨fun i hi => ?_, hb.replacements⟩
  rcases mem_append.1 hi with hi | hi
  · exact hb.inserts i hi
  · rw [mem_singleton.1 hi]
    exact ho

theorem inBounds_of_overwrite {x : String} (hb : InBounds e) (hne : range.start < range.stop)
    (h1 : isBoundary e.source range.start = true) (h2 : isBoundary e.source range.stop = true)
    (he : e.overwrite range x = .ok e') : InBounds e' := by
  obtain ⟨-, rfl⟩ := (overwrite_eq_ok hne).1 he
  constructor
  · intro i hi
    obtain ⟨j, hj, rfl⟩ := mem_map.1 hi
    have : (subsume range j).offset = j.offset := by
      unfold subsume
      split <;> rfl
    rw [this]
    exact hb.inserts j hj
  · intro r hr
    rcases mem_append.1 hr with hr | hr
    · obtain ⟨q, hq, rfl⟩ := mem_map.1 hr
      have : (retire range q).range = q.range := by
        unfold retire
        split <;> rfl
      rw [this]
      exact hb.replacements q hq
    · rw [mem_singleton.1 hr]
      exact ⟨h1, h2⟩

end Editor

/-! ## Text that is replaced

A span is *replaced* if a replacement that counts holds it.  No edit undoes that: a replacement counts no more only
once a later one holds it. -/

theorem Span.contains_iff {s t : Span} : s.contains t = true ↔ s.start ≤ t.start ∧ t.stop ≤ s.stop := by
  simp [contains]

namespace Editor

variable {e e' : Editor} {range r : Span} {x : String}

/-- A replacement that counts holds the range. -/
def Replaces (e : Editor) (range : Span) : Prop := ∃ a ∈ e.active, a.range.contains range = true

theorem Replaces.of_active (h : e.Replaces r) (hactive : e'.active = e.active) : e'.Replaces r := by
  unfold Replaces
  rw [hactive]
  exact h

theorem Replaces.of_place {o : Nat} {order : Int} (he : e.place o x order = .ok e') (h : e.Replaces r) :
    e'.Replaces r := h.of_active (active_of_place he)

/-- A range that takes a replacement with it holds what that held. -/
theorem Replaces.of_overwrite (he : e.overwrite range x = .ok e') (h : e.Replaces r) : e'.Replaces r := by
  unfold overwrite at he
  split at he
  · exact h.of_place he
  · split at he
    · cases he
    · cases he
      obtain ⟨a, ha, hr⟩ := h
      obtain ⟨hmem, hactive⟩ := mem_active.1 ha
      by_cases hc : range.contains a.range = true
      · refine ⟨⟨range, x, true⟩, mem_active.2 ⟨List.mem_append_right _ (List.mem_singleton_self _), rfl⟩, ?_⟩
        rw [Span.contains_iff] at *
        exact ⟨hc.1.trans hr.1, hr.2.trans hc.2⟩
      · exact ⟨a, mem_active.2 ⟨List.mem_append_left _ (List.mem_map.2 ⟨a, hmem, if_neg hc⟩), hactive⟩, hr⟩

theorem Replaces.of_remove (he : e.remove range = .ok e') (h : e.Replaces r) : e'.Replaces r := by
  unfold remove at he
  split at he
  · cases he
    exact h
  · exact h.of_overwrite he

section Within

variable (hc : range.contains r = true) (hlt : r.start < r.stop)
include hc hlt

theorem replaces_of_overwrite (he : e.overwrite range x = .ok e') : e'.Replaces r := by
  obtain ⟨hstart, hstop⟩ := Span.contains_iff.1 hc
  refine ⟨⟨range, x, true⟩, ?_, hc⟩
  rw [active_of_overwrite (by omega) he]
  exact List.mem_append_right _ (List.mem_singleton_self _)

theorem replaces_of_remove (he : e.remove range = .ok e') : e'.Replaces r := by
  unfold remove at he
  split at he
  · rename_i hempty
    rw [Span.contains_iff] at hc
    simp only [Span.isEmpty, beq_iff_eq] at hempty
    omega
  · exact replaces_of_overwrite hc hlt he

end Within

end Editor

end Respell
