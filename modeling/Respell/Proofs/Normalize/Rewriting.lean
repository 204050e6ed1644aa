import Respell.Proofs.Normalize.Patchwork

/-!
Edits of disjoint pieces of a text.

An editor *rewrites* pieces of the text if it leaves the rest as it was and writes for each piece, after
what stood ahead of it, a text of its own.  Rewriting is local: pieces that lie apart are rewritten one
after the other (`Rewrites.append`), and pieces of a stretch that was not edited before make a patchwork of
it (`Rewrites.patchwork`).

A header that moves is rendered with what stands ahead of the end of each of its parts, it is removed, and
its text is put in ahead of the body:

    body [s, t)   header [k, u)        ahead s ++ header ++ body
-/

namespace Respell

open List Text

namespace Editor

variable {text : List Char} {e e' : Editor} {range : Span}

/-! ## Edits that succeed -/

/-- A sound editor of the text, with edits at boundaries only. -/
structure Fine (text : List Char) (e : Editor) : Prop where
  source : e.source = text
  sound : e.Sound
  bounds : e.InBounds

theorem fine_ofText (text : List Char) : (ofText text).Fine text :=
  ⟨rfl, sound_ofText text, by constructor <;> intro _ h <;> cases h⟩

namespace Fine

section Place

variable (h : e.Fine text) {o : Nat} (ho : isBoundary text o = true)
  (hfree : ∀ r ∈ e.active, o ≤ r.range.start ∨ r.range.stop ≤ o) (x : String)
include h ho hfree

theorem insert :
    ∃ e', e.insert o x = .ok e' ∧ e'.Fine text ∧ e'.reading = e.reading.insert o x.toList ∧
      e'.active = e.active := by
  have he : e.insert o x = .ok _ := place_eq_ok.2 ⟨hfree, rfl⟩
  exact ⟨_, he, ⟨h.source, sound_of_insert h.sound he, inBounds_of_place h.bounds (h.source ▸ ho) he⟩,
    reading_of_insert he, active_of_place he⟩

theorem prepend :
    ∃ e', e.prepend o x = .ok e' ∧ e'.Fine text ∧ e'.reading = e.reading.prepend o x.toList ∧
      e'.active = e.active := by
  have he : e.prepend o x = .ok _ := place_eq_ok.2 ⟨hfree, rfl⟩
  exact ⟨_, he, ⟨h.source, sound_of_prepend h.sound he, inBounds_of_place h.bounds (h.source ▸ ho) he⟩,
    reading_of_prepend he, active_of_place he⟩

end Place

theorem overwrite (h : e.Fine text) (hin : range.Inside text)
    (hfree : ∀ r ∈ e.active, r.range.stop ≤ range.start ∨ range.stop ≤ r.range.start ∨
      (range.start ≤ r.range.start ∧ r.range.stop ≤ range.stop)) (x : String) :
    ∃ e', e.overwrite range x = .ok e' ∧ e'.Fine text ∧ e'.reading = e.reading.replace range x.toList ∧
      ∀ r ∈ e'.active, r ∈ e.active ∨ r.range = range := by
  have hx : ∀ r ∈ e.active, crosses range r.range = false := fun r hr => by
    have := hfree r hr
    exact (crosses_eq_false hin.nonempty (h.sound.nonempty r hr)).2 (by omega)
  have he : e.overwrite range x = .ok _ := (overwrite_eq_ok hin.nonempty).2 ⟨hx, rfl⟩
  refine ⟨_, he, ⟨h.source, sound_of_overwrite h.sound hin.nonempty he,
    inBounds_of_overwrite h.bounds hin.nonempty (h.source ▸ hin.start) (h.source ▸ hin.stop) he⟩,
    reading_of_overwrite h.sound hin.nonempty he, fun r hr => ?_⟩
  rw [active_of_overwrite hin.nonempty he] at hr
  rcases mem_append.1 hr with hr | hr
  · exact Or.inl (mem_filter.1 hr).1
  · rw [mem_singleton.1 hr]
    exact Or.inr rfl

theorem remove_eq (hin : range.Inside text) : e.remove range = e.overwrite range "" := by
  have := hin.nonempty
  rw [remove, if_neg]
  simp [Span.isEmpty]
  omega

variable {a b : Nat}

theorem renderRanges (h : e.Fine text) (ha : isBoundary text a = true) (hb : isBoundary text b = true)
    (hab : a ≤ b) (hc : e.Clear ⟨a, b⟩) :
    e.renderRange ⟨a, b⟩ = .ok (String.ofList (e.reading.fill a (Normalize.source text ⟨a, b⟩))) ∧
      e.renderRangeInclusive ⟨a, b⟩ =
        .ok (String.ofList (e.reading.lead a (Normalize.source text ⟨a, b⟩) ++ e.reading.ahead b)) := by
  obtain ⟨before, after, hsrc, hbefore, hlen⟩ := Normalize.exists_source ha hb hab
  have htext := renderRanges_eq h.sound h.bounds before _ after (h.source.trans hsrc) hbefore hlen hc
  rwa [Reading.ahead_append_fill_eq_lead, Normalize.add_byteLength_source ha hb hab] at htext

theorem render (h : e.Fine text) :
    e.render = .ok (String.ofList (e.reading.lead 0 text ++ e.reading.ahead (byteLength text))) := by
  rw [render_eq h.sound h.bounds, Reading.ahead_append_fill_eq_lead, h.source, Nat.zero_add]

end Fine

/-! ## Stretches that were not edited -/

/-- Nothing was edited in the range, nor put in at its end. -/
structure Fresh (e : Editor) (range : Span) : Prop where
  ahead : ∀ p, range.start < p → p ≤ range.stop → e.reading.ahead p = []
  active : ∀ r ∈ e.active, r.range.stop ≤ range.start ∨ range.stop ≤ r.range.start

@[simp] theorem ahead_ofText (text : List Char) (p : Nat) : (ofText text).reading.ahead p = [] := rfl

theorem fresh_ofText (text : List Char) (range : Span) : (ofText text).Fresh range :=
  ⟨fun _ _ _ => rfl, fun _ h => absurd h not_mem_nil⟩

theorem Fresh.mono (h : e.Fresh range) {s : Span} (hstart : range.start ≤ s.start)
    (hstop : s.stop ≤ range.stop) : e.Fresh s where
  ahead p h1 h2 := h.ahead p (by omega) (by omega)
  active r hr := (h.active r hr).imp (by omega) (by omega)

theorem Fresh.of_insert {e' : Editor} {x : List Char} (h : e.Fresh range)
    (hr : e'.reading = e.reading.insert range.start x) (hactive : e'.active = e.active) : e'.Fresh range where
  ahead p h1 h2 := by
    rw [hr]
    simp only [Reading.insert]
    rw [if_neg (by omega)]
    exact h.ahead p h1 h2
  active := hactive ▸ h.active

/-- The characters of a range that was not edited stand as they were. -/
theorem Fresh.plain (h : e.Fresh range) (hs : e.Sound) {p : Nat} (h1 : range.start ≤ p)
    (h2 : p < range.stop) : e.reading.instead p = [] ∧ e.reading.covers p = false := by
  have hout : ∀ r ∈ e.active, ¬ (r.range.start ≤ p ∧ p < r.range.stop) := fun r hr hp => by
    have := h.active r hr
    omega
  constructor
  · have : e.active.filter (·.range.start == p) = [] := by
      rw [filter_eq_nil_iff]
      intro r hr
      have := hout r hr
      have := hs.nonempty r hr
      simp only [beq_iff_eq]
      omega
    simp [reading, this]
  · simp only [reading, any_eq_false, Bool.and_eq_true, decide_eq_true_eq]
    exact hout

end Editor

namespace Normalize

variable {text : List Char} {e e' : Editor} {range : Span}

/-! ## Rewriting -/

/-- Outside of the pieces nothing changed; each piece has a text of its own after what stood ahead of it. -/
structure Rewrites (text : List Char) (e e' : Editor) (pieces : List Piece) : Prop where
  fine : e'.Fine text
  outside : ∀ p, Outside pieces p → e'.reading.ahead p = e.reading.ahead p ∧
    e'.reading.instead p = e.reading.instead p ∧ e'.reading.covers p = e.reading.covers p
  active : ∀ r ∈ e'.active, r ∈ e.active ∨
    ∃ q ∈ pieces, q.1.start ≤ r.range.start ∧ r.range.stop ≤ q.1.stop
  texts : ∀ q ∈ pieces,
    e'.reading.lead q.1.start (source text q.1) = e.reading.ahead q.1.start ++ q.2

/-- No piece reaches into the range or starts at its end. -/
def Apart (pieces : List Piece) (range : Span) : Prop :=
  ∀ q ∈ pieces, q.1.stop ≤ range.start ∨ range.stop < q.1.start

variable {pieces : List Piece}

theorem Rewrites.refl (h : e.Fine text) : Rewrites text e e [] :=
  ⟨h, fun _ _ => ⟨rfl, rfl, rfl⟩, fun _ => Or.inl, fun _ hq => absurd hq not_mem_nil⟩

theorem Rewrites.congr {pieces' : List Piece} (h : Rewrites text e e' pieces)
    (hmem : ∀ q, q ∈ pieces' ↔ q ∈ pieces) : Rewrites text e e' pieces' where
  fine := h.fine
  outside p hp := h.outside p fun q hq => hp q ((hmem q).2 hq)
  active r hr := by
    refine (h.active r hr).imp_right ?_
    rintro ⟨q, hq, hr⟩
    exact ⟨q, (hmem q).2 hq, hr⟩
  texts q hq := h.texts q ((hmem q).1 hq)

/-- The source of a range is as long as the range. -/
theorem start_add_byteLength (hin : range.Inside text) : range.start + byteLength (source text range) = range.stop :=
  add_byteLength_source hin.start hin.stop (Nat.le_of_lt hin.nonempty)

theorem Rewrites.append {e₁ e₂ : Editor} {q : Piece} (h : Rewrites text e e₁ pieces)
    (h' : Rewrites text e₁ e₂ [q]) (hin : ∀ p ∈ pieces, p.1.Inside text) (hq : q.1.Inside text)
    (hapart : Apart pieces q.1) : Rewrites text e e₂ (pieces ++ [q]) where
  fine := h'.fine
  outside p hp := by
    obtain ⟨hp, hpq⟩ := forall_mem_append.1 hp
    obtain ⟨h1, h2, h3⟩ := h.outside p hp
    obtain ⟨h1', h2', h3'⟩ := h'.outside p hpq
    exact ⟨h1'.trans h1, h2'.trans h2, h3'.trans h3⟩
  active r hr := by
    rcases h'.active r hr with hr | ⟨q', hq', hr⟩
    · refine (h.active r hr).imp_right ?_
      rintro ⟨q, hq, hr⟩
      exact ⟨q, mem_append_left _ hq, hr⟩
    · exact Or.inr ⟨q', mem_append_right _ hq', hr⟩
  texts q' hq' := by
    have hlt := hq.nonempty
    rcases mem_append.1 hq' with hq' | hq'
    · have hap := hapart q' hq'
      rw [← h.texts q' hq']
      refine Reading.lead_congr fun p h1 h2 => h'.outside p fun q'' hq'' => ?_
      rw [mem_singleton.1 hq'']
      rw [start_add_byteLength (hin q' hq')] at h2
      omega
    · rw [mem_singleton.1 hq', h'.texts q (mem_singleton_self q)]
      have hout : Outside pieces q.1.start := fun p hp => by
        have := hapart p hp
        omega
      rw [(h.outside _ hout).1]

/-- A range apart from the pieces stays fresh. -/
theorem Rewrites.fresh (hr : Rewrites text e e' pieces) (h : e.Fresh range)
    (hapart : Apart pieces range) : e'.Fresh range where
  ahead p h1 h2 := by
    have hout : Outside pieces p := fun q hq => by
      have := hapart q hq
      omega
    rw [(hr.outside p hout).1, h.ahead p h1 h2]
  active r hr' := by
    rcases hr.active r hr' with hr' | ⟨q, hq, hr'⟩
    · exact h.active r hr'
    · have := hapart q hq
      omega

/-- What stands ahead of a fresh range is left alone, apart from the pieces. -/
theorem Rewrites.patchwork (h : Rewrites text e e' pieces) (hf : e.Fine text) (hfresh : e.Fresh range)
    (hin : range.Inside text) (hp : InOrder text 0 range.start range.stop (pieces.map Prod.fst)) :
    Rewrites text e e' [(range, patchwork text range.start range.stop pieces)] where
  fine := h.fine
  outside p hp' := h.outside p fun q hq => by
    have := hp' _ (mem_singleton_self _)
    have := hp.mem (mem_map_of_mem hq)
    simp only at *
    omega
  active r hr := by
    refine (h.active r hr).imp_right ?_
    rintro ⟨q, hq, hr⟩
    have := hp.mem (mem_map_of_mem hq)
    exact ⟨_, mem_singleton_self _, by simp only; omega⟩
  texts q hq := by
    rw [mem_singleton.1 hq]
    refine lead_patchwork hin.start hin.stop hin.nonempty hp
      (fun p h1 h2 => hfresh.ahead p h1 (Nat.le_of_lt h2)) h.texts fun p h1 h2 hout => ?_
    obtain ⟨ha, hi, hc⟩ := h.outside p hout
    obtain ⟨hi', hc'⟩ := hfresh.plain hf.sound h1 h2
    exact ⟨ha, hi.trans hi', hc.trans hc'⟩

/-- Text put in ahead of a piece is the first of its text. -/
theorem Rewrites.of_insert {e₁ : Editor} {x y : List Char} (h : Rewrites text e₁ e' [(range, y)])
    (hin : range.Inside text) (hr : e₁.reading = e.reading.insert range.start x)
    (hactive : e₁.active = e.active) : Rewrites text e e' [(range, x ++ y)] where
  fine := h.fine
  outside p hp := by
    have hpr := hp _ (mem_singleton_self _)
    have hlt := hin.nonempty
    simp only at hpr
    have hout : Outside [(range, y)] p := fun q hq => by
      rw [mem_singleton.1 hq]
      exact hpr
    obtain ⟨ha, hi, hc⟩ := h.outside p hout
    rw [ha, hi, hc, hr]
    exact ⟨if_neg (by omega), rfl, rfl⟩
  active r hr' := by
    rcases h.active r hr' with hr' | ⟨q, hq, hr'⟩
    · exact Or.inl (hactive ▸ hr')
    · rw [mem_singleton.1 hq] at hr'
      exact Or.inr ⟨_, mem_singleton_self _, hr'⟩
  texts q hq := by
    rw [mem_singleton.1 hq]
    have := h.texts _ (mem_singleton_self _)
    simp only [hr, Reading.insert, if_true] at this
    simpa using this

section Value

variable {x : List Char} (h : Rewrites text e e' [(range, x)]) (hin : range.Inside text) (hfresh : e.Fresh range)
include h hin hfresh

/-- A piece that stands at its end as before is rendered as its text. -/
theorem Rewrites.renderRangeInclusive (hahead : e.reading.ahead range.start = []) :
    e'.renderRangeInclusive range = .ok (String.ofList x) := by
  have hlt := hin.nonempty
  have hclear : e'.Clear range := fun r hr => by
    rcases h.active r hr with hr | ⟨q, hq, hr⟩
    · have := hfresh.active r hr
      omega
    · rw [mem_singleton.1 hq] at hr
      simp only at hr
      omega
  have hstop : Outside [(range, x)] range.stop := fun q hq => by
    rw [mem_singleton.1 hq]
    exact Or.inr (Nat.le_refl _)
  have htext := h.texts _ (mem_singleton_self _)
  simp only [hahead, nil_append] at htext
  have hend := hfresh.ahead range.stop hlt (Nat.le_refl _)
  rw [(h.fine.renderRanges hin.start hin.stop (Nat.le_of_lt hlt) hclear).2, htext,
    (h.outside _ hstop).1, hend, append_nil]

/-- A piece that nothing was put in ahead of is replaced as a whole. -/
theorem Rewrites.overwrite (hquiet : e'.reading.ahead range.start = e.reading.ahead range.start)
    (y : String) : ∃ e₂, e'.overwrite range y = .ok e₂ ∧ Rewrites text e e₂ [(range, y.toList)] := by
  have hlt := hin.nonempty
  obtain ⟨e₂, he, hfine, hr, hactive⟩ := h.fine.overwrite hin (fun r hr => by
    rcases h.active r hr with hr | ⟨q, hq, hr⟩
    · have := hfresh.active r hr
      omega
    · rw [mem_singleton.1 hq] at hr
      simp only at hr
      omega) y
  refine ⟨e₂, he, hfine, fun p hp => ?_, fun r hr => ?_, fun q hq => ?_⟩
  · have hpr := hp _ (mem_singleton_self _)
    simp only at hpr
    have hout : Outside [(range, x)] p := fun q hq => by
      rw [mem_singleton.1 hq]
      exact hpr
    obtain ⟨ha, hi, hc⟩ := h.outside p hout
    rw [hr, ← hi, ← hc]
    refine ⟨?_, ?_, ?_⟩
    · simp only [Reading.replace]
      split
      · exact (hfresh.ahead p (by omega) (by omega)).symm
      · exact ha
    · simp only [Reading.replace]
      rw [if_neg (by omega), if_neg (by omega)]
    · have : (decide (range.start ≤ p) && decide (p < range.stop)) = false := by
        simp
        omega
      simp only [Reading.replace, this, Bool.false_or]
  · rcases hactive r hr with hr | hr
    · refine (h.active r hr).imp_right ?_
      rintro ⟨q, hq, hr⟩
      rw [mem_singleton.1 hq] at hr
      exact ⟨_, mem_singleton_self _, hr⟩
    · exact Or.inr ⟨_, mem_singleton_self _, by rw [hr], by rw [hr]⟩
  · rw [mem_singleton.1 hq, ← hquiet]
    have hlen := start_add_byteLength hin
    have hboth := e₂.reading.ahead_append_fill_eq_lead range.start (source text range)
    have hfill := @Reading.fill_replace e'.reading range.start (source text range) y.toList
      (source_ne_nil hin.start hin.stop hlt)
    have hstart : (e'.reading.replace range y.toList).ahead range.start = e'.reading.ahead range.start :=
      if_neg (by omega)
    have hstop : (e'.reading.replace range y.toList).ahead range.stop = [] := if_pos (by omega)
    rw [hlen] at hboth hfill
    rw [hr] at hboth ⊢
    rw [hstart, hfill, hstop, append_nil] at hboth
    exact hboth.symm

end Value

/-! ## Headers -/

/-- Each piece has a text of its own, which takes in what stands ahead of both its ends. -/
structure Encloses (text : List Char) (e e' : Editor) (pieces : List Piece) : Prop where
  fine : e'.Fine text
  ahead : ∀ p, (∀ q ∈ pieces, p < q.1.start ∨ q.1.stop < p) → e'.reading.ahead p = e.reading.ahead p
  outside : ∀ p, Outside pieces p →
    e'.reading.instead p = e.reading.instead p ∧ e'.reading.covers p = e.reading.covers p
  active : ∀ r ∈ e'.active, r ∈ e.active ∨
    ∃ q ∈ pieces, q.1.start ≤ r.range.start ∧ r.range.stop ≤ q.1.stop
  texts : ∀ q ∈ pieces,
    e'.reading.ahead q.1.start ++ e'.reading.fill q.1.start (source text q.1) = q.2

section Header

variable {k : Nat} (hfresh : e.Fresh range) (hk : range.start ≤ k)
  (hp : InOrder text 1 k range.stop (pieces.map Prod.fst))
include hfresh hk hp

theorem Rewrites.encloses (h : Rewrites text e e' pieces) : Encloses text e e' pieces where
  fine := h.fine
  ahead p hp := (h.outside p fun q hq => (hp q hq).imp_right Nat.le_of_lt).1
  outside p hp := (h.outside p hp).2
  active := h.active
  texts q hq := by
    obtain ⟨hstart, hin, hstop⟩ := hp.mem (mem_map_of_mem hq)
    have hlt := hin.nonempty
    have hout : Outside pieces q.1.stop := fun q' hq' => by
      by_cases heq : q' = q
      · exact Or.inr (by rw [heq])
      · have hsymm : Std.Symm fun q q' : Piece => q.1.stop < q'.1.start ∨ q'.1.stop < q.1.start :=
          ⟨fun _ _ h => h.symm⟩
        have hpw : pieces.Pairwise fun q q' => q.1.stop < q'.1.start ∨ q'.1.stop < q.1.start :=
          (pairwise_map.1 hp.pairwise).imp Or.inl
        have := hpw.forall hq' hq heq
        have := (hp.mem (mem_map_of_mem hq')).2.1.nonempty
        omega
    rw [Reading.ahead_append_fill_eq_lead, h.texts q hq,
      start_add_byteLength hin, (h.outside _ hout).1,
      hfresh.ahead q.1.start (by omega) (by omega), hfresh.ahead q.1.stop (by omega) hstop]
    simp

/-- Parentheses around one of the pieces. -/
theorem Encloses.guard {before after : List Piece} {s : Span} {x : List Char}
    (heq : pieces = before ++ (s, x) :: after) (h : Encloses text e e' pieces) :
    ∃ e₁ e₂, e'.prepend s.start "(" = .ok e₁ ∧ e₁.insert s.stop ")" = .ok e₂ ∧
      Encloses text e e₂ (before ++ (s, ['('] ++ x ++ [')']) :: after) := by
  have hmem : (s, x) ∈ pieces := heq ▸ mem_append_right _ mem_cons_self
  obtain ⟨hstart, hin, hstop⟩ := hp.mem (mem_map_of_mem hmem)
  simp only at hstart hin hstop
  have hlt := hin.nonempty
  have hothers : ∀ q, q ∈ before ∨ q ∈ after → q ∈ pieces ∧ q.1.start < q.1.stop ∧
      (q.1.stop < s.start ∨ s.stop < q.1.start) := by
    have hpw := pairwise_map.1 hp.pairwise
    rw [heq] at hpw
    obtain ⟨-, hpw, hbefore⟩ := pairwise_append.1 hpw
    have hafter := (pairwise_cons.1 hpw).1
    intro q hq
    have hqm : q ∈ pieces := by
      rw [heq]
      exact mem_append.2 (hq.imp_right (mem_cons_of_mem _))
    refine ⟨hqm, (hp.mem (mem_map_of_mem hqm)).2.1.nonempty, ?_⟩
    exact hq.imp (fun hq => hbefore q hq _ mem_cons_self) (fun hq => hafter q hq)
  have hpieces : ∀ {y : List Char} {q : Piece},
      q ∈ before ++ (s, y) :: after ↔ q = (s, y) ∨ (q ∈ before ∨ q ∈ after) := by
    intro y q
    simp only [mem_append, mem_cons]
    tauto
  have hfree : ∀ o, o = s.start ∨ o = s.stop → ∀ r ∈ e'.active, o ≤ r.range.start ∨ r.range.stop ≤ o := by
    intro o ho r hr
    rcases h.active r hr with hr | ⟨q, hq, hr⟩
    · have := hfresh.active r hr
      omega
    · rw [heq, hpieces] at hq
      rcases hq with rfl | hq
      · simp only at hr
        omega
      · have := (hothers q hq).2
        omega
  obtain ⟨e₁, he₁, hf₁, hr₁, ha₁⟩ := h.fine.prepend hin.start (hfree _ (Or.inl rfl)) "("
  obtain ⟨e₂, he₂, hf₂, hr₂, ha₂⟩ := hf₁.insert hin.stop (ha₁.symm ▸ hfree _ (Or.inr rfl)) ")"
  have hread : e₂.reading = (e'.reading.prepend s.start ['(']).insert s.stop [')'] := by
    rw [hr₂, hr₁]
    rfl
  have hahead : ∀ p, p ≠ s.start → p ≠ s.stop → e₂.reading.ahead p = e'.reading.ahead p := by
    intro p h1 h2
    rw [hread]
    exact (if_neg h2).trans (if_neg h1)
  refine ⟨e₁, e₂, he₁, he₂, hf₂, fun p hp => ?_, fun p hp => ?_, fun r hr => ?_, fun q hq => ?_⟩
  · have hps := hp _ (hpieces.2 (Or.inl rfl))
    simp only at hps
    rw [hahead p (by omega) (by omega), h.ahead p]
    intro q hq
    rw [heq, hpieces] at hq
    rcases hq with rfl | hq
    · exact hps
    · exact hp q (hpieces.2 (Or.inr hq))
  · have hps := hp _ (hpieces.2 (Or.inl rfl))
    rw [hread]
    refine h.outside p fun q hq => ?_
    rw [heq, hpieces] at hq
    rcases hq with rfl | hq
    · exact hps
    · exact hp q (hpieces.2 (Or.inr hq))
  · rw [ha₂, ha₁] at hr
    refine (h.active r hr).imp_right ?_
    rintro ⟨q, hq, hr⟩
    rw [heq, hpieces] at hq
    rcases hq with rfl | hq
    · exact ⟨_, hpieces.2 (Or.inl rfl), hr⟩
    · exact ⟨q, hpieces.2 (Or.inr hq), hr⟩
  · rcases hpieces.1 hq with rfl | hq
    · have htext := h.texts _ hmem
      have hlen := start_add_byteLength hin
      have hins := @Reading.ahead_append_fill_insert (e'.reading.prepend s.start ['(']) s.start (source text s) [')']
      have hpre : (e'.reading.prepend s.start ['(']).ahead s.start = '(' :: e'.reading.ahead s.start :=
        if_pos rfl
      rw [hlen, hpre, Reading.fill_prepend_of_le (Nat.le_refl _)] at hins
      simp only at htext ⊢
      rw [hread, hins, ← htext]
      simp
    · obtain ⟨hqm, hqlt, hqs⟩ := hothers q hq
      have hlen := start_add_byteLength (hp.mem (mem_map_of_mem hqm)).2.1
      rw [← h.texts q hqm, hahead _ (by omega) (by omega)]
      congr 1
      refine Reading.fill_congr (fun p h1 h2 => hahead p ?_ ?_) (fun p _ _ => by rw [hread]; rfl)
        (fun p _ _ => by rw [hread]; rfl)
      · omega
      · omega

end Header

/-- What follows the body, up to the end `u`, is gone, and a text stands ahead of the body. -/
structure Moved (text : List Char) (e e' : Editor) (s t u : Nat) (x : List Char) : Prop where
  fine : e'.Fine text
  outside : ∀ p, p < s ∨ u ≤ p → e'.reading.ahead p = e.reading.ahead p ∧
    e'.reading.instead p = e.reading.instead p ∧ e'.reading.covers p = e.reading.covers p
  ahead : e'.reading.ahead s = e.reading.ahead s ++ x
  body : e'.Fresh ⟨s, t⟩
  removed : ∀ p, t ≤ p → p < u →
    e'.reading.ahead p = [] ∧ e'.reading.instead p = [] ∧ e'.reading.covers p = true
  active : ∀ r ∈ e'.active, r ∈ e.active ∨ (t ≤ r.range.start ∧ r.range.stop ≤ u)

section Move

variable {s t u : Nat} (hfresh : e.Fresh ⟨s, u⟩) (hbody : (⟨s, t⟩ : Span).Inside text)
  (hrest : (⟨t, u⟩ : Span).Inside text)
include hfresh hbody hrest

/-- The header as it is before it moves. -/
theorem Encloses.renderRange {k : Nat} (h : Encloses text e e' pieces) (hf : e.Fine text)
    (hk : isBoundary text k = true) (htk : t ≤ k) (hku : k ≤ u)
    (hp : InOrder text 1 k u (pieces.map Prod.fst)) :
    e'.renderRange ⟨k, u⟩ = .ok (String.ofList (patchwork text k u pieces)) := by
  have hst := hbody.nonempty
  simp only at hst
  have hclear : e'.Clear ⟨k, u⟩ := fun r hr => by
    rcases h.active r hr with hr | ⟨q, hq, hr⟩
    · have := hfresh.active r hr
      simp only at this ⊢
      omega
    · have := hp.mem (mem_map_of_mem hq)
      simp only
      omega
  rw [(h.fine.renderRanges hk hrest.stop hku hclear).1, fill_patchwork hk hrest.stop hp h.texts]
  · intro p h1 h2 hout
    rw [h.ahead p hout]
    exact hfresh.ahead p (show s < p by omega) h2
  · intro p h1 h2 hout
    rw [(h.outside p hout).1, (h.outside p hout).2]
    exact hfresh.plain hf.sound (show s ≤ p by omega) h2

variable {x : List Char}

theorem Moved.insert (h : Moved text e e' s t u x) (y : String) :
    ∃ e₂, e'.insert s y = .ok e₂ ∧ Moved text e e₂ s t u (x ++ y.toList) := by
  have hst := hbody.nonempty
  have htu := hrest.nonempty
  simp only at hst htu
  obtain ⟨e₂, he, hf, hr, ha⟩ := h.fine.insert hbody.start (fun r hr => by
    rcases h.active r hr with hr | hr
    · have := hfresh.active r hr
      simp only at this ⊢
      omega
    · simp only
      omega) y
  have hahead : ∀ p, p ≠ s → e₂.reading.ahead p = e'.reading.ahead p := fun p hp => by
    rw [hr]
    exact if_neg hp
  have hrest : ∀ p, e₂.reading.instead p = e'.reading.instead p ∧
      e₂.reading.covers p = e'.reading.covers p := fun p => by
    rw [hr]
    exact ⟨rfl, rfl⟩
  refine ⟨e₂, he, hf, fun p hp => ?_, ?_, ⟨fun p h1 h2 => ?_, ha ▸ h.body.active⟩, fun p h1 h2 => ?_, ha ▸ h.active⟩
  · rw [hahead p (by omega), (hrest p).1, (hrest p).2]
    exact h.outside p hp
  · rw [hr, ← append_assoc, ← h.ahead]
    exact if_pos rfl
  · rw [hahead p (Nat.ne_of_gt h1)]
    exact h.body.ahead p h1 h2
  · rw [hahead p (by omega), (hrest p).1, (hrest p).2]
    exact h.removed p h1 h2

/-- Removes all that follows the body and puts a text in ahead of it. -/
theorem Encloses.move {k : Nat} (h : Encloses text e e' pieces) (htk : t ≤ k)
    (hp : InOrder text 1 k u (pieces.map Prod.fst)) (x : String) :
    ∃ e₁ e₂, e'.remove ⟨t, u⟩ = .ok e₁ ∧ e₁.insert s x = .ok e₂ ∧ Moved text e e₂ s t u x.toList := by
  have hst := hbody.nonempty
  have htu := hrest.nonempty
  simp only at hst htu
  have hpiece : ∀ q ∈ pieces, t ≤ q.1.start ∧ q.1.start < q.1.stop ∧ q.1.stop ≤ u ∧ t < q.1.start := fun q hq => by
    have := hp.mem (mem_map_of_mem hq)
    have := this.2.1.nonempty
    omega
  have hactive : ∀ r ∈ e'.active, r ∈ e.active ∨ (t ≤ r.range.start ∧ r.range.stop ≤ u) := fun r hr =>
    (h.active r hr).imp_right fun ⟨q, hq, hr⟩ => by
      have := hpiece q hq
      omega
  obtain ⟨e₁, he₁, hf₁, hr₁, ha₁⟩ := h.fine.overwrite hrest (fun r hr => by
    rcases hactive r hr with hr | hr
    · have := hfresh.active r hr
      simp only at this ⊢
      omega
    · exact Or.inr (Or.inr hr)) ""
  have hactive₁ : ∀ r ∈ e₁.active, r ∈ e.active ∨ (t ≤ r.range.start ∧ r.range.stop ≤ u) := fun r hr => by
    rcases ha₁ r hr with hr | hr
    · exact hactive r hr
    · rw [hr]
      exact Or.inr ⟨Nat.le_refl t, Nat.le_refl u⟩
  -- The header lies strictly behind the body, so up to the end of the body nothing has changed.
  have hsame : ∀ p, p ≤ t ∨ u < p → e'.reading.ahead p = e.reading.ahead p := fun p hp' =>
    h.ahead p fun q hq => by
      have := hpiece q hq
      omega
  have hplain : ∀ p, p < t ∨ u ≤ p →
      e'.reading.instead p = e.reading.instead p ∧ e'.reading.covers p = e.reading.covers p := fun p hp' =>
    h.outside p fun q hq => by
      have := hpiece q hq
      omega
  have hahead : ∀ p, e₁.reading.ahead p = if t < p ∧ p ≤ u then [] else e'.reading.ahead p := by
    intro p
    rw [hr₁]
    rfl
  have hend : ∀ p, s < p → p ≤ u → e.reading.ahead p = [] := hfresh.ahead
  have hmoved : Moved text e e₁ s t u [] := by
    refine ⟨hf₁, fun p hp' => ⟨?_, ?_, ?_⟩, ?_, ⟨fun p h1 h2 => ?_, fun r hr => ?_⟩,
      fun p h1 h2 => ⟨?_, ?_, ?_⟩, hactive₁⟩
    · rw [hahead]
      split
      · rw [hend p (by omega) (by omega)]
      · exact hsame p (by omega)
    · rw [hr₁, ← (hplain p (by omega)).1]
      exact (if_neg (by simp only; omega)).trans (if_neg (by simp only; omega))
    · rw [hr₁, ← (hplain p (by omega)).2]
      simp [Reading.replace]
      omega
    · rw [hahead, if_neg (by omega), hsame s (by omega), append_nil]
    · simp only at h1 h2
      rw [hahead, if_neg (by omega), hsame p (by omega), hend p h1 (by omega)]
    · rcases hactive₁ r hr with hr | hr
      · have := hfresh.active r hr
        simp only at this ⊢
        omega
      · exact Or.inr hr.1
    · rw [hahead]
      split
      · rfl
      · rw [hsame p (by omega), hend p (by omega) (by omega)]
    · rw [hr₁]
      simp [Reading.replace]
      omega
    · rw [hr₁]
      simp [Reading.replace, h1, h2]
  obtain ⟨e₂, he₂, hmoved⟩ := hmoved.insert hfresh hbody hrest x
  exact ⟨e₁, e₂, (Editor.Fine.remove_eq hrest).trans he₁, he₂, hmoved⟩

omit hfresh in
/-- With the body rewritten, the whole is. -/
theorem Moved.rewrites {e₁ : Editor} {y : List Char} (h : Moved text e e₁ s t u x)
    (hr : Rewrites text e₁ e' [(⟨s, t⟩, y)]) : Rewrites text e e' [(⟨s, u⟩, x ++ y)] := by
  have hst := hbody.nonempty
  have htu := hrest.nonempty
  simp only at hst htu
  have hout : ∀ p, p < s ∨ t ≤ p → Outside [(⟨s, t⟩, y)] p := fun p hp q hq => by
    rw [mem_singleton.1 hq]
    exact hp
  refine ⟨hr.fine, fun p hp => ?_, fun r hr' => ?_, fun q hq => ?_⟩
  · have hpr := hp _ (mem_singleton_self _)
    simp only at hpr
    obtain ⟨ha, hi, hc⟩ := hr.outside p (hout p (by omega))
    rw [ha, hi, hc]
    exact h.outside p hpr
  · rcases hr.active r hr' with hr' | ⟨q, hq, hr'⟩
    · refine (h.active r hr').imp_right fun hr' => ⟨_, mem_singleton_self _, ?_⟩
      simp only
      omega
    · rw [mem_singleton.1 hq] at hr'
      refine Or.inr ⟨_, mem_singleton_self _, ?_⟩
      simp only at hr' ⊢
      omega
  · rw [mem_singleton.1 hq]
    have htext := hr.texts _ (mem_singleton_self _)
    simp only at htext ⊢
    have hgone : e'.reading.lead t (source text ⟨t, u⟩) = [] := by
      refine Reading.lead_of_bare (b := true) fun p h1 h2 => ?_
      rw [start_add_byteLength hrest] at h2
      obtain ⟨ha, hi, hc⟩ := hr.outside p (hout p (Or.inr h1))
      rw [ha, hi, hc]
      exact h.removed p h1 h2
    rw [source_append hbody.start hbody.stop hrest.stop (Nat.le_of_lt hst) (Nat.le_of_lt htu),
      Reading.lead_append, start_add_byteLength hbody, hgone, htext, h.ahead]
    simp

end Move

end Normalize

end Respell
