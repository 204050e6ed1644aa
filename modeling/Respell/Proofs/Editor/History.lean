import Respell.Proofs.Editor.Rendering

/-!
What a history of edits leaves.

A history is a list of requests, each accepted or refused.  Of the accepted edits those are *left* that no
later replacement takes: a replacement of `[s, e)` takes the inserts at `s < o ≤ e` and the replacements
it holds.  The edits that are left say what to write at each offset, and rendering writes that:

    render (run source requests) = write 0 source      by the reading of `left (accepted requests)`

It fails exactly if an accepted edit, left or not, is out of bounds.  One more edit changes the text in one
place (`render_after_edit`).
-/

namespace Respell

open List Text

namespace Editor

/-! ## Requests -/

/-- A call that asks for an edit. -/
inductive Request where
  | insert (offset : Nat) (text : String)
  | prepend (offset : Nat) (text : String)
  | remove (range : Span) (ordered : range.start ≤ range.stop)
  | overwrite (range : Span) (text : String) (ordered : range.start ≤ range.stop)

def Request.apply (e : Editor) : Request → Except EditError Editor
  | insert offset text => e.insert offset text
  | prepend offset text => e.prepend offset text
  | remove range _ => e.remove range
  | overwrite range text _ => e.overwrite range text

/-- The editor after a request; one that is refused changes nothing. -/
def after (e : Editor) (q : Request) : Editor :=
  match q.apply e with
  | .ok e' => e'
  | .error _ => e

def run (e : Editor) (requests : List Request) : Editor := requests.foldl after e

/-- An edit that was made. -/
inductive Edit where
  | insert (offset : Nat) (text : String)
  | prepend (offset : Nat) (text : String)
  | replace (range : Span) (text : String)
deriving DecidableEq, Repr

/-- The edit that a request asks for.  To take out nothing is no edit, and to put text in place of nothing
is to insert it. -/
def Request.edit? : Request → Option Edit
  | insert offset text => some (.insert offset text)
  | prepend offset text => some (.prepend offset text)
  | remove range _ => if range.isEmpty then none else some (.replace range "")
  | overwrite range text _ => some (if range.isEmpty then .insert range.start text else .replace range text)

/-- The edits of the requests that are accepted, in the order in which they are made. -/
def accepted (e : Editor) : List Request → List Edit
  | [] => []
  | q :: qs =>
    match q.apply e with
    | .ok e' => q.edit?.toList ++ e'.accepted qs
    | .error _ => e.accepted qs

/-! ## The edits that are left -/

namespace Edit

/-- A replacement takes the inserts in its range and at its end, and the replacements it holds. -/
def takes : (later earlier : Edit) → Bool
  | replace range _, insert o _ | replace range _, prepend o _ => range.start < o && o ≤ range.stop
  | replace range _, replace inner _ => range.contains inner
  | _, _ => false

/-- The edits that no later one takes. -/
def left : List Edit → List Edit
  | [] => []
  | x :: later => if later.any (·.takes x) then left later else x :: left later

/-- Every offset of the edit is a boundary of the text, so none is past its end. -/
def isInBounds (source : List Char) : Edit → Bool
  | insert o _ | prepend o _ => isBoundary source o
  | replace range _ => isBoundary source range.start && isBoundary source range.stop

def insertedAt (p : Nat) : Edit → Option (List Char)
  | insert o text => if o = p then some text.toList else none
  | _ => none

def prependedAt (p : Nat) : Edit → Option (List Char)
  | prepend o text => if o = p then some text.toList else none
  | _ => none

def replacedFrom (p : Nat) : Edit → Option (List Char)
  | replace range text => if range.start = p then some text.toList else none
  | _ => none

def coversAt (p : Nat) : Edit → Bool
  | replace range _ => range.start ≤ p && p < range.stop
  | _ => false

end Edit

end Editor

namespace Reading

/-- Ahead of an offset stand the texts put in front there, the latest first, then those inserted
there, as they came. -/
def ofEdits (edits : List Editor.Edit) : Reading where
  ahead p := (edits.filterMap (Editor.Edit.prependedAt p)).reverse.flatten ++
    (edits.filterMap (Editor.Edit.insertedAt p)).flatten
  instead p := (edits.filterMap (Editor.Edit.replacedFrom p)).flatten
  covers p := edits.any (Editor.Edit.coversAt p)

/-- What a reading writes at each offset from `pos` on, the end of the text included. -/
def write (r : Reading) : (pos : Nat) → List Char → List Char
  | pos, [] => r.ahead pos ++ r.instead pos
  | pos, c :: cs =>
    r.ahead pos ++ r.instead pos ++ (if r.covers pos then [] else [c]) ++ r.write (pos + c.utf8Size) cs

theorem write_eq_fill (r : Reading) (pos : Nat) (cs : List Char) :
    r.write pos cs = r.ahead pos ++ r.fill pos cs ++ r.instead (pos + byteLength cs) := by
  induction cs generalizing pos with
  | nil => simp [write]
  | cons c cs ih => simp [write, fill, ih, Nat.add_assoc]

end Reading

namespace Editor

variable {e e' : Editor} {offset : Nat} {text : String} {source : List Char}

/-! ## Editors record histories -/

namespace Edit

def isReplacement : Edit → Bool
  | replace .. => true
  | _ => false

def ofInsert (i : Insert) : Edit := if i.order < 0 then prepend i.offset i.text else insert i.offset i.text

def ofReplacement (r : Replacement) : Edit := replace r.range r.text

theorem left_append (edits : List Edit) (x : Edit) :
    left (edits ++ [x]) = (left edits).filter (fun y => !x.takes y) ++ [x] := by
  induction edits with
  | nil => simp [left]
  | cons y ys ih =>
    simp only [cons_append, left, any_append, any_cons, any_nil, Bool.or_false]
    cases hy : ys.any (·.takes y) <;> cases hx : x.takes y <;> simp [ih, hx]

end Edit

/-- The editor holds exactly these edits, and counts exactly those of them that are left. -/
structure Records (e : Editor) (edits : List Edit) : Prop where
  inserts : e.inserts.map Edit.ofInsert = edits.filter (!·.isReplacement)
  replacements : e.replacements.map Edit.ofReplacement = edits.filter (·.isReplacement)
  live : e.live.map Edit.ofInsert = (Edit.left edits).filter (!·.isReplacement)
  active : e.active.map Edit.ofReplacement = (Edit.left edits).filter (·.isReplacement)

theorem records_ofText (source : List Char) : Records (ofText source) [] := by
  constructor <;> rfl

variable {edits : List Edit}

theorem records_of_place {order : Int} (h : Records e edits) (he : e.place offset text order = .ok e') :
    Records e' (edits ++ [Edit.ofInsert ⟨offset, text, order, false⟩]) := by
  have hlive := live_of_place he
  have hactive := active_of_place he
  obtain ⟨-, rfl⟩ := place_eq_ok.1 he
  have hkind : (Edit.ofInsert ⟨offset, text, order, false⟩).isReplacement = false := by
    unfold Edit.ofInsert
    split <;> rfl
  -- An insert takes nothing.
  have hleft : Edit.left (edits ++ [Edit.ofInsert ⟨offset, text, order, false⟩]) =
      Edit.left edits ++ [Edit.ofInsert ⟨offset, text, order, false⟩] := by
    rw [Edit.left_append]
    congr 1
    refine filter_eq_self.2 fun y _ => ?_
    unfold Edit.ofInsert
    split <;> rfl
  constructor
  · simp [hkind, h.inserts]
  · simp [hkind, h.replacements]
  · rw [hlive, hleft]
    simp [hkind, h.live]
  · rw [hactive, hleft]
    simp [hkind, h.active]

theorem records_of_insert (h : Records e edits) (he : e.insert offset text = .ok e') :
    Records e' (edits ++ [.insert offset text]) := by
  have := records_of_place h he
  rwa [show Edit.ofInsert ⟨offset, text, (e.count + 1 : Nat), false⟩ = .insert offset text from
    if_neg (by simp only; omega)] at this

theorem records_of_prepend (h : Records e edits) (he : e.prepend offset text = .ok e') :
    Records e' (edits ++ [.prepend offset text]) := by
  have := records_of_place h he
  rwa [show Edit.ofInsert ⟨offset, text, -((e.count + 1 : Nat) : Int), false⟩ = .prepend offset text from
    if_pos (by simp only; omega)] at this

theorem records_of_overwrite {range : Span} (h : Records e edits) (hne : range.start < range.stop)
    (he : e.overwrite range text = .ok e') : Records e' (edits ++ [.replace range text]) := by
  have hlive := live_of_overwrite hne he
  have hactive := active_of_overwrite hne he
  obtain ⟨-, rfl⟩ := (overwrite_eq_ok hne).1 he
  have hsub : ∀ i, Edit.ofInsert (subsume range i) = Edit.ofInsert i := fun i => by
    unfold subsume
    split <;> rfl
  have hret : ∀ r, Edit.ofReplacement (retire range r) = Edit.ofReplacement r := fun r => by
    unfold retire
    split <;> rfl
  have htakes : ∀ i, (Edit.replace range text).takes (Edit.ofInsert i) =
      (decide (range.start < i.offset) && decide (i.offset ≤ range.stop)) := fun i => by
    unfold Edit.ofInsert
    split <;> rfl
  constructor
  · rw [filter_append, ← h.inserts]
    simp [Edit.isReplacement, Function.comp_def, hsub]
  · rw [filter_append, ← h.replacements]
    simp [Edit.isReplacement, Edit.ofReplacement, Function.comp_def, retire]
    intro r hr
    split <;> exact ⟨rfl, rfl⟩
  · rw [hlive, Edit.left_append, filter_append, filter_comm, ← h.live, filter_map]
    simp [Edit.isReplacement, Function.comp_def, htakes]
  · rw [hactive, Edit.left_append, filter_append, filter_comm, ← h.active, filter_map]
    simp [Edit.isReplacement, Edit.ofReplacement, Edit.takes, Function.comp_def]

/-! ## Runs -/

/-- What an accepted request does: nothing, or one of three edits. -/
theorem Request.apply_cases {q : Request} (he : q.apply e = .ok e') :
    (q.edit? = none ∧ e' = e) ∨
      (∃ o x, q.edit? = some (.insert o x) ∧ e.insert o x = .ok e') ∨
      (∃ o x, q.edit? = some (.prepend o x) ∧ e.prepend o x = .ok e') ∨
      (∃ range x, q.edit? = some (.replace range x) ∧ range.start < range.stop ∧
        e.overwrite range x = .ok e') := by
  cases q with
  | insert o x => exact Or.inr (Or.inl ⟨o, x, rfl, he⟩)
  | prepend o x => exact Or.inr (Or.inr (Or.inl ⟨o, x, rfl, he⟩))
  | remove range ordered =>
    simp only [Request.apply, Editor.remove] at he
    simp only [Request.edit?]
    cases hr : range.isEmpty with
    | true =>
      simp only [hr, if_true, Except.ok.injEq] at he ⊢
      exact Or.inl ⟨trivial, he.symm⟩
    | false =>
      simp only [hr, Bool.false_eq_true, if_false] at he ⊢
      simp only [Span.isEmpty, beq_eq_false_iff_ne] at hr
      exact Or.inr (Or.inr (Or.inr ⟨range, "", rfl, by omega, he⟩))
  | overwrite range x ordered =>
    simp only [Request.apply] at he
    simp only [Request.edit?]
    cases hr : range.isEmpty with
    | true =>
      simp only [Editor.overwrite, hr, if_true] at he ⊢
      exact Or.inr (Or.inl ⟨range.start, x, rfl, he⟩)
    | false =>
      simp only [Bool.false_eq_true, if_false] at he ⊢
      simp only [Span.isEmpty, beq_eq_false_iff_ne] at hr
      exact Or.inr (Or.inr (Or.inr ⟨range, x, rfl, by omega, he⟩))

/-- An editor with the history it holds. -/
structure Follows (source : List Char) (edits : List Edit) (e : Editor) : Prop where
  source_eq : e.source = source
  sound : Sound e
  records : Records e edits

theorem follows_ofText (source : List Char) : Follows source [] (ofText source) :=
  ⟨rfl, sound_ofText source, records_ofText source⟩

theorem Follows.apply {q : Request} (h : Follows source edits e) (he : q.apply e = .ok e') :
    Follows source (edits ++ q.edit?.toList) e' := by
  obtain ⟨hsrc, hs, hr⟩ := h
  rcases Request.apply_cases he with ⟨hq, rfl⟩ | ⟨o, x, hq, h⟩ | ⟨o, x, hq, h⟩ | ⟨range, x, hq, hne, h⟩
  · rw [hq]
    simpa using ⟨hsrc, hs, hr⟩
  · rw [hq]
    refine ⟨?_, sound_of_insert hs h, records_of_insert hr h⟩
    obtain ⟨-, rfl⟩ := place_eq_ok.1 h
    exact hsrc
  · rw [hq]
    refine ⟨?_, sound_of_prepend hs h, records_of_prepend hr h⟩
    obtain ⟨-, rfl⟩ := place_eq_ok.1 h
    exact hsrc
  · rw [hq]
    refine ⟨?_, sound_of_overwrite hs hne h, records_of_overwrite hr hne h⟩
    obtain ⟨-, rfl⟩ := (overwrite_eq_ok hne).1 h
    exact hsrc

theorem Follows.run (h : Follows source edits e) (requests : List Request) :
    Follows source (edits ++ e.accepted requests) (e.run requests) := by
  induction requests generalizing e edits with
  | nil => simpa [accepted, Editor.run] using h
  | cons q qs ih =>
    cases hq : q.apply e with
    | error x =>
      have := ih h
      simpa [accepted, Editor.run, after, hq] using this
    | ok e' =>
      have := ih (h.apply hq)
      simpa [accepted, Editor.run, after, hq] using this

/-- Every history is held by the editor it leads to. -/
theorem follows_run (source : List Char) (requests : List Request) :
    Follows source ((ofText source).accepted requests) ((ofText source).run requests) := by
  simpa using (follows_ofText source).run requests

theorem Follows.inBounds_iff (h : Follows source edits e) : InBounds e ↔ ∀ x ∈ edits, x.isInBounds source = true := by
  obtain ⟨rfl, -, hr⟩ := h
  have hins : ∀ i, (Edit.ofInsert i).isInBounds e.source = isBoundary e.source i.offset := fun i => by
    unfold Edit.ofInsert
    split <;> rfl
  constructor
  · intro hb x hx
    cases hk : x.isReplacement with
    | false =>
      have hmem : x ∈ e.inserts.map Edit.ofInsert := by
        rw [hr.inserts]
        exact mem_filter.2 ⟨hx, by simp [hk]⟩
      obtain ⟨i, hi, rfl⟩ := mem_map.1 hmem
      rw [hins]
      exact hb.inserts i hi
    | true =>
      have hmem : x ∈ e.replacements.map Edit.ofReplacement := by
        rw [hr.replacements]
        exact mem_filter.2 ⟨hx, by simp [hk]⟩
      obtain ⟨r, hr', rfl⟩ := mem_map.1 hmem
      simpa [Edit.ofReplacement, Edit.isInBounds] using hb.replacements r hr'
  · intro hall
    constructor
    · intro i hi
      have hmem : Edit.ofInsert i ∈ edits.filter (!·.isReplacement) :=
        hr.inserts ▸ mem_map_of_mem hi
      rw [← hins]
      exact hall _ (mem_filter.1 hmem).1
    · intro r hr'
      have hmem : Edit.ofReplacement r ∈ edits.filter (·.isReplacement) :=
        hr.replacements ▸ mem_map_of_mem hr'
      simpa [Edit.ofReplacement, Edit.isInBounds] using hall _ (mem_filter.1 hmem).1

theorem filterMap_eq_map_filter {α β : Type} {l : List α} {f : α → Option β} {g : α → β} {p : α → Bool}
    (h : ∀ a ∈ l, f a = if p a then some (g a) else none) : l.filterMap f = (l.filter p).map g := by
  induction l with
  | nil => rfl
  | cons a l ih =>
    have hl := ih fun b hb => h b (mem_cons_of_mem _ hb)
    have ha := h a mem_cons_self
    cases hp : p a <;> simp [ha, hp, hl]

/-- What looks at inserts only looks at the editor's list of them. -/
theorem Records.filterMap_live (h : Records e edits) {f : Edit → Option (List Char)}
    (hf : ∀ r t, f (.replace r t) = none) : (Edit.left edits).filterMap f = e.live.filterMap (f ∘ Edit.ofInsert) := by
  rw [← filterMap_map, h.live, filterMap_filter]
  refine filterMap_congr fun x _ => ?_
  cases x <;> simp [Edit.isReplacement, hf]

/-- The texts put in at an offset, as they are written there. -/
theorem Records.lineUp_texts (h : Records e edits) (hs : Sound e) (p : Nat) :
    (lineUp e.live p).map (·.text.toList) = ((Edit.left edits).filterMap (Edit.prependedAt p)).reverse ++
      (Edit.left edits).filterMap (Edit.insertedAt p) := by
  have hzero : ∀ i ∈ e.live, i.order ≠ 0 := fun i hi => (hs.counted i (mem_live.1 hi).1).1
  have hneg : e.live.filterMap (Edit.prependedAt p ∘ Edit.ofInsert) =
      ((e.live.filter (·.offset == p)).filter (·.order < 0)).map (·.text.toList) := by
    rw [filter_filter]
    refine filterMap_eq_map_filter fun i _ => ?_
    by_cases ho : i.order < 0 <;> by_cases hp : i.offset = p <;> simp [Edit.ofInsert, Edit.prependedAt, ho, hp]
  have hpos : e.live.filterMap (Edit.insertedAt p ∘ Edit.ofInsert) =
      ((e.live.filter (·.offset == p)).filter (0 < ·.order)).map (·.text.toList) := by
    rw [filter_filter]
    refine filterMap_eq_map_filter fun i hi => ?_
    have hz := hzero i hi
    by_cases ho : i.order < 0
    · have ho' : ¬ 0 < i.order := by omega
      simp [Edit.ofInsert, Edit.insertedAt, ho, ho']
    · have ho' : 0 < i.order := by omega
      by_cases hp : i.offset = p <;> simp [Edit.ofInsert, Edit.insertedAt, ho, ho', hp]
  rw [h.filterMap_live (f := Edit.prependedAt p) (fun _ _ => rfl),
    h.filterMap_live (f := Edit.insertedAt p) (fun _ _ => rfl), hneg, hpos, lineUp, map_append,
    map_reverse]

/-- The reading of an editor is that of the edits that are left. -/
theorem Records.reading_eq (h : Records e edits) (hs : Sound e) : e.reading = Reading.ofEdits (Edit.left edits) := by
  -- What looks at replacements only looks at the editor's list of them.
  have hrep : ∀ f : Edit → Option (List Char), (∀ o t, f (.insert o t) = none) →
      (∀ o t, f (.prepend o t) = none) →
      (Edit.left edits).filterMap f = e.active.filterMap (f ∘ Edit.ofReplacement) := by
    intro f hf hg
    rw [← filterMap_map, h.active, filterMap_filter]
    refine filterMap_congr fun x _ => ?_
    cases x <;> simp [Edit.isReplacement, hf, hg]
  refine Reading.ext (funext fun p => ?_) (funext fun p => ?_) (funext fun p => ?_)
  · simp only [reading, Reading.ofEdits]
    rw [flatMap_def, h.lineUp_texts hs, flatten_append]
  · simp only [reading, Reading.ofEdits]
    rw [hrep (Edit.replacedFrom p) (fun _ _ => rfl) (fun _ _ => rfl),
      filterMap_eq_map_filter (g := fun r : Replacement => r.text.toList)
        (p := fun r : Replacement => r.range.start == p)]
    · rw [flatMap_def]
    · intro r _
      simp [Edit.ofReplacement, Edit.replacedFrom]
  · rw [Bool.eq_iff_iff]
    simp only [reading, Reading.ofEdits, any_eq_true]
    constructor
    · rintro ⟨r, hr, hp⟩
      have hmem : Edit.ofReplacement r ∈ (Edit.left edits).filter (·.isReplacement) :=
        h.active ▸ mem_map_of_mem hr
      exact ⟨Edit.ofReplacement r, (mem_filter.1 hmem).1, hp⟩
    · rintro ⟨x, hx, hp⟩
      have hmem : x ∈ e.active.map Edit.ofReplacement := by
        rw [h.active]
        refine mem_filter.2 ⟨hx, ?_⟩
        cases x <;> simp_all [Edit.coversAt, Edit.isReplacement]
      obtain ⟨r, hr, rfl⟩ := mem_map.1 hmem
      exact ⟨r, hr, hp⟩

/-! ## Rendering a history -/

/-- Rendering fails exactly if an accepted edit is out of bounds, and otherwise writes at each offset what
the edits that are left put there. -/
theorem render_run (source : List Char) (requests : List Request) :
    ((∃ range, ((ofText source).run requests).render = .error (.render range)) ↔
      ∃ x ∈ (ofText source).accepted requests, x.isInBounds source = false) ∧
    ((∀ x ∈ (ofText source).accepted requests, x.isInBounds source = true) →
      ((ofText source).run requests).render =
        .ok (String.ofList
          ((Reading.ofEdits (Edit.left ((ofText source).accepted requests))).write 0 source))) := by
  have hf := follows_run source requests
  have htext : (∀ x ∈ (ofText source).accepted requests, x.isInBounds source = true) →
      ((ofText source).run requests).render =
        .ok (String.ofList ((Reading.ofEdits (Edit.left ((ofText source).accepted requests))).write 0 source)) := by
    intro hall
    have hb := hf.inBounds_iff.2 hall
    have hread := hf.records.reading_eq hf.sound
    -- A replacement in bounds is not empty, so none starts at the end of the text.
    have hend : ((ofText source).run requests).reading.instead (byteLength source) = [] := by
      simp only [reading, flatMap_eq_nil_iff]
      intro r hr
      obtain ⟨hr, hp⟩ := mem_filter.1 hr
      have h1 := hf.sound.nonempty r hr
      have h2 := le_byteLength_of_isBoundary (hb.replacements r (mem_active.1 hr).1).2
      rw [hf.source_eq] at h2
      simp only [beq_iff_eq] at hp
      omega
    rw [render_eq hf.sound hb, ← hread, Reading.write_eq_fill, hf.source_eq, Nat.zero_add, hend, append_nil]
  refine ⟨⟨?_, ?_⟩, htext⟩
  · rintro ⟨range, herr⟩
    by_contra hno
    have hall : ∀ x ∈ (ofText source).accepted requests, x.isInBounds source = true := by
      intro x hx
      by_contra hx'
      exact hno ⟨x, hx, by simpa using hx'⟩
    rw [htext hall] at herr
    cases herr
  · rintro ⟨x, hx, hout⟩
    apply render_eq_error
    intro hb
    have := hf.inBounds_iff.1 hb x hx
    rw [hout] at this
    cases this

/-! ## One more edit -/

/-- What is rendered up to a boundary and from it on, if no replacement has it inside. -/
theorem render_split (hs : Sound e) (hb : InBounds e) {o : Nat} (ho : isBoundary e.source o = true)
    (hfree : ∀ r ∈ e.active, o ≤ r.range.start ∨ r.range.stop ≤ o) :
    ∃ before after, e.source = before ++ after ∧ byteLength before = o ∧
      e.renderRangeInclusive ⟨0, o⟩ = .ok (String.ofList (e.reading.ahead 0 ++ e.reading.fill 0 before)) ∧
      e.renderRange ⟨o, byteLength e.source⟩ = .ok (String.ofList (e.reading.fill o after)) ∧
      e.renderRangeInclusive ⟨o, byteLength e.source⟩ =
        .ok (String.ofList (e.reading.ahead o ++ e.reading.fill o after)) := by
  obtain ⟨before, after, hsrc, rfl⟩ := isBoundary_iff.1 ho
  have hwhole := clear_whole hb
  have hc1 : e.Clear ⟨0, byteLength before⟩ := fun r hr => by
    have := hfree r hr
    simp only
    omega
  have hc2 : e.Clear ⟨byteLength before, byteLength e.source⟩ := fun r hr => by
    have h1 := hfree r hr
    have h2 := hwhole r hr
    simp only at h2 ⊢
    omega
  have hlen : byteLength e.source = byteLength before + byteLength after := by
    rw [hsrc, byteLength_append]
  rw [hlen] at hc2 ⊢
  exact ⟨before, after, hsrc, rfl, (renderRanges_eq hs hb [] before after hsrc rfl (by simp) hc1).2,
    renderRanges_eq hs hb before after [] (by simpa using hsrc) rfl rfl hc2⟩

/-- Text at one offset comes between what was rendered up to it and what was rendered from it on; a
replacement comes between what was rendered up to its start and what was rendered from its end on. -/
theorem render_after_edit {source : List Char} {requests : List Request} {e : Editor}
    (hreach : (ofText source).run requests = e) (hb : InBounds e) :
    (∀ o x e', isBoundary source o = true → e.insert o x = .ok e' →
      ∃ a b, e.renderRangeInclusive ⟨0, o⟩ = .ok a ∧ e.renderRange ⟨o, byteLength source⟩ = .ok b ∧
        e'.render = .ok (a ++ x ++ b)) ∧
    (∀ o x e', isBoundary source o = true → e.prepend o x = .ok e' →
      ∃ a b, e.renderRangeInclusive ⟨o, byteLength source⟩ = .ok b ∧ e.render = .ok (a ++ b) ∧
        e'.render = .ok (a ++ x ++ b)) ∧
    (∀ s t x e', isBoundary source s = true → isBoundary source t = true → s < t →
      e.overwrite ⟨s, t⟩ x = .ok e' →
      ∃ a b, e.renderRangeInclusive ⟨0, s⟩ = .ok a ∧ e.renderRange ⟨t, byteLength source⟩ = .ok b ∧
        e'.render = .ok (a ++ x ++ b)) := by
  subst hreach
  obtain ⟨hsrc, hs, -⟩ := follows_run source requests
  generalize (ofText source).run requests = e at *
  subst hsrc
  have hlist : ∀ (a b : List Char) (x : String),
      String.ofList a ++ x ++ String.ofList b = String.ofList (a ++ x.toList ++ b) := by
    intro a b x
    simp [String.ofList_append, String.append_assoc]
  refine ⟨fun o x e' ho he => ?_, fun o x e' ho he => ?_, fun s t x e' h1 h2 hst he => ?_⟩
  · obtain ⟨hfree, hee⟩ := place_eq_ok.1 he
    obtain ⟨before, after, hcut, rfl, hlo, hhi, -⟩ := render_split hs hb ho hfree
    have hsrc : e'.source = before ++ after := by rw [hee, ← hcut]
    have hfront := @Reading.ahead_append_fill_insert e.reading 0 before x.toList
    rw [Nat.zero_add] at hfront
    refine ⟨_, _, hlo, hhi, ?_⟩
    rw [render_eq (sound_of_insert hs he) (inBounds_of_place hb ho he), reading_of_insert he, hsrc,
      Reading.fill_append, ← append_assoc, Nat.zero_add, hfront,
      Reading.fill_insert_of_le (Nat.le_refl _), hlist]
  · obtain ⟨hfree, hee⟩ := place_eq_ok.1 he
    obtain ⟨before, after, hcut, rfl, -, -, hhi⟩ := render_split hs hb ho hfree
    have hsrc : e'.source = before ++ after := by rw [hee, ← hcut]
    have hfront := @Reading.ahead_append_fill_prepend e.reading 0 before x.toList
    have hold := Reading.ahead_append_fill_eq_lead e.reading 0 before
    rw [Nat.zero_add] at hfront hold
    refine ⟨String.ofList (e.reading.lead 0 before), _, hhi, ?_, ?_⟩
    · rw [render_eq hs hb, hcut, Reading.fill_append, ← append_assoc, Nat.zero_add, hold]
      simp [String.ofList_append]
    · rw [render_eq (sound_of_prepend hs he) (inBounds_of_place hb ho he), reading_of_prepend he, hsrc,
        Reading.fill_append, ← append_assoc, Nat.zero_add, hfront,
        Reading.fill_prepend_of_le (Nat.le_refl _), hlist]
      simp
  · obtain ⟨hx, hee⟩ := (overwrite_eq_ok hst).1 he
    have hfree : ∀ r ∈ e.active, (s ≤ r.range.start ∨ r.range.stop ≤ s) ∧
        (t ≤ r.range.start ∨ r.range.stop ≤ t) := fun r hr => by
      have h3 := (crosses_eq_false hst (hs.nonempty r hr)).1 (hx r hr)
      simp only at h3
      omega
    obtain ⟨before, rest, hcut1, rfl, hlo, -, -⟩ := render_split hs hb h1 fun r hr => (hfree r hr).1
    obtain ⟨upto, after, hcut2, rfl, -, hhi, -⟩ := render_split hs hb h2 fun r hr => (hfree r hr).2
    obtain ⟨mid, rfl, rfl⟩ := exists_append_of_byteLength_le (hcut1.symm.trans hcut2) (by omega)
    have hmid : mid ≠ [] := by
      rintro rfl
      simp at hst
    have hsrc : e'.source = before ++ (mid ++ after) := by rw [hee, ← hcut1]
    have hfront := @Reading.ahead_append_fill_replace e.reading 0 before x.toList (byteLength (before ++ mid))
    rw [Nat.zero_add] at hfront
    refine ⟨_, _, hlo, hhi, ?_⟩
    rw [render_eq (sound_of_overwrite hs hst he) (inBounds_of_overwrite hb hst h1 h2 he),
      reading_of_overwrite hs hst he, hsrc, Reading.fill_append, ← append_assoc, Nat.zero_add, hfront,
      Reading.fill_append]
    rw [byteLength_append, Reading.fill_replace hmid, Reading.fill_replace_of_le (by simpa using hst) (by simp), hlist]
    simp

/-- A replacement that holds another one and takes the insert at its end. -/
theorem render_after_edit_nested :
    let e := (ofText ['a', 'b', 'c']).run [.insert 2 "x", .overwrite ⟨0, 1⟩ "Y" (by decide)]
    InBounds e ∧ ∃ e', e.overwrite ⟨0, 2⟩ "Z" = .ok e' ∧
      ∃ a b, e.renderRangeInclusive ⟨0, 0⟩ = .ok a ∧ e.renderRange ⟨2, 3⟩ = .ok b ∧
        e'.render = .ok (a ++ "Z" ++ b) := by
  have hb : InBounds ((ofText ['a', 'b', 'c']).run [.insert 2 "x", .overwrite ⟨0, 1⟩ "Y" (by decide)]) := by
    constructor <;> decide
  exact ⟨hb, _, rfl, (render_after_edit rfl hb).2.2 0 2 "Z" _ (by decide) (by decide) (by decide) rfl⟩

end Editor

end Respell
