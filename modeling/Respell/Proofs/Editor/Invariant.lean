import Respell.Patch.Context
import Respell.Proofs.Editor.History

/-!
What an editor is like after any requests, accepted or refused.

Accepted edits are numbered from 1 on, and an insert carries its number.  So it can be told from an editor and
the edits it has accepted which inserts came before a replacement; those in its range and at its end are
subsumed (`Numbered`).  A request is refused exactly if its edit conflicts with a replacement that counts, and
then the context it was made in stays as it was; any other request is one more edit, unless it asks for nothing
(`consistent_steps`).
-/

namespace Respell.Editor

open List

variable {text : String} {range : Span}

/-! ## Conflicts -/

/-- The edit puts text strictly inside a replacement that counts, or its range shares a position with one and
does not hold it. -/
def Edit.Conflicts (e : Editor) : Edit → Prop
  | insert o _ | prepend o _ => ∃ r ∈ e.active, r.range.start < o ∧ o < r.range.stop
  | replace range _ => ∃ r ∈ e.active,
      (∃ p, (r.range.start ≤ p ∧ p < r.range.stop) ∧ range.start ≤ p ∧ p < range.stop) ∧
        ¬ (range.start ≤ r.range.start ∧ r.range.stop ≤ range.stop)

/-- The editor with the edit made. -/
def Edit.make (e : Editor) : Edit → Editor
  | insert o x => { e with inserts := e.inserts ++ [⟨o, x, (e.count + 1 : Nat), false⟩], count := e.count + 1 }
  | prepend o x =>
    { e with inserts := e.inserts ++ [⟨o, x, -((e.count + 1 : Nat) : Int), false⟩], count := e.count + 1 }
  | replace range x =>
    { e with
      inserts := e.inserts.map (subsume range)
      replacements := e.replacements.map (retire range) ++ [{ range, text := x }]
      count := e.count + 1 }

theorem Edit.make_count (e : Editor) (x : Edit) : (x.make e).count = e.count + 1 := by cases x <;> rfl

variable {e e' : Editor} {q : Request} {x : Edit} {edits : List Edit}

theorem exists_error {α ε : Type} {r : Except ε α} (h : ∀ a, r ≠ .ok a) : ∃ err, r = .error err := by
  cases r with
  | ok a => exact absurd rfl (h a)
  | error err => exact ⟨err, rfl⟩

theorem place_cases {o : Nat} (order : Int) :
    ((∃ r ∈ e.active, r.range.start < o ∧ o < r.range.stop) → ∃ err, e.place o text order = .error err) ∧
      ((¬ ∃ r ∈ e.active, r.range.start < o ∧ o < r.range.stop) → e.place o text order =
        .ok { e with inserts := e.inserts ++ [{ offset := o, text, order }], count := e.count + 1 }) := by
  constructor
  · rintro ⟨r, hr, hlo, hhi⟩
    refine exists_error fun e' he => ?_
    have := (place_eq_ok.1 he).1 r hr
    omega
  · intro hfree
    refine place_eq_ok.2 ⟨fun r hr => ?_, rfl⟩
    by_contra hin
    exact hfree ⟨r, hr, by omega, by omega⟩

/-- Ranges cross exactly if they share a position and the new one does not hold the other. -/
theorem crosses_eq_true {new existing : Span} : crosses new existing = true ↔
    (∃ p, (existing.start ≤ p ∧ p < existing.stop) ∧ new.start ≤ p ∧ p < new.stop) ∧
      ¬ (new.start ≤ existing.start ∧ existing.stop ≤ new.stop) := by
  simp only [crosses, Span.overlaps, Span.contains, Bool.and_eq_true, Bool.not_eq_true', Bool.and_eq_false_iff,
    decide_eq_true_eq, decide_eq_false_iff_not]
  constructor
  · rintro ⟨hshare, hout⟩
    exact ⟨⟨max existing.start new.start, by omega, by omega⟩, by omega⟩
  · rintro ⟨⟨p, h₁, h₂⟩, hout⟩
    exact ⟨by omega, by omega⟩

theorem overwrite_cases (hne : range.start < range.stop) :
    ((Edit.replace range text).Conflicts e → ∃ err, e.overwrite range text = .error err) ∧
      (¬ (Edit.replace range text).Conflicts e →
        e.overwrite range text = .ok ((Edit.replace range text).make e)) := by
  constructor
  · rintro ⟨r, hr, hconflict⟩
    refine exists_error fun e' he => ?_
    have := ((overwrite_eq_ok hne).1 he).1 r hr
    rw [crosses_eq_true.2 hconflict] at this
    cases this
  · intro hfree
    refine (overwrite_eq_ok hne).2 ⟨fun r hr => ?_, rfl⟩
    by_contra hcross
    exact hfree ⟨r, hr, crosses_eq_true.1 (by simpa using hcross)⟩

/-- A replacement that is asked for has a range that is not empty. -/
theorem Request.nonempty_of_edit? (h : q.edit? = some (.replace range text)) : range.start < range.stop := by
  cases q with
  | insert o y => cases h
  | prepend o y => cases h
  | remove range' ordered =>
    simp only [edit?, Option.ite_none_left_eq_some, Option.some.injEq, Edit.replace.injEq] at h
    obtain ⟨hne, rfl, -⟩ := h
    simp only [Span.isEmpty, beq_iff_eq] at hne
    omega
  | overwrite range' y ordered =>
    simp only [edit?, Option.some.injEq] at h
    split at h
    · cases h
    · rename_i hne
      simp only [Edit.replace.injEq] at h
      obtain ⟨rfl, -⟩ := h
      simp only [Span.isEmpty, beq_iff_eq] at hne
      omega

/-- A request that asks for no edit leaves the editor as it is. -/
theorem Request.apply_of_none (h : q.edit? = none) : q.apply e = .ok e := by
  cases q with
  | insert o y => cases h
  | prepend o y => cases h
  | remove range ordered =>
    simp only [edit?, ite_eq_left_iff, reduceCtorEq, imp_false, Bool.not_eq_true, Bool.not_eq_false] at h
    simp [Request.apply, Editor.remove, h]
  | overwrite range y ordered => cases h

theorem Request.apply_of_edit? (h : q.edit? = some x) :
    (x.Conflicts e → ∃ err, q.apply e = .error err) ∧ (¬ x.Conflicts e → q.apply e = .ok (x.make e)) := by
  cases q with
  | insert o y =>
    cases h
    exact place_cases _
  | prepend o y =>
    cases h
    exact place_cases _
  | remove range ordered =>
    have hempty : range.isEmpty = false := by
      by_contra hne
      simp [edit?, hne] at h
    obtain rfl : Edit.replace range "" = x := by simpa [edit?, hempty] using h
    rw [show (Request.remove range ordered).apply e = e.overwrite range "" by
      simp [Request.apply, Editor.remove, hempty]]
    exact overwrite_cases (nonempty_of_edit? h)
  | overwrite range y ordered =>
    cases hempty : range.isEmpty with
    | true =>
      obtain rfl : Edit.insert range.start y = x := by simpa [edit?, hempty] using h
      rw [show (Request.overwrite range y ordered).apply e = e.insert range.start y by
        simp [Request.apply, Editor.overwrite, hempty]]
      exact place_cases _
    | false =>
      obtain rfl : Edit.replace range y = x := by simpa [edit?, hempty] using h
      exact overwrite_cases (nonempty_of_edit? h)

/-! ## Numbers -/

/-- Edits are counted, an insert has the number of its edit, and the inserts with a number below that of a
replacement are subsumed if they lie in its range or at its end. -/
structure Numbered (edits : List Edit) (e : Editor) : Prop where
  counted : e.count = edits.length
  inserted : ∀ i ∈ e.inserts, edits[i.order.natAbs - 1]? = some (Edit.ofInsert i)
  swept : ∀ n range x, edits[n]? = some (.replace range x) → ∀ i ∈ e.inserts, i.order.natAbs ≤ n →
    range.start < i.offset → i.offset ≤ range.stop → i.isSubsumed = true

theorem numbered_ofText (source : List Char) : Numbered [] (ofText source) := by
  constructor <;> simp [ofText]

theorem Numbered.place (h : Numbered edits e) (o : Nat) (text : String) (order : Int)
    (horder : order.natAbs = e.count + 1) :
    Numbered (edits ++ [Edit.ofInsert ⟨o, text, order, false⟩])
      { e with inserts := e.inserts ++ [⟨o, text, order, false⟩], count := e.count + 1 } := by
  have hlast : edits.length = order.natAbs - 1 := by
    rw [← h.counted]
    omega
  constructor
  · rw [length_append, h.counted]
    rfl
  · intro i hi
    rcases mem_append.1 hi with hi | hi
    · have hold := h.inserted i hi
      rw [getElem?_append_left (List.getElem?_eq_some_iff.1 hold).1, hold]
    · rw [mem_singleton.1 hi, ← hlast, getElem?_concat_length]
  · intro n range x hn i hi hbefore hlo hhi
    -- The new edit is an insert, so the replacement is an old one and the new insert came behind it.
    have hlt : n < edits.length := by
      by_contra hge
      have hle := (List.getElem?_eq_some_iff.1 hn).1
      rw [length_append, length_singleton] at hle
      obtain rfl : n = edits.length := by omega
      rw [getElem?_concat_length, Option.some.injEq] at hn
      unfold Edit.ofInsert at hn
      split at hn <;> cases hn
    rw [getElem?_append_left hlt] at hn
    rcases mem_append.1 hi with hi | hi
    · exact h.swept n range x hn i hi hbefore hlo hhi
    · rw [mem_singleton.1 hi] at hbefore
      simp only at hbefore
      omega

theorem Numbered.replace (h : Numbered edits e) :
    Numbered (edits ++ [.replace range text]) ((Edit.replace range text).make e) := by
  constructor
  · rw [length_append, Edit.make_count, h.counted]
    rfl
  · intro i hi
    obtain ⟨j, hj, rfl⟩ := mem_map.1 hi
    have hold := h.inserted j hj
    have hsame : (subsume range j).order = j.order ∧ Edit.ofInsert (subsume range j) = Edit.ofInsert j := by
      unfold subsume
      split <;> exact ⟨rfl, rfl⟩
    rw [hsame.1, hsame.2, getElem?_append_left (List.getElem?_eq_some_iff.1 hold).1, hold]
  · intro n range' x hn i hi hbefore hlo hhi
    obtain ⟨j, hj, rfl⟩ := mem_map.1 hi
    unfold subsume at hbefore hlo hhi ⊢
    split at hbefore
    · rename_i hin
      rw [if_pos hin]
    · rename_i hout
      rw [if_neg hout] at hlo hhi ⊢
      by_cases hlt : n < edits.length
      · rw [getElem?_append_left hlt] at hn
        exact h.swept n range' x hn j hj hbefore hlo hhi
      · -- An insert that the new replacement leaves does not lie in its range.
        have hle := (List.getElem?_eq_some_iff.1 hn).1
        rw [length_append, length_singleton] at hle
        obtain rfl : n = edits.length := by omega
        rw [getElem?_concat_length] at hn
        cases hn
        exact absurd ⟨hlo, hhi⟩ hout

theorem Numbered.make (h : Numbered edits e) (x : Edit) : Numbered (edits ++ [x]) (x.make e) := by
  cases x with
  | insert o text =>
    have := h.place o text (e.count + 1 : Nat) (by omega)
    rwa [show Edit.ofInsert ⟨o, text, (e.count + 1 : Nat), false⟩ = .insert o text from
      if_neg (by simp only; omega)] at this
  | prepend o text =>
    have := h.place o text (-((e.count + 1 : Nat) : Int)) (by omega)
    rwa [show Edit.ofInsert ⟨o, text, -((e.count + 1 : Nat) : Int), false⟩ = .prepend o text from
      if_pos (by simp only; omega)] at this
  | replace range text => exact h.replace

/-- What one accepted request keeps. -/
theorem Numbered.apply (h : Numbered edits e) (he : q.apply e = .ok e') : Numbered (edits ++ q.edit?.toList) e' := by
  cases hx : q.edit? with
  | none =>
    rw [Request.apply_of_none hx] at he
    cases he
    simpa using h
  | some x =>
    obtain ⟨hrefused, haccepted⟩ := Request.apply_of_edit? (e := e) hx
    by_cases hconflict : x.Conflicts e
    · obtain ⟨err, herr⟩ := hrefused hconflict
      cases he.symm.trans herr
    · rw [haccepted hconflict] at he
      cases he
      exact h.make x

theorem Numbered.run (h : Numbered edits e) (requests : List Request) :
    Numbered (edits ++ e.accepted requests) (e.run requests) := by
  induction requests generalizing e edits with
  | nil => simpa [accepted, Editor.run] using h
  | cons q qs ih =>
    cases hq : q.apply e with
    | error err => simpa [accepted, Editor.run, after, hq] using ih h
    | ok e' => simpa [accepted, Editor.run, after, hq] using ih (h.apply hq)

/-! ## Requests in a context -/

/-- The request as the program makes it. -/
def Request.patch : Request → Patching Unit
  | insert offset text => Patching.insert offset text
  | prepend offset text => Patching.prepend offset text
  | remove range _ => Patching.remove range
  | overwrite range text _ => Patching.overwrite range text

/-- The answer to a request made in a context, and the context after it. -/
def Request.step (q : Request) (cx : Context) : Except PatchError Unit × Context := q.patch cx

/-- Requests made in a context one after another, whether they are accepted or not. -/
def steps (cx : Context) (requests : List Request) : Context := requests.foldl (fun cx q => (q.step cx).2) cx

variable {cx : Context}

theorem patching_get_bind (k : Context → Patching Unit) (cx : Context) : (get >>= k) cx = k cx cx := rfl

theorem Request.patch_eq_edit (q : Request) : q.patch = Patching.edit fun e => q.apply e := by cases q <;> rfl

theorem step_of_ok (h : q.apply cx.editor = .ok e') : q.step cx = (.ok (), { cx with editor := e' }) := by
  rw [Request.step, Request.patch_eq_edit, Patching.edit, patching_get_bind, h]
  rfl

theorem step_of_error {err : EditError} (h : q.apply cx.editor = .error err) :
    q.step cx = (.error (.edit err), cx) := by
  rw [Request.step, Request.patch_eq_edit, Patching.edit, patching_get_bind, h]
  rfl

/-- The editor of the context is the one that the requests lead to. -/
theorem steps_editor (cx : Context) (requests : List Request) :
    (steps cx requests).editor = cx.editor.run requests := by
  induction requests generalizing cx with
  | nil => rfl
  | cons q qs ih =>
    refine (ih (q.step cx).2).trans ?_
    rw [show cx.editor.run (q :: qs) = (after cx.editor q).run qs from rfl, after]
    cases hq : q.apply cx.editor with
    | ok e' => rw [step_of_ok hq]
    | error err => rw [step_of_error hq]

/-! ## Every history -/

/-- What an editor holds of the accepted edits: replacements that count are not empty and lie apart, no insert that is
left lies strictly inside one, and every insert that came before a replacement `[s, e)` at `s < o ≤ e` is
subsumed. -/
structure Consistent (edits : List Edit) (e : Editor) : Prop extends Numbered edits e where
  nonempty : ∀ r ∈ e.active, r.range.start < r.range.stop
  disjoint : e.active.Pairwise fun a b =>
    ¬ ∃ p, (a.range.start ≤ p ∧ p < a.range.stop) ∧ b.range.start ≤ p ∧ p < b.range.stop
  outside : ∀ i ∈ e.live, ∀ r ∈ e.active, ¬ (r.range.start < i.offset ∧ i.offset < r.range.stop)
  kept : e.inserts.map Edit.ofInsert = edits.filter (!·.isReplacement)
  replaced : ∀ r ∈ e.active, ∃ n : Nat, edits[n]? = some (.replace r.range r.text)

/-- How a request is answered. -/
structure Answers (cx : Context) (q : Request) : Prop where
  refused : (∃ err cx', q.step cx = (.error err, cx')) ↔ ∃ x, q.edit? = some x ∧ x.Conflicts cx.editor
  unchanged : ∀ err cx', q.step cx = (.error err, cx') → cx' = cx
  idle : q.edit? = none → q.step cx = (.ok (), cx)
  counted : ∀ cx', q.step cx = (.ok (), cx') → q.edit? ≠ none → cx'.editor.count = cx.editor.count + 1

theorem answers (cx : Context) (q : Request) : Answers cx q := by
  cases hx : q.edit? with
  | none =>
    have hstep := step_of_ok (Request.apply_of_none (e := cx.editor) hx)
    refine ⟨?_, ?_, fun _ => hstep, fun _ _ hne => absurd hx hne⟩
    · simp [hstep, hx]
    · simp [hstep]
  | some x =>
    obtain ⟨hrefused, haccepted⟩ := Request.apply_of_edit? (e := cx.editor) hx
    have hidle : q.edit? ≠ none := by simp [hx]
    by_cases hconflict : x.Conflicts cx.editor
    · obtain ⟨err, herr⟩ := hrefused hconflict
      have hstep := step_of_error herr
      refine ⟨iff_of_true ⟨_, _, hstep⟩ ⟨x, hx, hconflict⟩, fun err' cx' h => ?_, fun h => absurd h hidle, ?_⟩
      · exact (Prod.mk.inj (hstep.symm.trans h)).2.symm
      · simp [hstep]
    · have hstep := step_of_ok (haccepted hconflict)
      refine ⟨?_, ?_, fun h => absurd h hidle, fun cx' h _ => ?_⟩
      · simp [hstep, hx, hconflict]
      · simp [hstep]
      · rw [← (Prod.mk.inj (hstep.symm.trans h)).2]
        exact x.make_count cx.editor

theorem Follows.replaced {source : List Char} (h : Follows source edits e) {r : Replacement} (hr : r ∈ e.active) :
    ∃ n : Nat, edits[n]? = some (.replace r.range r.text) := by
  have hmem : Edit.ofReplacement r ∈ edits.filter (·.isReplacement) :=
    h.records.replacements ▸ mem_map_of_mem (mem_active.1 hr).1
  exact mem_iff_getElem?.1 (mem_filter.1 hmem).1

/-- Whatever was asked of an editor before, what it holds is consistent and it answers alike. -/
theorem consistent_steps (source : List Char) (requests : List Request) (cx : Context) :
    let before := { cx with editor := ofText source }
    Consistent ((ofText source).accepted requests) (steps before requests).editor ∧
      ∀ q, Answers (steps before requests) q := by
  intro before
  refine ⟨?_, fun q => answers _ q⟩
  have hnumbered := (numbered_ofText source).run requests
  have hfollows := follows_run source requests
  rw [steps_editor]
  refine ⟨by simpa using hnumbered, hfollows.sound.nonempty, ?_, ?_, hfollows.records.inserts,
    fun r hr => hfollows.replaced hr⟩
  · refine hfollows.sound.apart.imp fun {a b} hab => ?_
    rintro ⟨p, hp⟩
    omega
  · intro i hi r hr hin
    have := hfollows.sound.outside i hi r hr
    omega

end Respell.Editor
