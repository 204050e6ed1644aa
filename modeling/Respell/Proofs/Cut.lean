import Respell.Text
import Mathlib.Data.List.Basic

/-!
Cuts of a text at byte offsets.

Every character takes at least one byte, so a text has at most one cut at an offset:

    splitBytes? n text = some (before, after) ↔ text = before ++ after ∧ byteLength before = n
    slice? text ⟨a, b⟩ = some inside ↔
      ∃ before after, text = before ++ inside ++ after ∧
        byteLength before = a ∧ byteLength before + byteLength inside = b
-/

namespace Respell.Text

variable {n : Nat} {text : List Char}

/-! ## Lengths -/

@[simp] theorem byteLength_nil : byteLength [] = 0 := rfl

@[simp] theorem byteLength_cons (c : Char) (cs : List Char) : byteLength (c :: cs) = c.utf8Size + byteLength cs := rfl

@[simp] theorem byteLength_append (xs ys : List Char) : byteLength (xs ++ ys) = byteLength xs + byteLength ys := by
  induction xs with
  | nil => simp
  | cons c cs ih => simp [ih]; omega

theorem byteLength_eq_zero {cs : List Char} (h : byteLength cs = 0) : cs = [] := by
  cases cs with
  | nil => rfl
  | cons c cs =>
    have := c.utf8Size_pos
    simp at h
    omega

/-- Two beginnings of one text that take the same number of bytes are the same. -/
theorem append_inj_of_byteLength {a b c d : List Char} (h : a ++ b = c ++ d)
    (hl : byteLength a = byteLength c) : a = c ∧ b = d := by
  induction a generalizing c with
  | nil =>
    have hc : c = [] := byteLength_eq_zero (by simpa using hl.symm)
    subst hc
    exact ⟨rfl, by simpa using h⟩
  | cons x xs ih =>
    cases c with
    | nil =>
      have := x.utf8Size_pos
      simp at hl
      omega
    | cons y ys =>
      simp only [List.cons_append, List.cons.injEq] at h
      obtain ⟨rfl, h⟩ := h
      obtain ⟨rfl, rfl⟩ := ih h (by simpa using hl)
      exact ⟨rfl, rfl⟩

/-- Of two beginnings of one text the shorter is a beginning of the longer. -/
theorem exists_append_of_byteLength_le {a b c d : List Char} (h : a ++ b = c ++ d)
    (hl : byteLength a ≤ byteLength c) : ∃ m, c = a ++ m ∧ b = m ++ d := by
  rcases List.append_eq_append_iff.1 h with ⟨m, hc, hb⟩ | ⟨m, ha, hd⟩
  · exact ⟨m, hc, hb⟩
  · have hm : m = [] := by
      apply byteLength_eq_zero
      rw [ha, byteLength_append] at hl
      omega
    subst hm
    exact ⟨[], by simpa using ha.symm, by simpa using hd.symm⟩

/-! ## Cuts -/

theorem splitBytes?_byteLength (before after : List Char) :
    splitBytes? (byteLength before) (before ++ after) = some (before, after) := by
  induction before with
  | nil => simp [splitBytes?]
  | cons c cs ih =>
    have hc := c.utf8Size_pos
    obtain ⟨n, hn⟩ : ∃ n, byteLength (c :: cs) = n + 1 := ⟨byteLength (c :: cs) - 1, by simp; omega⟩
    have hr : n + 1 - c.utf8Size = byteLength cs := by simp at hn; omega
    have hle : c.utf8Size ≤ n + 1 := by simp at hn; omega
    rw [hn, List.cons_append]
    simp [splitBytes?, hle, hr, ih]

theorem splitBytes?_eq_some {before after : List Char} :
    splitBytes? n text = some (before, after) ↔ text = before ++ after ∧ byteLength before = n := by
  constructor
  · intro h
    induction n, text using splitBytes?.induct generalizing before after with
    | case1 text =>
      simp only [splitBytes?, Option.some.injEq, Prod.mk.injEq] at h
      obtain ⟨rfl, rfl⟩ := h
      exact ⟨rfl, rfl⟩
    | case2 n => simp [splitBytes?] at h
    | case3 n c cs hle ih =>
      simp only [splitBytes?, hle, if_true, Option.map_eq_some_iff] at h
      obtain ⟨⟨b, a⟩, hs, he⟩ := h
      simp only [Prod.mk.injEq] at he
      obtain ⟨rfl, rfl⟩ := he
      obtain ⟨rfl, hl⟩ := ih hs
      exact ⟨rfl, by simp [hl]; omega⟩
    | case4 n c cs hle => simp [splitBytes?, hle] at h
  · rintro ⟨rfl, rfl⟩
    exact splitBytes?_byteLength before after

theorem isBoundary_iff : isBoundary text n = true ↔ ∃ before after, text = before ++ after ∧ byteLength before = n := by
  unfold isBoundary
  rw [Option.isSome_iff_exists]
  constructor
  · rintro ⟨⟨before, after⟩, h⟩
    exact ⟨before, after, splitBytes?_eq_some.1 h⟩
  · rintro ⟨before, after, h⟩
    exact ⟨(before, after), splitBytes?_eq_some.2 h⟩

theorem isBoundary_zero (text : List Char) : isBoundary text 0 = true :=
  isBoundary_iff.2 ⟨[], text, rfl, rfl⟩

theorem isBoundary_byteLength (text : List Char) : isBoundary text (byteLength text) = true :=
  isBoundary_iff.2 ⟨text, [], by simp, rfl⟩

theorem le_byteLength_of_isBoundary (h : isBoundary text n = true) : n ≤ byteLength text := by
  obtain ⟨before, after, rfl, rfl⟩ := isBoundary_iff.1 h
  simp

/-! ## Slices -/

theorem slice?_eq_some {inside : List Char} {a b : Nat} :
    slice? text ⟨a, b⟩ = some inside ↔
      ∃ before after, text = before ++ inside ++ after ∧ byteLength before = a ∧
        byteLength before + byteLength inside = b := by
  unfold slice?
  constructor
  · intro h
    split at h
    · next hle =>
      cases h1 : splitBytes? a text with
      | none => simp [h1] at h
      | some p =>
        obtain ⟨before, rest⟩ := p
        simp only [h1, Option.bind_eq_bind, Option.bind_some] at h
        cases h2 : splitBytes? (b - a) rest with
        | none => simp [h2] at h
        | some q =>
          obtain ⟨m, after⟩ := q
          simp only [h2, Option.bind_some, Option.pure_def, Option.some.injEq] at h
          subst h
          obtain ⟨rfl, rfl⟩ := splitBytes?_eq_some.1 h1
          obtain ⟨rfl, hm⟩ := splitBytes?_eq_some.1 h2
          refine ⟨before, after, by simp, rfl, ?_⟩
          simp only at hle
          omega
    · cases h
  · rintro ⟨before, after, rfl, rfl, rfl⟩
    have h1 : splitBytes? (byteLength before) (before ++ (inside ++ after)) =
        some (before, inside ++ after) := splitBytes?_byteLength _ _
    have h2 : splitBytes? (byteLength inside) (inside ++ after) = some (inside, after) :=
      splitBytes?_byteLength _ _
    simp [List.append_assoc, h1, h2]

theorem exists_slice? {a b : Nat} (ha : isBoundary text a = true) (hb : isBoundary text b = true) (hab : a ≤ b) :
    ∃ before inside after, text = before ++ inside ++ after ∧ byteLength before = a ∧
      byteLength before + byteLength inside = b := by
  obtain ⟨x, y, hx, hxa⟩ := isBoundary_iff.1 ha
  obtain ⟨z, w, hz, hzb⟩ := isBoundary_iff.1 hb
  obtain ⟨m, hm, -⟩ := exists_append_of_byteLength_le (hx.symm.trans hz) (by omega)
  refine ⟨x, m, w, by rw [hz, hm], hxa, ?_⟩
  rw [hm, byteLength_append] at hzb
  omega

end Respell.Text
