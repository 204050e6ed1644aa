import Respell.Proofs.Grammar.Leading
import Respell.Proofs.Grammar.Production

/-!
Reading from the stream, as a calculus of forests.

`Gives tokens c es c' l` says that on the way from cursor `c` to cursor `c'` a rule has read the events
`es` of a forest: every token passed is in it, once and in order, no fault was taken back, and if none was
added the forest is grammatical with a row in `l`.  `Begins` says, beyond that, that code lies ahead at `c`
and that the events start with it.  Rules are put together from smaller ones in the same way as their
languages:

    Gives c es₁ c₁ l₁   →  Gives c₁ es₂ c₂ l₂  →  Gives c (es₁ ++ es₂) c₂ (l₁ * l₂)
    Begins c es₁ c₁ l₁  →  Gives c₁ es₂ c₂ l₂  →  Begins c (es₁ ++ es₂) c₂ (l₁ * l₂)
    Begins c es c' l    →  every row of l makes a node k in m  →  Begins c (wrap k es) c' m
-/

namespace Respell.Grammar

open List Syntax

/-! ## Running a parser -/

/-- Reading from `c` ends with a result and a cursor that satisfy `q`. -/
def Ends {α : Type} (m : Parser α) (c : Cursor) (q : α → Cursor → Prop) : Prop := q (m c).1 (m c).2

namespace Ends

variable {α β : Type} {m : Parser α} {f : α → Parser β} {c : Cursor} {r : α → Cursor → Prop} {q : β → Cursor → Prop}

theorem bind (hm : Ends m c r) (hf : ∀ a c', r a c' → Ends (f a) c' q) : Ends (m >>= f) c q := hf _ _ hm

theorem map {g : α → β} (hm : Ends m c r) (hg : ∀ a c', r a c' → q (g a) c') : Ends (g <$> m) c q :=
  hg _ _ hm

theorem get_bind {f : Cursor → Parser β} (hf : Ends (f c) c q) : Ends (get >>= f) c q := hf

theorem fault_bind {message : String} {f : Unit → Parser β} (hf : Ends (f ()) (c.fault message) q) :
    Ends (fault message >>= f) c q := hf

theorem map_bind {γ : Type} {g : α → γ} {f : γ → Parser β} (hm : Ends m c r)
    (hf : ∀ a c', r a c' → Ends (f (g a)) c' q) : Ends (g <$> m >>= f) c q := hf _ _ hm

theorem pure {a : β} (h : q a c) : Ends (Pure.pure a) c q := h

theorem mono {q' : α → Cursor → Prop} (hm : Ends m c r) (h : ∀ a c', r a c' → q' a c') : Ends m c q' :=
  h _ _ hm

end Ends

/-! ## Cursors on a stream -/

/-- The row of a forest over the stream. -/
abbrev row (tokens : List Token) (f : Forest Kind) : List Symbol := f.symbols (kindAt tokens) id

variable {tokens : List Token} {c c₀ c₁ c₂ : Cursor}

/-- Faults, the latest first: each at a token of the stream, none behind `bound` and none behind a later
one. -/
def Reported (tokens : List Token) (bound : Nat) : List Diagnostic → Prop
  | [] => True
  | d :: ds => ∃ i t, i ≤ bound ∧ tokens[i]? = some t ∧ d.range = t.range ∧ Reported tokens i ds

theorem Reported.mono {a b : Nat} {ds : List Diagnostic} (h : Reported tokens a ds) (hab : a ≤ b) :
    Reported tokens b ds := by
  cases ds with
  | nil => trivial
  | cons d ds =>
    obtain ⟨i, t, hi, h⟩ := h
    exact ⟨i, t, hi.trans hab, h⟩

namespace Cursor

/-- What lies ahead is the stream from the index on, with an end mark in it, and the faults so far are at
tokens up to the one ahead. -/
structure On (tokens : List Token) (c : Cursor) : Prop where
  rest : c.rest = tokens.drop c.index
  ended : ∃ i, c.index ≤ i ∧ i < tokens.length ∧ kindAt tokens i = .eof
  reported : Reported tokens c.index c.faults

/-- The cursor after the token ahead. -/
def next (c : Cursor) : Cursor :=
  { c with rest := c.rest.tail, index := c.index + 1, last := c.rest.head? }

@[simp] theorem next_index (c : Cursor) : c.next.index = c.index + 1 := rfl

@[simp] theorem next_faults (c : Cursor) : c.next.faults = c.faults := rfl

@[simp] theorem fault_index (c : Cursor) (m : String) : (c.fault m).index = c.index := rfl

@[simp] theorem fault_kind (c : Cursor) (m : String) : (c.fault m).kind = c.kind := rfl

@[simp] theorem next_kind (c : Cursor) : c.next.kind = c.nextKind := by
  simp only [kind, nextKind, next]
  cases c.rest with
  | nil => rfl
  | cons t ts => cases ts <;> rfl

theorem On.kind (h : c.On tokens) : c.kind = kindAt tokens c.index := by
  simp [Cursor.kind, kindAt, h.rest]

/-- There is always a token ahead: the end mark is never passed. -/
theorem On.lt_length (h : c.On tokens) : c.index < tokens.length := by
  obtain ⟨i, hi, hlt, _⟩ := h.ended
  omega

theorem On.next (h : c.On tokens) (hk : c.kind ≠ .eof) : c.next.On tokens := by
  refine ⟨by simp [Cursor.next, h.rest], ?_, h.reported.mono (Nat.le_succ _)⟩
  obtain ⟨i, hi, hlt, heof⟩ := h.ended
  rcases Nat.eq_or_lt_of_le hi with rfl | hi
  · exact absurd (h.kind.trans heof) hk
  · exact ⟨i, hi, hlt, heof⟩

theorem On.fault (h : c.On tokens) (m : String) : (c.fault m).On tokens := by
  have ht := getElem?_eq_getElem h.lt_length
  refine ⟨h.rest, h.ended, c.index, _, Nat.le_refl _, ht, ?_, h.reported⟩
  simp [h.rest, ht]

theorem nextKind_of_isNextAdjacent {k : Kind} (h : c.isNextAdjacent k = true) : c.nextKind = k := by
  unfold isNextAdjacent at h
  split at h
  · rename_i t next more heq
    simp_all [Cursor.nextKind]
  · cases h

theorem kind_of_isAdjacent {k : Kind} (h : c.isAdjacent k = true) : c.kind = k := by
  unfold isAdjacent at h
  split at h
  · simp_all [Cursor.kind]
  · cases h

end Cursor

/-! ## What has been read -/

/-- Between the two cursors lie the tokens of the forest; the faults of the first are faults of the
second, and nodes have code in front of nodes without code. -/
structure Reads (tokens : List Token) (c : Cursor) (f : Forest Kind) (c' : Cursor) : Prop where
  start : c.On tokens
  stop : c'.On tokens
  le : c.index ≤ c'.index
  tokens_eq : f.tokens = List.range' c.index (c'.index - c.index)
  faults : c.faults <:+ c'.faults
  anchored : f.Anchored (kindAt tokens)

theorem Reads.append {f g : Forest Kind} (hf : Reads tokens c f c₁) (hg : Reads tokens c₁ g c₂) :
    Reads tokens c (f.append g) c₂ where
  start := hf.start
  stop := hg.stop
  le := hf.le.trans hg.le
  tokens_eq := by
    rw [Forest.tokens_append, hf.tokens_eq, hg.tokens_eq, range'_append_range' hf.le hg.le]
  faults := hf.faults.trans hg.faults
  anchored := (Forest.anchored_append f g).2 ⟨hf.anchored, hg.anchored⟩

/-- If nothing was added to the faults, nothing was added on the way. -/
theorem Reads.clean {f g : Forest Kind} (hf : Reads tokens c f c₁) (hg : Reads tokens c₁ g c₂)
    (h : c₂.faults = c.faults) : c₁.faults = c.faults ∧ c₂.faults = c₁.faults := by
  have hle : c₁.faults.length ≤ c.faults.length := h ▸ hg.faults.length_le
  have heq := hf.faults.eq_of_length_le hle
  exact ⟨heq.symm, h.trans heq⟩

/-- A rule has read `es` from `c` to `c'`: the events of a forest, and if no fault was added one that is
grammatical and has a row in `l`. -/
def Gives (tokens : List Token) (c : Cursor) (es : List Event) (c' : Cursor) (l : Language Symbol) :
    Prop :=
  ∃ f : Forest Kind, es = f.events ∧ Reads tokens c f c' ∧
    (c'.faults = c.faults → f.Grammatical (kindAt tokens) id ∧ row tokens f ∈ l)

namespace Gives

variable {es es₁ es₂ : List Event} {l l₁ l₂ m : Language Symbol}

theorem stop (h : Gives tokens c es c₁ l) : c₁.On tokens := by
  obtain ⟨_, _, h, _⟩ := h
  exact h.stop

theorem le (h : Gives tokens c es c₁ l) : c.index ≤ c₁.index := by
  obtain ⟨_, _, h, _⟩ := h
  exact h.le

theorem nothing (h : c.On tokens) : Gives tokens c [] c 1 :=
  ⟨.nil, rfl, ⟨h, h, Nat.le_refl _, by simp [Forest.tokens], suffix_refl _, trivial⟩, fun _ => ⟨trivial, rfl⟩⟩

theorem mono (h : Gives tokens c es c₁ l) (hl : l ≤ m) : Gives tokens c es c₁ m := by
  obtain ⟨f, he, hr, hf⟩ := h
  exact ⟨f, he, hr, fun hc => ⟨(hf hc).1, hl (hf hc).2⟩⟩

/-- No row is in the empty language: it stands for what was read with a fault. -/
theorem not_clean (h : Gives tokens c es c₁ 0) : c₁.faults ≠ c.faults := by
  obtain ⟨f, _, _, hf⟩ := h
  exact fun hc => Language.notMem_zero _ (hf hc).2

theorem append (h₁ : Gives tokens c es₁ c₁ l₁) (h₂ : Gives tokens c₁ es₂ c₂ l₂) :
    Gives tokens c (es₁ ++ es₂) c₂ (l₁ * l₂) := by
  obtain ⟨f, rfl, hr₁, hf⟩ := h₁
  obtain ⟨g, rfl, hr₂, hg⟩ := h₂
  refine ⟨f.append g, by simp, hr₁.append hr₂, fun hc => ?_⟩
  obtain ⟨hc₁, hc₂⟩ := hr₁.clean hr₂ hc
  rw [Forest.grammatical_append, row, Forest.symbols_append]
  exact ⟨⟨(hf hc₁).1, (hg hc₂).1⟩, Language.append_mem_mul (hf hc₁).2 (hg hc₂).2⟩

/-- A node around what was read, in which code comes first. -/
theorem wrap {k : Kind} (h : Gives tokens c es c₁ l)
    (hfirst : (Forest.ofEvents es).CodeFirst (kindAt tokens))
    (hk : ∀ ss ∈ l, ss ∈ production k ∧ [Symbol.ofNode k ss] ∈ m) :
    Gives tokens c (Grammar.wrap k es) c₁ m := by
  obtain ⟨f, rfl, hr, hf⟩ := h
  rw [Forest.ofEvents_events] at hfirst
  refine ⟨.node k f .nil, rfl, ⟨hr.start, hr.stop, hr.le, ?_, hr.faults, hfirst, hr.anchored, trivial⟩, fun hc => ?_⟩
  · simp [Forest.tokens, hr.tokens_eq]
  · obtain ⟨hgr, hrow⟩ := hf hc
    exact ⟨⟨(hk _ hrow).1, hgr, trivial⟩, (hk _ hrow).2⟩

/-- Cleanness of the whole is cleanness of both halves. -/
theorem clean (h₁ : Gives tokens c es₁ c₁ l₁) (h₂ : Gives tokens c₁ es₂ c₂ l₂)
    (h : c₂.faults = c.faults) : c₁.faults = c.faults ∧ c₂.faults = c₁.faults := by
  obtain ⟨_, _, hr₁, _⟩ := h₁
  obtain ⟨_, _, hr₂, _⟩ := h₂
  exact hr₁.clean hr₂ h

theorem fault (h : Gives tokens c es c₁ l) (message : String) : Gives tokens c es (c₁.fault message) 0 := by
  obtain ⟨f, he, hr, _⟩ := h
  refine ⟨f, he, ⟨hr.start, hr.stop.fault _, hr.le, hr.tokens_eq, ?_, hr.anchored⟩, fun hc => ?_⟩
  · exact hr.faults.trans (suffix_cons _ _)
  · have h1 := hr.faults.length_le
    have h2 := congrArg List.length hc
    simp only [Cursor.fault, length_cons] at h2
    omega

theorem of_not_clean (h : Gives tokens c es c₁ l) (hc : c₁.faults ≠ c.faults) : Gives tokens c es c₁ m := by
  obtain ⟨f, he, hr, _⟩ := h
  exact ⟨f, he, hr, fun hc' => absurd hc' hc⟩

/-- Code comes first in what starts with it. -/
theorem codeFirst (h : Gives tokens c es c₁ l) (hcode : c.kind.isLayout = false)
    (htoken : reachesToken es = true) : (Forest.ofEvents es).CodeFirst (kindAt tokens) := by
  obtain ⟨f, rfl, hr, _⟩ := h
  rw [Forest.ofEvents_events]
  refine Forest.codeFirst_of_reachesToken htoken fun i hi => ?_
  rw [hr.tokens_eq, head?_range', Option.mem_def, Option.ite_none_left_eq_some] at hi
  rw [← Option.some.inj hi.2, ← hr.start.kind]
  exact hcode

end Gives

/-- What was read starts with the token ahead, and that is code. -/
structure Begins (tokens : List Token) (c : Cursor) (es : List Event) (c' : Cursor)
    (l : Language Symbol) : Prop where
  gives : Gives tokens c es c' l
  progress : c.index < c'.index
  code : c.kind.isLayout = false
  token : reachesToken es = true

namespace Begins

variable {es es' : List Event} {l l' m : Language Symbol}

theorem mono (h : Begins tokens c es c₁ l) (hl : l ≤ m) : Begins tokens c es c₁ m :=
  ⟨h.gives.mono hl, h.progress, h.code, h.token⟩

/-- What was read with a fault may be taken for anything. -/
theorem of_not_clean (h : Begins tokens c es c₁ l) (hc : c₁.faults ≠ c.faults) : Begins tokens c es c₁ m :=
  ⟨h.gives.of_not_clean hc, h.progress, h.code, h.token⟩

theorem append (h : Begins tokens c es c₁ l) (h' : Gives tokens c₁ es' c₂ l') :
    Begins tokens c (es ++ es') c₂ (l * l') :=
  ⟨h.gives.append h', h.progress.trans_le h'.le, h.code, reachesToken_append h.token _⟩

theorem wrap {k : Kind} (h : Begins tokens c es c₁ l)
    (hk : ∀ ss ∈ l, ss ∈ production k ∧ [Symbol.ofNode k ss] ∈ m) :
    Begins tokens c (Grammar.wrap k es) c₁ m :=
  ⟨h.gives.wrap (h.gives.codeFirst h.code h.token) hk, h.progress, h.code, reachesToken_wrap h.token k⟩

end Begins

/-! ## Single tokens -/

theorem take_eq (hk : c.kind ≠ .eof) : take c = (.token c.index, c.next) := by
  unfold take Cursor.next
  cases hrest : c.rest with
  | nil => simp [Cursor.kind, hrest] at hk
  | cons t rest =>
    have ht : t.kind ≠ .eof := by simpa [Cursor.kind, hrest] using hk
    simp [ht]

theorem take_eq_of_eof (hk : c.kind = .eof) : take c = (.nil, c) := by
  unfold take
  cases hrest : c.rest with
  | nil => rfl
  | cons t rest =>
    have ht : t.kind = .eof := by simpa [Cursor.kind, hrest] using hk
    simp [ht]

theorem gives_next (kinds : List Kind) (h : c.On tokens) (hk : c.kind ≠ .eof) (hmem : c.kind ∈ kinds) :
    Gives tokens c [.token c.index] c.next (word kinds) := by
  refine ⟨.token c.index .nil, rfl, ⟨h, h.next hk, by simp, by simp [Forest.tokens], ?_, trivial⟩, fun _ => ?_⟩
  · exact suffix_refl _
  · exact ⟨trivial, c.kind, hmem, by rw [h.kind]; rfl⟩

theorem ne_eof_of_code (hcode : c.kind.isLayout = false) : c.kind ≠ .eof := fun h => by
  simp [h, Kind.isLayout] at hcode

theorem begins_next (kinds : List Kind) (h : c.On tokens) (hcode : c.kind.isLayout = false)
    (hmem : c.kind ∈ kinds) : Begins tokens c [.token c.index] c.next (word kinds) :=
  ⟨gives_next kinds h (ne_eof_of_code hcode) hmem, Nat.lt_succ_self _, hcode, rfl⟩

theorem ends_take (hk : c.kind ≠ .eof) : Ends take c fun es c' => es = .token c.index ∧ c' = c.next := by
  rw [Ends, take_eq hk]
  exact ⟨rfl, rfl⟩

theorem ends_take_eof (hk : c.kind = .eof) : Ends take c fun es c' => es = .nil ∧ c' = c := by
  rw [Ends, take_eq_of_eof hk]
  exact ⟨rfl, rfl⟩

theorem ends_take_any (h : c.On tokens) : Ends take c fun es c' => Gives tokens c es c' (1 + word [c.kind]) := by
  by_cases hk : c.kind = .eof
  · refine (ends_take_eof hk).mono ?_
    rintro _ _ ⟨rfl, rfl⟩
    exact (Gives.nothing h).mono le_self_add
  · refine (ends_take hk).mono ?_
    rintro _ _ ⟨rfl, rfl⟩
    exact (gives_next [c.kind] h hk (mem_singleton_self _)).mono le_add_self

theorem ends_take? {k : Kind} (hk : k ≠ .eof) :
    Ends (take? k) c fun es c' =>
      (c.kind = k ∧ es = .token c.index ∧ c' = c.next) ∨ (c.kind ≠ k ∧ es = .nil ∧ c' = c) := by
  refine Ends.get_bind ?_
  split
  · rename_i heq
    exact (ends_take (heq ▸ hk)).mono fun _ _ h => Or.inl ⟨heq, h⟩
  · rename_i hne
    exact Ends.pure (Or.inr ⟨hne, rfl, rfl⟩)

theorem ends_optional {k : Kind} (h : c.On tokens) (hk : k ≠ .eof) :
    Ends (take? k) c fun es c' => Gives tokens c es c' (1 + word [k]) := by
  refine (ends_take? hk).mono ?_
  rintro es c' (⟨heq, rfl, rfl⟩ | ⟨_, rfl, rfl⟩)
  · exact (gives_next [k] h (heq ▸ hk) (mem_singleton.2 heq)).mono le_add_self
  · exact (Gives.nothing h).mono le_self_add

theorem ends_expect {k : Kind} (h : c.On tokens) (hk : k ≠ .eof) (message : String) :
    Ends (expect k message) c fun es c' => Gives tokens c es c' (word [k]) := by
  refine Ends.get_bind ?_
  split
  · rename_i heq
    refine (ends_take (heq ▸ hk)).mono ?_
    rintro _ _ ⟨rfl, rfl⟩
    exact gives_next [k] h (heq ▸ hk) (mem_singleton.2 heq)
  · exact Ends.fault_bind (Ends.pure (((Gives.nothing h).fault message).mono zero_le))

/-- A token that fits nowhere leaves a fault, and is passed unless it is the end. -/
theorem ends_unexpected (h : c.On tokens) (message : String) :
    Ends (unexpected message) c fun es c' =>
      Gives tokens c es c' 0 ∧ (c.kind ≠ .eof → c.index < c'.index ∧ reachesToken es = true) := by
  have hfault := (Gives.nothing h).fault message
  have hwrap : ∀ ss ∈ (0 : Language Symbol), ss ∈ production .error ∧
      [Symbol.ofNode .error ss] ∈ (0 : Language Symbol) := fun ss hss => absurd hss (Language.notMem_zero ss)
  refine Ends.fault_bind ?_
  by_cases hk : c.kind = .eof
  · refine Ends.bind (ends_take_eof (c := c.fault message) hk) ?_
    rintro _ _ ⟨rfl, rfl⟩
    exact Ends.pure ⟨hfault.wrap trivial hwrap, fun hne => absurd hk hne⟩
  · refine Ends.bind (ends_take (c := c.fault message) hk) ?_
    rintro _ _ ⟨rfl, rfl⟩
    have htoken := gives_next [c.kind] (h.fault message) hk (mem_singleton_self _)
    refine Ends.pure ⟨(hfault.append htoken).wrap (Or.inr trivial) ?_, fun _ => ⟨Nat.lt_succ_self _, rfl⟩⟩
    rwa [zero_mul]

end Respell.Grammar
