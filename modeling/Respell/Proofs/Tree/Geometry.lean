import Respell.Tree.Basic
import Respell.Proofs.Grammar.Production
import Respell.Proofs.Lexing.Comments
import Respell.Proofs.Lexing.Order

/-!
Where the nodes of a tree stand.

A node of a grammatical forest has a significant token, so its range goes from the start of its first to
the end of its last one.  Its elements that have code, in order, *tile* the range: the first starts where
the node starts, each ends before the next one starts, and the last ends where the node ends.  Nodes
are numbered in order, so a number names one node.
-/

namespace Respell

open List Syntax

variable {tokens : List Token} {text : List Char}

/-! ## Reaches -/

namespace Reach

/-- The reach of a row of tokens. -/
def ofTokens (tokens : List Token) : List Nat → Option Reach
  | [] => none
  | i :: is => join (ofToken tokens i) (ofTokens tokens is)

@[simp] theorem join_none (r : Option Reach) : join r none = r := by cases r <;> rfl

theorem join_assoc (r s t : Option Reach) : join (join r s) t = join r (join s t) := by
  cases r with
  | none => rfl
  | some r =>
    cases s with
    | none => simp [join]
    | some s => cases t <;> simp [join, Span.cover, Nat.min_assoc, Nat.max_assoc]

theorem ofTokens_append (is js : List Nat) :
    ofTokens tokens (is ++ js) = join (ofTokens tokens is) (ofTokens tokens js) := by
  induction is with
  | nil => rfl
  | cons i is ih => simp [ofTokens, ih, join_assoc]

theorem join_eq_none {r s : Option Reach} : join r s = none ↔ r = none ∧ s = none := by
  cases r <;> cases s <;> simp [join]

theorem ofToken_eq_some {i : Nat} {r : Reach} :
    ofToken tokens i = some r ↔
      ∃ t, tokens[i]? = some t ∧ t.isSignificant = true ∧ r = ⟨i, i, t.range⟩ := by
  unfold ofToken
  constructor
  · intro h
    split at h
    · rename_i t ht
      split at h
      · exact ⟨t, ht, ‹_›, (Option.some.inj h).symm⟩
      · cases h
    · cases h
  · rintro ⟨t, ht, hs, rfl⟩
    simp only [ht, hs, if_true]

/-- The reach goes from the first to the last significant token between `a` and `b`. -/
structure Spans (tokens : List Token) (r : Reach) (a b : Nat) : Prop where
  first : ∃ t, tokens[r.first]? = some t ∧ t.isSignificant = true ∧ t.range.start = r.range.start
  last : ∃ t, tokens[r.last]? = some t ∧ t.isSignificant = true ∧ t.range.stop = r.range.stop
  bounds : a ≤ r.first ∧ r.first ≤ r.last ∧ r.last < b
  before : ∀ i, a ≤ i → i < r.first → ofToken tokens i = none
  after : ∀ i, r.last < i → i < b → ofToken tokens i = none

/-- Tokens of a text, in order. -/
structure Ordered (text : List Char) (tokens : List Token) : Prop where
  inside : ∀ t ∈ tokens, t.isSignificant = true → t.range.Inside text
  before : tokens.Pairwise Token.Before

theorem ordered_ofText (text : List Char) : Ordered text (Lexed.ofText text).tokens :=
  ⟨fun _ => Lexed.inside_ofText, Lexed.ordered_ofText text⟩

variable {text : List Char}

theorem Ordered.lt (h : Ordered text tokens) {i j : Nat} {s t : Token} (hij : i < j)
    (hi : tokens[i]? = some s) (hj : tokens[j]? = some t) (hs : s.isSignificant = true)
    (ht : t.isSignificant = true) : s.range.stop ≤ t.range.start := by
  obtain ⟨hil, rfl⟩ := List.getElem?_eq_some_iff.1 hi
  obtain ⟨hjl, rfl⟩ := List.getElem?_eq_some_iff.1 hj
  exact pairwise_iff_getElem.1 h.before i j hil hjl hij hs ht

theorem Ordered.inside_of_getElem? (h : Ordered text tokens) {i : Nat} {t : Token}
    (hi : tokens[i]? = some t) (ht : t.isSignificant = true) : t.range.Inside text :=
  h.inside t (mem_of_getElem? hi) ht

/-- The range of a reach is a piece of the text. -/
theorem Spans.inside (h : Ordered text tokens) {r : Reach} {a b : Nat} (hr : r.Spans tokens a b) :
    r.range.Inside text := by
  obtain ⟨s, hs, hss, hstart⟩ := hr.first
  obtain ⟨t, ht, hts, hstop⟩ := hr.last
  have hsi := h.inside_of_getElem? hs hss
  have hti := h.inside_of_getElem? ht hts
  refine ⟨?_, hstart ▸ hsi.start, hstop ▸ hti.stop⟩
  have := hsi.nonempty
  have := hti.nonempty
  rcases Nat.eq_or_lt_of_le hr.bounds.2.1 with heq | hlt
  · rw [heq] at hs
    cases hs.symm.trans ht
    omega
  · have := h.lt hlt hs ht hss hts
    omega

theorem ofTokens_range' (h : Ordered text tokens) (a k : Nat) :
    match ofTokens tokens (List.range' a k) with
    | none => ∀ i, a ≤ i → i < a + k → ofToken tokens i = none
    | some r => r.Spans tokens a (a + k) := by
  induction k generalizing a with
  | zero => exact fun i h1 h2 => by omega
  | succ k ih =>
    have ih := ih (a + 1)
    rw [range'_succ, ofTokens]
    cases hhead : ofToken tokens a with
    | none =>
      cases htail : ofTokens tokens (List.range' (a + 1) k) with
      | none =>
        rw [htail] at ih
        intro i h1 h2
        rcases Nat.eq_or_lt_of_le h1 with rfl | h1
        · exact hhead
        · exact ih i h1 (by omega)
      | some r =>
        rw [htail] at ih
        obtain ⟨hf, hl, hb, hbefore, hafter⟩ := ih
        refine ⟨hf, hl, by omega, fun i h1 h2 => ?_, fun i h1 h2 => hafter i h1 (by omega)⟩
        rcases Nat.eq_or_lt_of_le h1 with rfl | h1
        · exact hhead
        · exact hbefore i h1 h2
    | some r₀ =>
      obtain ⟨t, ht, hts, rfl⟩ := ofToken_eq_some.1 hhead
      cases htail : ofTokens tokens (List.range' (a + 1) k) with
      | none =>
        rw [htail] at ih
        exact ⟨⟨t, ht, hts, rfl⟩, ⟨t, ht, hts, rfl⟩, by simp, fun i h1 h2 => by simp at h2; omega,
          fun i h1 h2 => ih i h1 (by omega)⟩
      | some r =>
        rw [htail] at ih
        have hin := ih.inside h
        obtain ⟨⟨s, hs, hss, hstart⟩, ⟨u, hu, hus, hstop⟩, hb, _, hafter⟩ := ih
        have hle := h.lt (by omega : a < r.first) ht hs hts hss
        have hti := (h.inside_of_getElem? ht hts).nonempty
        have hri := hin.nonempty
        refine ⟨⟨t, ht, hts, ?_⟩, ⟨u, hu, hus, ?_⟩, by simp; omega, fun i h1 h2 => ?_, fun i h1 h2 => ?_⟩
        iterate 2 simp [Span.cover]; omega
        · simp at h2; omega
        · exact hafter i h1 (by omega)

end Reach

/-! ## Tilings -/

/-- The spans, none of them empty, follow each other from `start` to `stop`. -/
def Tiled (start stop : Nat) : List Span → Prop
  | [] => False
  | [r] => r.start = start ∧ r.start < r.stop ∧ r.stop = stop
  | r :: s :: more => r.start = start ∧ r.start < r.stop ∧ r.stop ≤ s.start ∧ Tiled s.start stop (s :: more)

namespace Tiled

variable {rs : List Span}

theorem cons {a b : Nat} {r : Span} (h : Tiled a b rs) (hr : r.start < r.stop) (hle : r.stop ≤ a) :
    Tiled r.start b (r :: rs) := by
  cases rs with
  | nil => exact h.elim
  | cons s more =>
    have hs : s.start = a := by cases more <;> exact h.1
    exact ⟨rfl, hr, hs ▸ hle, hs ▸ h⟩

theorem append {a b a' b' : Nat} {ss : List Span} (h : Tiled a b rs) (h' : Tiled a' b' ss) (hle : b ≤ a') :
    Tiled a b' (rs ++ ss) := by
  induction rs generalizing a with
  | nil => exact h.elim
  | cons r rs ih =>
    cases rs with
    | nil =>
      obtain ⟨rfl, hr, rfl⟩ := h
      exact h'.cons hr hle
    | cons s more =>
      obtain ⟨rfl, hr, hrs, hmore⟩ := h
      exact ⟨rfl, hr, hrs, ih hmore⟩

theorem lt {a b : Nat} (h : Tiled a b rs) : a < b := by
  induction rs generalizing a with
  | nil => exact h.elim
  | cons r rs ih =>
    cases rs with
    | nil =>
      obtain ⟨rfl, hr, rfl⟩ := h
      exact hr
    | cons s more =>
      obtain ⟨rfl, hr, hrs, hmore⟩ := h
      have := ih hmore
      omega

/-- Each span lies between the ends. -/
theorem mem {a b : Nat} (h : Tiled a b rs) {r : Span} (hr : r ∈ rs) : a ≤ r.start ∧ r.start < r.stop ∧ r.stop ≤ b := by
  induction rs generalizing a with
  | nil => exact h.elim
  | cons s rs ih =>
    cases rs with
    | nil =>
      obtain ⟨rfl, hs, rfl⟩ := h
      rw [mem_singleton.1 hr]
      omega
    | cons t more =>
      obtain ⟨rfl, hs, hst, hmore⟩ := h
      have hlt := hmore.lt
      rcases mem_cons.1 hr with rfl | hr
      · omega
      · have := ih hmore hr
        omega

/-- Each span ends before those after it start. -/
theorem pairwise {a b : Nat} (h : Tiled a b rs) : rs.Pairwise fun r s => r.stop ≤ s.start := by
  induction rs generalizing a with
  | nil => exact List.Pairwise.nil
  | cons r rs ih =>
    cases rs with
    | nil => exact pairwise_singleton _ _
    | cons s more =>
      obtain ⟨rfl, _, hrs, hmore⟩ := h
      refine pairwise_cons.2 ⟨fun t ht => ?_, ih hmore⟩
      have := hmore.mem ht
      omega

end Tiled

/-! ## Spans in order -/

/-- Pieces of the text between two offsets, from left to right, with at least `gap` bytes in front of
each. -/
def InOrder (text : List Char) (gap start stop : Nat) : List Span → Prop
  | [] => start ≤ stop
  | r :: more => start + gap ≤ r.start ∧ r.Inside text ∧ InOrder text gap r.stop stop more

namespace InOrder

variable {text : List Char} {gap a b c : Nat} {rs ss : List Span}

theorem mem (h : InOrder text gap a b rs) {r : Span} (hr : r ∈ rs) :
    a + gap ≤ r.start ∧ r.Inside text ∧ r.stop ≤ b := by
  induction rs generalizing a r with
  | nil => cases hr
  | cons s more ih =>
    obtain ⟨hstart, hin, hmore⟩ := h
    have hlt := hin.nonempty
    rcases mem_cons.1 hr with rfl | hr
    · refine ⟨hstart, hin, ?_⟩
      cases more with
      | nil => exact hmore
      | cons t more =>
        have := ih hmore mem_cons_self
        have := this.2.1.nonempty
        omega
    · have := ih hmore hr
      exact ⟨by omega, this.2⟩

/-- Before the first piece is before all. -/
theorem lt_start {r : Span} (h : InOrder text gap a b (r :: rs)) {p : Nat} (hp : p < r.start) :
    ∀ s ∈ r :: rs, p < s.start := by
  refine forall_mem_cons.2 ⟨hp, fun s hs => ?_⟩
  have := h.2.1.nonempty
  have := (h.2.2.mem hs).1
  omega

theorem pairwise (h : InOrder text gap a b rs) : rs.Pairwise fun r s => r.stop + gap ≤ s.start := by
  induction rs generalizing a with
  | nil => exact List.Pairwise.nil
  | cons r more ih => exact pairwise_cons.2 ⟨fun s hs => (h.2.2.mem hs).1, ih h.2.2⟩

theorem append (h : InOrder text gap a b rs) (h' : InOrder text gap b c ss) : InOrder text gap a c (rs ++ ss) := by
  induction rs generalizing a with
  | nil =>
    cases ss with
    | nil => exact Nat.le_trans h h'
    | cons s more =>
      have hab : a ≤ b := h
      exact ⟨Nat.le_trans (by omega) h'.1, h'.2⟩
  | cons r more ih => exact ⟨h.1, h.2.1, ih h.2.2⟩

theorem mono {gap' : Nat} (h : InOrder text gap a b rs) (hgap : gap' ≤ gap) : InOrder text gap' a b rs := by
  induction rs generalizing a with
  | nil => exact h
  | cons r more ih => exact ⟨Nat.le_trans (by omega) h.1, h.2.1, ih h.2.2⟩

/-- Pieces that touch at most, some of them left out. -/
theorem of_pairwise (hin : ∀ r ∈ rs, a ≤ r.start ∧ r.Inside text ∧ r.stop ≤ b) (hab : a ≤ b)
    (h : rs.Pairwise fun r s => r.stop ≤ s.start) : InOrder text 0 a b rs := by
  induction rs generalizing a with
  | nil => exact hab
  | cons r more ih =>
    obtain ⟨hr, hmore⟩ := pairwise_cons.1 h
    obtain ⟨h1, h2, h3⟩ := hin r mem_cons_self
    exact ⟨h1, h2, ih (fun s hs => ⟨hr s hs, (hin s (mem_cons_of_mem _ hs)).2⟩) h3 hmore⟩

end InOrder

/-! ## Labels -/

namespace Forest

variable {kinds : Nat → Kind}

theorem label_tokens (f : Forest Kind) (next lastEnd : Nat) :
    (f.label tokens next lastEnd).forest.tokens = f.tokens := by
  induction f generalizing next lastEnd with
  | nil => rfl
  | token i rest ih => simp [label, Forest.tokens, ih]
  | node k inside rest ihInside ih => simp [label, Forest.tokens, ihInside, ih]

theorem label_symbols (f : Forest Kind) (next lastEnd : Nat) :
    (f.label tokens next lastEnd).forest.symbols kinds Label.kind = f.symbols kinds id := by
  induction f generalizing next lastEnd with
  | nil => rfl
  | token i rest ih => simp [label, symbols, ih]
  | node k inside rest ihInside ih => simp [label, symbols, ihInside, ih]

theorem label_grammatical (f : Forest Kind) (next lastEnd : Nat) :
    (f.label tokens next lastEnd).forest.Grammatical kinds Label.kind ↔ f.Grammatical kinds id := by
  induction f generalizing next lastEnd with
  | nil => rfl
  | token i rest ih => simp [label, Grammatical, ih]
  | node k inside rest ihInside ih => simp [label, Grammatical, ihInside, ih, label_symbols]

theorem label_reach (f : Forest Kind) (next lastEnd : Nat) :
    (f.label tokens next lastEnd).reach = Reach.ofTokens tokens f.tokens := by
  induction f generalizing next lastEnd with
  | nil => rfl
  | token i rest ih => simp [label, Forest.tokens, Reach.ofTokens, ih]
  | node k inside rest ihInside ih =>
    simp [label, Forest.tokens, Reach.ofTokens_append, ihInside, ih]

/-- Nodes are numbered in the order in which they start. -/
theorem label_ids (f : Forest Kind) (next lastEnd : Nat) :
    next ≤ (f.label tokens next lastEnd).next ∧
      (f.label tokens next lastEnd).forest.labels.map Label.id =
        List.range' next ((f.label tokens next lastEnd).next - next) := by
  induction f generalizing next lastEnd with
  | nil => simp [label, labels]
  | token i rest ih => exact ih next _
  | node k inside rest ihInside ih =>
    obtain ⟨h1, hids⟩ := ihInside (next + 1) lastEnd
    obtain ⟨h2, hids'⟩ := ih (inside.label tokens (next + 1) lastEnd).next
      (inside.label tokens (next + 1) lastEnd).lastEnd
    simp only [label, labels, map_cons, map_append, hids, hids']
    refine ⟨by omega, ?_⟩
    rw [range'_append_range' h1 h2, ← range'_succ]
    congr 1
    omega

/-- The ranges of the elements that have code. -/
def ranges (tokens : List Token) : Forest Label → List Span
  | nil => []
  | token i rest => ((Reach.ofToken tokens i).map Reach.range).toList ++ rest.ranges tokens
  | node l _ rest => l.range :: rest.ranges tokens

theorem ofToken_ne_none {i : Nat} (h : (kindAt tokens i).isLayout = false) : Reach.ofToken tokens i ≠ none := by
  unfold kindAt at h
  unfold Reach.ofToken
  cases ht : tokens[i]? with
  | none => simp [ht, Kind.isLayout] at h
  | some t => simp_all [Token.isSignificant]

/-- A forest with code in its row has a significant token. -/
theorem ofTokens_ne_none {f : Forest Kind} (hf : f.Grammatical (kindAt tokens) id)
    (hrow : f.symbols (kindAt tokens) id ∈ filled) : Reach.ofTokens tokens f.tokens ≠ none := by
  induction f with
  | nil =>
    obtain ⟨s, hs, _⟩ := hrow
    cases hs
  | token i rest ih =>
    rw [Forest.tokens, Reach.ofTokens, Ne, Reach.join_eq_none, not_and_or]
    obtain ⟨s, hs, hsub⟩ := hrow
    rcases mem_cons.1 hs with rfl | hs
    · exact Or.inl (ofToken_ne_none (by simpa [Symbol.isSubstantial] using hsub))
    · exact Or.inr (ih hf ⟨s, hs, hsub⟩)
  | node k inside rest ihInside _ =>
    rw [Forest.tokens, Reach.ofTokens_append, Ne, Reach.join_eq_none, not_and_or]
    exact Or.inl (ihInside hf.2.1 (production_le_filled _ hf.1))

/-- The spans tile the range of a reach; without a reach there are none. -/
def Tiles : Option Reach → List Span → Prop
  | none, rs => rs = []
  | some r, rs => Tiled r.range.start r.range.stop rs

theorem Tiles.join {o o' : Option Reach} {rs rs' : List Span} (h : Tiles o rs) (h' : Tiles o' rs')
    (hle : ∀ r ∈ o, ∀ r' ∈ o', r.range.stop ≤ r'.range.start) : Tiles (Reach.join o o') (rs ++ rs') := by
  cases o with
  | none =>
    rw [show rs = [] from h]
    exact h'
  | some r =>
    cases o' with
    | none =>
      rw [show rs' = [] from h', List.append_nil]
      exact h
    | some r' =>
      have hle := hle r rfl r' rfl
      have h1 := Tiled.lt h
      have h2 := Tiled.lt h'
      have hmin : min r.range.start r'.range.start = r.range.start := by omega
      have hmax : max r.range.stop r'.range.stop = r'.range.stop := by omega
      simp only [Reach.join, Tiles, Span.cover, hmin, hmax]
      exact Tiled.append h h' hle

section Ranges

variable {text : List Char}

theorem tiles_ofToken (h : Reach.Ordered text tokens) (i : Nat) :
    Tiles (Reach.ofToken tokens i) ((Reach.ofToken tokens i).map Reach.range).toList := by
  cases hr : Reach.ofToken tokens i with
  | none => rfl
  | some r =>
    obtain ⟨t, ht, hts, rfl⟩ := Reach.ofToken_eq_some.1 hr
    exact ⟨rfl, (h.inside_of_getElem? ht hts).nonempty, rfl⟩

/-- What lies further on in the stream starts later. -/
theorem le_of_ofTokens (h : Reach.Ordered text tokens) {a m n : Nat} {r r' : Reach}
    (hr : Reach.ofTokens tokens (List.range' a m) = some r)
    (hr' : Reach.ofTokens tokens (List.range' (a + m) n) = some r') : r.range.stop ≤ r'.range.start := by
  have hs := Reach.ofTokens_range' h a m
  have hs' := Reach.ofTokens_range' h (a + m) n
  rw [hr] at hs
  rw [hr'] at hs'
  obtain ⟨t, ht, hts, hstop⟩ := hs.last
  obtain ⟨t', ht', hts', hstart⟩ := hs'.first
  have := hs.bounds
  have := hs'.bounds
  rw [← hstop, ← hstart]
  exact h.lt (by omega) ht ht' hts hts'

/-- The elements of a forest that have code tile its reach. -/
theorem tiles_label (h : Reach.Ordered text tokens) {f : Forest Kind}
    (hf : f.Grammatical (kindAt tokens) id) {a k : Nat} (ht : f.tokens = List.range' a k)
    (next lastEnd : Nat) :
    Tiles (Reach.ofTokens tokens f.tokens) ((f.label tokens next lastEnd).forest.ranges tokens) := by
  induction f generalizing a k next lastEnd with
  | nil => rfl
  | token i rest ih =>
    obtain ⟨m, _, hhead, hrest⟩ := range'_split (show [i] ++ rest.tokens = _ from ht)
    refine (tiles_ofToken h i).join (ih hf hrest next _) fun r hr r' hr' => ?_
    refine le_of_ofTokens h (a := a) (m := m) (n := k - m) ?_ (hrest ▸ hr')
    rw [← hhead, Reach.ofTokens, Reach.ofTokens, Reach.join_none]
    exact hr
  | node l inside rest _ ih =>
    obtain ⟨m, _, hinside, hrest⟩ := range'_split ht
    obtain ⟨r, hr⟩ := Option.ne_none_iff_exists'.1 (ofTokens_ne_none hf.2.1 (production_le_filled _ hf.1))
    have hspans := Reach.ofTokens_range' h a m
    rw [← hinside, hr] at hspans
    rw [Forest.tokens, Reach.ofTokens_append, label, ranges, ← singleton_append]
    refine Tiles.join ?_ (ih hf.2.2 hrest _ _) fun r₁ hr₁ r₂ hr₂ => ?_
    · rw [hr, label_reach, hr]
      exact ⟨rfl, (hspans.inside h).nonempty, rfl⟩
    · exact le_of_ofTokens h (hinside ▸ hr₁) (hrest ▸ hr₂)

end Ranges

end Forest

/-! ## Nodes in their places -/

/-- The elements of a node tile its range, a piece of the text, and the node knows the first and the
last significant token of those in it. -/
structure Label.Placed (text : List Char) (tokens : List Token) (l : Label) (inside : Forest Label) :
    Prop where
  tiled : Tiled l.range.start l.range.stop (inside.ranges tokens)
  piece : l.range.Inside text
  reach : ∃ a k, inside.tokens = List.range' a k ∧
    ∃ r : Reach, r.Spans tokens a (a + k) ∧ l.tokens = some (r.first, r.last) ∧ l.range = r.range

/-- Every node of the forest is in its place. -/
def Forest.Placed (text : List Char) (tokens : List Token) : Forest Label → Prop
  | .nil => True
  | .token _ rest => rest.Placed text tokens
  | .node l inside rest =>
    l.Placed text tokens inside ∧ inside.Placed text tokens ∧ rest.Placed text tokens

theorem Forest.placed_label (h : Reach.Ordered text tokens) {f : Forest Kind} (hf : f.Grammatical (kindAt tokens) id)
    {a k : Nat} (ht : f.tokens = List.range' a k) (next lastEnd : Nat) :
    (f.label tokens next lastEnd).forest.Placed text tokens := by
  induction f generalizing a k next lastEnd with
  | nil => trivial
  | token i rest ih =>
    obtain ⟨m, _, _, hrest⟩ := range'_split (show [i] ++ rest.tokens = _ from ht)
    exact ih hf hrest next _
  | node l inside rest ihInside ih =>
    obtain ⟨m, _, hinside, hrest⟩ := range'_split ht
    refine ⟨?_, ihInside hf.2.1 hinside _ _, ih hf.2.2 hrest _ _⟩
    obtain ⟨r, hr⟩ := Option.ne_none_iff_exists'.1 (ofTokens_ne_none hf.2.1 (production_le_filled _ hf.1))
    have htiles := tiles_label h hf.2.1 hinside (next + 1) lastEnd
    have hspans := Reach.ofTokens_range' h a m
    rw [← hinside, hr] at hspans
    rw [hr] at htiles
    have hreach : (inside.label tokens (next + 1) lastEnd).reach = some r :=
      (inside.label_reach _ _).trans hr
    refine ⟨?_, ?_, a, m, ?_, r, hspans, ?_, ?_⟩
    · simp only [hreach, Option.map_some, Option.getD_some]
      exact htiles
    · simp only [hreach, Option.map_some, Option.getD_some]
      exact hspans.inside h
    · rw [label_tokens, hinside]
    · simp only [hreach, Option.map_some]
    · simp only [hreach, Option.map_some, Option.getD_some]

/-- A node whose rows are those of the grammar, with every node in its place and no number twice, over
tokens in order. -/
structure Node.Sound (tree : Tree) (n : Node) : Prop where
  ordered : Reach.Ordered tree.text tree.tokens
  grammatical : n.toForest.Grammatical tree.kindAt Label.kind
  placed : n.toForest.Placed tree.text tree.tokens
  ids : (n.toForest.labels.map Label.id).Nodup

namespace Node

variable {tree : Tree} {n c : Node}

theorem Sound.row (h : n.Sound tree) : n.elements.symbols tree.kindAt Label.kind ∈ production n.kind := h.grammatical.1

theorem Sound.tiled (h : n.Sound tree) :
    Tiled n.range.start n.range.stop (n.elements.ranges tree.tokens) := h.placed.1.tiled

theorem Sound.inside (h : n.Sound tree) : n.range.Inside tree.text := h.placed.1.piece

end Node

variable {f : Forest Label} {c : Node}

theorem Forest.grammatical_of_mem {kinds : Nat → Kind} (hc : c ∈ f.nodes) (h : f.Grammatical kinds Label.kind) :
    c.toForest.Grammatical kinds Label.kind := by
  induction f with
  | nil => cases hc
  | token i rest ih => exact ih hc h
  | node l inside rest _ ih =>
    rcases mem_cons.1 hc with rfl | hc
    · exact ⟨h.1, h.2.1, trivial⟩
    · exact ih hc h.2.2

theorem Forest.placed_of_mem (hc : c ∈ f.nodes) (h : f.Placed text tokens) : c.toForest.Placed text tokens := by
  induction f with
  | nil => cases hc
  | token i rest ih => exact ih hc h
  | node l inside rest _ ih =>
    rcases mem_cons.1 hc with rfl | hc
    · exact ⟨h.1, h.2.1, trivial⟩
    · exact ih hc h.2.2

theorem Forest.unwrap_mem (self : Node) (f : Forest Label) : f.unwrap self ∈ self :: f.descendants := by
  induction f generalizing self with
  | nil => exact mem_cons_self
  | token i rest ih => exact ih self
  | node l inside rest ihInside _ =>
    have hmem := ihInside ⟨l, inside⟩
    unfold unwrap Forest.descendants
    split
    · refine mem_cons_of_mem _ ?_
      rcases mem_cons.1 hmem with heq | hmem
      · rw [heq]
        exact mem_cons_self
      · exact mem_cons_of_mem _ (mem_append_left _ hmem)
    · exact mem_cons_of_mem _ mem_cons_self

/-- What is left of a node without its parentheses is one of the nodes in it. -/
theorem Node.unwrapParens_mem (n : Node) : n.unwrapParens ∈ n.descendants := by
  have hdescendants : n.descendants = n :: n.elements.descendants := by
    simp [descendants, toForest, Forest.descendants]
  rw [hdescendants]
  unfold unwrapParens
  split
  · exact Forest.unwrap_mem n n.elements
  · exact mem_cons_self

theorem Forest.labels_sublist_of_mem (hc : c ∈ f.nodes) : c.toForest.labels.Sublist f.labels := by
  induction f with
  | nil => cases hc
  | token i rest ih => exact ih hc
  | node l inside rest _ ih =>
    rcases mem_cons.1 hc with rfl | hc
    · simp [Node.toForest, labels]
    · exact ((ih hc).trans (sublist_append_right _ _)).cons _

theorem Node.Sound.child {tree : Tree} {n : Node} (h : n.Sound tree) (hc : c ∈ n.children) : c.Sound tree where
  ordered := h.ordered
  grammatical := Forest.grammatical_of_mem hc h.grammatical.2.1
  placed := Forest.placed_of_mem hc h.placed.2.1
  ids := by
    have hsub : c.toForest.labels.Sublist n.toForest.labels := by
      refine (Forest.labels_sublist_of_mem hc).trans ?_
      simp [Node.toForest, Forest.labels]
    exact h.ids.sublist (hsub.map _)

/-- Children lie in order in the range of their parent. -/
theorem Forest.nodes_sublist_ranges (f : Forest Label) : (f.nodes.map fun c => c.range).Sublist (f.ranges tokens) := by
  induction f with
  | nil => exact List.Sublist.refl _
  | token i rest ih => exact ih.trans (sublist_append_right _ _)
  | node l inside rest _ ih => exact ih.cons_cons _

end Respell
