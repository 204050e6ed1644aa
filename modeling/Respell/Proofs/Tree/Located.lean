import Respell.Proofs.Tree.Parsed

/-!
Where every node of a text stands, faults or not.

A node that covers the tokens from `a` up to `b` has the range of the significant ones among them, and if
there is none it is empty and stands at `endBefore a`, where the last significant token before it ends.
From this alone nodes that follow each other are in order.  That a node lies inside its parent needs the
grammar too: no node with code starts with a child without code.
-/

namespace Respell

open List

variable {text : List Char} {tokens : List Token}

/-! ## The end of the code before a token -/

theorem Reach.ofToken_eq_none {i : Nat} : ofToken tokens i = none ↔ (kindAt tokens i).isLayout = true := by
  unfold ofToken kindAt
  cases tokens[i]? with
  | none => simp [Kind.isLayout]
  | some t => cases h : t.kind.isLayout <;> simp [Token.isSignificant, h]

/-- Where the last significant token before token `a` ends. -/
def endBefore (tokens : List Token) (a : Nat) : Nat :=
  ((Reach.ofTokens tokens (List.range' 0 a)).map fun r => r.range.stop).getD 0

theorem endBefore_zero (tokens : List Token) : endBefore tokens 0 = 0 := rfl

section EndBefore

variable (h : Reach.Ordered text tokens) {a b i j : Nat} {t : Token}
include h

theorem stop_le_endBefore (hi : i < a) (ht : tokens[i]? = some t) (hs : t.isSignificant = true) :
    t.range.stop ≤ endBefore tokens a := by
  have hspans := Reach.ofTokens_range' h 0 a
  unfold endBefore
  cases hr : Reach.ofTokens tokens (List.range' 0 a) with
  | none =>
    rw [hr] at hspans
    have := hspans i (Nat.zero_le _) (by omega)
    rw [Reach.ofToken_eq_some.2 ⟨t, ht, hs, rfl⟩] at this
    cases this
  | some r =>
    rw [hr] at hspans
    show t.range.stop ≤ r.range.stop
    obtain ⟨u, hu, hus, hstop⟩ := hspans.last
    rw [← hstop]
    rcases Nat.lt_trichotomy i r.last with hlt | heq | hgt
    · have := h.lt hlt ht hu hs hus
      have := (h.inside_of_getElem? hu hus).nonempty
      omega
    · subst heq
      cases ht.symm.trans hu
      exact Nat.le_refl _
    · have := hspans.after i hgt (by omega)
      rw [Reach.ofToken_eq_some.2 ⟨t, ht, hs, rfl⟩] at this
      cases this

/-- It is the end of a token, unless there is none. -/
theorem endBefore_cases (a : Nat) : endBefore tokens a = 0 ∨
    ∃ i < a, ∃ t, tokens[i]? = some t ∧ t.isSignificant = true ∧ t.range.stop = endBefore tokens a := by
  have hspans := Reach.ofTokens_range' h 0 a
  unfold endBefore
  cases hr : Reach.ofTokens tokens (List.range' 0 a) with
  | none => exact Or.inl rfl
  | some r =>
    rw [hr] at hspans
    have := hspans.bounds
    exact Or.inr ⟨r.last, by omega, hspans.last⟩

theorem endBefore_le_start (ha : a ≤ j) (ht : tokens[j]? = some t) (hs : t.isSignificant = true) :
    endBefore tokens a ≤ t.range.start := by
  rcases endBefore_cases h a with hzero | ⟨i, hi, u, hu, hus, hstop⟩
  · omega
  · rw [← hstop]
    exact h.lt (by omega) hu ht hus hs

theorem endBefore_mono (hab : a ≤ b) : endBefore tokens a ≤ endBefore tokens b := by
  rcases endBefore_cases h a with hzero | ⟨i, hi, u, hu, hus, hstop⟩
  · omega
  · rw [← hstop]
    exact stop_le_endBefore h (by omega) hu hus

/-- Layout does not move it. -/
theorem endBefore_eq_of_layout (hab : a ≤ b)
    (hnone : ∀ i, a ≤ i → i < b → Reach.ofToken tokens i = none) :
    endBefore tokens b = endBefore tokens a := by
  have hmono := endBefore_mono h hab
  rcases endBefore_cases h b with hzero | ⟨i, hi, u, hu, hus, hstop⟩
  · omega
  · by_cases hia : i < a
    · have := stop_le_endBefore h hia hu hus
      omega
    · have := hnone i (by omega) hi
      rw [Reach.ofToken_eq_some.2 ⟨u, hu, hus, rfl⟩] at this
      cases this

theorem lastEndAfter_endBefore (a : Nat) : lastEndAfter tokens a (endBefore tokens a) = endBefore tokens (a + 1) := by
  unfold lastEndAfter
  split
  · rename_i r hr
    obtain ⟨t, ht, hs, rfl⟩ := Reach.ofToken_eq_some.1 hr
    refine Nat.le_antisymm (stop_le_endBefore h (Nat.lt_succ_self a) ht hs) ?_
    rcases endBefore_cases h (a + 1) with hzero | ⟨i, hi, u, hu, hus, hstop⟩
    · omega
    · rw [← hstop]
      rcases Nat.eq_or_lt_of_le (Nat.le_of_lt_succ hi) with heq | hlt
      · subst heq
        cases hu.symm.trans ht
        exact Nat.le_refl _
      · have := h.lt hlt hu ht hus hs
        have := (h.inside_of_getElem? ht hs).nonempty
        show u.range.stop ≤ t.range.stop
        omega
  · rename_i hnone
    refine (endBefore_eq_of_layout h (Nat.le_succ a) fun i h1 h2 => ?_).symm
    rwa [show i = a by omega]

end EndBefore

/-! ## Labels over tokens -/

/-- Significant tokens in order start and end in order. -/
theorem Reach.Ordered.le (h : Ordered text tokens) {i j : Nat} {s t : Token} (hij : i ≤ j)
    (hi : tokens[i]? = some s) (hj : tokens[j]? = some t) (hs : s.isSignificant = true)
    (ht : t.isSignificant = true) : s.range.start ≤ t.range.start ∧ s.range.stop ≤ t.range.stop := by
  rcases Nat.eq_or_lt_of_le hij with rfl | hlt
  · cases hi.symm.trans hj
    exact ⟨Nat.le_refl _, Nat.le_refl _⟩
  · have hlt := h.lt hlt hi hj hs ht
    have := (h.inside_of_getElem? hi hs).nonempty
    have := (h.inside_of_getElem? hj ht).nonempty
    omega

namespace Label

/-- The label of a node over the `k` tokens from token `a` on. -/
inductive Covers (tokens : List Token) (l : Label) (a k : Nat) : Prop
  | code (r : Reach) (spans : r.Spans tokens a (a + k)) (range : l.range = r.range)
      (ends : l.tokens = some (r.first, r.last))
  | layout (blank : ∀ i, a ≤ i → i < a + k → Reach.ofToken tokens i = none)
      (range : l.range = .empty (endBefore tokens a)) (ends : l.tokens = none)

/-- The range and the tokens of one node lie in those of another. -/
structure Within (inner outer : Label) : Prop where
  start : outer.range.start ≤ inner.range.start
  stop : inner.range.stop ≤ outer.range.stop
  tokens : ∀ p ∈ inner.tokens, ∃ q ∈ outer.tokens, q.1 ≤ p.1 ∧ p.2 ≤ q.2

theorem Within.refl (l : Label) : l.Within l :=
  ⟨Nat.le_refl _, Nat.le_refl _, fun p hp => ⟨p, hp, Nat.le_refl _, Nat.le_refl _⟩⟩

theorem Within.trans {l m n : Label} (h : l.Within m) (h' : m.Within n) : l.Within n := by
  refine ⟨h'.start.trans h.start, h.stop.trans h'.stop, fun p hp => ?_⟩
  obtain ⟨q, hq, hq1, hq2⟩ := h.tokens p hp
  obtain ⟨r, hr, hr1, hr2⟩ := h'.tokens q hq
  exact ⟨r, hr, hr1.trans hq1, hq2.trans hr2⟩

variable {l m : Label} {a b k n : Nat}

/-- Nodes over tokens further on stand further on. -/
theorem Covers.stop_le_start (h : Reach.Ordered text tokens) (hl : l.Covers tokens a k)
    (hm : m.Covers tokens b n) (hab : a + k ≤ b) : l.range.stop ≤ m.range.start := by
  cases hl with
  | code r hspans hrange _ =>
    obtain ⟨t, ht, hts, hstop⟩ := hspans.last
    have := hspans.bounds
    rw [hrange, ← hstop]
    cases hm with
    | code r' hspans' hrange' _ =>
      obtain ⟨u, hu, hus, hstart⟩ := hspans'.first
      have := hspans'.bounds
      rw [hrange', ← hstart]
      exact h.lt (by omega) ht hu hts hus
    | layout _ hrange' _ =>
      rw [hrange']
      exact stop_le_endBefore h (by omega) ht hts
  | layout _ hrange _ =>
    rw [hrange]
    cases hm with
    | code r' hspans' hrange' _ =>
      obtain ⟨u, hu, hus, hstart⟩ := hspans'.first
      have := hspans'.bounds
      rw [hrange', ← hstart]
      exact endBefore_le_start h (by omega) hu hus
    | layout _ hrange' _ =>
      rw [hrange']
      exact endBefore_mono h (by omega)

/-- A node over some of the tokens of another lies in it, if it has code, or there is code in front of
it, or none at all. -/
theorem Covers.within (h : Reach.Ordered text tokens) (hl : l.Covers tokens a k)
    (hm : m.Covers tokens b n) (hab : a ≤ b) (hbn : b + n ≤ a + k)
    (hcode : m.tokens ≠ none ∨ (∃ j, a ≤ j ∧ j < b ∧ Reach.ofToken tokens j ≠ none) ∨
      ∀ j, a ≤ j → j < a + k → Reach.ofToken tokens j = none) : m.Within l := by
  cases hl with
  | code r hspans hrange hends =>
    obtain ⟨s, hs, hss, hstart⟩ := hspans.first
    obtain ⟨t, ht, hts, hstop⟩ := hspans.last
    have hbounds := hspans.bounds
    -- The significant tokens between the ends of the outer node are its own.
    have hmine (i : Nat) (u : Token) (hu : tokens[i]? = some u) (hus : u.isSignificant = true)
        (hai : a ≤ i) (hik : i < a + k) : r.first ≤ i ∧ i ≤ r.last := by
      have hsome := Reach.ofToken_eq_some.2 ⟨u, hu, hus, rfl⟩
      constructor
      · by_contra hlt
        cases hsome.symm.trans (hspans.before i hai (by omega))
      · by_contra hlt
        cases hsome.symm.trans (hspans.after i (by omega) hik)
    cases hm with
    | code r' hspans' hrange' hends' =>
      obtain ⟨s', hs', hss', hstart'⟩ := hspans'.first
      obtain ⟨t', ht', hts', hstop'⟩ := hspans'.last
      have hbounds' := hspans'.bounds
      have hfirst := hmine _ s' hs' hss' (by omega) (by omega)
      have hlast := hmine _ t' ht' hts' (by omega) (by omega)
      refine ⟨?_, ?_, fun p hp => ⟨_, hends, ?_⟩⟩
      · rw [hrange, hrange', ← hstart, ← hstart']
        exact (h.le hfirst.1 hs hs' hss hss').1
      · rw [hrange, hrange', ← hstop, ← hstop']
        exact (h.le hlast.2 ht' ht hts' hts).2
      · rw [hends'] at hp
        cases hp
        exact ⟨hfirst.1, hlast.2⟩
    | layout hnone hrange' hends' =>
      refine ⟨?_, ?_, fun p hp => by rw [hends'] at hp; cases hp⟩
      · rcases hcode with hcode | ⟨j, haj, hjb, hj⟩ | hcode
        · exact absurd hends' hcode
        · obtain ⟨q, hq⟩ := Option.ne_none_iff_exists'.1 hj
          obtain ⟨u, hu, hus, _⟩ := Reach.ofToken_eq_some.1 hq
          have hju := hmine j u hu hus haj (by omega)
          have hstarts := (h.le hju.1 hs hu hss hus).1
          have hstops := stop_le_endBefore h hjb hu hus
          have := (h.inside_of_getElem? hu hus).nonempty
          rw [hrange, hrange', ← hstart]
          show s.range.start ≤ endBefore tokens b
          omega
        · have hsome := Reach.ofToken_eq_some.2 ⟨s, hs, hss, rfl⟩
          cases hsome.symm.trans (hcode _ hbounds.1 (by omega))
      · rw [hrange, hrange', ← hstop]
        show endBefore tokens b ≤ t.range.stop
        rcases endBefore_cases h b with hzero | ⟨i, hib, u, hu, hus, hstop⟩
        · omega
        · rw [← hstop]
          refine (h.le ?_ hu ht hus hts).2
          by_contra hlast
          have hai : a ≤ i := by omega
          have := hmine i u hu hus hai (by omega)
          omega
  | layout hnone hrange hends =>
    cases hm with
    | code r' hspans' _ _ =>
      obtain ⟨s', hs', hss', _⟩ := hspans'.first
      have hbounds' := hspans'.bounds
      have hsome := Reach.ofToken_eq_some.2 ⟨s', hs', hss', rfl⟩
      cases hsome.symm.trans (hnone _ (by omega) (by omega))
    | layout _ hrange' hends' =>
      have heq := endBefore_eq_of_layout h hab fun i hi hib => hnone i hi (by omega)
      rw [← heq, ← hrange'] at hrange
      refine ⟨by rw [hrange], by rw [hrange], fun p hp => by rw [hends'] at hp; cases hp⟩

end Label

/-! ## Located forests -/

/-- The tokens of a forest follow each other from token `a` on, and every node has the label of those
that it covers. -/
def Forest.Located (tokens : List Token) : Forest Label → Nat → Prop
  | .nil, _ => True
  | .token i rest, a => i = a ∧ rest.Located tokens (a + 1)
  | .node l inside rest, a =>
    l.Covers tokens a inside.tokens.length ∧ inside.Located tokens a ∧
      rest.Located tokens (a + inside.tokens.length)

namespace Forest

variable {f : Forest Label} {a k : Nat} {l : Label}

theorem covers_ofTokens (h : Reach.Ordered text tokens) {r : Option Reach}
    (hr : Reach.ofTokens tokens (List.range' a k) = r)
    (hrange : l.range = (r.map Reach.range).getD (.empty (endBefore tokens a)))
    (hends : l.tokens = r.map fun r => (r.first, r.last)) : l.Covers tokens a k := by
  have hspans := Reach.ofTokens_range' h a k
  rw [hr] at hspans
  cases r with
  | none => exact .layout hspans hrange hends
  | some r => exact .code r hspans hrange hends

/-- Labelling locates. -/
theorem located_label (h : Reach.Ordered text tokens) {f : Forest Kind}
    (ht : f.tokens = List.range' a k) (next : Nat) :
    (f.label tokens next (endBefore tokens a)).forest.Located tokens a ∧
      (f.label tokens next (endBefore tokens a)).lastEnd = endBefore tokens (a + k) := by
  induction f generalizing a k next with
  | nil =>
    cases k with
    | zero => exact ⟨trivial, rfl⟩
    | succ k => cases ht
  | token i rest ih =>
    cases k with
    | zero => cases ht
    | succ k =>
      obtain ⟨rfl, hrest⟩ := List.cons.inj ht
      obtain ⟨hlocated, hlast⟩ := ih hrest next
      simp only [label, lastEndAfter_endBefore h]
      refine ⟨⟨rfl, hlocated⟩, ?_⟩
      rw [hlast, Nat.add_right_comm, Nat.add_assoc]
  | node l inside rest ihInside ih =>
    obtain ⟨m, hm, hinside, hrest⟩ := range'_split ht
    obtain ⟨hlocated, hlast⟩ := ihInside hinside (next + 1)
    obtain ⟨hlocated', hlast'⟩ := ih hrest (inside.label tokens (next + 1) (endBefore tokens a)).next
    have hlen : (inside.label tokens (next + 1) (endBefore tokens a)).forest.tokens.length = m := by
      rw [label_tokens, hinside, length_range']
    simp only [label, hlast]
    refine ⟨⟨?_, hlocated, ?_⟩, ?_⟩
    · rw [hlen]
      refine covers_ofTokens h (hinside ▸ (inside.label_reach _ _).symm) rfl rfl
    · rw [hlen]
      exact hlocated'
    · rw [hlast', Nat.add_assoc, Nat.add_sub_cancel' hm]

theorem Located.tokens_eq (hf : f.Located tokens a) : f.tokens = List.range' a f.tokens.length := by
  induction f generalizing a with
  | nil => rfl
  | token i rest ih =>
    obtain ⟨rfl, hrest⟩ := hf
    rw [Forest.tokens, length_cons, range'_succ, ← ih hrest]
  | node l inside rest ihInside ih =>
    rw [Forest.tokens, length_append, ← range'_append_1, ← ihInside hf.2.1, ← ih hf.2.2]

/-- A node of a located forest is located, at tokens of the forest. -/
theorem Located.of_mem (hf : f.Located tokens a) {c : Node} (hc : c ∈ f.nodes) :
    ∃ b, a ≤ b ∧ b + c.elements.tokens.length ≤ a + f.tokens.length ∧ c.toForest.Located tokens b := by
  induction f generalizing a with
  | nil => cases hc
  | token i rest ih =>
    obtain ⟨b, h1, h2, hb⟩ := ih hf.2 hc
    refine ⟨b, by omega, ?_, hb⟩
    rw [Forest.tokens, length_cons]
    omega
  | node l inside rest _ ih =>
    rw [Forest.tokens, length_append]
    rcases mem_cons.1 hc with rfl | hc
    · exact ⟨a, Nat.le_refl _, by show a + inside.tokens.length ≤ _; omega, hf.1, hf.2.1, trivial⟩
    · obtain ⟨b, h1, h2, hb⟩ := ih hf.2.2 hc
      exact ⟨b, by omega, by omega, hb⟩

/-- Nodes that follow each other stand behind each other. -/
theorem Located.apart (h : Reach.Ordered text tokens) (hf : f.Located tokens a) :
    f.nodes.Pairwise fun c d => c.range.stop ≤ d.range.start := by
  induction f generalizing a with
  | nil => exact List.Pairwise.nil
  | token i rest ih => exact ih hf.2
  | node l inside rest _ ih =>
    refine pairwise_cons.2 ⟨?_, ih hf.2.2⟩
    intro d hd
    obtain ⟨b, hb, _, hlocated⟩ := hf.2.2.of_mem hd
    exact hf.1.stop_le_start h hlocated.1 hb

/-- The nodes of a forest in which code comes first lie in the node around it. -/
theorem Located.within (h : Reach.Ordered text tokens) {b : Nat} (hl : l.Covers tokens b k) (hf : f.Located tokens a)
    (hba : b ≤ a) (hend : a + f.tokens.length = b + k)
    (hcode : (∃ j, b ≤ j ∧ j < a ∧ Reach.ofToken tokens j ≠ none) ∨ f.CodeFirst (kindAt tokens)) :
    ∀ c ∈ f.nodes, c.toLabel.Within l := by
  induction f generalizing a with
  | nil =>
    intro c hc
    cases hc
  | token i rest ih =>
    obtain ⟨rfl, hrest⟩ := hf
    rw [Forest.tokens, length_cons] at hend
    refine ih hrest (by omega) (by omega) ?_
    by_cases hi : Reach.ofToken tokens i = none
    · rcases hcode with ⟨j, hbj, hji, hj⟩ | hcode | hcode
      · exact Or.inl ⟨j, hbj, by omega, hj⟩
      · rw [Reach.ofToken_eq_none.1 hi] at hcode
        cases hcode
      · exact Or.inr hcode
    · exact Or.inl ⟨i, hba, Nat.lt_succ_self i, hi⟩
  | node m inside rest _ ih =>
    rw [Forest.tokens, length_append] at hend
    have htokens := hf.2.1.tokens_eq
    -- Code in the node counts for what follows, and so does code in front of it.
    have hinside (i : Nat) (hi : i ∈ inside.tokens) : a ≤ i ∧ i < a + inside.tokens.length := by
      rw [htokens, mem_range'_1] at hi
      exact hi
    intro c hc
    rcases mem_cons.1 hc with rfl | hc
    · refine hl.within h hf.1 hba (by omega) ?_
      rcases hcode with hcode | ⟨i, hi, hcode⟩ | hlayout
      · exact Or.inr (Or.inl hcode)
      · left
        cases hf.1 with
        | code r _ _ hends => exact hends ▸ Option.some_ne_none _
        | layout hblank _ _ =>
          have hnone := hblank i (hinside i hi).1 (hinside i hi).2
          rw [Reach.ofToken_eq_none.1 hnone] at hcode
          cases hcode
      · by_cases hfront : ∃ j, b ≤ j ∧ j < a ∧ Reach.ofToken tokens j ≠ none
        · exact Or.inr (Or.inl hfront)
        · cases hf.1 with
          | code r _ _ hends => exact Or.inl (hends ▸ Option.some_ne_none _)
          | layout hblank _ _ =>
            -- No code in front, none in the node and none behind it.
            refine Or.inr (Or.inr fun j hbj hjk => ?_)
            by_cases hja : j < a
            · by_contra hj
              exact hfront ⟨j, hbj, hja, hj⟩
            by_cases hjm : j < a + inside.tokens.length
            · exact hblank j (by omega) hjm
            · refine Reach.ofToken_eq_none.2 (hlayout j ?_)
              rw [hf.2.2.tokens_eq, mem_range'_1]
              omega
    · refine ih hf.2.2 (by omega) (by omega) ?_ c hc
      rcases hcode with ⟨j, hbj, hja, hj⟩ | ⟨i, hi, hcode⟩ | hlayout
      · exact Or.inl ⟨j, hbj, by omega, hj⟩
      · have := hinside i hi
        refine Or.inl ⟨i, by omega, by omega, fun hnone => ?_⟩
        rw [Reach.ofToken_eq_none.1 hnone] at hcode
        cases hcode
      · exact Or.inr (codeFirst_of_layout hlayout)

/-- What lies in the nodes of a forest lies in the node around it. -/
theorem Located.descendants_within (h : Reach.Ordered text tokens) (hf : f.Located tokens a)
    (hanchored : f.Anchored (kindAt tokens)) (hnodes : ∀ c ∈ f.nodes, c.toLabel.Within l) :
    ∀ m ∈ f.descendants, m.toLabel.Within l := by
  induction f generalizing a l with
  | nil =>
    intro m hm
    cases hm
  | token i rest ih => exact ih hf.2 hanchored hnodes
  | node k inside rest ihInside ih =>
    obtain ⟨hk, hrest⟩ := forall_mem_cons.1 hnodes
    have hinside := hf.2.1.within h hf.1 (Nat.le_refl a) rfl (Or.inr hanchored.1)
    intro m hm
    simp only [descendants, mem_cons, mem_append] at hm
    rcases hm with rfl | hm | hm
    · exact hk
    · exact (ihInside hf.2.1 hanchored.2.1 hinside m hm).trans hk
    · exact ih hf.2.2 hanchored.2.2 hrest m hm

theorem label_anchored {kinds : Nat → Kind} (f : Forest Kind) (next lastEnd : Nat) :
    (f.label tokens next lastEnd).forest.Anchored kinds ↔ f.Anchored kinds := by
  have hfirst (f : Forest Kind) (next lastEnd : Nat) :
      (f.label tokens next lastEnd).forest.CodeFirst kinds ↔ f.CodeFirst kinds := by
    induction f generalizing next lastEnd with
    | nil => rfl
    | token i rest ih => simp [label, CodeFirst, ih]
    | node k inside rest _ _ => simp [label, CodeFirst, label_tokens]
  induction f generalizing next lastEnd with
  | nil => rfl
  | token i rest ih => simp [label, Anchored, ih]
  | node k inside rest ihInside ih => simp [label, Anchored, hfirst, ihInside, ih]

/-- Every node below a forest is located, with its code in front of its nodes without code. -/
theorem Located.of_mem_descendants (hf : f.Located tokens a) (hanchored : f.Anchored (kindAt tokens))
    {n : Node} (hn : n ∈ f.descendants) :
    (∃ b, n.toForest.Located tokens b) ∧ n.toForest.Anchored (kindAt tokens) := by
  induction f generalizing a with
  | nil => cases hn
  | token i rest ih => exact ih hf.2 hanchored hn
  | node l inside rest ihInside ih =>
    simp only [descendants, mem_cons, mem_append] at hn
    rcases hn with rfl | hn | hn
    · exact ⟨⟨a, hf.1, hf.2.1, trivial⟩, hanchored.1, hanchored.2.1, trivial⟩
    · exact ihInside hf.2.1 hanchored.2.1 hn
    · exact ih hf.2.2 hanchored.2.2 hn

/-- The numbers of the nodes are those of the labels. -/
theorem descendants_toLabel (f : Forest Label) : f.descendants.map Node.toLabel = f.labels := by
  induction f with
  | nil => rfl
  | token i rest ih => exact ih
  | node l inside rest ihInside ih => simp [descendants, labels, ihInside, ih]

end Forest

/-! ## Significant tokens -/

/-- The significant tokens among the `k` from token `a` on. -/
def codeIn (tokens : List Token) (a k : Nat) : List Nat :=
  (List.range' a k).filter fun i => !(kindAt tokens i).isLayout

theorem codeIn_eq_nil {a k : Nat}
    (h : ∀ i, a ≤ i → i < a + k → Reach.ofToken tokens i = none) : codeIn tokens a k = [] := by
  rw [codeIn, filter_eq_nil_iff]
  intro i hi
  rw [mem_range'_1] at hi
  simp [Reach.ofToken_eq_none.1 (h i hi.1 hi.2)]

/-- The significant tokens that a reach spans are those between its ends. -/
theorem Reach.Spans.codeIn_eq {r : Reach} {a k : Nat} (h : r.Spans tokens a (a + k)) :
    codeIn tokens a k = codeIn tokens r.first (r.last + 1 - r.first) ∧
      (codeIn tokens a k).head? = some r.first ∧ (codeIn tokens a k).getLast? = some r.last := by
  have hbounds := h.bounds
  obtain ⟨s, hs, hss, _⟩ := h.first
  obtain ⟨t, ht, hts, _⟩ := h.last
  have hcode (i : Nat) (u : Token) (hu : tokens[i]? = some u) (hus : u.isSignificant = true) :
      (!(kindAt tokens i).isLayout) = true := by simpa [kindAt, hu, Token.isSignificant] using hus
  have heq : codeIn tokens a k = codeIn tokens r.first (r.last + 1 - r.first) := by
    have hfront := range'_append_range' (a := a) (b := r.first) (c := a + k) (by omega) (by omega)
    have hback := range'_append_range' (a := r.first) (b := r.last + 1) (c := a + k) (by omega) (by omega)
    have hbefore : codeIn tokens a (r.first - a) = [] :=
      codeIn_eq_nil fun i h1 h2 => h.before i h1 (by omega)
    have hafter : codeIn tokens (r.last + 1) (a + k - (r.last + 1)) = [] :=
      codeIn_eq_nil fun i h1 h2 => h.after i (by omega) (by omega)
    rw [Nat.add_sub_cancel_left] at hfront
    unfold codeIn at hbefore hafter ⊢
    rw [← hfront, filter_append, hbefore, nil_append, ← hback, filter_append, hafter, append_nil]
  obtain ⟨n, hn⟩ : ∃ n, r.last = r.first + n := Nat.exists_eq_add_of_le hbounds.2.1
  have hlen : r.last + 1 - r.first = n + 1 := by omega
  refine ⟨heq, ?_, ?_⟩
  · rw [heq, hlen, codeIn, range'_succ, filter_cons, if_pos (hcode _ s hs hss)]
    rfl
  · rw [heq, hlen, codeIn, range'_concat, filter_append, Nat.one_mul, ← hn,
      filter_cons, if_pos (hcode _ t ht hts), filter_nil, getLast?_concat]

/-! ## Nodes of a tree -/

namespace Node

/-- The significant tokens in a node. -/
def ownCode (tree : Tree) (n : Node) : List Nat :=
  n.elements.tokens.filter fun i => !(tree.kindAt i).isLayout

/-- Where a node stands: its range and its ends are those of its significant tokens, which are all of the
stream between the ends; without any it is empty.  Its children lie in it, one behind the other, and so
does what is left of it without its parentheses. -/
structure Stands (tree : Tree) (n : Node) : Prop where
  blank : n.ownCode tree = [] → n.tokens = none ∧ n.range.start = n.range.stop
  ends : ∀ first last, (n.ownCode tree).head? = some first → (n.ownCode tree).getLast? = some last →
    n.tokens = some (first, last) ∧
      (tree.token? first).map (·.range.start) = some n.range.start ∧
      (tree.token? last).map (·.range.stop) = some n.range.stop ∧
      n.ownCode tree = codeIn tree.tokens first (last + 1 - first)
  children : ∀ c ∈ n.children, c.toLabel.Within n.toLabel
  apart : n.children.Pairwise fun c d => c.range.stop ≤ d.range.start
  parens : n.unwrapParens.toLabel.Within n.toLabel

variable {tree : Tree} {n : Node} {a : Nat}

theorem ownCode_eq (hn : n.toForest.Located tree.tokens a) :
    n.ownCode tree = codeIn tree.tokens a n.elements.tokens.length := by
  rw [codeIn, ← hn.2.1.tokens_eq]
  rfl

theorem stands_of_located (h : Reach.Ordered tree.text tree.tokens)
    (hn : n.toForest.Located tree.tokens a) (hanchored : n.toForest.Anchored (kindAt tree.tokens)) :
    n.Stands tree where
  blank hcode := by
    rw [ownCode_eq hn] at hcode
    cases hn.1 with
    | code r hspans _ _ =>
      rw [hspans.codeIn_eq.1] at hcode
      have := hspans.codeIn_eq.2.1
      rw [hspans.codeIn_eq.1, hcode] at this
      cases this
    | layout _ hrange hends => exact ⟨hends, by rw [hrange]; rfl⟩
  ends first last hfirst hlast := by
    rw [ownCode_eq hn] at hfirst hlast ⊢
    cases hn.1 with
    | code r hspans hrange hends =>
      obtain ⟨heq, hfirst', hlast'⟩ := hspans.codeIn_eq
      cases hfirst'.symm.trans hfirst
      cases hlast'.symm.trans hlast
      obtain ⟨s, hs, _, hstart⟩ := hspans.first
      obtain ⟨t, ht, _, hstop⟩ := hspans.last
      refine ⟨hends, ?_, ?_, heq⟩
      · rw [hrange, ← hstart, Tree.token?, hs]
        rfl
      · rw [hrange, ← hstop, Tree.token?, ht]
        rfl
    | layout hblank _ _ =>
      rw [codeIn_eq_nil hblank] at hfirst
      cases hfirst
  children := hn.2.1.within h hn.1 (Nat.le_refl a) rfl (Or.inr hanchored.1)
  apart := hn.2.1.apart h
  parens := by
    have hself : ∀ c ∈ n.toForest.nodes, c.toLabel.Within n.toLabel := by
      intro c hc
      rw [mem_singleton.1 hc]
      exact Label.Within.refl _
    exact hn.descendants_within h hanchored hself _ n.unwrapParens_mem

end Node

/-! ## The walk over a forest -/

/-- The open nodes behind a walk that starts with `n` of them, unless it closes more than there are. -/
def openAfter : Nat → List Event → Option Nat
  | n, [] => some n
  | n, .start _ :: es => openAfter (n + 1) es
  | n, .token _ :: es => openAfter n es
  | 0, .finish :: _ => none
  | n + 1, .finish :: es => openAfter n es

/-- A walk over a forest closes what it opens and nothing else. -/
theorem openAfter_events_append (n : Nat) (f : Forest Kind) (es : List Event) :
    openAfter n (f.events ++ es) = openAfter n es := by
  induction f generalizing n es with
  | nil => rfl
  | token i rest ih =>
    show openAfter n (rest.events ++ es) = _
    exact ih n es
  | node k inside rest ihInside ih =>
    show openAfter (n + 1) ((inside.events ++ .finish :: rest.events) ++ es) = _
    rw [append_assoc, ihInside]
    exact ih n es

/-! ## The tree of a text -/

/-- Every node of a tree covers tokens one behind the other, with its code in front of its nodes without code. -/
theorem Parse.exists_located {n : Node} (hn : n ∈ (Parse.ofText text).tree.root.descendants) :
    (∃ a, n.toForest.Located (Lexed.ofText text).tokens a) ∧
      n.toForest.Anchored (kindAt (Lexed.ofText text).tokens) := by
  obtain ⟨f, h⟩ := Parse.exists_block text
  obtain ⟨-, -, hroot⟩ := h.tree_eq
  have hall : (Parse.program f).tokens = List.range' 0 ((Lexed.ofText text).tokens.length - 1) := by
    simp [Forest.tokens, h.tokens]
  have hlocated := (Forest.located_label (Reach.ordered_ofText text) hall 0).1
  have hanchored : (Parse.program f).Anchored (kindAt (Lexed.ofText text).tokens) := by
    refine ⟨Or.inr ?_, ⟨h.codeFirst, h.anchored, trivial⟩, trivial⟩
    intro i hi
    cases hi
  rw [endBefore_zero, ← hroot] at hlocated
  rw [← @Forest.label_anchored (Lexed.ofText text).tokens _ _ 0 0, ← hroot] at hanchored
  exact hlocated.of_mem_descendants hanchored hn

theorem Parse.stands_ofText {n : Node} (hn : n ∈ (Parse.ofText text).tree.root.descendants) :
    n.Stands (Parse.ofText text).tree := by
  obtain ⟨⟨b, hb⟩, hn⟩ := Parse.exists_located hn
  obtain ⟨_, h⟩ := Parse.exists_block text
  obtain ⟨htext, htokens, -⟩ := h.tree_eq
  rw [← htokens] at hb hn
  refine Node.stands_of_located ?_ hb hn
  rw [htext, htokens]
  exact Reach.ordered_ofText text

/-- The tree of every text, faults or not: a program around a block, its nodes numbered in the order of
their starts by a walk that opens and closes as often, and each of them where its tokens are. -/
theorem Parse.ofText_stands (text : List Char) :
    let tree := (Parse.ofText text).tree
    (tree.root.kind = .program ∧ tree.root.id = 0) ∧
    (∃ block, tree.root.children.head? = some block ∧ block.kind = .block ∧ block.id = 1) ∧
    tree.root.descendants.map (·.id) = List.range tree.root.descendants.length ∧
    openAfter 0 (Grammar.program text (Lexed.ofText text).tokens).1 = some 0 ∧
    ∀ n ∈ tree.root.descendants, n.Stands tree := by
  intro tree
  obtain ⟨f, h⟩ := Parse.exists_block text
  obtain ⟨-, -, hroot⟩ := h.tree_eq
  obtain ⟨hlabel, helements, -⟩ := Forest.node.inj hroot
  refine ⟨⟨congrArg Label.kind hlabel, congrArg Label.id hlabel⟩, ?_, ?_, ?_, fun n hn => Parse.stands_ofText hn⟩
  · rw [Node.children, show tree.root.elements = _ from helements]
    exact ⟨_, rfl, rfl, rfl⟩
  · have hids := (@Forest.label_ids (Lexed.ofText text).tokens (Parse.program f) 0 0).2
    rw [← hroot, ← Forest.descendants_toLabel, map_map] at hids
    have hlen := congrArg List.length hids
    rw [length_map, length_range'] at hlen
    rw [range_eq_range', show tree.root.descendants.length = _ from hlen]
    exact hids
  · have hopen := openAfter_events_append 0 (Parse.program f) []
    rwa [append_nil, ← h.events] at hopen

end Respell
