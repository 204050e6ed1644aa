import Respell.Proofs.Tree.Nesting

/-!
What a list of events builds, balanced or not.

Read from left to right, events keep a stack of open nodes: a start event opens a node inside the innermost open
one, a finish event closes that one, or nothing if none is open.  `moments` writes down what is open at each start
and at each token,

    start block   token 0   start ident   token 1   finish   finish   finish   token 2
    []            [0]       [0]           [1, 0]                               []

and this says all of the nodes that are built (`Tree.ofEvents?_built`): the number of a node is its place among the
starts, its elements are what comes while it is the innermost open one, and its reach goes over the significant tokens
that come while it is open at all.

The forest of the events has the same moments, walked over as a forest.  There the open nodes are the nodes around, so
that everything is an induction over the forest.

`Builder` goes by the events one after the other, and at each token it extends every node that is open.  It comes to the
same forest with the same labels (`Builder.close_foldl`).
-/

namespace Respell

open List

/-! ## What is open -/

/-- A start or a token, with the number of the next node and the open nodes, the innermost first. -/
structure Moment where
  event : Event
  next : Nat
  opened : List Nat
deriving DecidableEq, Repr

/-- An element of a node, by its number or its place in the stream. -/
inductive Ref where
  | node (id : Nat)
  | token (index : Nat)
deriving DecidableEq, Repr

/-- The moments of events that follow while nodes are open.  A finish event without an open node means nothing. -/
def moments : List Event → (next : Nat) → (opened : List Nat) → List Moment
  | [], _, _ => []
  | .start k :: es, next, opened => ⟨.start k, next, opened⟩ :: moments es (next + 1) (next :: opened)
  | .token i :: es, next, opened => ⟨.token i, next, opened⟩ :: moments es next opened
  | .finish :: es, next, opened => moments es next opened.tail

def Event.isStart : Event → Bool
  | .start _ => true
  | _ => false

theorem Event.isStart_iff {e : Event} : e.isStart = true ↔ ∃ k, e = .start k := by
  cases e <;> simp [isStart]

def Item.ref : Item → Ref
  | .node n => .node n.id
  | .token i => .token i

namespace Moment

/-- What comes at this moment, as an element. -/
def ref? (m : Moment) : Option Ref :=
  match m.event with
  | .start _ => some (.node m.next)
  | .token i => some (.token i)
  | .finish => none

/-- The token that comes at this moment. -/
def token? (m : Moment) : Option Nat :=
  match m.event with
  | .token i => some i
  | _ => none

/-- What comes while node `id` is the innermost open one. -/
def elementsOf (id : Nat) (ms : List Moment) : List Ref :=
  ms.filterMap fun m => if m.opened.head? = some id then m.ref? else none

/-- The tokens that come while node `id` is open. -/
def tokensOf (id : Nat) (ms : List Moment) : List Nat :=
  ms.filterMap fun m => if id ∈ m.opened then m.token? else none

end Moment

/-- The significant ones of some tokens, in order. -/
def codeAmong (tokens : List Token) (indexes : List Nat) : List (Nat × Token) :=
  indexes.filterMap fun i => (tokens[i]?.filter Token.isSignificant).map fun t => (i, t)

theorem codeAmong_cons (tokens : List Token) (i : Nat) (indexes : List Nat) :
    codeAmong tokens (i :: indexes) = codeAmong tokens [i] ++ codeAmong tokens indexes :=
  filterMap_append (l := [i])

/-- The least span that holds all of these. -/
def Span.IsCover (r : Span) (spans : List Span) : Prop :=
  (∀ s ∈ spans, r.start ≤ s.start ∧ s.stop ≤ r.stop) ∧
    ∀ r' : Span, (∀ s ∈ spans, r'.start ≤ s.start ∧ s.stop ≤ r'.stop) → r'.start ≤ r.start ∧ r.stop ≤ r'.stop

/-! ## Moments of a forest -/

namespace Forest

/-- How many nodes there are. -/
def size : Forest Kind → Nat
  | .nil => 0
  | .token _ rest => rest.size
  | .node _ inside rest => inside.size + 1 + rest.size

/-- The moments of a walk over a forest. -/
def moments : Forest Kind → (next : Nat) → (opened : List Nat) → List Moment
  | .nil, _, _ => []
  | .token i rest, next, opened => ⟨.token i, next, opened⟩ :: rest.moments next opened
  | .node k inside rest, next, opened =>
    ⟨.start k, next, opened⟩ :: (inside.moments (next + 1) (next :: opened) ++
      rest.moments (next + 1 + inside.size) opened)

/-- The events of a list, with finish events for the nodes that it leaves open. -/
theorem exists_events_nest (es : List Event) : ∃ count, es ++ replicate count .finish =
    (nest es).1.events ++ (nest es).2.flatMap fun f => .finish :: f.events := by
  induction es with
  | nil => exact ⟨0, rfl⟩
  | cons e es ih =>
    obtain ⟨count, ih⟩ := ih
    cases e with
    | token i => exact ⟨count, congrArg _ ih⟩
    | finish => exact ⟨count, congrArg _ ih⟩
    | start k =>
      cases h : nest es with
      | mk inside fs =>
        rw [h] at ih
        simp only [nest, h]
        cases fs with
        | nil =>
          refine ⟨count + 1, ?_⟩
          rw [replicate_succ', ← List.append_assoc, cons_append, ih]
          simp [events]
        | cons rest fs =>
          refine ⟨count, ?_⟩
          rw [cons_append, ih]
          simp [events]

theorem moments_events_append (f : Forest Kind) (es : List Event) (next : Nat) (opened : List Nat) :
    Respell.moments (f.events ++ es) next opened =
      f.moments next opened ++ Respell.moments es (next + f.size) opened := by
  induction f generalizing es next opened with
  | nil => rfl
  | token i rest ih => simp [events, Respell.moments, moments, size, ih]
  | node k inside rest ihInside ih =>
    simp [events, Respell.moments, moments, size, ihInside, ih, Nat.add_assoc, Nat.add_comm]

/-- Where nothing is open, no closing changes that. -/
theorem moments_top (f : Forest Kind) (fs : List (Forest Kind)) (next : Nat) :
    Respell.moments (f.events ++ fs.flatMap fun g => .finish :: g.events) next [] =
      (fs.foldl append f).moments next [] := by
  induction fs generalizing f with
  | nil =>
    rw [flatMap_nil, moments_events_append]
    exact List.append_nil _
  | cons g fs ih =>
    rw [foldl_cons, ← ih, events_append, List.append_assoc, moments_events_append, moments_events_append f]
    rfl

theorem moments_finish (es : List Event) (count next : Nat) (opened : List Nat) :
    Respell.moments (es ++ replicate count .finish) next opened = Respell.moments es next opened := by
  induction es generalizing next opened with
  | nil =>
    induction count generalizing opened with
    | zero => rfl
    | succ count ih => exact ih opened.tail
  | cons e es ih => cases e <;> simp [Respell.moments, ih]

/-- Events have the moments of their forest. -/
theorem moments_ofEvents (es : List Event) : Respell.moments es 0 [] = (ofEvents es).moments 0 [] := by
  obtain ⟨count, h⟩ := exists_events_nest es
  rw [← moments_finish es count, h, moments_top]
  rfl

/-! ## Open nodes -/

variable {f : Forest Kind} {m : Moment} {next id : Nat} {opened : List Nat}

/-- What is open before a forest stays open, and what else is open in it or starts there are its own nodes. -/
theorem opened_of_mem (hm : m ∈ f.moments next opened) :
    (∃ inner, m.opened = inner ++ opened ∧ ∀ id ∈ inner, next ≤ id ∧ id < next + f.size) ∧
      next ≤ m.next ∧ ∀ k, m.event = .start k → m.next < next + f.size := by
  induction f generalizing next opened with
  | nil => cases hm
  | token i rest ih =>
    rcases mem_cons.1 hm with rfl | hm
    · exact ⟨⟨[], rfl, fun id hid => by cases hid⟩, Nat.le_refl _, fun k hk => by cases hk⟩
    · exact ih hm
  | node k' inside rest ihInside ih =>
    rw [size]
    rcases mem_cons.1 hm with rfl | hm
    · exact ⟨⟨[], rfl, fun id hid => by cases hid⟩, Nat.le_refl _, fun k _ => by show next < _; omega⟩
    rcases mem_append.1 hm with hm | hm
    · obtain ⟨⟨inner, heq, hinner⟩, hle, hlt⟩ := ihInside hm
      refine ⟨⟨inner ++ [next], by rw [heq, append_assoc, singleton_append], fun id hid => ?_⟩,
        by omega, fun k hk => ?_⟩
      · rcases mem_append.1 hid with hid | hid
        · have := hinner id hid
          omega
        · rw [mem_singleton.1 hid]
          omega
      · have := hlt k hk
        omega
    · obtain ⟨⟨inner, heq, hinner⟩, hle, hlt⟩ := ih hm
      refine ⟨⟨inner, heq, fun id hid => ?_⟩, by omega, fun k hk => ?_⟩
      · have := hinner id hid
        omega
      · have := hlt k hk
        omega

/-- A node is open only in the part of the walk that is its own. -/
theorem not_mem_opened (hid : id ∉ opened) (hother : id < next ∨ next + f.size ≤ id) (hm : m ∈ f.moments next opened) :
    id ∉ m.opened := by
  obtain ⟨inner, heq, hinner⟩ := (opened_of_mem hm).1
  rw [heq]
  intro hmem
  rcases mem_append.1 hmem with hmem | hmem
  · have := hinner id hmem
    omega
  · exact hid hmem

end Forest

namespace Moment

variable {id : Nat} {ms : List Moment}

theorem elementsOf_append (id : Nat) (ms ns : List Moment) :
    elementsOf id (ms ++ ns) = elementsOf id ms ++ elementsOf id ns := filterMap_append

theorem elementsOf_cons (id : Nat) (m : Moment) (ms : List Moment) :
    elementsOf id (m :: ms) = elementsOf id [m] ++ elementsOf id ms := elementsOf_append id [m] ms

/-- What comes only at moments in the middle. -/
theorem filterMap_inside {β : Type} {pick : Moment → Option β} {before inner after : List Moment} {m : Moment}
    (h : ∀ m' ∈ before ++ m :: after, pick m' = none) :
    (before ++ m :: (inner ++ after)).filterMap pick = inner.filterMap pick := by
  simp only [forall_mem_append, forall_mem_cons] at h
  rw [filterMap_append, filterMap_cons_none h.2.1, filterMap_append, filterMap_eq_nil_iff.2 h.1,
    filterMap_eq_nil_iff.2 h.2.2, nil_append, List.append_nil]

end Moment

/-! ## Labels -/

namespace Forest

variable {f : Forest Kind} {next id : Nat} {opened : List Nat} {tokens : List Token}

theorem label_next (f : Forest Kind) (next lastEnd : Nat) : (f.label tokens next lastEnd).next = next + f.size := by
  induction f generalizing next lastEnd with
  | nil => rfl
  | token i rest ih => exact ih _ _
  | node k inside rest ihInside ih =>
    simp only [label, size, ih, ihInside]
    omega

/-- Where the last significant one of some tokens ends, or the code before them. -/
def endAfter (tokens : List Token) (indexes : List Nat) (lastEnd : Nat) : Nat :=
  indexes.foldl (fun lastEnd i => lastEndAfter tokens i lastEnd) lastEnd

theorem label_lastEnd (f : Forest Kind) (next lastEnd : Nat) :
    (f.label tokens next lastEnd).lastEnd = endAfter tokens f.tokens lastEnd := by
  induction f generalizing next lastEnd with
  | nil => rfl
  | token i rest ih => exact ih _ _
  | node k inside rest ihInside ih =>
    simp only [label, Forest.tokens, ih, ihInside, endAfter, foldl_append]

theorem moments_tokens (f : Forest Kind) (next : Nat) (opened : List Nat) :
    (f.moments next opened).filterMap Moment.token? = f.tokens := by
  induction f generalizing next opened with
  | nil => rfl
  | token i rest ih => simp [moments, Forest.tokens, Moment.token?, ih]
  | node k inside rest ihInside ih =>
    rw [moments, filterMap_cons_none rfl, filterMap_append, ihInside, ih]
    rfl

/-- All tokens of a forest come while the nodes around it are open. -/
theorem tokensOf_moments (hid : id ∈ opened) : Moment.tokensOf id (f.moments next opened) = f.tokens := by
  rw [← moments_tokens f next opened]
  refine filterMap_congr fun m hm => if_pos ?_
  obtain ⟨inner, heq, -⟩ := (opened_of_mem hm).1
  rw [heq]
  exact mem_append_right _ hid

/-- The elements of a node are what comes while it is the innermost open one. -/
theorem items_label (f : Forest Kind) {lastEnd top : Nat} (htop : top < next) :
    (f.label tokens next lastEnd).forest.items.map Item.ref =
      Moment.elementsOf top (f.moments next (top :: opened)) := by
  induction f generalizing next lastEnd with
  | nil => rfl
  | token i rest ih =>
    rw [moments, Moment.elementsOf_cons, ← @ih next (lastEndAfter tokens i lastEnd) htop]
    simp [label, items, Item.ref, Moment.elementsOf, Moment.ref?]
  | node k inside rest _ ih =>
    have hinside : Moment.elementsOf top (inside.moments (next + 1) (next :: top :: opened)) = [] := by
      refine filterMap_eq_nil_iff.2 fun m hm => if_neg fun hhead => ?_
      obtain ⟨inner, heq, hinner⟩ := (opened_of_mem hm).1
      rw [heq] at hhead
      cases inner with
      | nil =>
        cases hhead
        exact Nat.lt_irrefl _ htop
      | cons id inner =>
        cases hhead
        have := hinner top mem_cons_self
        omega
    rw [moments, Moment.elementsOf_cons, Moment.elementsOf_append, hinside, List.nil_append]
    simp only [label, items, map_cons, label_next]
    rw [ih (by omega)]
    simp [Item.ref, Moment.elementsOf, Moment.ref?]

/-- The node with this inside, as it is labelled. -/
def made (tokens : List Token) (k : Kind) (inside : Forest Kind) (next lastEnd : Nat) : Node :=
  let below := inside.label tokens (next + 1) lastEnd
  ⟨{ id := next
     kind := k
     range := (below.reach.map Reach.range).getD (.empty lastEnd)
     tokens := below.reach.map fun r => (r.first, r.last) }, below.forest⟩

/-- Every start makes a node, inside the innermost node that is open then.  The moments of its inside follow, and it is
open at no others. -/
theorem exists_made {lastEnd : Nat} {m : Moment} {k : Kind} (hfresh : ∀ id ∈ opened, id < next)
    (hm : m ∈ f.moments next opened) (hk : m.event = .start k) :
    ∃ before inside after,
      f.moments next opened = before ++ m :: (inside.moments (m.next + 1) (m.next :: m.opened) ++ after) ∧
      (∀ m' ∈ before ++ m :: after, m.next ∉ m'.opened) ∧
      (m.opened.head?, made tokens k inside m.next (endAfter tokens (before.filterMap Moment.token?) lastEnd)) ∈
        (f.label tokens next lastEnd).forest.parented opened.head? := by
  induction f generalizing next lastEnd opened with
  | nil => cases hm
  | token i rest ih =>
    rcases mem_cons.1 hm with rfl | hm
    · cases hk
    obtain ⟨before, inside, after, hsplit, hothers, hmem⟩ := @ih next opened (lastEndAfter tokens i lastEnd) hfresh hm
    have hnot : m.next ∉ opened := fun hin => by
      have := hfresh _ hin
      have := (opened_of_mem hm).2.1
      omega
    exact ⟨⟨.token i, next, opened⟩ :: before, inside, after, congrArg _ hsplit,
      forall_mem_cons.2 ⟨hnot, hothers⟩, hmem⟩
  | node k' inside' rest ihInside ih =>
    have hself : next ∉ opened := fun hin => Nat.lt_irrefl _ (hfresh _ hin)
    rcases mem_cons.1 hm with rfl | hm
    · cases hk
      refine ⟨[], inside', _, rfl, forall_mem_cons.2 ⟨hself, fun m' hm' => ?_⟩, mem_cons_self⟩
      exact not_mem_opened hself (Or.inl (by show next < _; omega)) hm'
    have hfreshInside : ∀ id ∈ next :: opened, id < next + 1 := by
      intro id hid
      rcases mem_cons.1 hid with rfl | hid
      · exact Nat.lt_succ_self _
      · exact Nat.lt_succ_of_lt (hfresh id hid)
    rcases mem_append.1 hm with hm | hm
    · obtain ⟨before, inside, after, hsplit, hothers, hmem⟩ :=
        @ihInside (next + 1) (next :: opened) lastEnd hfreshInside hm
      have hbounds := (opened_of_mem hm).2
      have hnot : m.next ∉ opened := fun hin => by
        have := hfresh _ hin
        omega
      refine ⟨⟨.start k', next, opened⟩ :: before, inside, after ++ rest.moments (next + 1 + inside'.size) opened, ?_,
        ?_, mem_cons_of_mem _ (mem_append_left _ hmem)⟩
      · rw [moments, hsplit]
        simp
      · simp only [forall_mem_append, forall_mem_cons] at hothers ⊢
        refine ⟨⟨hnot, hothers.1⟩, hothers.2.1, hothers.2.2, fun m' hm' => ?_⟩
        exact not_mem_opened hnot (Or.inl (hbounds.2 k hk)) hm'
    · have hfreshRest : ∀ id ∈ opened, id < next + 1 + inside'.size := fun id hid => by
        have := hfresh id hid
        omega
      obtain ⟨before, inside, after, hsplit, hothers, hmem⟩ := @ih (next + 1 + inside'.size) opened
        (endAfter tokens inside'.tokens lastEnd) hfreshRest hm
      have hbounds := (opened_of_mem hm).2
      have hnot : m.next ∉ next :: opened := fun hin => by
        have := hfreshInside _ hin
        omega
      refine ⟨⟨.start k', next, opened⟩ :: (inside'.moments (next + 1) (next :: opened) ++ before), inside, after, ?_,
        ?_, mem_cons_of_mem _ (mem_append_right _ ?_)⟩
      · rw [moments, hsplit]
        simp
      · simp only [forall_mem_append, forall_mem_cons] at hothers ⊢
        refine ⟨⟨fun hin => hnot (mem_cons_of_mem _ hin), fun m' hm' => ?_, hothers.1⟩, hothers.2⟩
        exact not_mem_opened hnot (Or.inr hbounds.1) hm'
      · rw [filterMap_cons_none rfl, filterMap_append, moments_tokens, endAfter, foldl_append]
        rw [label_next, label_lastEnd]
        exact hmem

/-- The nodes that stand in no other are those that start when nothing is open. -/
theorem nodes_label (f : Forest Kind) (next lastEnd : Nat) :
    (f.label tokens next lastEnd).forest.nodes.map (·.id) =
      ((f.moments next []).filter fun m => m.event.isStart && m.opened.isEmpty).map (·.next) := by
  induction f generalizing next lastEnd with
  | nil => rfl
  | token i rest ih => exact ih _ _
  | node k inside rest _ ih =>
    have hinside : (inside.moments (next + 1) [next]).filter (fun m => m.event.isStart && m.opened.isEmpty) = [] := by
      refine filter_eq_nil_iff.2 fun m hm htop => ?_
      obtain ⟨inner, heq, -⟩ := (opened_of_mem hm).1
      rw [heq] at htop
      simp at htop
    rw [moments, filter_cons_of_pos rfl, filter_append, hinside, List.nil_append, map_cons,
      ← ih _ (inside.label tokens (next + 1) lastEnd).lastEnd, ← label_next inside (next + 1) lastEnd]
    rfl

theorem moments_starts (es : List Event) (next : Nat) (opened : List Nat) :
    (Respell.moments es next opened).countP (·.event.isStart) = es.countP Event.isStart := by
  induction es generalizing next opened with
  | nil => rfl
  | cons e es ih =>
    cases e with
    | start k => rw [Respell.moments, countP_cons_of_pos rfl, countP_cons_of_pos rfl, ih]
    | token i =>
      rw [Respell.moments, countP_cons_of_neg Bool.false_ne_true, countP_cons_of_neg Bool.false_ne_true, ih]
    | finish => rw [Respell.moments, countP_cons_of_neg Bool.false_ne_true, ih]

/-- Nodes are numbered in the order of their starts. -/
theorem starts_moments (f : Forest Kind) (next : Nat) (opened : List Nat) :
    ((f.moments next opened).filter (·.event.isStart)).map (·.next) = List.range' next f.size := by
  induction f generalizing next opened with
  | nil => rfl
  | token i rest ih => rw [moments, filter_cons_of_neg Bool.false_ne_true, ih, size]
  | node k inside rest ihInside ih =>
    rw [moments, filter_cons_of_pos rfl, filter_append, map_cons, map_append, ihInside, ih, size,
      range'_append_1, ← range'_succ]
    congr 1
    omega

theorem parented_nodes (f : Forest Label) (parent : Option Nat) : (f.parented parent).map (·.2) = f.descendants := by
  induction f generalizing parent with
  | nil => rfl
  | token i rest ih => exact ih parent
  | node l inside rest ihInside ih => simp [parented, descendants, ihInside, ih]

/-- The way down to a node passes the nodes that were open when it started. -/
theorem path?_label {lastEnd : Nat} {m : Moment} {k : Kind} (hm : m ∈ f.moments next opened)
    (hk : m.event = .start k) :
    ∃ path inner, (f.label tokens next lastEnd).forest.path? m.next = some path ∧ m.opened = inner ++ opened ∧
      path.map (·.id) = inner.reverse ++ [m.next] := by
  induction f generalizing next lastEnd opened with
  | nil => cases hm
  | token i rest ih =>
    rcases mem_cons.1 hm with rfl | hm
    · cases hk
    · exact ih hm
  | node k' inside rest ihInside ih =>
    rcases mem_cons.1 hm with rfl | hm
    · exact ⟨_, [], if_pos rfl, rfl, rfl⟩
    rcases mem_append.1 hm with hm | hm
    · have hne : next ≠ m.next := by
        have := (opened_of_mem hm).2.1
        omega
      obtain ⟨path, inner, hpath, hopened, hids⟩ := @ihInside (next + 1) (next :: opened) lastEnd hm
      refine ⟨_, inner ++ [next], by simp only [label, path?, if_neg hne, hpath]; rfl, ?_, ?_⟩
      · rw [hopened, append_assoc, singleton_append]
      · rw [map_cons, hids, reverse_append]
        rfl
    · have hlt := (opened_of_mem hm).2.1
      have hne : next ≠ m.next := by omega
      have hother : (inside.label tokens (next + 1) lastEnd).forest.path? m.next = none := by
        apply path?_eq_none
        rw [(label_ids inside (next + 1) lastEnd).2, label_next, mem_range'_1]
        omega
      obtain ⟨path, inner, hpath, hopened, hids⟩ := @ih (next + 1 + inside.size) opened
        (inside.label tokens (next + 1) lastEnd).lastEnd hm
      refine ⟨path, inner, ?_, hopened, hids⟩
      simp only [label, path?, if_neg hne, hother, label_next]
      exact hpath

/-- The way down starts at one of the nodes that stand in no other, and goes on below it. -/
theorem path?_top {f : Forest Label} {path : List Node} (h : f.path? id = some path) :
    ∃ top ∈ f.nodes, ∃ below, path = top :: below ∧ top.toForest.path? id = some path := by
  induction f with
  | nil => cases h
  | token i rest ih => exact ih h
  | node l inside rest _ ih =>
    unfold path? at h
    split at h
    · rename_i hid
      cases h
      exact ⟨_, mem_cons_self, [], rfl, if_pos hid⟩
    rename_i hid
    split at h
    · rename_i below hbelow
      cases h
      refine ⟨_, mem_cons_self, below, rfl, ?_⟩
      simp only [Node.toForest, path?, if_neg hid, hbelow]
    · obtain ⟨top, htop, hpath⟩ := ih h
      exact ⟨top, mem_cons_of_mem _ htop, hpath⟩

end Forest

/-! ## Reaches -/

namespace Reach

/-- The reach goes from the first to the last of these tokens, and covers all of them. -/
inductive Sums : Option Reach → List (Nat × Token) → Prop
  | blank : Sums none []
  | code {r : Reach} {first last : Nat × Token} {among : List (Nat × Token)} (hfirst : among.head? = some first)
    (hlast : among.getLast? = some last) (firstEq : r.first = first.1) (lastEq : r.last = last.1)
    (cover : r.range.IsCover (among.map (·.2.range))) : Sums (some r) among

theorem Sums.eq_none {r : Option Reach} (h : Sums r []) : r = none := by
  cases h with
  | blank => rfl
  | code hfirst => cases hfirst

theorem Sums.eq_some {r : Option Reach} {code : List (Nat × Token)} {first last : Nat × Token} (h : Sums r code)
    (hfirst : code.head? = some first) (hlast : code.getLast? = some last) :
    ∃ reach, r = some reach ∧ reach.first = first.1 ∧ reach.last = last.1 ∧
      reach.range.IsCover (code.map (·.2.range)) := by
  cases h with
  | blank => cases hfirst
  | code hfirst' hlast' firstEq lastEq cover =>
    cases hfirst.symm.trans hfirst'
    cases hlast.symm.trans hlast'
    exact ⟨_, rfl, firstEq, lastEq, cover⟩

theorem isCover_append {a b : Span} {xs ys : List Span} (ha : a.IsCover xs) (hb : b.IsCover ys) :
    (a.cover b).IsCover (xs ++ ys) := by
  simp only [Span.IsCover, Span.cover] at ha hb ⊢
  refine ⟨fun s hs => ?_, fun r' hr' => ?_⟩
  · rcases mem_append.1 hs with hs | hs
    · have := ha.1 s hs
      omega
    · have := hb.1 s hs
      omega
  · have := ha.2 r' fun s hs => hr' s (mem_append_left _ hs)
    have := hb.2 r' fun s hs => hr' s (mem_append_right _ hs)
    omega

theorem Sums.join {r r' : Option Reach} {code code' : List (Nat × Token)} (h : Sums r code) (h' : Sums r' code') :
    Sums (Reach.join r r') (code ++ code') := by
  cases h with
  | blank => exact h'
  | code hfirst hlast firstEq lastEq cover =>
    cases h' with
    | blank =>
      rw [List.append_nil]
      exact .code hfirst hlast firstEq lastEq cover
    | code hfirst' hlast' firstEq' lastEq' cover' =>
      refine .code ?_ ?_ firstEq lastEq' ?_
      · rw [head?_append, hfirst]
        rfl
      · rw [getLast?_append, hlast']
        rfl
      · rw [map_append]
        exact isCover_append cover cover'

theorem sums_ofToken (tokens : List Token) (i : Nat) : Sums (ofToken tokens i) (codeAmong tokens [i]) := by
  cases ht : tokens[i]? with
  | none => simpa [ofToken, codeAmong, ht] using Sums.blank
  | some t =>
    by_cases hcode : t.isSignificant = true
    · have hself : t.range.IsCover [t.range] := by simp [Span.IsCover]
      have hone : codeAmong tokens [i] = [(i, t)] := by simp [codeAmong, ht, hcode]
      rw [hone, ofToken_eq_some.2 ⟨t, ht, hcode, rfl⟩]
      exact .code rfl rfl rfl rfl hself
    · simpa [ofToken, codeAmong, ht, hcode] using Sums.blank

theorem sums_ofTokens (tokens : List Token) (indexes : List Nat) :
    Sums (ofTokens tokens indexes) (codeAmong tokens indexes) := by
  induction indexes with
  | nil => exact .blank
  | cons i indexes ih =>
    rw [codeAmong_cons]
    exact (sums_ofToken tokens i).join ih

end Reach

/-- The end of the code is that of the last significant token. -/
theorem endAfter_eq (tokens : List Token) (indexes : List Nat) (lastEnd : Nat) :
    Forest.endAfter tokens indexes lastEnd =
      ((codeAmong tokens indexes).getLast?.map (·.2.range.stop)).getD lastEnd := by
  induction indexes generalizing lastEnd with
  | nil => rfl
  | cons i indexes ih =>
    rw [codeAmong_cons, getLast?_append, Forest.endAfter, foldl_cons]
    refine (ih _).trans ?_
    cases (codeAmong tokens indexes).getLast? with
    | some last => rfl
    | none =>
      show lastEndAfter tokens i lastEnd = _
      cases ht : tokens[i]? with
      | none => simp [lastEndAfter, Reach.ofToken, codeAmong, ht]
      | some t => by_cases hcode : t.isSignificant = true <;> simp [lastEndAfter, Reach.ofToken, codeAmong, ht, hcode]

/-! ## Building step by step -/

protected theorem Forest.append_assoc {α : Type} (f g h : Forest α) :
    (f.append g).append h = f.append (g.append h) := by
  induction f with
  | nil => rfl
  | token i rest ih => exact congrArg _ ih
  | node a inside rest _ ih => exact congrArg _ ih

/-- The label of a node once more of what it holds has come.  The first code sets its reach. -/
def Label.extend (l : Label) : Option Reach → Label
  | none => l
  | some r =>
    match l.tokens with
    | none => { l with range := r.range, tokens := some (r.first, r.last) }
    | some (first, _) => { l with range := l.range.cover r.range, tokens := some (first, r.last) }

theorem Label.extend_extend (l : Label) (r s : Option Reach) : (l.extend r).extend s = l.extend (Reach.join r s) := by
  cases r with
  | none => rfl
  | some r =>
    cases s with
    | none => rfl
    | some s =>
      simp only [extend, Reach.join]
      cases l.tokens with
      | none => rfl
      | some ends => simp [Span.cover, min_assoc, max_assoc]

/-- What is under construction: the number of the next node, the end of the last significant token, the open nodes, the
innermost first, with what they hold so far, and what stands in none. -/
structure Builder where
  next : Nat := 0
  lastEnd : Nat := 0
  opened : List Node := []
  top : Forest Label := .nil

namespace Builder

/-- Puts elements into the innermost open node. -/
def put (b : Builder) (f : Forest Label) : Builder :=
  match b.opened with
  | [] => { b with top := b.top.append f }
  | n :: outer => { b with opened := ⟨n.toLabel, n.elements.append f⟩ :: outer }

/-- Extends every open node. -/
def extend (b : Builder) (r : Option Reach) : Builder :=
  { b with opened := b.opened.map fun n => ⟨n.toLabel.extend r, n.elements⟩ }

def start (b : Builder) (k : Kind) : Builder :=
  { b with next := b.next + 1, opened := ⟨⟨b.next, k, .empty b.lastEnd, none⟩, .nil⟩ :: b.opened }

def finish (b : Builder) : Builder :=
  match b.opened with
  | [] => b
  | n :: outer => { b with opened := outer }.put n.toForest

def step (tokens : List Token) (b : Builder) : Event → Builder
  | .start k => b.start k
  | .token i =>
    { (b.put (.token i .nil)).extend (Reach.ofToken tokens i) with lastEnd := lastEndAfter tokens i b.lastEnd }
  | .finish => b.finish

/-- Closes all nodes. -/
def close (b : Builder) : Builder := finish^[b.opened.length] b

/-- Goes on by a part that is labelled. -/
def add (b : Builder) (l : Labelled) : Builder :=
  { (b.put l.forest).extend l.reach with next := l.next, lastEnd := l.lastEnd }

theorem add_nil (b : Builder) : b.add ⟨.nil, b.next, b.lastEnd, none⟩ = b := by
  obtain ⟨next, lastEnd, opened, top⟩ := b
  cases opened <;> simp [add, put, extend, Label.extend]

theorem add_add (b : Builder) (l l' : Labelled) :
    (b.add l).add l' =
      b.add ⟨l.forest.append l'.forest, l'.next, l'.lastEnd, Reach.join l.reach l'.reach⟩ := by
  obtain ⟨next, lastEnd, opened, top⟩ := b
  cases opened <;> simp [add, put, extend, Label.extend_extend, Forest.append_assoc]

/-- A node that is started, filled and closed. -/
theorem finish_add_start (tokens : List Token) (b : Builder) (k : Kind) (inside : Forest Kind) :
    let a := inside.label tokens (b.next + 1) b.lastEnd
    ((b.start k).add a).finish =
      b.add ⟨(Forest.made tokens k inside b.next b.lastEnd).toForest, a.next, a.lastEnd, a.reach⟩ := by
  obtain ⟨next, lastEnd, opened, top⟩ := b
  intro a
  have hlabel : (⟨next, k, .empty lastEnd, none⟩ : Label).extend a.reach =
      (Forest.made tokens k inside next lastEnd).toLabel := by
    show _ = Label.mk ..
    cases a.reach <;> rfl
  cases opened <;> simp only [add, finish, start, put, extend, map_cons, map_nil, hlabel] <;> rfl

/-- A walk over a forest adds it with its labels. -/
theorem foldl_events (tokens : List Token) (f : Forest Kind) (b : Builder) :
    f.events.foldl (step tokens) b = b.add (f.label tokens b.next b.lastEnd) := by
  induction f generalizing b with
  | nil => exact b.add_nil.symm
  | token i rest ih =>
    have hstep : step tokens b (.token i) =
        b.add ⟨.token i .nil, b.next, lastEndAfter tokens i b.lastEnd, Reach.ofToken tokens i⟩ := by
      obtain ⟨next, lastEnd, opened, top⟩ := b
      cases opened <;> rfl
    rw [Forest.events, foldl_cons, ih, hstep, add_add]
    rfl
  | node k inside rest ihInside ih =>
    rw [Forest.events, foldl_cons, foldl_append, foldl_cons, ihInside]
    change rest.events.foldl _ ((b.start k).add (inside.label tokens (b.next + 1) b.lastEnd)).finish = _
    rw [finish_add_start, ih, add_add]
    rfl

/-- Once all is closed, one more finish event means nothing. -/
theorem close_finish (b : Builder) : b.finish.close = b.close := by
  obtain ⟨next, lastEnd, opened, top⟩ := b
  match opened with
  | [] => rfl
  | [n] => rfl
  | n :: p :: outer => rfl

theorem close_foldl_replicate (tokens : List Token) (b : Builder) (count : Nat) :
    ((replicate count Event.finish).foldl (step tokens) b).close = b.close := by
  induction count generalizing b with
  | zero => rfl
  | succ count ih => exact (ih _).trans b.close_finish

/-- Where nothing is open, forests go on as one. -/
theorem foldl_top (tokens : List Token) (f : Forest Kind) (fs : List (Forest Kind)) :
    (f.events ++ fs.flatMap fun g => .finish :: g.events).foldl (step tokens) {} =
      (fs.foldl Forest.append f).events.foldl (step tokens) {} := by
  induction fs generalizing f with
  | nil => simp
  | cons g fs ih =>
    rw [foldl_cons, ← ih]
    simp only [flatMap_cons, Forest.events_append, foldl_append, foldl_cons, cons_append, foldl_events]
    rfl

/-- The steps build the labelled forest of the events. -/
theorem close_foldl (tokens : List Token) (events : List Event) :
    (events.foldl (step tokens) {}).close.top = ((Forest.ofEvents events).label tokens 0 0).forest := by
  obtain ⟨count, h⟩ := Forest.exists_events_nest events
  rw [← close_foldl_replicate tokens _ count, ← foldl_append, h, foldl_top]
  change ((Forest.ofEvents events).events.foldl (step tokens) {}).close.top = _
  rw [foldl_events]
  rfl

end Builder

/-! ## What events build -/

/-- The node that a start makes, by the moments of the walk: those before it, and all. -/
structure Moment.Builds (tokens : List Token) (before all : List Moment) (m : Moment) (n : Node) : Prop where
  id : n.id = m.next
  kind : m.event = .start n.kind
  /-- It is one of the elements of the innermost node that is open when it starts. -/
  once : ∀ p, m.opened.head? = some p → (elementsOf p all).count (.node m.next) = 1
  /-- Its elements are what comes while it is the innermost open node. -/
  elements : n.items.map Item.ref = elementsOf m.next all
  /-- It reaches over the significant tokens that come while it is open. -/
  code : ∀ first last, (codeAmong tokens (tokensOf m.next all)).head? = some first →
    (codeAmong tokens (tokensOf m.next all)).getLast? = some last →
    n.tokens = some (first.1, last.1) ∧ n.range.IsCover ((codeAmong tokens (tokensOf m.next all)).map (·.2.range))
  /-- Without any it stands where the code before it ends. -/
  blank : codeAmong tokens (tokensOf m.next all) = [] → n.tokens = none ∧
    n.range = .empty (((codeAmong tokens (before.filterMap token?)).getLast?.map (·.2.range.stop)).getD 0)

namespace Moment

variable {ms before after : List Moment} {m : Moment} {p : Nat}

theorem node_mem_elementsOf {id : Nat} (h : Ref.node id ∈ elementsOf p ms) :
    id ∈ (ms.filter (·.event.isStart)).map (·.next) := by
  obtain ⟨m', hm', hsome⟩ := mem_filterMap.1 h
  split at hsome
  · cases hevent : m'.event with
    | start k =>
      simp only [ref?, hevent, Option.some.injEq, Ref.node.injEq] at hsome
      exact mem_map.2 ⟨m', mem_filter.2 ⟨hm', by rw [hevent]; rfl⟩, hsome⟩
    | token i => simp [ref?, hevent] at hsome
    | finish => simp [ref?, hevent] at hsome
  · cases hsome

/-- A node is an element of another at most once. -/
theorem count_elementsOf {k : Kind} (hnodup : (((before ++ m :: after).filter (·.event.isStart)).map (·.next)).Nodup)
    (hk : m.event = .start k) (hp : m.opened.head? = some p) :
    (elementsOf p (before ++ m :: after)).count (.node m.next) = 1 := by
  have hself : elementsOf p [m] = [.node m.next] := by simp [elementsOf, hp, ref?, hk]
  rw [filter_append, filter_cons_of_pos (by rw [hk]; rfl), map_append, map_cons,
    nodup_middle, nodup_cons, mem_append, not_or] at hnodup
  have hbefore : Ref.node m.next ∉ elementsOf p before := fun h => hnodup.1.1 (node_mem_elementsOf h)
  have hafter : Ref.node m.next ∉ elementsOf p after := fun h => hnodup.1.2 (node_mem_elementsOf h)
  rw [elementsOf_append, elementsOf_cons, hself, count_append, count_append,
    count_eq_zero_of_not_mem hbefore, count_eq_zero_of_not_mem hafter, count_singleton_self]

end Moment

namespace Forest

variable {tokens : List Token}

theorem builds_made {before after : List Moment} {inside : Forest Kind} {m : Moment} {k : Kind}
    {all : List Moment} (hall : all = before ++ m :: (inside.moments (m.next + 1) (m.next :: m.opened) ++ after))
    (hothers : ∀ m' ∈ before ++ m :: after, m.next ∉ m'.opened) (hk : m.event = .start k)
    (hnodup : ((all.filter (·.event.isStart)).map (·.next)).Nodup) :
    m.Builds tokens before all (made tokens k inside m.next (endAfter tokens (before.filterMap Moment.token?) 0)) := by
  have htokens : Moment.tokensOf m.next all = inside.tokens := by
    rw [hall, Moment.tokensOf, Moment.filterMap_inside fun m' hm' => if_neg (hothers m' hm')]
    exact tokensOf_moments mem_cons_self
  have helements : Moment.elementsOf m.next all =
      Moment.elementsOf m.next (inside.moments (m.next + 1) (m.next :: m.opened)) := by
    rw [hall]
    exact Moment.filterMap_inside fun m' hm' => if_neg fun hhead => hothers m' hm' (mem_of_head? hhead)
  have hsums := Reach.sums_ofTokens tokens inside.tokens
  rw [← label_reach inside (m.next + 1) (endAfter tokens (before.filterMap Moment.token?) 0)] at hsums
  refine ⟨rfl, hk, fun p hp => ?_, ?_, fun first last hfirst hlast => ?_, fun hnone => ?_⟩
  · rw [hall] at hnodup ⊢
    exact Moment.count_elementsOf hnodup hk hp
  · rw [helements]
    exact items_label inside (Nat.lt_succ_self _)
  · rw [htokens] at hfirst hlast ⊢
    obtain ⟨r, hr, hfirstEq, hlastEq, hcover⟩ := hsums.eq_some hfirst hlast
    rw [← hfirstEq, ← hlastEq, made, hr]
    exact ⟨rfl, hcover⟩
  · rw [htokens] at hnone
    rw [hnone] at hsums
    rw [made, hsums.eq_none, endAfter_eq]
    exact ⟨rfl, rfl⟩

theorem nodes_ne_nil {f : Forest Kind} (hf : f.size ≠ 0) (next lastEnd : Nat) :
    (f.label tokens next lastEnd).forest.nodes ≠ [] := by
  induction f generalizing next lastEnd with
  | nil => exact absurd rfl hf
  | token i rest ih => exact ih hf _ _
  | node k inside rest _ _ => exact cons_ne_nil _ _

theorem mem_parented_of_nodes {f : Forest Label} {n : Node} {parent : Option Nat} (hn : n ∈ f.nodes) :
    (parent, n) ∈ f.parented parent := by
  induction f with
  | nil => cases hn
  | token i rest ih => exact ih hn
  | node l inside rest _ ih =>
    rcases mem_cons.1 hn with rfl | hn
    · exact mem_cons_self
    · exact mem_cons_of_mem _ (mem_append_right _ (ih hn))

/-- Below the node where the way down starts, the open nodes are the ancestors. -/
theorem ancestors_label {f : Forest Kind} {m : Moment} {k : Kind} {tree : Tree} (hm : m ∈ f.moments 0 [])
    (hk : m.event = .start k) (hroot : tree.root ∈ (f.label tokens 0 0).forest.nodes)
    (hbelow : m.opened.getLast?.getD m.next = tree.root.id) : (tree.ancestors m.next).map (·.id) = m.opened := by
  obtain ⟨path, inner, hpath, hopened, hids⟩ := @path?_label f 0 [] tokens 0 m k hm hk
  rw [List.append_nil] at hopened
  subst hopened
  obtain ⟨top, htop, below, rfl, htree⟩ := path?_top hpath
  have hnodup : ((f.label tokens 0 0).forest.labels.map Label.id).Nodup := by
    rw [(label_ids f 0 0).2]
    exact nodup_range'
  have hid : top.id = tree.root.id := by
    have hhead := congrArg List.head? hids
    rw [head?_append, head?_reverse] at hhead
    rw [← hbelow]
    cases hlast : m.opened.getLast? with
    | none => simpa [hlast] using hhead
    | some id => simpa [hlast] using hhead
  have hsame : top = tree.root := by
    have h := path?_of_mem hnodup htop
    rw [hid, path?_of_mem hnodup hroot] at h
    exact (singleton_inj.1 (Option.some.inj h)).symm
  rw [Tree.ancestors, Tree.path, ← hsame, htree, Option.getD_some, map_reverse, map_dropLast, hids,
    dropLast_concat, reverse_reverse]

end Forest

/-- Events build a forest, step by step; its nodes, and the root among them, are those that the moments tell of, each
with its number, parent, elements and reach. -/
theorem Tree.ofEvents?_built {tokens : List Token} {events : List Event} (text : List Char) (comments : List Comment)
    (hstart : ∃ k, Event.start k ∈ events) (hindexes : ∀ i, Event.token i ∈ events → i < tokens.length) :
    let all := moments events 0 []
    let nodes := ((Forest.ofEvents events).label tokens 0 0).forest.parented none
    (events.foldl (Builder.step tokens) {}).close.top = ((Forest.ofEvents events).label tokens 0 0).forest ∧
    nodes.map (·.2.id) = List.range (events.countP Event.isStart) ∧
    (∀ m ∈ all, m.event.isStart = true → ∃ before after n, all = before ++ m :: after ∧
      (m.opened.head?, n) ∈ nodes ∧ m.Builds tokens before all n) ∧
    ∃ root, (none, root) ∈ nodes ∧
      (all.filter fun m => m.event.isStart && m.opened.isEmpty).getLast?.map (·.next) = some root.id ∧
      Tree.ofEvents? text tokens comments events = some ⟨text, tokens, comments, root⟩ ∧
      ∀ m ∈ all, m.event.isStart = true → m.opened.getLast?.getD m.next = root.id →
        ((⟨text, tokens, comments, root⟩ : Tree).ancestors m.next).map (·.id) = m.opened := by
  intro all nodes
  have hall : all = (Forest.ofEvents events).moments 0 [] := Forest.moments_ofEvents events
  have hsize : (Forest.ofEvents events).size = events.countP Event.isStart := by
    have hstarts := congrArg List.length (Forest.starts_moments (Forest.ofEvents events) 0 [])
    rw [length_map, ← countP_eq_length_filter, length_range', ← hall, Forest.moments_starts] at hstarts
    exact hstarts.symm
  have hne : (Forest.ofEvents events).size ≠ 0 := by
    obtain ⟨k, hk⟩ := hstart
    rw [hsize, Nat.ne_zero_iff_zero_lt, countP_pos_iff]
    exact ⟨_, hk, rfl⟩
  refine ⟨Builder.close_foldl tokens events, ?_, ?_, ?_⟩
  · have hids := (@Forest.label_ids tokens (Forest.ofEvents events) 0 0).2
    rw [← Forest.descendants_toLabel, ← Forest.parented_nodes _ none, map_map, map_map, Forest.label_next,
      Nat.zero_add, Nat.sub_zero, hsize, ← range_eq_range'] at hids
    exact hids
  · intro m hm hk
    obtain ⟨k, hk⟩ := Event.isStart_iff.1 hk
    obtain ⟨before, inside, after, hsplit, hothers, hmem⟩ :=
      @Forest.exists_made (Forest.ofEvents events) 0 [] tokens 0 m k (fun id hid => absurd hid not_mem_nil)
        (hall ▸ hm) hk
    refine ⟨before, _, _, hall.trans hsplit, hmem, Forest.builds_made (hall.trans hsplit) hothers hk ?_⟩
    rw [hall, Forest.starts_moments]
    exact nodup_range'
  · obtain ⟨root, hroot⟩ := Option.ne_none_iff_exists'.1 fun h =>
      @Forest.nodes_ne_nil tokens _ hne 0 0 (getLast?_eq_none_iff.1 h)
    have hmem := mem_of_getLast? hroot
    refine ⟨root, Forest.mem_parented_of_nodes hmem, ?_, ?_, ?_⟩
    · rw [hall, ← getLast?_map, ← Forest.nodes_label, getLast?_map, hroot]
      rfl
    · rw [Tree.ofEvents?, if_pos, hroot]
      · rfl
      refine all_eq_true.2 fun e he => ?_
      cases e with
      | token i => exact decide_eq_true (hindexes i he)
      | _ => rfl
    · intro m hm hk hbelow
      obtain ⟨k, hk⟩ := Event.isStart_iff.1 hk
      exact Forest.ancestors_label (hall ▸ hm) hk hmem hbelow

/-- Two nodes at the top, of which the last is never closed, more finish events than starts, and tokens out of order:
the node that starts third has node 1 around it. -/
theorem Tree.ofEvents?_built_unbalanced :
    let tokens := [⟨.name, ⟨0, 1⟩⟩, ⟨.newline, ⟨1, 2⟩⟩, ⟨.name, ⟨2, 3⟩⟩]
    let events := [.finish, .token 0, .start .block, .token 0, .finish, .finish, .start .program, .token 1,
      .start .ident, .token 2, .token 0, .finish, .start .this]
    ∃ root ident, Tree.ofEvents? ['a', '\n', 'b'] tokens [] events = some ⟨['a', '\n', 'b'], tokens, [], root⟩ ∧
      root.id = 1 ∧ (some 1, ident) ∈ ((Forest.ofEvents events).label tokens 0 0).forest.parented none ∧
      ident.id = 2 ∧ ident.items.map Item.ref = [.token 2, .token 0] ∧
      ident.tokens = some (2, 0) ∧ ident.range.IsCover [⟨2, 3⟩, ⟨0, 1⟩] ∧
      (Tree.ancestors ⟨['a', '\n', 'b'], tokens, [], root⟩ 2).map (·.id) = [1] := by
  intro tokens events
  have hindexes : ∀ i, Event.token i ∈ events → i < tokens.length := by
    intro i hi
    have hcases : i = 0 ∨ i = 0 ∨ i = 1 ∨ i = 2 ∨ i = 0 := by simpa [events] using hi
    show i < 3
    omega
  obtain ⟨-, -, hstarts, root, -, hlast, htree, hancestors⟩ :=
    @Tree.ofEvents?_built tokens events ['a', '\n', 'b'] [] ⟨.block, by decide⟩ hindexes
  obtain ⟨_, _, ident, -, hmem, hbuilds⟩ := hstarts ⟨.start .ident, 2, [1]⟩ (by decide) rfl
  have hroot : root.id = 1 := (Option.some.inj hlast).symm
  obtain ⟨hends, hcover⟩ := hbuilds.code (2, _) (0, _) rfl rfl
  exact ⟨root, ident, htree, hroot, hmem, hbuilds.id, hbuilds.elements, hends, hcover,
    hancestors ⟨.start .ident, 2, [1]⟩ (by decide) rfl hroot.symm⟩

end Respell
