import Respell.Proofs.Javascript.Values
import Respell.Proofs.Patch.Calls

/-!
What preparing tells the parts of a construct.

While a construct is prepared it asks some of its parts for their values and tells others to return their last
statements.  The places of both can be listed (`Marks`), and they are those that the tree says: a block or conditional
is told to return if it is in tail position, it is then not asked for its value, and a statement in tail position is
asked for its value if `return` goes in front of it (`prepare_tells`).
-/

namespace Respell.Javascript

open List

variable {tree : Tree} {n c d : Node} {nodes : List Node} {p q : Patcher Construct} {α β : Type}

/-! ## Marks -/

/-- The patcher, asked for its value or told to return its last statement or both. -/
def mark (asked returned : Bool) : Patcher Construct → Patcher Construct
  | .mk s phase k parts =>
    .mk { s with needsValue := s.needsValue || asked } phase (if returned then k.returnLast else k) parts

/-- The patchers with those marked that stand at the given places. -/
def marked (asked returned : List Nat) (ps : List (Patcher Construct)) : List (Patcher Construct) :=
  ps.mapIdx fun i => mark (asked.contains i) (returned.contains i)

theorem demandValue_eq : Patcher.demandValue = mark true false := by
  funext ⟨s, phase, k, parts⟩
  simp [mark, Patcher.demandValue]

theorem returnLast_eq : Patcher.adjust Construct.returnLast = mark false true := by
  funext ⟨s, phase, k, parts⟩
  simp [mark, Patcher.adjust]

@[simp] theorem mark_false : mark false false = id := by
  funext ⟨s, phase, k, parts⟩
  simp [mark]

theorem mark_mark (a r a' r' : Bool) (q : Patcher Construct) :
    mark a' r' (mark a r q) = mark (a || a') (r || r') q := by
  have htwice (k : Construct) : k.returnLast.returnLast = k.returnLast := by cases k <;> rfl
  obtain ⟨s, phase, k, parts⟩ := q
  cases r <;> cases r' <;> simp [mark, Bool.or_assoc, htwice]

theorem marked_nil (ps : List (Patcher Construct)) : marked [] [] ps = ps := by
  simp [marked, mapIdx_eq_iff]

theorem marked_marked (a r a' r' : List Nat) (ps : List (Patcher Construct)) :
    marked a' r' (marked a r ps) = marked (a ++ a') (r ++ r') ps := by
  simp only [marked, mapIdx_mapIdx, Function.comp_def, mark_mark, contains_append]

theorem getElem?_marked (a r : List Nat) (ps : List (Patcher Construct)) (i : Nat) :
    (marked a r ps)[i]? = ps[i]?.map (mark (a.contains i) (r.contains i)) := getElem?_mapIdx

theorem modify_mark (a r : Bool) (i : Nat) (ps : List (Patcher Construct)) :
    ps.modify i (mark a r) = marked (if a then [i] else []) (if r then [i] else []) ps := by
  refine ext_getElem? fun j => ?_
  rw [getElem?_marked, getElem?_modify]
  by_cases hj : i = j
  · subst hj
    cases a <;> cases r <;> simp
  · have hne : ¬ j = i := Ne.symm hj
    cases a <;> cases r <;> simp [hj, hne]

/-- The script asks the parts at the places `asked` for their values, tells those at the places `returned` to return
their last statements, and does nothing else to parts.  It ends with `Q` of its result and of the construct. -/
def Marks (tree : Tree) (m : Work α) (asked returned : List Nat) (Q : α → Construct → Prop) : Prop :=
  ∀ callee p g, g.tree = tree → Script.Safe (fun _ => False) callee m p g fun a p' g' =>
    g'.tree = tree ∧ p'.parts = marked asked returned p.parts ∧ Q a p'.construct

namespace Marks

variable {a r a' r' : List Nat} {Q : α → Construct → Prop} {R : β → Construct → Prop}

theorem pure {x : α} (h : ∀ k, Q x k) : Marks tree (Pure.pure x) [] [] Q :=
  fun _ p _ htree => ⟨htree, (marked_nil _).symm, h p.construct⟩

theorem bind {m : Work α} {f : α → Work β} (h : Marks tree m a r Q)
    (hf : ∀ x k, Q x k → Marks tree (f x) a' r' R) : Marks tree (m >>= f) (a ++ a') (r ++ r') R := by
  intro callee p g htree
  refine (h callee p g htree).bind fun x _ g' h' => ?_
  refine (hf x _ h'.2.2 callee _ g' h'.1).mono fun y _ g'' h'' => ⟨h''.1, ?_, h''.2.2⟩
  rw [h''.2.1, h'.2.1, marked_marked]

theorem mono {m : Work α} {R : α → Construct → Prop} (h : Marks tree m a r Q) (hQ : ∀ x k, Q x k → R x k) :
    Marks tree m a r R :=
  fun callee p g htree => (h callee p g htree).mono fun x _ _ h' => ⟨h'.1, h'.2.1, hQ x _ h'.2.2⟩

theorem demandValue (i : Nat) : Marks tree (Script.demandValue i) [i] [] fun _ _ => True := by
  rintro callee ⟨site, phase, k, parts⟩ g htree
  exact ⟨htree, (congrArg (parts.modify i) demandValue_eq).trans (modify_mark true false i parts), trivial⟩

theorem returnLast (i : Nat) (x : α) :
    Marks tree (.adjust i Construct.returnLast (.done x)) [] [i] fun y _ => y = x := by
  rintro callee ⟨site, phase, k, parts⟩ g htree
  exact ⟨htree, (congrArg (parts.modify i) returnLast_eq).trans (modify_mark false true i parts), rfl⟩

theorem become (k : Construct) : Marks tree (.become k (.done ())) [] [] fun _ k' => k' = k := by
  rintro callee ⟨site, phase, _, parts⟩ g htree
  exact ⟨htree, (marked_nil parts).symm, rfl⟩

theorem of_get {f : Context → Work β} (hf : ∀ g : Context, g.tree = tree → Marks tree (f g) a r R) :
    Marks tree (get >>= f) a r R := by
  intro callee p g htree
  exact hf g htree callee p g htree

theorem of_modify {f : Context → Context} (hf : ∀ g, (f g).tree = g.tree) :
    Marks tree (modify f : Work PUnit) [] [] fun _ _ => True := fun _ _ g htree =>
  Script.Safe.step (m := modify f) (Patching.Safe.of_modify ⟨(hf g).trans htree, (marked_nil _).symm, trivial⟩)

theorem forM {xs : List α} {f : α → Work PUnit} {a r : α → List Nat}
    (h : ∀ x, Marks tree (f x) (a x) (r x) fun _ _ => True) :
    Marks tree (xs.forM f) (xs.flatMap a) (xs.flatMap r) fun _ _ => True := by
  induction xs with
  | nil => exact pure fun _ => trivial
  | cons x xs ih => exact (h x).bind fun _ _ _ => ih

theorem forM_demandValue {xs : List α} (place : α → Nat) :
    Marks tree (xs.forM fun x => Script.demandValue (place x)) (xs.map place) [] fun _ _ => True := by
  have h : Marks tree (xs.forM fun x => Script.demandValue (place x)) (xs.flatMap fun x => [place x])
      (xs.flatMap fun _ => []) fun _ _ => True := forM fun x => demandValue (place x)
  rwa [← map_eq_flatMap, flatMap_eq_nil_iff.2 fun _ _ => rfl] at h

end Marks

/-! ## Roles -/

/-- Constructs whose last statements may be returned. -/
def hasTails : Kind → Bool
  | .block | .ifExpr => true
  | _ => false

/-- What the part that stands for the node is asked for and told to do is what the tree says. -/
structure Role (tree : Tree) (c : Node) (isAsked returns : Bool) : Prop where
  returned : hasTails c.unwrapParens.kind = true → returns = tree.isTail c.unwrapParens
  asked : hasTails c.unwrapParens.kind = true → isAsked = true → tree.isTail c.unwrapParens = false
  statement : c ∈ tree.root.statements → tree.isTail c = true → isAsked = tree.isReturned c

theorem Role.of_not_tail (h : tree.root.Sound tree) (hc : c ∈ tree.root.descendants) (htail : tree.isTail c = false)
    (asked : Bool) : Role tree c asked false := by
  have hinner : tree.isTail c.unwrapParens = false := by rw [tree.isTail_unwrapParens h hc, htail, Bool.false_and]
  refine ⟨fun _ => hinner.symm, fun _ _ => hinner, fun _ hc => ?_⟩
  rw [htail] at hc
  cases hc

theorem Role.mark {asked returned : Bool} (h : Role tree c asked returned) (hq : Shows tree c q) (hfresh : Fresh q) :
    Role tree c (mark asked returned q).site.needsValue (mark asked returned q).construct.returns := by
  obtain ⟨nodes, -, hfits, -⟩ := hq
  have hvalue := hfresh.needsValue
  have hreturns := hfresh.returns
  obtain ⟨s, phase, k, parts⟩ := q
  change Fits tree c.unwrapParens nodes k at hfits
  change s.needsValue = false at hvalue
  change k.returns = false at hreturns
  have hasked : (mark asked returned (.mk s phase k parts)).site.needsValue = asked := by
    show (s.needsValue || asked) = asked
    rw [hvalue, Bool.false_or]
  rw [hasked]
  refine ⟨fun hk => ?_, h.asked, h.statement⟩
  rw [← h.returned hk]
  show (if returned then k.returnLast else k).returns = returned
  cases returned with
  | false => exact hreturns
  | true =>
    have hstands := hfits.standsFor
    cases k with
    | block | conditional => rfl
    | _ =>
      revert hstands hk
      cases c.unwrapParens.kind <;> simp [Construct.standsFor, isPlain, hasTails]

section Statements

open Syntax

theorem ne_block_of_statement (hn : n.Sound tree) (hk : n.kind = .block) (hc : c ∈ n.children) : c.kind ≠ .block := by
  intro hblock
  have hrows := hn.rows
  rw [hk] at hrows
  have hitem := hrows.1 _ (mem_map_of_mem (Node.mem_children.1 hc))
  have hsymbol : c.symbol tree = .node c.kind :=
    Symbol.ofNode_of_ne (by rw [hblock]; decide) (by rw [hblock]; decide) _
  rw [Item.symbol, hsymbol, hblock] at hitem
  cases hitem

theorem unwrapParens_ne_block (hn : n.Sound tree) (hk : n.kind ≠ .block) : n.unwrapParens.kind ≠ .block := by
  refine Node.Sound.parens_induction (P := fun n => n.kind ≠ .block → n.unwrapParens.kind ≠ .block) ?_ ?_ n hn hk
  · intro n _ hparen hk
    rwa [Node.unwrapParens_of_ne hparen]
  · intro n c hn hparen hchildren _ hunwrap _ _ ih _
    rw [hunwrap]
    refine ih fun hblock => ?_
    have hrows := hn.rows
    rw [hparen, production] at hrows
    obtain ⟨_, _, hitems, hrows, hright⟩ := hrows.mul
    obtain ⟨_, _, rfl, hleft, hinner⟩ := hrows.mul
    obtain ⟨i, rfl, -⟩ := hleft.word
    obtain ⟨d, rfl, hd, -⟩ := hinner.node
    obtain ⟨j, rfl, -⟩ := hright.word
    have hchildren' : n.children = [d] := Node.children_eq hitems
    rw [hchildren, singleton_inj] at hchildren'
    rw [← hchildren', hblock] at hd
    cases hd

end Statements

theorem mem_statements {s : Node} : s ∈ n.statements ↔ ∃ b ∈ n.descendants, b.kind = .block ∧ s ∈ b.children := by
  simp only [Node.statements, mem_flatMap, mem_ite_nil_right]

theorem not_mem_statements (h : tree.root.Sound tree) (hn : n ∈ tree.root.descendants) (hk : n.kind ≠ .block)
    (hc : c ∈ n.children) : c ∉ tree.root.statements := by
  rw [mem_statements]
  rintro ⟨b, hb, hblock, hcb⟩
  rw [tree.parent_unique h.ids hn hb hc hcb] at hk
  exact hk hblock

/-! ## Constructs -/

/-- The script tells each part what the tree says of its node, and ends with `Q` of the construct. -/
def Tells (tree : Tree) (nodes : List Node) (m : Work Unit) (Q : Construct → Prop) : Prop :=
  ∃ a r, Marks tree m a r (fun _ => Q) ∧ ∀ i c, nodes[i]? = some c → Role tree c (a.contains i) (r.contains i)

theorem Tells.mono {m : Work Unit} {Q R : Construct → Prop} (h : Tells tree nodes m Q) (hQ : ∀ k, Q k → R k) :
    Tells tree nodes m R := by
  obtain ⟨a, r, hmarks, hroles⟩ := h
  exact ⟨a, r, hmarks.mono fun _ => hQ, hroles⟩

/-- If the construct is a block, it says whether `return` goes in front of the last statement. -/
def ReturnsLast (tree : Tree) (n : Node) (k : Construct) : Prop :=
  ∀ b, k = .block b → b.returnsLast = n.children.getLast?.any tree.isReturned

/-- The places of the conditionals that read as values because of their parentheses. -/
def parens (ps : List (Patcher Construct)) : List Nat :=
  ps.zipIdx.flatMap fun x => if isParenthesizedValue x.1 then [x.2] else []

theorem contains_parens {ps : List (Patcher Construct)} {i : Nat} (hq : ps[i]? = some q) :
    (parens ps).contains i = isParenthesizedValue q := by
  rw [Bool.eq_iff_iff, contains_iff_mem, parens, mem_flatMap]
  constructor
  · rintro ⟨⟨q', j⟩, hx, hi⟩
    dsimp only at hi
    split at hi
    · cases mem_singleton.1 hi
      cases hq.symm.trans (mem_zipIdx_iff_getElem?.1 hx)
      assumption
    · cases hi
  · intro hvalue
    exact ⟨(q, i), mem_zipIdx_iff_getElem?.2 hq, by simp [hvalue]⟩

theorem marks_parens (ps : List (Patcher Construct)) :
    Marks tree (ps.zipIdx.forM fun x => if isParenthesizedValue x.1 then Script.demandValue x.2 else pure () :
      Work PUnit) (parens ps) [] fun _ _ => True := by
  have hnone : ps.zipIdx.flatMap (fun _ => ([] : List Nat)) = [] := flatMap_eq_nil_iff.2 fun _ _ => rfl
  rw [← hnone]
  refine Marks.forM fun x => ?_
  split
  · exact Marks.demandValue _
  · exact Marks.pure fun _ => trivial

theorem marks_becomeBlock {b : Block} (hb : b.returnsLast = n.children.getLast?.any tree.isReturned) :
    Marks tree (.become (.block b) (.done ())) [] [] fun _ => ReturnsLast tree n := by
  refine (Marks.become _).mono fun _ k hk b' hb' => ?_
  cases hk.symm.trans hb'
  exact hb

theorem sublist_flatMap_descendants (nodes : List Node) : nodes.Sublist (nodes.flatMap Node.descendants) := by
  induction nodes with
  | nil => exact .slnil
  | cons c nodes ih =>
    rw [flatMap_cons, descendants_eq_children, cons_append]
    exact (ih.trans (sublist_append_right _ _)).cons_cons c

/-- No node is shown by two parts of a construct. -/
theorem Fits.nodup {k : Construct} (hn : n.Sound tree) (hfits : Fits tree n nodes k) : nodes.Nodup := by
  obtain ⟨extra, hperm, -⟩ := hfits.covers hn
  have hbelow := hn.descendants_nodup
  rw [Node.descendants_eq, nodup_cons] at hbelow
  exact (sublist_flatMap_descendants nodes).nodup (nodup_append.1 (hperm.nodup_iff.1 hbelow.2)).2.1

/-- A part stands at one place. -/
theorem eq_place_iff {part : Part} (hpart : part.Of nodes d) (hnodup : nodes.Nodup) {i : Nat}
    (hc : nodes[i]? = some c) : i = part.place ↔ c = d := by
  constructor
  · rintro rfl
    exact Option.some.inj (hc.symm.trans hpart.place)
  · rintro rfl
    exact (getElem?_inj (List.getElem?_eq_some_iff.1 hc).1 hnodup).1 (hc.trans hpart.place.symm)

section Constructs

variable (h : tree.root.Sound tree) (hn : n ∈ tree.root.descendants) {k : Construct}
include h hn

/-- No part of the construct is in tail position. -/
theorem Fits.isTail_eq_false (hfits : Fits tree n nodes k) (hfunction : n.kind ≠ .function)
    (hparen : n.kind ≠ .parenExpr) (htail : hasTails n.kind = true → tree.isTail n = false) (hc : c ∈ nodes) :
    tree.isTail c = false := by
  rcases hfits.part_cases (h.descendant hn).1 hc with hc | ⟨v, hv, -⟩
  · rw [tree.isTail_child h hn hc, Node.handsTail]
    revert hfunction hparen htail
    cases n.kind <;> simp +contextual [hasTails]
  · exact absurd (function_kind hv) hfunction

omit h hn in
theorem Fits.mem_root (hfits : Fits tree n nodes k) (h : tree.root.Sound tree) (hn : n ∈ tree.root.descendants)
    (hc : c ∈ nodes) : c ∈ tree.root.descendants :=
  Node.descendants_trans hn (Node.mem_descendants_of_elements (hfits.mem_descendants (h.descendant hn).1 hc))

/-- A last statement in tail position is asked for its value, or told to return its own last statement, or neither. -/
theorem Block.marks_prepareReturn (hlast : p.parts.getLast? = some q) (hq : Shows tree n q) (hfresh : Fresh q)
    (htail : tree.isTail n = true) :
    Marks tree (prepareReturn p) (if tree.isReturned n then [p.parts.length - 1] else [])
      (if n.unwrapParens.kind = .ifExpr ∧ tree.isReturned n = false then [p.parts.length - 1] else [])
      fun r _ => r = tree.isReturned n := by
  have hparen := hq.isParenthesizedValue_eq (h.descendant hn).1
  have hinner := tree.isTail_unwrapParens h hn
  obtain ⟨nodes, -, hfits, -⟩ := hq
  have hdemand : Marks tree (do Script.demandValue (p.parts.length - 1); return true : Work Bool)
      [p.parts.length - 1] [] fun r _ => r = true :=
    (Marks.demandValue _).bind fun _ _ _ => Marks.pure fun _ => rfl
  have hother (hk : n.unwrapParens.kind ≠ .ifExpr) (hreturned : tree.isReturned n = true) :
      Marks tree (do Script.demandValue (p.parts.length - 1); return true : Work Bool)
        (if tree.isReturned n then [p.parts.length - 1] else [])
        (if n.unwrapParens.kind = .ifExpr ∧ tree.isReturned n = false then [p.parts.length - 1] else [])
        fun r _ => r = tree.isReturned n := by
    simpa [hk, hreturned] using hdemand
  unfold prepareReturn
  rw [hlast]
  dsimp only
  generalize q.construct = k at hfits
  cases hfits with
  | returning kind =>
    have hreturned : tree.isReturned n = false := by simp [Tree.isReturned, kind]
    simp only [hreturned, kind]
    exact Marks.pure fun _ => rfl
  | loop view =>
    have hreturned : tree.isReturned n = false := by simp [Tree.isReturned, loop_kind view]
    simp only [hreturned, loop_kind view]
    exact Marks.pure fun _ => rfl
  | conditional view =>
    have hk := conditional_kind view
    have hreturned : tree.isReturned n = isParenthesizedValue q := by
      simp [Tree.isReturned, hk, htail, hinner, hparen]
    rw [hfresh.needsValue, Bool.false_or, hreturned]
    cases isParenthesizedValue q with
    | true => simpa [hk] using hdemand
    | false =>
      have hreturn : Marks tree (.adjust (p.parts.length - 1) Construct.returnLast (.done false)) []
          [p.parts.length - 1] fun r _ => r = false := Marks.returnLast _ _
      simpa [hk] using hreturn
  | block kind => exact hother (by rw [kind]; decide) (by simp [Tree.isReturned, kind, htail])
  | function view =>
    exact hother (by rw [function_kind view]; decide) (by simp [Tree.isReturned, function_kind view, htail])
  | assignment view =>
    obtain ⟨-, -, hk | hk⟩ := assignment_view view <;>
      exact hother (by rw [hk]; decide) (by simp [Tree.isReturned, hk, htail])
  | expression plain view kind =>
    refine hother (fun hk => by rw [hk] at plain; cases plain) ?_
    rw [Tree.isReturned, htail, Bool.true_and]
    revert plain kind
    cases n.unwrapParens.kind <;> simp [isPlain]

/-- The last statement of a block is in tail position if the block is. -/
theorem isTail_statement (hk : n.kind = .block) (hc : c ∈ n.children) :
    tree.isTail c = true ↔ tree.isTail n = true ∧ n.children.getLast? = some c := by
  rw [tree.isTail_child h hn hc, Node.handsTail, hk, Bool.and_eq_true, Option.any_eq_true]
  refine and_congr_right fun _ => ⟨?_, fun hlast => ⟨c, hlast, beq_self_eq_true _⟩⟩
  rintro ⟨d, hlast, hid⟩
  have hd := Node.descendants_child hn (mem_of_getLast? hlast)
  rwa [h.eq_of_id hd (Node.descendants_child hn hc) (eq_of_beq hid)] at hlast

theorem place_of_isTail (hk : n.kind = .block) {i : Nat} (hc : n.children[i]? = some c)
    (htail : tree.isTail c = true) : i + 1 = n.children.length := by
  have hlast := ((isTail_statement h hn hk (mem_of_getElem? hc)).1 htail).2
  have hlt := (List.getElem?_eq_some_iff.1 hc).1
  rw [getLast?_eq_getElem?] at hlast
  have := (getElem?_inj hlt (children_nodup (h.descendant hn).1)).1 (hc.trans hlast.symm)
  omega

/-- What a last statement in tail position is asked for and told. -/
theorem role_of_last (htail : tree.isTail n = true) (hk : n.unwrapParens.kind ≠ .block) :
    Role tree n ((n.kind == .parenExpr && n.unwrapParens.kind == .ifExpr && n.hasValue) || tree.isReturned n)
      (decide (n.unwrapParens.kind = .ifExpr ∧ tree.isReturned n = false)) := by
  have hinner := tree.isTail_unwrapParens h hn
  rw [htail, Bool.true_and] at hinner
  by_cases hif : n.unwrapParens.kind = .ifExpr
  · have hreturned : tree.isReturned n = !tree.isTail n.unwrapParens := by simp [Tree.isReturned, htail, hif]
    have hasked : (n.kind == .parenExpr && n.unwrapParens.kind == .ifExpr && n.hasValue) = tree.isReturned n := by
      rw [hreturned, hinner, hif, beq_self_eq_true, Bool.and_true, Bool.not_not]
    rw [hasked, Bool.or_self, hreturned]
    refine ⟨fun _ => ?_, fun _ hr => by simpa using hr, fun _ _ => hreturned.symm⟩
    simp [hif]
  · have hnone : ¬ hasTails n.unwrapParens.kind = true := by
      revert hk hif
      cases n.unwrapParens.kind <;> simp [hasTails]
    refine ⟨fun hk => absurd hk hnone, fun hk => absurd hk hnone, fun _ _ => ?_⟩
    simp [beq_false_of_ne hif]

theorem role_of_child (hc : c ∈ n.children) (htail : ¬ tree.isTail c = true) (asked : Bool) : Role tree c asked false :=
  Role.of_not_tail h (Node.descendants_child hn hc) (Bool.eq_false_iff.2 htail) asked

section Block

variable {b : Block} (hk : n.kind = .block) (hparts : Collected tree n.children p.parts)
  (hvalue : p.site.needsValue = false) (hreturns : b.returns = tree.isTail n)
include hk hparts hvalue hreturns

/-- A block with a statement in tail position tells that one, its last, to be returned. -/
theorem Block.tells_last (hlast : n.children.getLast? = some d) (htail : tree.isTail d = true) :
    Tells tree n.children (b.prepare p) (ReturnsLast tree n) := by
  have hd := mem_of_getLast? hlast
  have hroot := Node.descendants_child hn hd
  have hplace := hlast
  rw [getLast?_eq_getElem?, hparts.length_eq] at hplace
  obtain ⟨q, hq, hshows, hfresh⟩ := forall₂_getElem?_left hparts hplace
  have hmarks := marks_prepareReturn h hroot (getLast?_eq_getElem?.trans hq) hshows hfresh htail
  unfold Block.prepare
  rw [hvalue, hreturns, ((isTail_statement h hn hk hd).1 htail).1]
  refine ⟨_, _, (marks_parens _).bind fun _ _ _ => hmarks.bind fun r _ hr => marks_becomeBlock ?_, fun i c hc => ?_⟩
  · rw [hlast, Option.any_some]
    exact hr
  by_cases hi : i = p.parts.length - 1
  · subst hi
    cases hc.symm.trans hplace
    have hrole := role_of_last h hroot htail (unwrapParens_ne_block (h.descendant hroot).1
      (ne_block_of_statement (h.descendant hn).1 hk hd))
    rw [← hshows.isParenthesizedValue_eq (h.descendant hroot).1, ← contains_parens hq] at hrole
    convert hrole using 1
    · cases tree.isReturned d <;> simp
    · split <;> simp_all
  · have hnot : ¬ tree.isTail c = true := fun htail => by
      have := place_of_isTail h hn hk hc htail
      rw [hparts.length_eq] at this
      omega
    convert role_of_child h hn (mem_of_getElem? hc) hnot _ using 1
    split <;> simp [hi]

/-- A block without one returns nothing. -/
theorem Block.tells_none (hnot : ∀ d ∈ n.children, ¬ tree.isTail d = true) :
    Tells tree n.children (b.prepare p) (ReturnsLast tree n) := by
  have hnone : n.children.getLast?.any tree.isReturned = false := by
    cases hlast : n.children.getLast? with
    | none => rfl
    | some d => simp [Tree.isReturned, hnot d (mem_of_getLast? hlast)]
  have hempty (htail : tree.isTail n = true) : p.parts = [] := by
    rw [← length_eq_zero_iff, ← hparts.length_eq, length_eq_zero_iff]
    refine getLast?_eq_none_iff.1 (Option.eq_none_iff_forall_ne_some.2 fun d hlast => ?_)
    have hd := mem_of_getLast? hlast
    exact hnot d hd ((isTail_statement h hn hk hd).2 ⟨htail, hlast⟩)
  have hfalse : Marks tree (pure false : Work Bool) [] [] fun r _ => r = false := Marks.pure fun _ => rfl
  unfold Block.prepare
  rw [hvalue, hreturns]
  refine ⟨parens p.parts ++ ([] ++ []), [] ++ ([] ++ []), (marks_parens _).bind fun _ _ _ => ?_, fun i c hc =>
    role_of_child h hn (mem_of_getElem? hc) (hnot c (mem_of_getElem? hc)) _⟩
  dsimp only
  split
  case isTrue htail =>
    unfold prepareReturn
    rw [hempty htail]
    exact hfalse.bind fun r _ hr => marks_becomeBlock (hr.trans hnone.symm)
  case isFalse => exact hfalse.bind fun r _ hr => marks_becomeBlock (hr.trans hnone.symm)

theorem Block.prepare_roles : Tells tree n.children (b.prepare p) (ReturnsLast tree n) := by
  by_cases htail : ∃ d ∈ n.children, tree.isTail d = true
  · obtain ⟨d, hd, htail⟩ := htail
    exact Block.tells_last h hn hk hparts hvalue hreturns ((isTail_statement h hn hk hd).1 htail).2 htail
  · exact Block.tells_none h hn hk hparts hvalue hreturns fun d hd htail' => htail ⟨d, hd, htail'⟩

end Block

/-- The branches of a conditional are in tail position if it is. -/
theorem isTail_branch {v : ConditionalView} (hv : ConditionalView.ofNode? tree n = some v) (hc : c ∈ n.children) :
    tree.isTail c = true ↔ tree.isTail n = true ∧ (v.consequent = some c ∨ v.alternate = some c) := by
  have hsound := (h.descendant hn).1
  have hsame (d : Node) (hd : d ∈ conditionalNodes v) (hid : d.id = c.id) : d = c :=
    h.eq_of_id (Node.descendants_child hn (mem_children_of_conditionalNodes hsound hv hd))
      (Node.descendants_child hn hc) hid
  rw [tree.isTail_child h hn hc, Node.handsTail, conditional_kind hv]
  simp only [hv, Option.any_some, Bool.and_eq_true, any_eq_true, mem_append, Option.mem_toList, beq_iff_eq]
  refine and_congr_right fun _ => ⟨?_, ?_⟩
  · rintro ⟨d, hd | hd, hid⟩
    · left
      rwa [hsame d (by simp [conditionalNodes, Option.mem_def.1 hd]) hid] at hd
    · right
      rwa [hsame d (by simp [conditionalNodes, Option.mem_def.1 hd]) hid] at hd
  · rintro (hd | hd)
    · exact ⟨c, Or.inl hd, rfl⟩
    · exact ⟨c, Or.inr hd, rfl⟩

theorem Conditional.prepare_roles {k : Conditional} (hfits : Fits tree n nodes (.conditional k))
    (hvalue : p.site.needsValue = false) (hreturns : k.returns = tree.isTail n) :
    Tells tree nodes (k.prepare p) fun _ => True := by
  have hsound := (h.descendant hn).1
  have hnodup := hfits.nodup hsound
  have hmarks : Marks tree (k.prepare p) [k.condition.place]
      (if tree.isTail n then (k.consequent :: k.alternate.toList).map (·.place) else []) fun _ _ => True := by
    have hall : Marks tree ((k.consequent :: k.alternate.toList).forM fun q =>
        .adjust q.place Construct.returnLast (.done ())) [] ((k.consequent :: k.alternate.toList).map (·.place))
        fun _ _ => True := by
      have hnone : (k.consequent :: k.alternate.toList).flatMap (fun _ => ([] : List Nat)) = [] :=
        flatMap_eq_nil_iff.2 fun _ _ => rfl
      rw [← hnone, map_eq_flatMap]
      exact Marks.forM fun q => (Marks.returnLast q.place ()).mono fun _ _ _ => trivial
    unfold Conditional.prepare
    rw [hvalue, hreturns]
    cases tree.isTail n with
    | true => exact (Marks.demandValue _).bind fun _ _ _ => hall
    | false => exact (Marks.demandValue _).bind fun _ _ _ => Marks.pure fun _ => trivial
  refine ⟨_, _, hmarks, fun i c hc => ?_⟩
  cases hfits with
  | @conditional v condition consequent _ view leading viewCondition viewConsequent partCondition partConsequent
      partAlternate =>
    obtain ⟨s, hs, rfl⟩ := exists_conditional hsound view leading
    have hmem := mem_children_of_conditionalNodes hsound view (mem_of_getElem? hc)
    have hbranch := isTail_branch h hn view hmem
    have hplaces : i ∈ (k.consequent :: k.alternate.toList).map (·.place) ↔
        s.view.consequent = some c ∨ s.view.alternate = some c := by
      rw [map_cons, mem_cons, eq_place_iff partConsequent hnodup hc, viewConsequent, Option.some_inj, eq_comm]
      refine or_congr_right ?_
      generalize s.view.alternate = o, k.alternate = o' at partAlternate
      cases partAlternate with
      | none => simp
      | some hpart => simp [eq_place_iff hpart hnodup hc, eq_comm]
    by_cases hb : s.view.consequent = some c ∨ s.view.alternate = some c
    · have hk : hasTails c.kind = true := by
        rcases hb with hb | hb
        · cases hb
          rw [hs.consequent]
          rfl
        · obtain ⟨a, ha, rfl⟩ := Option.map_eq_some_iff.1 hb
          rcases (hs.alternative a ha).node with hk | hk <;> rw [hk] <;> rfl
      have hunwrap : c.unwrapParens = c := Node.unwrapParens_of_ne fun hparen => by rw [hparen] at hk; cases hk
      have hasked : [k.condition.place].contains i = false := by
        rw [Bool.eq_false_iff, ne_eq, contains_iff_mem, mem_singleton, eq_place_iff partCondition hnodup hc]
        rintro rfl
        rw [conditionalNodes, viewCondition, Option.toList_some, append_assoc, singleton_append,
          nodup_cons, mem_append, Option.mem_toList, Option.mem_toList] at hnodup
        exact hnodup.1 hb
      have hreturned : (if tree.isTail n then (k.consequent :: k.alternate.toList).map (·.place) else []).contains i =
          tree.isTail c := by
        rw [Bool.eq_iff_iff, hbranch, contains_iff_mem, mem_ite_nil_right, hplaces]
      rw [hasked, hreturned]
      exact ⟨fun _ => by rw [hunwrap], fun _ ha => absurd ha Bool.false_ne_true, fun hs => absurd hs
        (not_mem_statements h hn (by rw [conditional_kind view]; decide) hmem)⟩
    · have hnot : tree.isTail c = false := Bool.eq_false_iff.2 fun htail => hb (hbranch.1 htail).2
      convert Role.of_not_tail h (Node.descendants_child hn hmem) hnot _ using 1
      rw [Bool.eq_false_iff, ne_eq, contains_iff_mem, mem_ite_nil_right, hplaces]
      exact fun hb' => hb hb'.2

theorem isTail_default {v : FunctionView} (hv : FunctionView.ofNode? tree n = some v)
    (hc : c ∈ v.params.filterMap (·.default?)) : tree.isTail c = false ∧ c ∉ n.children := by
  obtain ⟨list, hlist, d, hd, hc, hk, -, hparam⟩ := exists_param_of_default hv hc
  have hroot := Node.descendants_child (Node.descendants_child hn hlist) hd
  refine ⟨by rw [tree.isTail_child h hroot hc, Node.handsTail, hparam], fun hchild => ?_⟩
  cases tree.parent_unique h.ids hn hroot hchild hc
  cases hk.symm.trans hparam

theorem Function.prepare_roles {f : Function} (hfits : Fits tree n nodes (.function f))
    (hparts : List.Forall₂ (Shows tree) nodes p.parts) :
    Tells tree nodes (f.prepare p) fun _ => True := by
  have hsound := (h.descendant hn).1
  have hnodup := hfits.nodup hsound
  have hconcise := hfits.canBeConcise_eq hsound hparts
  have hmarks : Marks tree (f.prepare p)
      ((f.params.filterMap (·.default?)).map (·.place) ++ if n.isConcise tree then f.body.toList.map (·.place) else [])
      (if n.isConcise tree then [] else f.body.toList.map (·.place)) fun _ _ => True := by
    refine Marks.bind (a := []) (r := []) (Marks.of_modify fun g => rfl) fun _ _ _ =>
      (Marks.forM_demandValue _).bind fun _ _ _ => Marks.of_get fun g htree => ?_
    rw [htree, hconcise]
    refine Marks.bind (a := []) (r := []) (Marks.become _) fun _ _ _ => ?_
    cases n.isConcise tree with
    | true =>
      cases f.body with
      | none => exact Marks.pure fun _ => trivial
      | some body => exact Marks.demandValue _
    | false =>
      cases f.body with
      | none => exact Marks.pure fun _ => trivial
      | some body => exact (Marks.returnLast _ ()).mono fun _ _ _ => trivial
  refine ⟨_, _, hmarks, fun i c hc => ?_⟩
  have hroot := hfits.mem_root h hn (mem_of_getElem? hc)
  cases hfits with
  | @function v _ view arrow paramList params partBody =>
    have hdefault (hi : i ∈ (f.params.filterMap (·.default?)).map (·.place)) : c ∈ v.params.filterMap (·.default?) := by
      obtain ⟨d, hd, hi⟩ := mem_map.1 hi
      obtain ⟨c', hc', hpart⟩ := exists_default params hd
      rwa [(eq_place_iff hpart hnodup hc).1 hi.symm]
    have hbody : i ∈ f.body.toList.map (·.place) ↔ v.body = some c := by
      generalize v.body = o, f.body = o' at partBody
      cases partBody with
      | none => simp
      | some hpart => simp [eq_place_iff hpart hnodup hc, eq_comm]
    by_cases hb : v.body = some c
    · obtain ⟨hmem, hk, hblock⟩ := mem_children_of_body view hb
      have hunwrap : c.unwrapParens = c := Node.unwrapParens_of_ne (by rw [hblock]; decide)
      have htail : tree.isTail c = !n.isConcise tree := by
        rw [tree.isTail_child h hn hmem, Node.handsTail, hk, hblock]
        rfl
      have hnot : i ∉ (f.params.filterMap (·.default?)).map (·.place) := fun hi =>
        (isTail_default h hn view (hdefault hi)).2 hmem
      have hstatement := not_mem_statements h hn (by rw [hk]; decide) hmem
      have hi := contains_iff_mem.2 (hbody.2 hb)
      rw [contains_append, Bool.eq_false_iff.2 (mt contains_iff_mem.1 hnot), Bool.false_or]
      refine ⟨fun _ => ?_, fun _ hasked => ?_, fun hs => absurd hs hstatement⟩ <;> rw [hunwrap, htail]
      · cases n.isConcise tree with
        | true => rfl
        | false => exact hi
      · cases hconcise : n.isConcise tree with
        | true => rfl
        | false => rw [hconcise] at hasked; cases hasked
    · have hmem : c ∈ v.params.filterMap (·.default?) :=
        (mem_append.1 (mem_of_getElem? hc)).resolve_right fun hc' => hb (Option.mem_toList.1 hc')
      convert Role.of_not_tail h hroot (isTail_default h hn view hmem).1 _ using 1
      rw [Bool.eq_false_iff, ne_eq, contains_iff_mem, mem_ite_nil_left, hbody]
      exact fun hb' => hb hb'.2

/-- Preparing a construct tells each of its parts what the tree says. -/
theorem prepare_tells (hfits : Fits tree n nodes p.construct) (hparen : n.kind ≠ .parenExpr)
    (hparts : Collected tree nodes p.parts) (hreturned : hasTails n.kind = true → p.construct.returns = tree.isTail n)
    (hasked : hasTails n.kind = true → p.site.needsValue = true → tree.isTail n = false) :
    Tells tree nodes (prepare p) fun k => n.kind = .block → p.site.needsValue = false → ReturnsLast tree n k := by
  -- A construct that asks for values only tells no part to return anything, and none is in tail position.
  have hother {m : Work Unit} {a : List Nat} (hm : Marks tree m a [] fun _ _ => True)
      (hfunction : n.kind ≠ .function) (hvalue : hasTails n.kind = true → p.site.needsValue = true) :
      Tells tree nodes m fun k => n.kind = .block → p.site.needsValue = false → ReturnsLast tree n k := by
    refine ⟨a, [], hm.mono fun _ k _ hk hnot => ?_, fun i c hc => ?_⟩
    · rw [hvalue (by rw [hk]; rfl)] at hnot
      cases hnot
    · have hmem := mem_of_getElem? hc
      exact Role.of_not_tail h (hfits.mem_root h hn hmem)
        (hfits.isTail_eq_false h hn hfunction hparen (fun hk => hasked hk (hvalue hk)) hmem) _
  have hplain {m : Work Unit} {a : List Nat} (hm : Marks tree m a [] fun _ _ => True) {kind : Kind}
      (hk : n.kind = kind) (hkind : kind ≠ .function ∧ hasTails kind = false) :
      Tells tree nodes m fun k => n.kind = .block → p.site.needsValue = false → ReturnsLast tree n k := by
    refine hother hm (hk ▸ hkind.1) fun htails => ?_
    rw [hk, hkind.2] at htails
    cases htails
  have hall : Marks tree ((List.range p.parts.length).forM Script.demandValue : Work PUnit)
      ((List.range p.parts.length).map id) [] fun _ _ => True := Marks.forM_demandValue id
  unfold prepare
  cases hk : p.construct with
  | block b =>
    rw [hk] at hfits hreturned
    obtain ⟨hkind, rfl⟩ : n.kind = .block ∧ nodes = n.children := by
      cases hfits with
      | block kind => exact ⟨kind, rfl⟩
    by_cases hvalue : p.site.needsValue = true
    · simp only [Block.prepare, if_pos hvalue]
      exact hother hall (by rw [hkind]; decide) fun _ => hvalue
    · have htells := Block.prepare_roles h hn hkind hparts (Bool.eq_false_iff.2 hvalue) (hreturned (by rw [hkind]; rfl))
      exact htells.mono fun k hlast _ _ => hlast
  | conditional k =>
    rw [hk] at hfits hreturned
    have hkind : n.kind = .ifExpr := beq_iff_eq.1 hfits.standsFor
    by_cases hvalue : p.site.needsValue = true
    · simp only [Conditional.prepare, if_pos hvalue]
      exact hother hall (by rw [hkind]; decide) fun _ => hvalue
    · have htells := Conditional.prepare_roles h hn hfits (Bool.eq_false_iff.2 hvalue) (hreturned (by rw [hkind]; rfl))
      exact htells.mono fun _ _ hblock => by cases hkind.symm.trans hblock
  | function f =>
    rw [hk] at hfits
    have hkind : n.kind = .function := beq_iff_eq.1 hfits.standsFor
    exact (Function.prepare_roles h hn hfits (hparts.imp fun _ _ h => h.1)).mono fun _ _ hblock => by
      cases hkind.symm.trans hblock
  | loop l =>
    rw [hk] at hfits
    cases hfits with
    | loop view => exact hplain (Marks.forM_demandValue _) (loop_kind view) ⟨by decide, rfl⟩
  | assignment a =>
    rw [hk] at hfits
    have hmarks : Marks tree a.prepare _ _ fun _ _ => True :=
      (Marks.demandValue _).bind fun _ _ _ => Marks.demandValue _
    cases hfits with
    | assignment view =>
      obtain ⟨-, -, hkind | hkind⟩ := assignment_view view <;> exact hplain hmarks hkind ⟨by decide, rfl⟩
  | returning value =>
    rw [hk] at hfits
    have hmark : Marks tree (modify Context.markReturn : Work PUnit) [] [] fun _ _ => True :=
      Marks.of_modify fun _ => rfl
    cases hfits with
    | returning kind =>
      cases value with
      | none => exact hplain (hmark.bind fun _ _ _ => Marks.pure fun _ => trivial) kind ⟨by decide, rfl⟩
      | some v => exact hplain (hmark.bind fun _ _ _ => Marks.demandValue _) kind ⟨by decide, rfl⟩
  | expression respelled =>
    rw [hk] at hfits
    cases hfits with
    | expression plain =>
      refine hplain hall rfl ?_
      revert plain
      cases n.kind <;> simp [isPlain, hasTails]

end Constructs

/-! ## Prepared patchers -/

/-- The patcher shows the node, and what it and all below it are asked for is what the tree says. -/
inductive Poised (tree : Tree) : Node → Patcher Construct → Prop
  | intro {n : Node} {p : Patcher Construct} (nodes : List Node) (site : p.site.On n)
    (fits : Fits tree n.unwrapParens nodes p.construct) (role : ∃ returns, Role tree n p.site.needsValue returns)
    (last : n.unwrapParens.kind = .block → p.site.needsValue = false → ReturnsLast tree n.unwrapParens p.construct)
    (parts : List.Forall₂ (Poised tree) nodes p.parts) : Poised tree n p

theorem height_mark (a r : Bool) (q : Patcher Construct) : (mark a r q).height = q.height := by
  cases q
  rfl

/-- A part that is to be prepared, and is asked for what the tree says. -/
structure Told (tree : Tree) (height : Nat) (c : Node) (q : Patcher Construct) : Prop where
  root : c ∈ tree.root.descendants
  shows : Shows tree c q
  role : Role tree c q.site.needsValue q.construct.returns
  height : q.height < height

/-- What a construct does when it is prepared, up to where its parts are. -/
theorem prepare_told (h : tree.root.Sound tree) (hn : n ∈ tree.root.descendants)
    (hfits : Fits tree n.unwrapParens nodes p.construct) (hparts : Collected tree nodes p.parts)
    (hrole : Role tree n p.site.needsValue p.construct.returns) {g : Context} (hg : g.tree = tree)
    (callee : Callee Context Construct) :
    Script.Safe (PatchError.AtNode tree) callee (prepare p) p g fun _ p' g' =>
      (p'.site = p.site ∧ Fits tree n.unwrapParens nodes p'.construct ∧
        (n.unwrapParens.kind = .block → p.site.needsValue = false → ReturnsLast tree n.unwrapParens p'.construct)) ∧
      List.Forall₂ (Told tree p.height) nodes p'.parts ∧ g'.tree = tree := by
  obtain ⟨hinner, hparen, -, -⟩ := (h.descendant hn).1.unwrapParens
  have hroot := Node.descendants_trans hn n.unwrapParens_mem
  obtain ⟨a, r, hmarks, hroles⟩ := prepare_tells h hroot hfits hparen hparts hrole.returned hrole.asked
  have hmarked : Script.Safe (PatchError.AtNode tree) callee (prepare p) p g _ :=
    Outcome.Safe.weaken (hmarks callee p g hg) fun _ => False.elim
  refine ((prepare_preparing hg hinner hfits hparts).and hmarked).mono fun _ p' g' h' => ?_
  obtain ⟨⟨⟨hpreparing, -⟩, -⟩, hg', hmarked, hlast⟩ := h'
  refine ⟨⟨hpreparing.site, hpreparing.fits, hlast⟩, ?_, hg'⟩
  refine forall₂_of_getElem? hpreparing.parts.length_eq fun i c q hc hq => ?_
  obtain ⟨c', hc', hpending⟩ := forall₂_getElem? hpreparing.parts hq
  cases hc.symm.trans hc'
  rw [hmarked, getElem?_marked] at hq
  obtain ⟨q₀, hq₀, rfl⟩ := Option.map_eq_some_iff.1 hq
  obtain ⟨c', hc', hshows, hfresh⟩ := forall₂_getElem? hparts hq₀
  cases hc.symm.trans hc'
  refine ⟨hfits.mem_root h hroot (mem_of_getElem? hc), hpending.shows, (hroles i _ hc).mark hshows hfresh, ?_⟩
  rw [height_mark]
  exact Patcher.height_lt_of_mem (mem_of_getElem? hq₀)

/-- A patcher that is prepared is poised. -/
theorem prepare_poised (h : tree.root.Sound tree) {g : Context} (hg : g.tree = tree) (hn : n ∈ tree.root.descendants)
    (hshows : Shows tree n p) (hrole : Role tree n p.site.needsValue p.construct.returns) :
    (p.call hooks .prepare g).Safe (fun _ => True) fun _ p' g' => (Poised tree n p' ∧ p'.site = p.site) ∧
      g'.tree = tree := by
  induction hp : p.height using Nat.strongRecOn generalizing n p g with
  | ind height ih =>
    rw [Patcher.call_eq]
    split
    case isFalse => trivial
    case isTrue hw =>
      refine Outcome.Safe.advance ?_
      obtain ⟨nodes, hsite, hfits, hparts, hfresh, -, -⟩ := hshows
      refine Script.Safe.prepareScript (R := Told tree p.height) (S := Poised tree) (I := fun g => g.tree = tree)
        (P := fun s k => s = p.site ∧ Fits tree n.unwrapParens nodes k ∧
          (n.unwrapParens.kind = .block → p.site.needsValue = false → ReturnsLast tree n.unwrapParens k))
        hparts.length_eq ?_ ?_ ?_
      · have hprepare := prepare_told h hn hfits (collected_of_fresh hparts (hfresh hw.1)) hrole hg (Patcher.call hooks)
        exact Outcome.Safe.weaken hprepare fun _ _ => trivial
      · intro c q g hq hg
        exact (ih q.height (hp ▸ hq.height) hg hq.root hq.shows hq.role rfl).mono fun _ _ _ h => ⟨h.1.1, h.2⟩
      · rintro p₁ g₁ ⟨hsite₁, hfits₁, hlast⟩ hpoised hg₁
        refine (Outcome.Safe.weaken (finish_safe (h.descendant hn).1 (hsite₁ ▸ hsite)) fun _ _ => trivial).mono ?_
        rintro _ p₂ g₂ ⟨rfl, halike⟩
        obtain ⟨site, phase, k, parts⟩ := p₂
        obtain rfl : site = p.site := hsite₁
        exact ⟨⟨.intro nodes hsite hfits₁ ⟨_, hrole⟩ hlast hpoised, rfl⟩, halike.tree.trans hg₁⟩

end Respell.Javascript
