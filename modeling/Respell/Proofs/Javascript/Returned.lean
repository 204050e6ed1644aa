import Respell.Proofs.Javascript.DeclaredOnce
import Respell.Proofs.Javascript.Returns
import Respell.Proofs.Javascript.Roles
import Respell.Proofs.Javascript.Translated

/-!
`return` goes in front of tail statements, and only there.

A tree of patchers that is patched puts in `return ` once for each statement in it that is returned
(`returning_patch`), and a statement is returned if the tree says so.
-/

namespace Respell.Javascript

open List Script

variable {tree : Tree} {n c s : Node} {nodes : List Node} {p q : Patcher Construct} {o : Nat}

/-! ## Returned statements -/

/-- How many statements in the node are to be returned and start at the offset. -/
def returnsIn (tree : Tree) (o : Nat) (n : Node) : Nat :=
  n.statements.countP fun s => tree.isReturned s && s.range.start == o

/-- The statements in a construct are those of its own, if it is a block, and those in its parts. -/
theorem Fits.statements_perm {k : Construct} (hn : n.Sound tree) (h : Fits tree n.unwrapParens nodes k) :
    n.statements.Perm ((if n.unwrapParens.kind = .block then n.unwrapParens.children else []) ++
      nodes.flatMap Node.statements) := by
  refine h.flatMap_descendants hn (fun c hc => if_neg fun hk => ?_) fun c hc => if_neg fun hk => ?_
  · rw [hk] at hc
    cases hc
  · cases hk.symm.trans hc

theorem returnsIn_eq {k : Construct} (hn : n.Sound tree) (h : Fits tree n.unwrapParens nodes k) :
    returnsIn tree o n = (if n.unwrapParens.kind = .block then n.unwrapParens.children else []).countP
      (fun s => tree.isReturned s && s.range.start == o) + (nodes.map (returnsIn tree o)).sum := by
  rw [returnsIn, (Fits.statements_perm hn h).countP_eq, countP_append, countP_flatMap]
  rfl

theorem sum_map_ite {α : Type} (xs : List α) (f : α → Bool) :
    (xs.map fun x => if f x then 1 else 0).sum = xs.countP f := by
  induction xs with
  | nil => rfl
  | cons x xs ih => rw [map_cons, sum_cons, countP_cons, ih, Nat.add_comm]

theorem statements_nodup (h : tree.root.Sound tree) : tree.root.statements.Nodup := by
  refine nodup_flatMap.2 ⟨fun b hb => ?_, h.descendants_nodup.imp_of_mem fun {b b'} hb hb' hne s hs hs' => ?_⟩
  · split
    · exact children_nodup (h.descendant hb).1
    · exact nodup_nil
  · exact hne (tree.parent_unique h.ids hb hb' (mem_ite_nil_right.1 hs).2 (mem_ite_nil_right.1 hs').2)

theorem statements_root {block : Node} (hroot : tree.root.kind = .program) (hchildren : tree.root.children = [block]) :
    tree.root.statements = block.statements := by
  rw [Node.statements, descendants_eq_children, hchildren, flatMap_cons, if_neg (by rw [hroot]; decide),
    nil_append, flatMap_singleton]
  rfl

theorem isReturned_of_not_tail (h : tree.isTail s = false) : tree.isReturned s = false := by
  rw [Tree.isReturned, h, Bool.false_and]

section Patchers

variable (h : tree.root.Sound tree)
include h

/-- In a block only the last statement can be returned. -/
theorem isReturned_eq (hn : n ∈ tree.root.descendants) (hk : n.kind = .block) {i : Nat}
    (hi : n.children[i]? = some s) :
    tree.isReturned s = (n.children.getLast?.any tree.isReturned && i + 1 == n.children.length) := by
  by_cases hlast : i + 1 = n.children.length
  · have hi' : n.children.getLast? = some s := by
      rw [getLast?_eq_getElem?, ← hi]
      congr 1
      omega
    rw [hi', hlast]
    simp
  · rw [beq_false_of_ne hlast, Bool.and_false]
    exact isReturned_of_not_tail (Bool.eq_false_iff.2 fun htail => hlast (place_of_isTail h hn hk hi htail))

/-- What a patcher puts in by itself is what the tree says. -/
theorem Poised.ownWeight_eq (hn : n ∈ tree.root.descendants) (hp : Poised tree n p) :
    ownWeight o p = (if n.unwrapParens.kind = .block then n.unwrapParens.children else []).countP
      fun s => tree.isReturned s && s.range.start == o := by
  have hroot := Node.descendants_trans hn n.unwrapParens_mem
  obtain ⟨nodes, -, hfits, ⟨returns, hrole⟩, hlast, hparts⟩ := hp
  unfold ownWeight
  by_cases hk : n.unwrapParens.kind = .block
  · obtain ⟨b, hb⟩ := hfits.eq_block hk
    have hasked := hrole.asked
    have hlast := fun hvalue => hlast hk hvalue b hb
    rw [hb] at hfits
    rw [if_pos hk, hb]
    generalize n.unwrapParens = m at *
    cases hfits with
    | block =>
    dsimp only
    split
    · rename_i hvalue
      -- A block that is asked for its value is not in tail position.
      refine (countP_eq_zero.2 fun s hs => ?_).symm
      have htail : tree.isTail s = false := Bool.eq_false_iff.2 fun htail => by
        have := ((isTail_statement h hroot hk hs).1 htail).1
        rw [hasked (by rw [hk]; rfl) hvalue] at this
        cases this
      simp [isReturned_of_not_tail htail]
    · rename_i hvalue
      rw [← sum_map_ite]
      congr 1
      refine ext_getElem (by simp [hparts.length_eq]) fun i h1 h2 => ?_
      have hi : i < m.children.length := by simpa using h2
      obtain ⟨_, hsite, -⟩ := (forall₂_iff_get.1 hparts).2 i hi (hparts.length_eq ▸ hi)
      have hreturned := isReturned_eq h hroot hk (getElem?_eq_getElem hi)
      rw [← hlast (Bool.eq_false_iff.2 hvalue), hparts.length_eq] at hreturned
      simp only [getElem_map, getElem_zipIdx, Nat.zero_add, weightOf, ← hreturned]
      simp only [get_eq_getElem] at hsite
      rw [hsite.whole]
      simp
  · rw [if_neg hk, countP_nil]
    split
    · rename_i b hb
      rw [hb] at hfits
      cases hfits with
      | block kind => exact absurd kind hk
    · rfl

/-- A tree of patchers that is patched puts in `return ` for the statements that are to be returned. -/
def Returning (tree : Tree) (o : Nat) (p : Patcher Construct) (g g' : Context) : Prop :=
  ∀ n ∈ tree.root.descendants, Poised tree n p → Returns o g (returnsIn tree o n) g'

theorem returning_of_does {g g' : Context} (placed : p.construct.Placed p.parts.length)
    (hdoes : (p.patchScript hooks).Does (OnPart (Returning tree o) p.parts) g () g') : Returning tree o p g g' := by
  intro n hn hp
  have hown := hp.ownWeight_eq h (o := o) hn
  have hsound := (h.descendant hn).1
  have hroot := Node.descendants_trans hn n.unwrapParens_mem
  obtain ⟨nodes, -, hfits, -, -, hparts⟩ := hp
  have hR : ∀ i w, (nodes.map (returnsIn tree o))[i]? = some w → ∀ g g',
      OnPart (Returning tree o) p.parts i g g' → Returns o g w g' := by
    intro i w hw g g' hpart
    rw [getElem?_map] at hw
    obtain ⟨c, hc, rfl⟩ := Option.map_eq_some_iff.1 hw
    obtain ⟨q, hq, hpoised⟩ := forall₂_getElem?_left hparts hc
    exact OnPart.of_getElem? hpart hq c (hfits.mem_root h hroot (mem_of_getElem? hc)) hpoised
  have hlength : (nodes.map (returnsIn tree o)).length = p.parts.length := by rw [length_map, hparts.length_eq]
  have hturn := disciplined.patch p placed
  rw [← hlength] at hturn
  obtain ⟨_, _, total, rfl, ⟨rfl, -⟩, htotal, hsum⟩ :=
    InTurn.exists_tally hR hturn (brings_patchScript hsound.unwrapParens.1 hfits g) hdoes
  rw [drop_length, drop_zero, hown, sum_nil, Nat.add_zero] at hsum
  rwa [returnsIn_eq hsound hfits, ← hsum]

theorem returning_patch (hp : p.Tidy Construct.Placed .prepared) {g : Context}
    (hok : (p.call hooks .patch g).result = .ok ()) : Returning tree o p g (p.call hooks .patch g).context :=
  disciplined.patch_induction (fun _ _ _ _ placed hdoes => returning_of_does h placed hdoes) hp hok

/-! ## Patchers of statements -/

theorem Poised.follow? {path : List Nat} (hn : n ∈ tree.root.descendants) (hp : Poised tree n p)
    (hq : p.follow? path = some q) : ∃ c ∈ tree.root.descendants, Poised tree c q := by
  induction path generalizing n p with
  | nil =>
    cases hq
    exact ⟨n, hn, hp⟩
  | cons i path ih =>
    obtain ⟨nodes, -, hfits, -, -, hparts⟩ := hp
    rw [Patcher.follow?_cons] at hq
    obtain ⟨r, hr, hq⟩ := Option.bind_eq_some_iff.1 hq
    obtain ⟨c, hc, hpoised⟩ := forall₂_getElem? hparts hr
    have hroot := Node.descendants_trans hn n.unwrapParens_mem
    exact ih (hfits.mem_root h hroot (mem_of_getElem? hc)) hpoised hq

/-- Every statement has a patcher. -/
theorem Poised.exists_follow? (hn : n ∈ tree.root.descendants) (hp : Poised tree n p) (hs : s ∈ n.statements) :
    ∃ path q, p.follow? path = some q ∧ Poised tree s q := by
  induction hheight : p.height using Nat.strongRecOn generalizing n p with
  | ind height ih =>
    have hroot := Node.descendants_trans hn n.unwrapParens_mem
    obtain ⟨nodes, -, hfits, -, -, hparts⟩ := hp
    rcases mem_append.1 ((Fits.statements_perm (h.descendant hn).1 hfits).mem_iff.1 hs) with hs | hs
    · obtain ⟨hk, hs⟩ := mem_ite_nil_right.1 hs
      obtain ⟨b, hb⟩ := hfits.eq_block hk
      rw [hb] at hfits
      cases hfits with
      | block =>
      obtain ⟨i, hi⟩ := getElem?_of_mem hs
      obtain ⟨q, hq, hpoised⟩ := forall₂_getElem?_left hparts hi
      refine ⟨[i], q, ?_, hpoised⟩
      rw [Patcher.follow?_cons, hq]
      rfl
    · obtain ⟨c, hc, hs⟩ := mem_flatMap.1 hs
      obtain ⟨i, hi⟩ := getElem?_of_mem hc
      obtain ⟨q, hq, hpoised⟩ := forall₂_getElem?_left hparts hi
      have hlt := Patcher.height_lt_of_mem (mem_of_getElem? hq)
      obtain ⟨path, r, hr, hpoised⟩ := ih q.height (by omega) (hfits.mem_root h hroot hc) hpoised hs rfl
      refine ⟨i :: path, r, ?_, hpoised⟩
      rw [Patcher.follow?_cons, hq]
      exact hr

theorem Poised.eq_of_on (hn : n ∈ tree.root.descendants) (hc : c ∈ tree.root.descendants) (hp : Poised tree n p)
    (hon : p.site.On c) : n = c := by
  obtain ⟨_, hsite, -⟩ := hp
  exact h.eq_of_id hn hc (congrArg Label.id (hsite.outer.symm.trans hon.outer))

end Patchers

/-! ## The stage -/

/-- The node was patched in the stage, and always for its value or always as a statement. -/
structure PatchedAs (tree : Tree) (n : Node) (asValue : Bool) : Prop where
  answered : ∃ e ∈ calls tree, e.2.call ≠ .prepare ∧ e.2.patcher.site.On n ∧ e.2.outcome.result = .ok ()
  always : ∀ e ∈ calls tree, e.2.call ≠ .prepare → e.2.patcher.site.On n → e.2.call.asksValue e.2.patcher = asValue

theorem PatchedAs.unique {a a' : Bool} (h : PatchedAs tree n a) (h' : PatchedAs tree n a') : a = a' := by
  obtain ⟨e, he, hcall, hon, -⟩ := h.answered
  exact (h.always e he hcall hon).symm.trans (h'.always e he hcall hon)

/-- The conditional was patched for its value. -/
def IsTernary (tree : Tree) (m : Node) : Prop :=
  m.kind = .ifExpr ∧ ∃ e ∈ calls tree, e.2.call ≠ .prepare ∧ e.2.patcher.site.node = m ∧
    e.2.call.asksValue e.2.patcher = true

instance (tree : Tree) (m : Node) : Decidable (IsTernary tree m) := inferInstanceAs (Decidable (_ ∧ _))

/-- The condition of a conditional that is written as a value is an assignment, and stands bare in front of the question
mark: what is tested is `1`, and what is assigned to `y` is one of the branches. -/
theorem assignment_tested_bare :
    let text := "x = if y = 1 then 2 else 3\n"
    let tree := (Parse.ofText text.toList).tree
    (compile .main text).toOption = some "let y;\nlet x = y = 1 ? 2 : 3;\n" ∧
      ∃ m ∈ tree.root.descendants, IsTernary tree m ∧
        ((ConditionalView.ofNode? tree m).bind (·.condition)).any (·.kind == .assign) = true := by
  decide +kernel

/-- The blocks in the node are no place to return from: it is the program, a loop, a function without braces or a
conditional that is written as a value. -/
def ReturnsNothing (tree : Tree) (m : Node) : Prop :=
  m.kind = .program ∨ m.kind = .forExpr ∨ (m.kind = .function ∧ m.isConcise tree = true) ∨ IsTernary tree m

/-- How the stage came to its end. -/
structure Ran (tree : Tree) (g₁ g₂ : Context) (p q : Patcher Construct) : Prop where
  comments : respellComments (.ofTree tree .main) = (.ok (), g₁)
  made : patchers tree g₁.scopes = .ok p
  prepared : p.call hooks .prepare g₁ = ⟨.ok (), q, g₂⟩
  patched : (q.call hooks .patch g₂).result = .ok ()
  edits_eq : edits tree = (q.call hooks .patch g₂).context.editor
  calls_eq : calls tree = p.log hooks .prepare g₁ ++ q.log hooks .patch g₂

theorem exists_ran {out : String} (h : (run tree (.ofTree tree .main)).1 = .ok out) :
    ∃ g₁ g₂ p q, Ran tree g₁ g₂ p q := by
  have hrun : run tree (.ofTree tree .main) = (.ok out, (run tree (.ofTree tree .main)).2) := Prod.ext h rfl
  have hran : Patching.Safe (fun _ => True) (run tree) (.ofTree tree .main) fun _ g' =>
      ∃ g₁ p, respellComments (.ofTree tree .main) = (.ok (), g₁) ∧ patchers tree g₁.scopes = .ok p ∧
        ∃ g₃, p.runAll hooks g₁ = (.ok (), g₃) ∧ g'.editor = g₃.editor := by
    refine run_safe (J := fun g₁ => respellComments (.ofTree tree .main) = (.ok (), g₁))
      (Patching.Safe.outcome respellComments _) (fun _ _ => trivial) (fun p g₁ hp hcomments => ?_) render_safe
    have hscopes : g₁.scopes = .ofTree tree := (respellComments_scopes _).of_eq hcomments
    exact (Patching.Safe.outcome _ _).mono fun _ g₃ hall => ⟨g₁, p, hcomments, hscopes ▸ hp, g₃, hall, rfl⟩
  obtain ⟨g₁, p, hcomments, hp, g₃, hall, heditor⟩ := hran.of_eq hrun
  unfold Patcher.runAll at hall
  cases hprepared : p.call hooks .prepare g₁ with
  | mk result q g₂ =>
    rw [hprepared] at hall
    cases result with
    | error e => cases hall
    | ok u =>
      obtain ⟨hpatched, rfl⟩ := Prod.mk.inj hall
      refine ⟨g₁, g₂, p, q, hcomments, hp, hprepared, hpatched, heditor, ?_⟩
      unfold calls
      rw [hcomments]
      dsimp only
      rw [hp]
      dsimp only [Patcher.logAll]
      rw [hprepared]

section Ran

variable {g₁ g₂ : Context} (hran : Ran tree g₁ g₂ p q)
include hran

theorem Ran.scopes : g₁.scopes = .ofTree tree := (respellComments_scopes _).of_eq hran.comments

theorem Ran.quiet : Quiet NoReturn (.ofTree tree .main) g₁ := (respellComments_quiet.of_eq hran.comments).1

section Sound

variable (h : tree.root.Sound tree) (hroot : tree.root.kind = .program) {block : Node}
  (hchildren : tree.root.children = [block]) (hblock : block.kind = .block)
include h hroot hchildren hblock

/-- When the stage has prepared the patchers of a program, they are asked for what its tree says. -/
theorem Ran.poised : Poised tree block q ∧ Shows tree block q ∧ q.Tidy Construct.Placed .prepared ∧ g₁.Alike g₂ := by
  have hmem : block ∈ tree.root.children := by simp [hchildren]
  have hbelow := Node.mem_descendants_of_child hmem
  obtain ⟨hshows, hfresh⟩ := shows_patchers h hroot hchildren hblock (hran.scopes ▸ hran.made)
  have htail : tree.isTail block = false := by
    rw [tree.isTail_child h tree.root.self_mem_descendants hmem, Node.handsTail, hroot]
  have hrole : Role tree block p.site.needsValue p.construct.returns := by
    rw [hfresh.returns]
    exact .of_not_tail h hbelow htail _
  have htree : g₁.tree = tree := by
    obtain ⟨_, hedited, -⟩ := hran.quiet
    exact hedited.tree
  have hpoised := prepare_poised h htree hbelow hshows hrole
  have hshown := disciplined.prepare_tidy (tidy_patchers hran.made)
    (prepare_safe p.height block p g₁ (h.descendant hbelow).1 htree hshows)
  rw [hran.prepared] at hpoised hshown
  exact ⟨hpoised.1.1, hshown.2.1, hshown.1, hshown.2.2.2⟩

/-- In the end `return ` was put in for the statements that are to be returned. -/
theorem Ran.count_eq : (puts (edits tree)).count (o, "return ") = returnsIn tree o tree.root := by
  have hbelow : block ∈ tree.root.descendants := Node.mem_descendants_of_child (by simp [hchildren])
  obtain ⟨hpoised, -, htidy, halike⟩ := hran.poised h hroot hchildren hblock
  have hpatched := (returning_patch h (o := o) htidy hran.patched block hbelow hpoised).count
  have hstart : returnsAt o g₂ = 0 := by
    rw [returnsAt, halike.editor]
    exact (hran.quiet.returns o).count
  rw [hstart, Nat.zero_add] at hpatched
  rw [hran.edits_eq, returnsIn, statements_root hroot hchildren]
  exact hpatched

theorem Ran.count_statement (hs : s ∈ tree.root.statements) :
    (puts (edits tree)).count (s.range.start, "return ") = if tree.isReturned s then 1 else 0 := by
  rw [hran.count_eq h hroot hchildren hblock, returnsIn]
  obtain ⟨hshows, -⟩ := shows_patchers h hroot hchildren hblock (hran.scopes ▸ hran.made)
  have hsteady := steady_statements h hroot hchildren hshows
  have hsame : ∀ s' ∈ tree.root.statements, (tree.isReturned s' && s'.range.start == s.range.start) =
      (tree.isReturned s && s' == s) := by
    intro s' hs'
    by_cases heq : s' = s
    · rw [heq, beq_self_eq_true, beq_self_eq_true]
    · obtain ⟨b, hb, hk, hs⟩ := mem_statements.1 hs
      obtain ⟨b', hb', hk', hs'⟩ := mem_statements.1 hs'
      have hstart : s'.range.start ≠ s.range.start := fun hstart =>
        heq (h.statement_unique hb' hb hk' hk hs' hs (hsteady b' hb' hk' s' hs') (hsteady b hb hk s hs) hstart)
      rw [beq_false_of_ne heq, beq_false_of_ne hstart, Bool.and_false, Bool.and_false]
  rw [countP_congr fun s' hs' => by rw [hsame s' hs']]
  cases tree.isReturned s with
  | false => simp
  | true =>
    simp only [Bool.true_and, if_true]
    exact count_eq_one_of_mem (statements_nodup h) hs

/-- Whatever was patched in the stage was asked for what the tree says. -/
theorem Ran.poised_of_mem {e : List Nat × Patcher.Answer Context Construct} (he : e ∈ calls tree)
    (hcall : e.2.call ≠ .prepare) :
    ∃ c ∈ tree.root.descendants, Poised tree c e.2.patcher ∧
      e.2.call.asksValue e.2.patcher = e.2.patcher.site.needsValue := by
  have hbelow : block ∈ tree.root.descendants := Node.mem_descendants_of_child (by simp [hchildren])
  obtain ⟨hpoised, -, htidy, -⟩ := hran.poised h hroot hchildren hblock
  rw [hran.calls_eq] at he
  rcases mem_append.1 he with he | he
  · exact absurd (hooks_quiet.call_of_mem_log p g₁ e he) hcall
  · obtain ⟨hfollow, -, ⟨g', hanswer⟩, -⟩ := (disciplined.mem_log_patch htidy hran.patched).1 e he
    obtain ⟨c, hc, hp⟩ := hpoised.follow? h hbelow hfollow
    exact ⟨c, hc, hp, by rw [hanswer]; rfl⟩

theorem Ran.patchedAs (hs : s ∈ tree.root.statements) (htail : tree.isTail s = true) :
    PatchedAs tree s (tree.isReturned s) := by
  have hbelow : block ∈ tree.root.descendants := Node.mem_descendants_of_child (by simp [hchildren])
  obtain ⟨b, hb, -, hsb⟩ := mem_statements.1 hs
  have hroot' := Node.descendants_child hb hsb
  obtain ⟨hpoised, -, htidy, -⟩ := hran.poised h hroot hchildren hblock
  refine ⟨?_, fun e he hcall hon => ?_⟩
  · obtain ⟨path, r, hfollow, hr⟩ := hpoised.exists_follow? h hbelow (statements_root hroot hchildren ▸ hs)
    obtain ⟨hanswers, hall⟩ := disciplined.mem_log_patch htidy hran.patched
    obtain ⟨e, he, -, rfl⟩ := hall path r hfollow
    obtain ⟨_, hsite, -⟩ := hr
    obtain ⟨-, -, ⟨g', hanswer⟩, hok⟩ := hanswers e he
    refine ⟨e, ?_, by rw [hanswer]; exact nofun, hsite, hok⟩
    rw [hran.calls_eq]
    exact mem_append_right _ he
  · obtain ⟨c, hc, hp, hasks⟩ := hran.poised_of_mem h hroot hchildren hblock he hcall
    obtain rfl := hp.eq_of_on h hc hroot' hon
    obtain ⟨_, -, -, ⟨returns, hrole⟩, -⟩ := hp
    rw [hasks]
    exact hrole.statement hs htail

/-- A conditional that is written as a value is not in tail position. -/
theorem Ran.isTail_of_isTernary {m : Node} (hm : IsTernary tree m) : tree.isTail m = false := by
  obtain ⟨hk, e, he, hcall, hnode, hvalue⟩ := hm
  obtain ⟨c, -, hp, hasks⟩ := hran.poised_of_mem h hroot hchildren hblock he hcall
  obtain ⟨_, hsite, -, ⟨returns, hrole⟩, -⟩ := hp
  obtain rfl : m = c.unwrapParens := hnode.symm.trans hsite.node
  exact hrole.asked (by rw [hk]; rfl) (hasks.symm.trans hvalue)

/-- Nothing is returned from where there is nothing to return from. -/
theorem Ran.isTail_of_returnsNothing {m b : Node} (hm : m ∈ tree.root.descendants) (hnothing : ReturnsNothing tree m)
    (hb : b ∈ m.children) : tree.isTail b = false := by
  rw [tree.isTail_child h hm hb, Node.handsTail]
  rcases hnothing with hk | hk | ⟨hk, hconcise⟩ | hternary
  · rw [hk]
  · rw [hk]
  · rw [hk, hconcise, Bool.not_true, Bool.and_false]
  · rw [hran.isTail_of_isTernary h hroot hchildren hblock hternary, hternary.1]
    rfl

end Sound

/-- Nothing is put in where there is no code. -/
theorem Ran.quiet_of_blank (hblank : tree.Blank) : ∀ x ∈ puts (edits tree), NoReturn x.2 := by
  obtain ⟨block, hchildren, hblock, -, hnil⟩ := hblank.block
  obtain ⟨isScopeBody, hfold⟩ := fold_empty hblock hnil g₁.scopes
  have hmade := hran.made
  rw [patchers_eq hblank.kind hchildren, hfold] at hmade
  have hrun : p.runAll hooks g₁ = (.ok (), g₁) := Except.ok.inj hmade ▸ runAll_empty block isScopeBody g₁
  rw [Patcher.runAll, hran.prepared] at hrun
  rw [hran.edits_eq, show (q.call hooks .patch g₂).context = g₁ from congrArg Prod.snd hrun]
  obtain ⟨ps, hedited, hps⟩ := hran.quiet
  rw [hedited.added.puts]
  exact hps

end Ran

/-! ## Texts -/

/-- What is returned, in terms of how statements are patched. -/
theorem isReturned_iff (h : tree.isTail s = true → PatchedAs tree s (tree.isReturned s)) :
    tree.isReturned s = true ↔ tree.isTail s = true ∧ s.unwrapParens.kind ≠ .returnStmt ∧
      s.unwrapParens.kind ≠ .forExpr ∧ ¬ (s.unwrapParens.kind = .ifExpr ∧ PatchedAs tree s false) := by
  by_cases htail : tree.isTail s = true
  · have hpatched := h htail
    by_cases hif : s.unwrapParens.kind = .ifExpr
    · have hvalue : tree.isReturned s = true ↔ ¬ PatchedAs tree s false := by
        refine ⟨fun hreturned hstatement => ?_, fun hnot => ?_⟩
        · cases hreturned.symm.trans (hpatched.unique hstatement)
        · exact Bool.eq_true_of_not_eq_false fun hreturned => hnot (hreturned ▸ hpatched)
      simp [htail, hif, hvalue]
    · simp only [htail, hif, false_and, not_false_eq_true, and_true, true_and, Tree.isReturned, Bool.true_and]
      split <;> simp_all
  · simp [htail, Tree.isReturned]

/-- Implicit returns go to tail statements, and only to them.  If the stage gives a text, `return ` was put once in
front of every statement in tail position that is no `return`, no loop and no conditional patched as a statement, and in
front of nothing else.  Such a statement was patched for its value, and any other one in tail position as a statement;
so was a conditional that hands the tail position on to its branches.  Nothing is returned from the block of the
program, from loops, from functions without braces and from conditionals that are written as values.

If a statement does not touch the token before it, all that is put in where it starts stands in front of what was put in
there before, but for `function` and `let `; so nothing comes between `return ` and what the statement has become. -/
theorem returns_go_to_tails {text out : String} (h : Stage.apply .main text = .ok out) :
    let tree := (Parse.ofText text.toList).tree
    (∀ s ∈ tree.root.statements,
      (puts (edits tree)).count (s.range.start, "return ") = (if tree.isReturned s then 1 else 0) ∧
      (tree.isReturned s = true ↔ tree.isTail s = true ∧ s.unwrapParens.kind ≠ .returnStmt ∧
        s.unwrapParens.kind ≠ .forExpr ∧ ¬ (s.unwrapParens.kind = .ifExpr ∧ PatchedAs tree s false)) ∧
      (tree.isTail s = true → PatchedAs tree s (tree.isReturned s)) ∧
      (Detached tree s → ∀ i ∈ (edits tree).inserts, i.offset = s.range.start →
        i.order < 0 ∨ i.text = "function" ∨ i.text = "let ")) ∧
    (∀ x ∈ puts (edits tree), x.2 = "return " →
      ∃ s ∈ tree.root.statements, tree.isReturned s = true ∧ x.1 = s.range.start) ∧
    (∀ m ∈ tree.root.descendants, IsTernary tree m → tree.isTail m = false) ∧
    ∀ m ∈ tree.root.descendants, ReturnsNothing tree m → ∀ b ∈ m.children, b.kind = .block → ∀ s ∈ b.children,
      (puts (edits tree)).count (s.range.start, "return ") = 0 := by
  obtain ⟨herrors, hrun⟩ := run_of_apply h
  obtain ⟨hroot, block, hchildren, hblock⟩ := Parse.root_ofText text.toList
  have hsound := Parse.sound_ofText herrors
  have hdetached (s : Node) := order_of_detached h (n := s)
  generalize (Parse.ofText text.toList).tree = tree at *
  obtain ⟨g₁, g₂, p, q, hran⟩ := exists_ran hrun
  rcases hsound with hsound | hblank
  · have hcount (s : Node) (hs : s ∈ tree.root.statements) := hran.count_statement hsound hroot hchildren hblock hs
    have hpatched (s : Node) (hs : s ∈ tree.root.statements) := hran.patchedAs hsound hroot hchildren hblock hs
    refine ⟨fun s hs => ⟨hcount s hs, isReturned_iff (hpatched s hs), hpatched s hs, hdetached s⟩, ?_, ?_, ?_⟩
    · rintro ⟨o, _⟩ hx rfl
      have hpos := count_pos_iff.2 hx
      rw [hran.count_eq hsound hroot hchildren hblock, returnsIn, countP_pos_iff] at hpos
      obtain ⟨s, hs, hreturned⟩ := hpos
      simp only [Bool.and_eq_true, beq_iff_eq] at hreturned
      exact ⟨s, hs, hreturned.1, hreturned.2.symm⟩
    · exact fun m _ hm => hran.isTail_of_isTernary hsound hroot hchildren hblock hm
    · intro m hm hnothing b hb hk s hs
      have hbelow := Node.descendants_child hm hb
      have htail : tree.isTail s = false := Bool.eq_false_iff.2 fun htail => by
        have := ((isTail_statement hsound hbelow hk hs).1 htail).1
        rw [hran.isTail_of_returnsNothing hsound hroot hchildren hblock hm hnothing hb] at this
        cases this
      rw [hcount s (mem_statements.2 ⟨b, hbelow, hk, hs⟩), isReturned_of_not_tail htail]
      rfl
  · obtain ⟨block, hdescendants, hblock, hnil⟩ := exists_descendants_of_blank hblank
    have hnone (s : Node) : s ∉ tree.root.statements := by
      rw [Node.statements, hdescendants]
      simp [hroot, hblock, hnil]
    refine ⟨fun s hs => absurd hs (hnone s), fun x hx heq => absurd heq (hran.quiet_of_blank hblank x hx), ?_, ?_⟩
    · rintro m hm ⟨hk, -⟩
      rw [hdescendants, mem_pair] at hm
      rcases hm with rfl | rfl
      · cases hroot.symm.trans hk
      · cases hblock.symm.trans hk
    · exact fun m hm _ b hb hk s hs => absurd (mem_statements.2 ⟨b, Node.descendants_child hm hb, hk, hs⟩) (hnone s)

/-- A function that ends in a conditional, one branch of which is a conditional in parentheses, and one without
braces. -/
theorem returns_go_to_tails_nested :
    let text := "f = (a) ->\n  for x in a\n    g(x)\n  if a\n    b\n  else if c\n    return d\n  else\n" ++
      "    (if e then h else i)\nk = => (if a then b else c)\nf(k)\n"
    let out := "let f = function(a) \x7b\n  for (let x of a) \x7b\n    g(x);\n  \x7d\n  if (a) \x7b\n    return b;\n" ++
      "  \x7d else if (c) \x7b\n    return d;\n  \x7d else \x7b\n    return (e ? h : i);\n  \x7d\n\x7d;\n" ++
      "let k = () => (a ? b : c);\nf(k);\n"
    let tree := (Parse.ofText text.toList).tree
    (Stage.apply .main text).toOption = some out ∧
    (tree.root.statements.filter tree.isTail).map (fun s => (s.range.start, s.kind, tree.isReturned s)) =
      [(35, .ifExpr, false), (44, .ident, true), (62, .returnStmt, false), (82, .parenExpr, true)] ∧
    (puts (edits tree)).filter (·.2 == "return ") = [(44, "return "), (82, "return ")] ∧
    ∀ s ∈ tree.root.statements, Detached tree s ∧
      (puts (edits tree)).count (s.range.start, "return ") = (if tree.isReturned s then 1 else 0) ∧
      (tree.isTail s = true → PatchedAs tree s (tree.isReturned s)) ∧
      ∀ i ∈ (edits tree).inserts, i.offset = s.range.start → i.order < 0 ∨ i.text = "function" ∨ i.text = "let " := by
  intro text out tree
  have hout : (Stage.apply .main text).toOption = some out := by decide +kernel
  have hdetached : ∀ s ∈ tree.root.statements, Detached tree s := by decide +kernel
  refine ⟨hout, by decide +kernel, by decide +kernel, fun s hs => ?_⟩
  obtain ⟨hcount, -, hpatched, hfront⟩ := (returns_go_to_tails (eq_ok_of_toOption hout)).1 s hs
  exact ⟨hdetached s hs, hcount, hpatched, hfront (hdetached s hs)⟩

/-- A branch that touches its `else`: the brace that opens the branch is put in where the statement starts, and then
`return ` in front of both. -/
theorem return_parted_from_statement :
    let text := "f = -> if a then b else(c)\n"
    let tree := (Parse.ofText text.toList).tree
    let out := "let f = function() \x7b if (a) \x7b return b; \x7d elsereturn  \x7b(c); \x7d \x7d;\n"
    (compile .main text).toOption = some out ∧ (Stage.apply .main text).toOption = some out ∧
      (∃ s ∈ tree.root.statements, tree.isReturned s = true ∧ s.range = ⟨23, 26⟩ ∧
        (((edits tree).inserts.filter (·.offset == s.range.start)).map fun i => (i.text, decide (i.order < 0))) =
          [(" \x7b", false), ("return ", true)]) ∧
      ¬ "return (c)".toList <:+: out.toList := by
  decide +kernel

end Respell.Javascript
