import Respell.Javascript.Emit
import Respell.Proofs.Patch.Rows

/-!
Emitting JavaScript patches the parts of every construct in turn (`disciplined`), and its patchers are tidy
(`made_patchers`).
-/

namespace Respell.Javascript

open Script Patching

/-- The parts of a loop, in the order in which they are patched. -/
abbrev Loop.parts (l : Loop) : List Part :=
  l.key.toList ++ (l.value.toList ++ l.target :: (l.filter.toList ++ [l.body]))

/-- The parts of a function, in the order in which they are patched. -/
abbrev Function.parts (f : Function) : List Part := f.params.filterMap (·.default?) ++ f.body.toList

/-- The parts that a construct names are all that it has, in order.  A function that is written without braces has no
default values. -/
def Construct.Placed : Construct → Nat → Prop
  | block _, _ | expression _, _ => True
  | conditional c, n => Part.Row (c.condition :: c.consequent :: c.alternate.toList) 0 n
  | loop l, n => Part.Row l.parts 0 n
  | function f, n => Part.Row f.parts 0 n ∧ (f.isConcise = true → f.hasParamLines = false)
  | assignment a, n => Part.Row [a.lhs, a.rhs] 0 n
  | returning value, n => Part.Row value.toList 0 n

theorem Construct.Placed.returnLast {k : Construct} {n : Nat} (h : k.Placed n) : k.returnLast.Placed n := by
  cases k with
  | block | conditional | loop | function | assignment | returning | expression => exact h

/-! ## Steps -/

theorem mild_takeComments (indent cursor : Nat) (taken : Taken) (cs : List Comment) :
    (takeComments indent cursor taken cs).Mild := by
  induction cs generalizing cursor taken with
  | nil => exact .pure _
  | cons c cs ih =>
    refine Mild.get.bind fun cx => ?_
    dsimp only
    split
    · exact (Mild.set _).bind fun _ => ih _ _
    · exact .pure _

theorem mild_closingBrace (owner body : Site) : (closingBrace owner body).Mild := by
  refine Mild.get.bind fun cx => ?_
  split
  · refine Mild.bind ?_ fun _ => .pure _
    refine Mild.get.bind fun cx => (mild_takeComments _ _ _ _).bind fun taken => ?_
    exact (Mild.option_forM fun _ => .edit _).bind fun _ => .pure _
  · exact .pure _

theorem Conditional.mild_openBrace (start : Nat) (left right : Site) : (openBrace start left right).Mild := by
  refine Mild.get.bind fun cx => ?_
  split
  · exact .edit _
  · exact .edit _

theorem Loop.mild_cachedTarget (l : Loop) (site : Site) (code hint : String) :
    (l.cachedTarget site code hint).Mild := by
  unfold cachedTarget
  split
  iterate 3 exact .pure _
  · exact (Mild.claim _ _ _).bind fun _ => (Mild.prependLineBefore _ _).bind fun _ => .pure _

theorem mild_respellComments : respellComments.Mild :=
  Mild.get.bind fun _ => .forM fun _ => .forM fun _ => .edit _

/-! ## Preparing -/

section Preparing

variable {ι : Type} {fits : ι → Construct → Prop} {E : PatchError → Prop} {W : Context → Context → Prop} {x : ι}
  {p : Patcher Construct} {g : Context} (hlast : ∀ y k, fits y k → fits y k.returnLast)
include hlast

theorem Block.prepares_prepareReturn : (prepareReturn p).Prepares fits E W x g := by
  have hdemand (i : Nat) : (demandValue i >>= fun _ => pure true : Work Bool).Prepares fits E W x g :=
    (Prepares.demandValue i).bind fun _ _ => .pure true
  unfold prepareReturn
  dsimp only
  split
  · exact .pure false
  · split
    · exact .pure false
    · exact .pure false
    · split
      · exact hdemand _
      · exact ⟨hlast, .pure false⟩
    · exact hdemand _

theorem Block.prepares_prepare {b : Block} (hb : ∀ returnsLast, fits x (.block { b with returnsLast })) :
    (b.prepare p).Prepares fits E W x g := by
  unfold prepare
  split
  · exact .forM fun i _ => .demandValue i
  · refine (Prepares.forM fun s _ => ?_).bind fun _ _ => ?_
    · dsimp only
      split
      · exact .demandValue _
      · exact .pure _
    · dsimp only
      split
      · exact (prepares_prepareReturn hlast).bind fun returnsLast _ => ⟨hb _, .pure _⟩
      · exact ⟨hb _, .pure _⟩

theorem Conditional.prepares_prepare (c : Conditional) : (c.prepare p).Prepares fits E W x g := by
  unfold prepare
  split
  · exact .forM fun i _ => .demandValue i
  · refine (Prepares.demandValue _).bind fun _ _ => ?_
    split
    · exact .forM fun b _ => ⟨hlast, .pure _⟩
    · exact .pure _

omit hlast in
theorem Function.hasParamLines_of_canBeConcise {f : Function} {tree : Tree} (h : f.canBeConcise tree p = true) :
    f.hasParamLines = false := by
  unfold canBeConcise at h
  cases hbody : f.body with
  | none => simp [hbody] at h
  | some body =>
    simp only [hbody, Bool.and_eq_true, Bool.not_eq_true'] at h
    exact h.1.1.2

/-- What a function does in its own frame. -/
def Function.openBody (f : Function) (p : Patcher Construct) : Work Unit := do
  (f.params.filterMap (·.default?)).forM fun d => Script.demandValue d.place
  let isConcise := f.canBeConcise (← get).tree p
  Script.become (.function { f with isConcise }) (.done ())
  f.body.forM fun body =>
    if isConcise then Script.demandValue body.place
    else Script.adjust body.place Construct.returnLast (.done ())

variable (hread : ∀ g, W g g)
include hread

theorem Function.prepares_openBody {f : Function}
    (hf : ∀ isConcise, (isConcise = true → f.hasParamLines = false) → fits x (.function { f with isConcise })) :
    (f.openBody p).Prepares fits E W x g := by
  refine (Prepares.forM fun d _ => .demandValue _).bind fun _ g => ⟨hread g, ?_⟩
  refine ⟨hf _ hasParamLines_of_canBeConcise, Prepares.option_forM fun body => ?_⟩
  split
  · exact .demandValue _
  · exact ⟨hlast, .pure _⟩

/-- Preparing calls no part; blocks and functions change, and functions and `return`s move the context. -/
theorem prepares_prepare (hblock : ∀ b, p.construct = .block b → ∀ returnsLast, fits x (.block { b with returnsLast }))
    (hfunction : ∀ f, p.construct = .function f → (∀ g : Context, W g g.enterFunction) ∧
      ∀ isConcise, (isConcise = true → f.hasParamLines = false) → fits x (.function { f with isConcise }))
    (hreturning : ∀ value, p.construct = .returning value → ∀ g : Context, W g g.markReturn) :
    (prepare p).Prepares fits E W x g := by
  unfold prepare
  cases hk : p.construct with
  | block b => exact Block.prepares_prepare hlast (hblock b hk)
  | conditional c => exact c.prepares_prepare hlast
  | loop l => exact .forM fun q _ => .demandValue _
  | function f => exact ⟨(hfunction f hk).1 g, Function.prepares_openBody hlast hread (hfunction f hk).2⟩
  | assignment a => exact (Prepares.demandValue _).bind fun _ _ => .demandValue _
  | returning value => exact ⟨hreturning value hk g, .option_forM fun v => .demandValue _⟩
  | expression respelled => exact .forM fun i _ => .demandValue i

end Preparing

theorem inTurn_finish (p : Patcher Construct) (n : Nat) : (finish p).InTurn .prepare n n fun _ k => k = n := by
  unfold finish
  split
  · refine InTurn.step_bind (.modifyGet _) fun hasReturn => ?_
    exact InTurn.ite (.fail (.prepare id)) (.pure rfl)
  · exact .pure rfl

/-! ## Patching -/

section Patching

variable {n k : Nat} {parts : List Part} (p : Patcher Construct)

theorem inTurn_prependBodyLines (body : Part) (lines : List String) :
    (prependBodyLines p body lines).InTurn .patch n k fun _ k' => k' = k := by
  unfold prependBodyLines
  refine InTurn.ite (.pure rfl) ?_
  dsimp only
  split
  · exact .forM_steps fun line => InTurn.step (.prependLineBefore _ _)
  · exact .stop _ _

/-- A body is patched, and lines and a closing brace are put in. -/
theorem inTurn_body {body : Part} (lines : List String) (owner : Site) (stop : Nat) (h : Part.Row [body] k n) :
    (do
      Script.patchPart body
      prependBodyLines p body lines
      let close ← closingBrace owner body.site
      Patching.insert stop close : Work Unit).InTurn .patch n k fun _ k' => k' = n := by
  refine (InTurn.patchPart h).bind fun _ k h => (inTurn_prependBodyLines p body lines).still_bind fun _ => ?_
  exact InTurn.step_bind (mild_closingBrace _ _) fun close => InTurn.step_last (.edit _) fun _ => h

theorem Block.inTurn_patchOne (b : Block) (s : Site) (isLast : Bool) (h : k < n) :
    (b.patchOne s k isLast).InTurn .patch n k fun _ k' => k' = k + 1 := by
  refine InTurn.step_bind (.modify _) fun _ => (InTurn.callPart h).bind ?_
  rintro _ _ rfl
  refine InTurn.step_bind (.modifyGet _) fun names => ?_
  refine InTurn.when (InTurn.step (.edit _)) (InTurn.step_bind .get fun cx => ?_)
  exact InTurn.when (InTurn.step (.edit _)) (InTurn.ite (InTurn.step (.prependLineBefore _ _)) (.pure rfl))

theorem Block.inTurn_patchStatement (b : Block) :
    (b.patchStatement p).InTurn .patch p.parts.length 0 fun _ k' => k' = p.parts.length :=
  .forM_zipIdx (fun s _ h => b.inTurn_patchOne s.site _ h) (Nat.zero_add _)

theorem Conditional.inTurn_patchValue (c : Conditional) :
    (c.patchValue p).InTurn .patch p.parts.length 0 fun _ k' => k' = p.parts.length := by
  refine InTurn.step_bind (.edit _) fun _ => InTurn.step_bind (.edit _) fun _ =>
    (InTurn.option_forM_steps fun a => InTurn.step (.edit _)).still_bind fun _ => (InTurn.forM_patch _).bind ?_
  rintro _ _ rfl
  exact InTurn.ite (InTurn.step (.edit _)) (.pure rfl)

theorem Conditional.inTurn_patchStatement (c : Conditional)
    (h : Part.Row (c.condition :: c.consequent :: c.alternate.toList) k n) :
    (c.patchStatement p).InTurn .patch n k fun _ k' => k' = n := by
  refine InTurn.step_bind (.edit _) fun _ => InTurn.step_bind (.edit _) fun _ =>
    (InTurn.patchPart h).bind fun _ k h => ?_
  refine InTurn.step_bind (.surroundInParens _) fun _ => InTurn.step_bind (mild_openBrace _ _ _) fun _ =>
    (InTurn.patchPart h).bind fun _ k h => ?_
  refine InTurn.step_bind (mild_closingBrace _ _) fun close => ?_
  cases halternate : c.alternate with
  | none =>
    rw [halternate] at h
    exact InTurn.step_last (.edit _) fun _ => h
  | some alternate =>
    rw [halternate] at h
    refine InTurn.step_bind .get fun cx => ?_
    split
    · exact .stop _ _
    · refine InTurn.step_bind (.edit _) fun _ => InTurn.ite (InTurn.patchPart h) ?_
      refine InTurn.step_bind (mild_openBrace _ _ _) fun _ => (InTurn.patchPart h).bind fun _ k h => ?_
      exact InTurn.step_bind (mild_closingBrace _ _) fun close => InTurn.step_last (.edit _) fun _ => h

theorem Loop.inTurn_opening (l : Loop) (site : Site) (declare : String) (key value : Option String)
    (target : String) : (l.opening site declare key value target).InTurn .patch n k fun _ k' => k' = k := by
  unfold opening
  dsimp only
  split
  iterate 2 exact InTurn.step_bind (l.mild_cachedTarget _ _ _) fun _ => .pure rfl
  · exact .pure rfl
  · exact .stop _ _

theorem Loop.inTurn_patchStatement (l : Loop) (h : Part.Row l.parts k n) :
    (l.patchStatement p).InTurn .patch n k fun _ k' => k' = n := by
  refine InTurn.step_bind .get fun cx => ?_
  dsimp only
  split
  · exact .stop _ _
  · refine (InTurn.option_mapM_patchAndRender h).bind fun key k h =>
      (InTurn.option_mapM_patchAndRender h).bind fun value k h =>
      (InTurn.patchAndRender h).bind fun target k h =>
      (InTurn.option_mapM_patchAndRender h).bind fun filter k h => ?_
    refine InTurn.when (InTurn.forM_steps fun b => InTurn.step (.modify _)) ?_
    refine (l.inTurn_opening _ _ _ _ _).still_bind fun opening => ?_
    exact InTurn.step_bind (.edit _) fun _ => inTurn_body p _ _ _ h

theorem Assignment.inTurn_declareAll (a : Assignment) : a.declareAll.InTurn .patch n k fun _ k' => k' = k :=
  .forM_steps fun _ => InTurn.step (.modify _)

theorem Assignment.inTurn_patchValue (a : Assignment) (h : Part.Row [a.lhs, a.rhs] k n) :
    (a.patchValue p).InTurn .patch n k fun _ k' => k' = n := by
  refine a.inTurn_declareAll.still_bind fun _ => InTurn.ite ?_ ?_
  · exact (InTurn.patchAndRender h).bind fun _ k h => (InTurn.patchAndRender h).bind fun _ k h =>
      InTurn.step_last (.edit _) fun _ => h
  · exact (InTurn.patchPart h).bind fun _ k h => InTurn.patchPart h

theorem Assignment.inTurn_patchStatement (a : Assignment) (h : Part.Row [a.lhs, a.rhs] k n) :
    (a.patchStatement p).InTurn .patch n k fun _ k' => k' = n := by
  unfold patchStatement
  refine InTurn.ite ?_ ?_
  · refine a.inTurn_declareAll.still_bind fun _ => ?_
    exact (InTurn.patchAndRender h).bind fun _ k h => (InTurn.patchAndRender h).bind fun _ k h =>
      InTurn.step_last (.edit _) fun _ => h
  · refine (InTurn.patchPart h).bind fun _ k h => (InTurn.patchPart h).bind fun _ k h => ?_
    refine InTurn.ite (InTurn.step_last (.edit _) fun _ => h) (a.inTurn_declareAll.mono ?_)
    rintro _ _ rfl
    exact h

theorem Function.inTurn_patchParam (scope : Nat) (lines : Lines) (q : Param)
    (h : Part.Row (q.default?.toList ++ parts) k n) :
    (patchParam scope lines q).InTurn .patch n k fun _ k' => Part.Row parts k' n := by
  have hrest {f : String × List String → Work Lines}
      (hf : ∀ x, (f x).InTurn .patch n k fun _ k' => Part.Row parts k' n) (x : String × List String) :
      (pure x >>= f).InTurn .patch n k fun _ k' => Part.Row parts k' n := hf x
  unfold patchParam
  dsimp only
  refine InTurn.ite (InTurn.step_bind (.claim _ _ _) fun name => InTurn.step_bind (.edit _) fun _ => ?_) ?_
  all_goals
    refine hrest (fun x => ?_) _
    cases hd : q.default? with
    | none =>
      rw [hd] at h
      exact .pure h
    | some d =>
      rw [hd] at h
      exact (InTurn.patchAndRender h).bind fun _ k h => InTurn.step_bind (.edit _) fun _ => .pure h

theorem Function.inTurn_patchParams (f : Function) (site : Site)
    (h : Part.Row (f.params.filterMap (·.default?) ++ parts) k n) :
    (f.patchParams site).InTurn .patch n k fun _ k' => Part.Row parts k' n := by
  have hall (scope : Nat) (qs : List Param) (lines : Lines) (k : Nat)
      (h : Part.Row (qs.filterMap (·.default?) ++ parts) k n) :
      (qs.foldlM (patchParam scope) lines : Work Lines).InTurn .patch n k fun _ k' => Part.Row parts k' n := by
    induction qs generalizing lines k with
    | nil => exact .pure h
    | cons q qs ih =>
      rw [List.foldlM_cons]
      refine (inTurn_patchParam scope lines q ?_).bind fun lines k h => ih lines k h
      cases hd : q.default? <;> simpa [List.filterMap_cons, hd] using h
  exact InTurn.step_bind .get fun cx => (hall _ _ _ _ h).bind fun lines k h => .pure h

theorem Function.inTurn_patchBraced (f : Function) (h : Part.Row f.parts k n) :
    (f.patchBraced p).InTurn .patch n k fun _ k' => k' = n := by
  unfold patchBraced
  refine InTurn.when (InTurn.option_forM_steps fun _ => InTurn.step (.edit _)) ?_
  refine (f.inTurn_patchParams p.site h).bind fun lines k h => ?_
  cases hbody : f.body with
  | none =>
    rw [hbody] at h
    exact InTurn.step_last (.edit _) fun _ => h
  | some body =>
    rw [hbody] at h
    exact InTurn.step_bind (.edit _) fun _ => inTurn_body p _ _ _ h

theorem Function.inTurn_patchValue (f : Function) (h : (Construct.function f).Placed n) :
    (f.patchValue p).InTurn .patch n 0 fun _ k' => k' = n := by
  obtain ⟨hrow, hconcise⟩ := h
  unfold patchValue
  split
  case isTrue hf =>
    -- There is no line for a parameter, so the body is the only part.
    have hdefaults : f.params.filterMap (·.default?) = [] := by
      have := hconcise hf
      simp_all [hasParamLines]
    rw [Function.parts, hdefaults, List.nil_append, ← List.append_nil f.body.toList] at hrow
    unfold patchConcise
    refine InTurn.when (InTurn.step (.edit _)) ?_
    exact InTurn.option_forM_patchPart hrow
  case isFalse => exact f.inTurn_patchBraced p hrow

theorem inTurn_patchExpression (respelled : List (Span × String)) :
    (patchExpression respelled p).InTurn .patch p.parts.length 0 fun _ k' => k' = p.parts.length :=
  (InTurn.forM_steps fun _ => InTurn.step (.edit _)).still_bind fun _ => InTurn.forM_patch _

theorem inTurn_patchValue (h : p.construct.Placed p.parts.length) :
    (patchValue p).InTurn .patch p.parts.length 0 fun _ k' => k' = p.parts.length := by
  unfold patchValue
  cases hk : p.construct with
  | block b => exact .forM_patch _
  | conditional c => exact c.inTurn_patchValue p
  | function f => exact f.inTurn_patchValue p (hk ▸ h)
  | assignment a =>
    rw [hk] at h
    exact a.inTurn_patchValue p h
  | expression respelled => exact inTurn_patchExpression p respelled
  | loop | returning => exact .fail (.notExpression _ _ _)

theorem inTurn_patchStatement (h : p.construct.Placed p.parts.length) :
    (patchStatement p).InTurn .patch p.parts.length 0 fun _ k' => k' = p.parts.length := by
  unfold patchStatement
  cases hk : p.construct with
  | block b => exact b.inTurn_patchStatement p
  | conditional c =>
    rw [hk] at h
    exact c.inTurn_patchStatement p h
  | loop l =>
    rw [hk] at h
    exact l.inTurn_patchStatement p h
  | function f =>
    refine (f.inTurn_patchValue p (hk ▸ h)).bind ?_
    rintro _ _ rfl
    exact InTurn.ite (InTurn.step (.surroundInParens _)) (.pure rfl)
  | assignment a =>
    rw [hk] at h
    exact a.inTurn_patchStatement p h
  | returning value =>
    rw [hk, Construct.Placed, ← List.append_nil value.toList] at h
    exact InTurn.option_forM_patchPart h
  | expression respelled => exact inTurn_patchExpression p respelled

end Patching

theorem disciplined : hooks.Disciplined Construct.Placed where
  prepare p placed _ := by
    refine prepares_prepare (fun _ _ => Construct.Placed.returnLast) (fun _ => trivial) (fun _ _ _ => trivial)
      (fun f hf => ⟨fun _ => trivial, fun _ hconcise => ⟨?_, hconcise⟩⟩) fun _ _ _ => trivial
    rw [hf] at placed
    exact placed.1
  finish := inTurn_finish
  patch p placed := InTurn.ite (inTurn_patchValue p placed) (inTurn_patchStatement p placed)

/-! ## Putting patchers together -/

section Assembling

open Assembly

variable {tree : Tree} {scopes : Scopes} {n : Node} {results : Results Construct}
  (hresults : ∀ r ∈ results, Made Construct.Placed r.2)
include hresults

theorem places_loop (v : LoopView) : Places Construct.Placed (loop tree scopes n results v) := by
  refine (need_gathered (Gathered.nil Construct.Placed)).bind fun target ps h =>
    (need_gathered h).bind fun body ps h => ?_
  split
  · exact id
  · refine (part?_gathered hresults h _).bind fun key ps h => (part?_gathered hresults h _).bind fun value ps h => ?_
    refine (part_gathered hresults h _).bind fun target ps h => (part?_gathered hresults h _).bind fun filter ps h => ?_
    refine (part_gathered hresults h _).bind fun body ps h => Safe.pure ⟨?_, h.2⟩
    simpa [Construct.Placed] using h.1

theorem places_conditional (v : ConditionalView) : Places Construct.Placed (conditional n results v) := by
  unfold conditional
  split
  · exact id
  · refine (need_gathered (Gathered.nil Construct.Placed)).bind fun condition ps h =>
      (need_gathered h).bind fun body ps h => ?_
    refine (part_gathered hresults h _).bind fun condition ps h => (part_gathered hresults h _).bind fun body ps h => ?_
    exact (part?_gathered hresults h _).bind fun alternate ps h => Safe.pure h

theorem places_assignment (v : AssignmentView) : Places Construct.Placed (assignment tree scopes n results v) := by
  refine (need_gathered (Gathered.nil Construct.Placed)).bind fun lhs ps h => (need_gathered h).bind fun rhs ps h => ?_
  exact (part_gathered hresults h _).bind fun lhs ps h => (part_gathered hresults h _).bind fun rhs ps h => Safe.pure h

theorem places_function (v : FunctionView) : Places Construct.Placed (function tree n results v) := by
  refine (need_gathered (Gathered.nil Construct.Placed)).bind fun arrow ps h => ?_
  have hparams : Assembly.Safe (fun e => ¬ e.IsViolation) (v.params.mapM (param tree results)) ps fun params ps' =>
      Gathered Construct.Placed (params.filterMap (·.default?)) ps' := by
    refine Assembly.Safe.mapM (I := fun _ params ps' => Gathered Construct.Placed (params.filterMap Param.default?) ps')
      h ?_
    intro q _ _ params ps h
    refine (need_gathered h).bind fun name ps h => (part?_gathered hresults h _).bind fun default? ps h => Safe.pure ?_
    cases default? <;> simpa using h
  refine hparams.bind fun params ps h => (part?_gathered hresults h _).bind fun body ps h => ?_
  exact Safe.pure ⟨⟨h.1, fun hfalse => nomatch hfalse⟩, h.2⟩

theorem places_construct : Places Construct.Placed (construct tree scopes n results) := by
  have hparts (k : Construct) (hk : ∀ m, k.Placed m) :
      Places Construct.Placed (do n.children.forM fun c => discard (part results c); return k) :=
    (children_gathered hresults (Gathered.nil _) n.children).bind fun _ ps hps => Safe.pure ⟨hk _, hps⟩
  unfold construct
  dsimp only
  split
  · exact places_loop hresults _
  · exact places_conditional hresults _
  · exact places_function hresults _
  · exact places_assignment hresults _
  · split
    · exact hparts _ fun _ => trivial
    · exact (part?_gathered hresults (Gathered.nil _) _).bind fun value ps h => Safe.pure h
    · exact hparts _ fun _ => trivial

end Assembling

/-- The patchers of a tree are tidy, unless there is an obstacle. -/
theorem made_patchers (tree : Tree) (scopes : Scopes) : Made Construct.Placed (patchers tree scopes) := by
  refine tree.root.made_fold fun n results h => ?_
  unfold patcher
  split
  · exact h _ List.mem_cons_self
  · exact Assembly.made_patcher tree h (places_construct h)

theorem tidy_patchers {tree : Tree} {scopes : Scopes} {p : Patcher Construct} (hp : patchers tree scopes = .ok p) :
    p.Tidy Construct.Placed .constructed := by
  have hmade := made_patchers tree scopes
  rwa [hp] at hmade

end Respell.Javascript
