import Respell.Proofs.Javascript.Bodies
import Respell.Proofs.Patch.Tallies

/-!
Where `return` is put in.

All texts that constructs put in are other ones, but for that of a block that is patched as a statement and returns its
last statement: it puts `return ` in front of this one (`brings_patchScript`).
-/

namespace Respell.Javascript

open List Script

variable {tree : Tree} {n : Node} {nodes : List Node} {p : Patcher Construct} {α : Type} {o : Nat} {Q : α → Prop}
  {text : String} {lines : List String}

/-! ## Texts -/

/-- The text is not that of a `return` in front of a statement. -/
abbrev NoReturn (text : String) : Prop := text ≠ "return "

theorem noReturn_of_foreign (h : Foreign text) : NoReturn text := by
  rintro rfl
  obtain ⟨c, hc, hforeign⟩ := h
  have hall : "return ".toList.all (fun c => isListed c || c == ';' || isSpace c) = true := by decide
  rw [all_eq_true.1 hall c hc] at hforeign
  cases hforeign

instance : Ordinary NoReturn := ⟨by decide, noReturn_of_foreign⟩

/-- How often `return ` was put in at the offset. -/
def returnsAt (o : Nat) (g : Context) : Nat := (puts g.editor).count (o, "return ")

/-- From one context to the other `return ` was put in at the offset `m` times more, and nothing that was replaced came
back. -/
structure Returns (o : Nat) (g : Context) (m : Nat) (g' : Context) : Prop where
  tree : g'.tree = g.tree
  count : returnsAt o g' = returnsAt o g + m
  kept : ∀ r, g.editor.Replaces r → g'.editor.Replaces r

theorem Returns.of_editor {g g' : Context} (htree : g'.tree = g.tree) (h : g'.editor = g.editor) : Returns o g 0 g' :=
  ⟨htree, by rw [returnsAt, h]; rfl, fun _ hr => h ▸ hr⟩

instance : Additive (Returns o) where
  refl _ := .of_editor rfl rfl
  trans h h' := ⟨h'.tree.trans h.tree, by rw [h'.count, h.count, Nat.add_assoc], fun r hr => h'.kept r (h.kept r hr)⟩

theorem Quiet.returns {g g' : Context} (h : Quiet NoReturn g g') (o : Nat) : Returns o g 0 g' := by
  obtain ⟨ps, hedited, hps⟩ := h
  have hnone : ps.count (o, "return ") = 0 := count_eq_zero.2 fun hmem => hps _ hmem rfl
  refine ⟨hedited.tree, ?_, hedited.added.kept⟩
  rw [returnsAt, hedited.added.puts, count_append, hnone, returnsAt]

/-! ## Steps -/

/-- The script itself puts in no `return `, and its result is so. -/
abbrev Spares (o : Nat) (s : Work α) (Q : α → Prop) : Prop := s.Brings (Returns o) 0 Q

theorem spares_of_quietly {m : Patching α} (h : Quietly NoReturn m Q) : Spares o (liftM m) Q :=
  Brings.step fun g => (h g).mono fun _ _ h' => ⟨h'.1.returns o, h'.2⟩

theorem spares_modify {f : Context → Context} (hf : ∀ g, (f g).tree = g.tree ∧ (f g).editor = g.editor) :
    Spares o (modify f : Work PUnit) fun _ => True :=
  Brings.step (s := modify f) fun g => Patching.Safe.of_modify ⟨.of_editor (hf g).1 (hf g).2, trivial⟩

theorem spares_of_get {f : Context → Work α} {m : Nat} (h : ∀ g, (f g).Brings (Returns o) m Q) :
    Brings (Returns o) (get >>= f) m Q :=
  Brings.after (Brings.step (s := get) (Q := fun _ => True) fun _ => ⟨.of_editor rfl rfl, trivial⟩) fun g _ => h g

theorem spares_patchPart (q : Part) : Spares o (patchPart q) fun _ => True := .patch _

theorem spares_patchAndRender (q : Part) : Spares o (patchAndRender q) fun _ => True :=
  (spares_patchPart q).after fun _ _ => spares_of_quietly .rendered

theorem spares_patchAll (k : Nat) : Spares o ((List.range k).forM Script.patch) fun _ => True :=
  .forM_zero fun i _ => .patch i

theorem spares_overwrite {range : Span} (h : Foreign text) :
    Spares o (Patching.overwrite range text) fun _ => True := spares_of_quietly (.overwrite (noReturn_of_foreign h))

theorem spares_insert {offset : Nat} (h : Foreign text) :
    Spares o (Patching.insert offset text) fun _ => True := spares_of_quietly (.insert (noReturn_of_foreign h))

theorem spares_prependBodyLines {body : Part} (h : ∀ line ∈ lines, Foreign line) :
    Spares o (prependBodyLines p body lines) fun _ => True := by
  unfold prependBodyLines
  refine .ite (fun _ => .pure trivial) fun _ => ?_
  dsimp only
  split
  · exact .forM_zero fun line hline => spares_of_quietly (.prependLineBefore _ (h line (mem_reverse.1 hline)))
  · exact .fail

/-- A body is patched, and lines and a closing brace are put in. -/
theorem spares_body {body : Part} (owner : Site) (stop : Nat) (h : ∀ line ∈ lines, Foreign line) :
    Spares o (do
      Script.patchPart body
      prependBodyLines p body lines
      let close ← closingBrace owner body.site
      Patching.insert stop close) fun _ => True :=
  (spares_patchPart body).after fun _ _ => (spares_prependBodyLines h).after fun _ _ =>
    (spares_of_quietly (closingBrace_quiet owner body.site)).after fun _ hclose => spares_insert hclose

/-! ## Expressions and conditionals -/

theorem spares_expression : Spares o (patchExpression (respelled tree n) p) fun _ => True := by
  have htexts : ∀ text ∈ ["&&", "||", "===", "!==", "!", "this.", "this"], NoReturn text := by decide
  exact (Brings.forM_zero fun x hx => spares_of_quietly (.overwrite (htexts _ (text_of_mem_respelled hx)))).after
    fun _ _ => spares_patchAll _

theorem Conditional.spares_patchValue (c : Conditional) : Spares o (c.patchValue p) fun _ => True := by
  refine (spares_of_quietly .remove).after fun _ _ => (spares_overwrite ⟨'?', by simp, rfl⟩).after fun _ _ => ?_
  refine (Brings.option_forM fun a _ => spares_overwrite ⟨':', by simp, rfl⟩).after fun _ _ => ?_
  refine (spares_patchAll _).after fun _ _ => .ite (fun _ => ?_) fun _ => .pure trivial
  exact spares_insert ⟨':', by simp, rfl⟩

/-- A conditional that is a statement removes the parentheses around it before all else. -/
theorem Conditional.exists_rest (c : Conditional) (p : Patcher Construct) : ∃ rest : Work Unit,
    c.patchStatement p = (do
      Patching.remove ⟨p.site.whole.start, p.site.content.start⟩
      Patching.remove ⟨p.site.content.stop, p.site.whole.stop⟩
      rest) ∧ ∀ o, Spares o rest fun _ => True := by
  refine ⟨_, rfl, fun o => ?_⟩
  have hopen (start : Nat) (left right : Site) : Spares o (openBrace start left right) fun _ => True :=
    spares_of_quietly (openBrace_quiet start left right)
  have hclose (owner body : Site) : Spares o (closingBrace owner body) Foreign :=
    spares_of_quietly (closingBrace_quiet owner body)
  refine (spares_patchPart _).after fun _ _ => (spares_of_quietly (.surroundInParens _)).after fun _ _ => ?_
  refine (hopen _ _ _).after fun _ _ => (spares_patchPart _).after fun _ _ => (hclose _ _).after fun close h => ?_
  cases c.alternate with
  | none => exact spares_insert h
  | some alternate =>
    refine spares_of_get fun g => ?_
    split
    · exact .fail
    · refine (spares_overwrite (h.append_left _)).after fun _ _ => .ite (fun _ => spares_patchPart _) fun _ => ?_
      refine (hopen _ _ _).after fun _ _ => (spares_patchPart _).after fun _ _ => ?_
      exact (hclose _ _).after fun close h => spares_insert h

theorem Conditional.spares_patchStatement (c : Conditional) : Spares o (c.patchStatement p) fun _ => True := by
  obtain ⟨rest, heq, hrest⟩ := c.exists_rest p
  rw [heq]
  exact (spares_of_quietly .remove).after fun _ _ => (spares_of_quietly .remove).after fun _ _ => hrest o

/-! ## Loops and assignments -/

theorem Loop.spares_opening (l : Loop) (site : Site) (declare : String) (key value : Option String) (target : String) :
    Spares o (l.opening site declare key value target) fun r => Foreign r.1 ∧ ∀ line ∈ r.2, Foreign line := by
  have hline (object k : String) :
      ∀ line ∈ value.toList.map fun v => declare ++ v ++ " = " ++ object ++ "[" ++ k ++ "];", Foreign line := by
    intro line hline
    obtain ⟨v, -, rfl⟩ := mem_map.1 hline
    exact ⟨'[', by simp, rfl⟩
  have hcached (code hint : String) : Spares o (l.cachedTarget site code hint) fun _ => True :=
    spares_of_quietly (cachedTarget_quiet l site code hint)
  unfold opening
  dsimp only
  split
  · exact (hcached _ _).after fun object _ => .pure ⟨⟨'(', by simp, rfl⟩, hline _ _⟩
  · exact (hcached _ _).after fun array _ => .pure ⟨⟨'(', by simp, rfl⟩, hline _ _⟩
  · exact .pure ⟨⟨'(', by simp, rfl⟩, by simp⟩
  · exact .fail

theorem Loop.spares_patchStatement (l : Loop) : Spares o (l.patchStatement p) fun _ => True := by
  refine spares_of_get fun g => ?_
  dsimp only
  split
  · exact .fail
  · refine (Brings.option_mapM spares_patchAndRender).after fun key _ => ?_
    refine (Brings.option_mapM spares_patchAndRender).after fun value _ => ?_
    refine (spares_patchAndRender _).after fun target _ => ?_
    refine (Brings.option_mapM spares_patchAndRender).after fun filter _ => ?_
    refine .when (fun _ => .forM_zero fun b _ => spares_modify fun _ => ⟨rfl, rfl⟩) ?_
    refine (l.spares_opening _ _ _ _ _).after fun r hr => (spares_overwrite hr.1).after fun _ _ => ?_
    refine spares_body _ _ (forall_mem_append.2 ⟨hr.2, fun line hline => ?_⟩)
    obtain ⟨x, -, rfl⟩ := mem_map.1 hline
    exact ⟨'(', by simp [filterLine], rfl⟩

theorem Assignment.spares_declareAll (a : Assignment) : Spares o a.declareAll fun _ => True :=
  .forM_zero fun _ _ => spares_modify fun _ => ⟨rfl, rfl⟩

/-- Both sides are patched, and the whole is written anew. -/
theorem Assignment.spares_existence (a : Assignment) {range : Span} {text : String → String → String}
    (htext : ∀ l r, Foreign (text l r)) :
    Spares o (do
      let l ← Script.patchAndRender a.lhs
      let r ← Script.patchAndRender a.rhs
      Patching.overwrite range (text l r)) fun _ => True :=
  (spares_patchAndRender _).after fun l _ => (spares_patchAndRender _).after fun r _ => spares_overwrite (htext l r)

theorem Assignment.spares_patchValue (a : Assignment) : Spares o (a.patchValue p) fun _ => True := by
  refine a.spares_declareAll.after fun _ _ => .ite (fun _ => ?_) fun _ => ?_
  · exact a.spares_existence fun l r => ⟨'(', by simp, rfl⟩
  · exact (spares_patchPart _).after fun _ _ => spares_patchPart _

theorem Assignment.spares_patchStatement (a : Assignment) : Spares o (a.patchStatement p) fun _ => True := by
  refine .ite (fun _ => ?_) fun _ => ?_
  · exact a.spares_declareAll.after fun _ _ => a.spares_existence fun l r => ⟨'(', by simp, rfl⟩
  · refine (spares_patchPart _).after fun _ _ => (spares_patchPart _).after fun _ _ => ?_
    exact .ite (fun _ => spares_of_quietly (.insert (by decide))) fun _ => a.spares_declareAll

/-! ## Functions -/

theorem Function.spares_patchParam {scope : Nat} {lines : Lines} {q : Param} (hlines : ForeignLines lines)
    (hbinding : q.binding.start < q.binding.stop) : Spares o (patchParam scope lines q) ForeignLines := by
  unfold patchParam
  extract_lets jp
  have hrest (x : String × List String) (hmembers : ∀ line ∈ x.2, Foreign line) :
      Spares o (pure x >>= jp) ForeignLines := by
    refine Brings.after (Q := fun x => ∀ line ∈ x.2, Foreign line) (.pure hmembers) fun x hmembers => ?_
    dsimp only [jp]
    split
    · refine (spares_patchAndRender _).after fun value _ => (spares_of_quietly .remove).after fun _ _ => ?_
      exact .pure (hlines.append (forall_mem_singleton.2 ⟨'(', by simp, rfl⟩) hmembers)
    · exact .pure (hlines.append (by simp) hmembers)
  split
  · refine (spares_of_quietly .claim).after fun name _ => ?_
    refine (spares_of_quietly (.overwrite_of_lt hbinding)).after fun _ _ => hrest _ ?_
    exact forall_mem_singleton.2 ⟨'=', by simp, rfl⟩
  · exact hrest _ (by simp)

theorem Function.spares_patchParams (f : Function) (site : Site)
    (h : ∀ q ∈ f.params, q.binding.start < q.binding.stop) :
    Spares o (f.patchParams site) fun lines => ∀ line ∈ lines, Foreign line := by
  have hall (scope : Nat) (qs : List Param) (lines : Lines) (h : ∀ q ∈ qs, q.binding.start < q.binding.stop)
      (hlines : ForeignLines lines) : Spares o (qs.foldlM (patchParam scope) lines) ForeignLines := by
    induction qs generalizing lines with
    | nil => exact .pure hlines
    | cons q qs ih =>
      obtain ⟨hq, hqs⟩ := forall_mem_cons.1 h
      exact (spares_patchParam hlines hq).after fun lines hlines => ih lines hqs hlines
  refine spares_of_get fun g => (hall _ _ _ h ?_).after fun lines hlines => .pure hlines
  simp [ForeignLines]

theorem Function.spares_patchConcise (f : Function) : Spares o f.patchConcise fun _ => True := by
  unfold patchConcise
  refine .when (fun _ => spares_overwrite ⟨'(', by simp, rfl⟩) ?_
  exact .option_forM fun body _ => spares_patchPart body

section

variable {f : Function} (h : ∀ q ∈ f.params, q.binding.start < q.binding.stop)
include h

theorem Function.spares_patchBraced : Spares o (f.patchBraced p) fun _ => True := by
  unfold patchBraced
  refine .when (fun _ => .option_forM fun _ _ => spares_of_quietly (.insert (by decide))) ?_
  refine (f.spares_patchParams p.site h).after fun lines hlines => ?_
  cases f.body with
  | none => exact spares_overwrite ⟨'\x7d', by simp, rfl⟩
  | some body => exact (spares_overwrite (foreign_opening f)).after fun _ _ => spares_body _ _ hlines

theorem Function.spares_patchValue : Spares o (f.patchValue p) fun _ => True :=
  .ite (fun _ => f.spares_patchConcise) fun _ => spares_patchBraced h

theorem Function.spares_patchStatement : Spares o (f.patchStatement p) fun _ => True :=
  (spares_patchValue h).after fun _ _ =>
    .ite (fun _ => spares_of_quietly (.surroundInParens _)) fun _ => .pure trivial

end

/-! ## Blocks -/

/-- A statement in front of which `return` goes, or does not. -/
def weightOf (o : Nat) (isReturned : Bool) (start : Nat) : Nat := if isReturned = true ∧ start = o then 1 else 0

theorem brings_return (start : Nat) :
    Brings (Returns o) (liftM (Patching.prepend start "return ") : Work Unit) (weightOf o true start)
      fun _ => True := by
  refine Brings.step fun g => ?_
  apply Patching.Safe.get_bind
  dsimp only
  cases hplace : g.editor.prepend start "return " with
  | error e => trivial
  | ok e =>
    have hadded : Layered [(start, "return ")] g.editor e := added_of_place hplace
    refine ⟨⟨rfl, ?_, hadded.kept⟩, trivial⟩
    show (puts e).count (o, "return ") = _
    rw [hadded.puts, count_append]
    simp [weightOf, returnsAt, count_singleton]

theorem Block.brings_patchOne (b : Block) (s : Site) (i : Nat) (isLast : Bool) :
    (b.patchOne s i isLast).Brings (Returns o) (weightOf o (b.returnsLast && isLast) s.whole.start) fun _ => True := by
  have hrest (names : List String) : Spares o (do
      if needsSemicolon (← get).tree s then
        Patching.insert s.whole.stop ";"
      if !names.isEmpty then
        Patching.prependLineBefore s ("let " ++ ", ".intercalate names ++ ";")) fun _ => True := by
    refine spares_of_get fun g => .when (fun _ => spares_of_quietly (.insert (by decide))) ?_
    refine .ite (fun _ => spares_of_quietly (.of_get fun g => .prepend fun heq => ?_)) fun _ => .pure trivial
    have hmem : ';' ∈ (g.lineText s.whole.start ("let " ++ ", ".intercalate names ++ ";")).toList := by
      unfold Context.lineText
      split <;> simp
    rw [heq] at hmem
    exact absurd hmem (by decide)
  refine Brings.after (spares_modify fun _ => ⟨rfl, rfl⟩) fun _ _ => (Brings.patch i).after fun _ _ => ?_
  refine Brings.after (Brings.step (s := modifyGet (·.endDeclarations)) (Q := fun _ => True) fun _ =>
    ⟨.of_editor rfl rfl, trivial⟩) fun names _ => ?_
  cases hreturns : b.returnsLast && isLast with
  | true => exact (brings_return _).bind fun _ _ => hrest names
  | false => exact hrest names

/-- A construct puts in `return ` in front of the last of its parts, if it is a block that returns it and is patched as
a statement, and nowhere else. -/
def ownWeight (o : Nat) (p : Patcher Construct) : Nat :=
  match p.construct with
  | .block b => if p.site.needsValue then 0 else
      (p.parts.zipIdx.map fun x => weightOf o (b.returnsLast && x.2 + 1 == p.parts.length) x.1.site.whole.start).sum
  | _ => 0

theorem brings_patchScript (hn : n.Sound tree) (hfits : Fits tree n nodes p.construct) :
    (p.patchScript hooks).Brings (Returns o) (ownWeight o p) fun _ => True := by
  unfold Patcher.patchScript ownWeight
  simp only [hooks, patchValue, patchStatement]
  generalize p.construct = k at hfits ⊢
  cases hfits with
  | @block b kind =>
    dsimp only
    split
    · exact spares_patchAll _
    · exact .forM fun x _ => b.brings_patchOne _ _ _
  | conditional =>
    exact .ite (fun _ => Conditional.spares_patchValue _) fun _ => Conditional.spares_patchStatement _
  | loop => exact .ite (fun _ => .fail) fun _ => Loop.spares_patchStatement _
  | assignment => exact .ite (fun _ => Assignment.spares_patchValue _) fun _ => Assignment.spares_patchStatement _
  | @function v f view _ _ params =>
    have hbinding : ∀ q ∈ f.params, q.binding.start < q.binding.stop := by
      intro q hq
      obtain ⟨i, hi⟩ := getElem?_of_mem hq
      obtain ⟨w, hw, hparam⟩ := forall₂_getElem? params hi
      rw [hparam.binding]
      exact (hn.binding view (mem_of_getElem? hw)).inside.nonempty
    exact .ite (fun _ => Function.spares_patchValue hbinding) fun _ => Function.spares_patchStatement hbinding
  | returning => exact .ite (fun _ => .fail) fun _ => .option_forM fun v _ => spares_patchPart v
  | expression => exact .ite (fun _ => spares_expression) fun _ => spares_expression

end Respell.Javascript
