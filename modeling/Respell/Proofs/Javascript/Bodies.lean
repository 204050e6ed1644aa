import Respell.Proofs.Javascript.Statements

/-!
What patching declares: loops and functions.

A loop declares its names in its header if they are used in it only, and lets them wait in frames otherwise.
The body of a function has frames of its own, unless it is written without braces.
-/

namespace Respell.Javascript

open List Script

variable {tree : Tree} {n c d : Node} {nodes : List Node} {parts : List (Patcher Construct)} {S : Nat} {inside : Bool}
  {g : Context} {p : Patcher Construct}

/-! ## Lines in front of a body -/

theorem written_of_prepend {site : Site} (hsite : site.On c) {line : String} {g' : Context} {u : Unit}
    (heq : Patching.prependLineBefore site line g = (.ok u, g')) :
    ∃ space, Written g'.editor c.range.start (line ++ space) := by
  have heq : Patching.prepend site.whole.start (g.lineText site.whole.start line) g = _ := heq
  have hadded := (Edited.of_edit heq fun e he => added_of_place he).added
  obtain ⟨space, hspace⟩ : ∃ space, g.lineText site.whole.start line = line ++ space := by
    unfold Context.lineText
    split
    · exact ⟨_, String.append_assoc⟩
    · exact ⟨_, rfl⟩
  rw [hspace, hsite.whole] at hadded
  exact ⟨space, Or.inl (hadded.puts ▸ by simp)⟩

theorem makes_lines {site : Site} (hsite : site.On c) {lines : List String} (hlines : ∀ line ∈ lines, Foreign line) :
    Makes tree S inside parts (lines.forM fun line => Patching.prependLineBefore site line) g [] fun _ g' =>
      ∀ line ∈ lines, ∃ space, Written g'.editor c.range.start (line ++ space) := by
  induction lines generalizing g with
  | nil => exact Makes.pure (by simp)
  | cons line lines ih =>
    obtain ⟨hline, hlines⟩ := forall_mem_cons.1 hlines
    intro hg _ g' hdoes
    obtain ⟨_, g₁, hfirst, hrest⟩ := does_bind.1 hdoes
    have h₁ : Declares tree S [] g g₁ :=
      .quiet ((Quietly.prependLineBefore site hline).of_eq (does_step.1 hfirst)).1 (by simp)
    have hfirst := written_of_prepend hsite (does_step.1 hfirst)
    obtain ⟨h₂, hwritten⟩ := ih hlines (h₁.evolves.atWork hg) _ _ hrest
    refine ⟨.seq h₁ h₂, forall_mem_cons.2 ⟨?_, hwritten⟩⟩
    obtain ⟨space, hspace⟩ := hfirst
    exact ⟨space, h₂.evolves.grown.written hspace⟩

theorem makes_prependBodyLines {body : Part} {b : Node} {lines : List String} (hbody : body.Of nodes b)
    (hparts : List.Forall₂ (Shows tree) nodes p.parts) (hk : b.kind = .block) (hlines : ∀ line ∈ lines, Foreign line) :
    Makes tree S inside p.parts (prependBodyLines p body lines) g [] fun _ g' =>
      ∀ line ∈ lines, ∃ c ∈ b.children.head?, ∃ space, Written g'.editor c.range.start (line ++ space) := by
  unfold prependBodyLines
  split
  · rename_i hempty
    rw [List.isEmpty_iff.1 hempty]
    exact Makes.pure (by simp)
  · dsimp only
    split
    case h_2 => exact Makes.fail
    case h_1 s hs =>
      obtain ⟨c, hc, hon⟩ := exists_first hbody hparts hk hs
      intro hg u g' hdoes
      obtain ⟨hdeclares, hwritten⟩ :=
        makes_lines hon (fun line hline => hlines line (mem_reverse.1 hline)) hg u g' hdoes
      exact ⟨hdeclares, fun line hline => ⟨c, hc, hwritten line (mem_reverse.2 hline)⟩⟩

/-! ## Loops -/

theorem makes_option {o : Option Node} {q : Option Part} (hs : Scoped tree S nodes parts)
    (hq : Option.Rel (Part.Of nodes) o q) :
    Makes tree S true parts (q.mapM Script.patchAndRender) g (o.toList.flatMap (declared tree)) fun codes g' =>
      Option.Rel (fun c code => g'.editor.renderRangeInclusive c.range = .ok code) o codes := by
  cases hq with
  | none => exact Makes.pure .none
  | some hq =>
    exact (Makes.patchAndRender hs hq).bind fun code g₁ _ hcode => Makes.pure (.some hcode)

theorem cachedTarget_quiet {P : String → Prop} [Ordinary P] (l : Loop) (site : Site) (code hint : String) :
    Quietly P (l.cachedTarget site code hint) fun _ => True := by
  unfold Loop.cachedTarget
  split
  case h_4 =>
    refine Quietly.claim.bind fun name _ => ?_
    exact (Quietly.prependLineBefore _ ⟨'=', by simp, rfl⟩).bind fun _ _ => Quietly.pure trivial
  all_goals exact Quietly.pure trivial

/-- The code of every binding stands behind `declare`, in the header or in a line. -/
structure Opens (declare : String) (codes : List String) (header : String) (lines : List String) : Prop where
  foreignHeader : Foreign header
  foreignLines : ∀ line ∈ lines, Foreign line
  bindings : ∀ code ∈ codes, (∃ tail, header = "for (" ++ declare ++ code ++ tail) ∨
    ∃ tail, declare ++ code ++ " = " ++ tail ∈ lines

theorem opens_key (declare k tail object : String) (value : Option String) :
    Opens declare ((some k).toList ++ value.toList) ("for (" ++ declare ++ k ++ tail)
      (value.toList.map fun v => declare ++ v ++ " = " ++ object ++ "[" ++ k ++ "];") := by
  refine ⟨⟨'(', by simp, rfl⟩, fun line hline => ?_, forall_mem_cons.2 ⟨Or.inl ⟨tail, rfl⟩, fun v hv => Or.inr ?_⟩⟩
  · obtain ⟨v, -, rfl⟩ := mem_map.1 hline
    exact ⟨'[', by simp, rfl⟩
  · exact ⟨object ++ "[" ++ k ++ "];", mem_map.2 ⟨v, hv, by simp only [String.append_assoc]⟩⟩

theorem makes_opening (l : Loop) (site : Site) (declare : String) (key value : Option String) (target : String) :
    Makes tree S inside parts (l.opening site declare key value target) g [] fun r _ =>
      Opens declare (key.toList ++ value.toList) r.1 r.2 := by
  unfold Loop.opening
  cases key with
  | some k =>
    cases l.isOf with
    | true =>
      refine Makes.after (cachedTarget_quiet _ _ _ _) fun object g₁ _ _ => Makes.pure ?_
      have := opens_key declare k (" in " ++ object ++ ") \x7b") object value
      simpa only [String.append_assoc] using this
    | false =>
      refine Makes.after (cachedTarget_quiet _ _ _ _) fun array g₁ _ _ => Makes.pure ?_
      have := opens_key declare k (" = 0; " ++ (k ++ " < " ++ array ++ ".length") ++ "; " ++ k ++ "++) \x7b") array
        value
      simpa only [String.append_assoc] using this
  | none =>
    cases l.isOf with
    | true => exact Makes.fail
    | false =>
      cases value with
      | none => exact Makes.fail
      | some v =>
        refine Makes.pure ⟨⟨'(', by simp, rfl⟩, by simp, ?_⟩
        simp only [Option.toList_none, Option.toList_some, nil_append, mem_singleton, forall_eq]
        exact Or.inl ⟨" of " ++ target ++ ") \x7b", by simp only [String.append_assoc]⟩

/-- The bindings that are declarations are the names that the loop owns. -/
theorem declarations_loopBindings {v : LoopView} (view : LoopView.ofNode? tree n = some v) :
    (loopBindings tree (Scopes.ofTree tree) v).filter (·.isDeclaration) =
      (own tree n).map fun c => ⟨tree.nodeText c, (Scopes.ofTree tree).isDeclaration c, !tree.isBlockLocal c⟩ := by
  have hnames (b : Node) : ((if b.kind = .array then b.children else [b]).filter (isNew tree)) =
      (targets b).filter (isNew tree) := by
    unfold targets
    split
    · rename_i hk
      rw [hk]
    · rename_i hk
      split
      · rfl
      · rename_i harray
        exact absurd harray hk
      · rename_i hident _
        have hnew : isNew tree b = false := by
          rw [isNew, beq_false_of_ne hident, Bool.false_and]
        simp [hnew]
  rw [loopBindings, own, boundIn_of_loop view, filter_map, filter_filter, filter_flatMap, filter_flatMap]
  congr 2
  funext b
  rw [← hnames b]
  refine filter_congr fun c _ => ?_
  simp [isNew, Bool.and_comm]

theorem makes_overwrite {range : Span} {text : String} (h : Foreign text) :
    Makes tree S inside parts (liftM (Patching.overwrite range text)) g [] fun _ g' =>
      Written g'.editor range.start text := by
  intro hg u g' hdoes
  refine ⟨(Makes.step (Quietly.overwrite (Let.ofText?_eq_none h)) hg u g' hdoes).1, ?_⟩
  obtain ⟨e, he, rfl⟩ := exists_of_edit (does_step.1 hdoes)
  exact (added_of_overwrite he).choose_spec.2.2

section Loops

variable {l : Loop} {v : LoopView} {target body : Node}

/-- Where the code of a binding was written behind `declare`. -/
def Binding (m body : Node) (declare : String) (e : Editor) (code : String) : Prop :=
  (∃ tail, Written e m.range.start ("for (" ++ declare ++ code ++ tail)) ∨
    ∃ s ∈ body.children.head?, ∃ tail, Written e s.range.start (declare ++ code ++ " = " ++ tail)

/-- The header is written, and the body patched. -/
theorem makes_loop_body (hs : Scoped tree S nodes p.parts) (hbody : l.body.Of nodes body) (hk : body.kind = .block)
    {start stop : Nat} (hstart : start = n.range.start) {site : Site} {declare code : String}
    {key value filter : Option String} :
    Makes tree S true p.parts (do
      let (opening, lines) ← l.opening site declare key value code
      Patching.overwrite ⟨start, stop⟩ opening
      Script.patchPart l.body
      prependBodyLines p l.body (lines ++ filter.toList.map Loop.filterLine)
      let close ← closingBrace site l.body.site
      Patching.insert site.content.stop close) g (declared tree body) fun _ g' =>
      ∀ code ∈ key.toList ++ value.toList, Binding n body declare g'.editor code := by
  refine (makes_opening _ _ _ _ _ _).bind fun r g₁ _ hopens => ?_
  refine (makes_overwrite hopens.foreignHeader).bind fun _ g₂ _ hheader => ?_
  refine Makes.perm ((Makes.patchPart hs hbody).bind fun _ g₃ h₃ _ => ?_) (.of_eq (append_nil _))
  have hlines : ∀ line ∈ r.2 ++ filter.toList.map Loop.filterLine, Foreign line := by
    refine forall_mem_append.2 ⟨hopens.foreignLines, fun line hline => ?_⟩
    obtain ⟨x, -, rfl⟩ := mem_map.1 hline
    exact ⟨'(', by simp [Loop.filterLine], rfl⟩
  refine (makes_prependBodyLines hbody hs.shows hk hlines).bind fun _ g₄ h₄ hwritten => ?_
  refine Makes.after (closingBrace_quiet _ _) fun close g₅ h₅ hclose => ?_
  intro hg u g' hdoes
  obtain ⟨h₆, -⟩ := Makes.step (Quietly.insert (Let.ofText?_eq_none hclose)) hg u g' hdoes
  refine ⟨h₆, fun code hcode => (hopens.bindings code hcode).imp ?_ ?_⟩
  · rintro ⟨tail, htail⟩
    rw [htail] at hheader
    subst hstart
    exact ⟨tail, (h₃.evolves.grown.trans (h₄.evolves.grown.trans (h₅.grown.trans h₆.evolves.grown))).written hheader⟩
  · rintro ⟨tail, htail⟩
    obtain ⟨s, hfirst, space, hspace⟩ := hwritten _ (mem_append_left _ htail)
    rw [String.append_assoc] at hspace
    exact ⟨s, hfirst, tail ++ space, (h₅.grown.trans h₆.evolves.grown).written hspace⟩

theorem makes_loop (h : tree.root.Sound tree) (hn : n ∈ tree.root.descendants)
    (hfits : Fits tree n.unwrapParens nodes (.loop l)) (hs : Scoped tree (tree.enclosing n.id) nodes p.parts)
    (hsite : p.site.On n) :
    Makes tree (tree.enclosing n.id) true p.parts (l.patchStatement p) g
      (own tree n.unwrapParens ++ nodes.flatMap (declared tree)) fun _ _ => True := by
  have hinner := (h.descendant hn).1.unwrapParens.1
  have hroot : n.unwrapParens ∈ tree.root.descendants :=
    Node.descendants_trans hn n.unwrapParens_mem
  cases hfits with
  | @loop v target body _ view viewTarget viewBody leading partKey partValue partTarget partFilter partBody bindings =>
  obtain ⟨s, hshape, -, hv⟩ := exists_leading hinner view viewTarget viewBody leading
  have hk : body.kind = .block := by
    have : v.body = some s.body := by rw [hv]; rfl
    cases this.symm.trans viewBody
    exact hshape.body
  -- The names of the loop itself come between the header and the body.
  have hperm : (v.key.toList.flatMap (declared tree) ++ (v.value.toList.flatMap (declared tree) ++
      (declared tree target ++ (v.filter.toList.flatMap (declared tree) ++
        (own tree n.unwrapParens ++ declared tree body))))).Perm
      (own tree n.unwrapParens ++ (loopNodes v).flatMap (declared tree)) := by
    have := perm_append_comm_assoc (v.key.toList.flatMap (declared tree) ++
      v.value.toList.flatMap (declared tree) ++ declared tree target ++ v.filter.toList.flatMap (declared tree))
      (own tree n.unwrapParens) (declared tree body)
    simpa [loopNodes, viewTarget, viewBody] using this
  refine Makes.of_get fun htree => ?_
  rw [htree]
  dsimp only
  split
  · exact Makes.fail
  rename_i keyword hkeyword
  rw [hsite.node] at hkeyword
  have hstart := start_of_keyword hinner hkeyword
  refine Makes.perm ?_ hperm
  refine (makes_option hs partKey).bind fun key g₁ h₁ hkey => (makes_option hs partValue).bind
    fun value g₂ h₂ hvalue => (Makes.patchAndRender hs partTarget).bind fun code g₃ h₃ _ =>
    (makes_option hs partFilter).bind fun filter g₄ h₄ _ => ?_
  split
  · rename_i hlocal
    rw [bindings, declarations_loopBindings view]
    refine (makes_declare (fun d hd => ?_) fun d _ => ⟨_, rfl⟩).bind fun _ g₅ _ _ => ?_
    · obtain ⟨hnew, c, hc, hd⟩ := mem_own hd
      obtain ⟨hbelow, hscope⟩ := of_mem_targets h hroot hc hd
      exact ⟨Node.descendants_trans hroot hbelow, hnew, hscope.trans (tree.enclosing_unwrapParens h hn)⟩
    · exact (makes_loop_body hs partBody hk hstart).mono fun _ _ _ => trivial
  · rename_i hlocal
    rw [if_pos (by simpa using hlocal)]
    refine Makes.perm ?_ perm_append_comm
    have hcode : ∀ c ∈ boundIn tree n.unwrapParens, ∃ code ∈ key.toList ++ value.toList,
        ∃ e, Grown e g₄.editor ∧ e.renderRangeInclusive c.range = .ok code := by
      have hgrown := h₃.evolves.grown.trans h₄.evolves.grown
      rw [boundIn_of_loop view]
      refine forall_mem_append.2 ⟨fun c hc => ?_, fun c hc => ?_⟩
      · rw [Option.mem_toList.1 hc] at hkey
        cases hkey with
        | some hcode => exact ⟨_, by simp, g₁.editor, h₂.evolves.grown.trans hgrown, hcode⟩
      · rw [Option.mem_toList.1 hc] at hvalue
        cases hvalue with
        | some hcode => exact ⟨_, by simp, g₂.editor, hgrown, hcode⟩
    refine ((makes_loop_body hs partBody hk hstart).headed fun _ g' h' hbindings d hd => ?_).mono fun _ _ _ => trivial
    obtain ⟨-, c, hc, hd⟩ := mem_own hd
    obtain ⟨code, hmem, e, hgrown, hrender⟩ := hcode c hc
    refine ⟨_, v, c, code, hroot, view, hc, hd, ⟨e, hgrown.trans h'.evolves.grown, hrender⟩,
      (hbindings code hmem).imp id ?_⟩
    rintro ⟨s, hs, tail, hwritten⟩
    exact ⟨body, s, tail, viewBody, hs, hwritten⟩

end Loops

/-! ## Functions -/

section Functions

variable {f : Function} {v : FunctionView}

/-- The parts of a function. -/
structure Inner (tree : Tree) (n : Node) (nodes : List Node) (parts : List (Patcher Construct)) : Prop where
  shows : List.Forall₂ (Shows tree) nodes parts
  owner : n ∈ tree.root.descendants
  root : ∀ c ∈ nodes, c ∈ tree.root.descendants
  scope : ∀ c ∈ nodes, tree.enclosing c.id = n.id

/-- A part that may stand outside the block of its function. -/
theorem makes_loose {i : Nat} (hs : Inner tree n nodes parts) (hi : nodes[i]? = some c) (hc : c ∈ loose tree n) :
    Makes tree S true parts (Script.patch i) g (declared tree c) fun _ _ => True := by
  have hmem := mem_of_getElem? hi
  exact Makes.patch_of hs.shows hi fun q _ g' hshows hg hq =>
    .loose hs.owner hc (hq c n.id true (hs.root c hmem) hshows hg (Or.inl rfl) (Or.inl (hs.scope c hmem).symm))

theorem makes_loose_value {q : Part} (hs : Inner tree n nodes parts) (hq : q.Of nodes c) (hc : c ∈ loose tree n) :
    Makes tree S true parts (Script.patchAndRender q) g (declared tree c) fun _ _ => True :=
  ((makes_loose hs hq.place hc).bind fun _ _ _ _ => Makes.step Quietly.rendered).perm (.of_eq (append_nil _))

/-- The body of a function has frames of its own, or it is one that may stand outside a block. -/
theorem makes_function_body (h : tree.root.Sound tree) {b : Part} (hs : Inner tree n nodes p.parts)
    (view : FunctionView.ofNode? tree n = some v) (hbody : v.body = some c) (hb : b.Of nodes c)
    (hwithin : List.Forall₂ (fun c q => c.asked tree q.site.needsValue ⊆ n.asked tree p.site.needsValue)
      nodes p.parts) :
    Makes tree S true p.parts (Script.patchPart b) g (declared tree c) fun _ _ => True := by
  have hmem := mem_of_getElem? hb.place
  obtain ⟨hchild, hk, hblock⟩ := mem_children_of_body view hbody
  refine Makes.patch_of hs.shows hb.place fun q hq g' hshows hg hdeclaring => ?_
  cases hvalue : q.site.needsValue with
  | true =>
    obtain ⟨_, hi, hsub⟩ := forall₂_getElem? hwithin hq
    cases hi.symm.trans hb.place
    have hasked : c ∈ n.asked tree p.site.needsValue := hsub (hvalue ▸ Node.mem_asked_true c)
    refine .loose hs.owner (mem_loose_of_asked (h.descendant hs.owner).1 view hbody hasked) ?_
    exact hdeclaring c n.id true (hs.root c hmem) hshows hg (Or.inl rfl) (Or.inl (hs.scope c hmem).symm)
  | false =>
    refine hdeclaring c S true (hs.root c hmem) hshows hg (Or.inl rfl) (Or.inr ⟨⟨hblock, hvalue⟩, ?_⟩)
    rw [tree.ancestors_child h.ids hs.owner hchild, head?_cons, Tree.isScopeBody, hk]
    rfl

/-- All lines for parameters are foreign to declarations. -/
def ForeignLines (lines : Function.Lines) : Prop := ∀ line ∈ lines.defaults ++ lines.members, Foreign line

theorem ForeignLines.append {lines : Function.Lines} {defaults members : List String} (h : ForeignLines lines)
    (hdefaults : ∀ line ∈ defaults, Foreign line) (hmembers : ∀ line ∈ members, Foreign line) :
    ForeignLines ⟨lines.defaults ++ defaults, lines.members ++ members⟩ := by
  obtain ⟨h1, h2⟩ := forall_mem_append.1 h
  exact forall_mem_append.2 ⟨forall_mem_append.2 ⟨h1, hdefaults⟩, forall_mem_append.2 ⟨h2, hmembers⟩⟩

variable {w : ParamView} {q : Param} {scope : Nat} {lines : Function.Lines}

theorem makes_default {name : String} {members : List String} (hs : Inner tree n nodes parts)
    (hw : Param.Fits nodes w q) (hloose : ∀ c ∈ w.default?, c ∈ loose tree n) (hlines : ForeignLines lines)
    (hmembers : ∀ line ∈ members, Foreign line) :
    Makes tree S true parts (do
      let defaults ← match q.default? with
        | some d => do
          let value ← Script.patchAndRender d
          Patching.remove q.defaultRange
          pure ["if (" ++ name ++ " == null) \x7b " ++ name ++ " = " ++ value ++ "; \x7d"]
        | none => pure []
      return ⟨lines.defaults ++ defaults, lines.members ++ members⟩) g (w.default?.toList.flatMap (declared tree))
      fun lines _ => ForeignLines lines := by
  have hdefault := hw.default?
  generalize w.default? = o at hdefault hloose
  generalize q.default? = d at hdefault
  cases hdefault with
  | none => exact Makes.pure (hlines.append (by simp) hmembers)
  | @some c d hd =>
    rw [Option.toList_some, flatMap_singleton]
    refine Makes.perm ((makes_loose_value hs hd (hloose c rfl)).bind fun value g₁ _ _ => ?_) (.of_eq (append_nil _))
    refine Makes.after Quietly.remove fun _ g₂ _ _ => Makes.pure (hlines.append (fun line hline => ?_) hmembers)
    rw [mem_singleton.1 hline]
    exact ⟨'(', by simp, rfl⟩

theorem makes_param (hs : Inner tree n nodes parts) (hw : Param.Fits nodes w q)
    (hloose : ∀ c ∈ w.default?, c ∈ loose tree n) (hbinding : w.binding.range.start < w.binding.range.stop)
    (hlines : ForeignLines lines) :
    Makes tree S true parts (Function.patchParam scope lines q) g (w.default?.toList.flatMap (declared tree))
      fun lines _ => ForeignLines lines := by
  unfold Function.patchParam
  dsimp only
  split
  · refine Makes.after Quietly.claim fun name g₁ _ _ => ?_
    refine Makes.after (Quietly.overwrite_of_lt (hw.binding ▸ hbinding)) fun _ g₂ _ _ => ?_
    refine makes_default hs hw hloose hlines fun line hline => ?_
    rw [mem_singleton.1 hline]
    exact ⟨'=', by simp, rfl⟩
  · exact makes_default hs hw hloose hlines (by simp)

theorem makes_params {vs : List ParamView} {qs : List Param} (hs : Inner tree n nodes parts)
    (hfits : List.Forall₂ (Param.Fits nodes) vs qs) (hloose : ∀ w ∈ vs, ∀ c ∈ w.default?, c ∈ loose tree n)
    (hbinding : ∀ w ∈ vs, w.binding.range.start < w.binding.range.stop) (hlines : ForeignLines lines) :
    Makes tree S true parts (qs.foldlM (Function.patchParam scope) lines) g
      ((vs.filterMap (·.default?)).flatMap (declared tree)) fun lines _ => ForeignLines lines := by
  induction hfits generalizing lines g with
  | nil => exact Makes.pure hlines
  | @cons w q vs qs hw _ ih =>
    obtain ⟨hloose₁, hloose⟩ := forall_mem_cons.1 hloose
    obtain ⟨hbinding₁, hbinding⟩ := forall_mem_cons.1 hbinding
    refine Makes.perm ((makes_param hs hw hloose₁ hbinding₁ hlines).bind fun lines g₁ _ hlines =>
      ih hloose hbinding hlines) (.of_eq ?_)
    rw [filterMap_cons]
    cases w.default? <;> simp

theorem makes_patchParams (hn : n.Sound tree) (hs : Inner tree n nodes parts)
    (view : FunctionView.ofNode? tree n = some v) (params : List.Forall₂ (Param.Fits nodes) v.params f.params)
    {site : Site} :
    Makes tree S true parts (f.patchParams site) g ((v.params.filterMap (·.default?)).flatMap (declared tree))
      fun lines _ => ∀ line ∈ lines, Foreign line := by
  refine Makes.of_get fun _ => ?_
  have hlines : ForeignLines {} := by simp [ForeignLines]
  have hnonempty (w : ParamView) (hw : w ∈ v.params) : w.binding.range.start < w.binding.range.stop :=
    (hn.binding view hw).inside.nonempty
  refine Makes.perm ((makes_params hs params (fun w hw c hc => ?_) hnonempty hlines).bind
    fun lines g₁ _ hlines => Makes.pure hlines) (.of_eq (append_nil _))
  rw [loose, view]
  exact mem_append_left _ (mem_filterMap.2 ⟨w, hw, hc⟩)

theorem foreign_opening (f : Function) : Foreign f.opening := by
  refine ⟨'\x7b', ?_, rfl⟩
  unfold Function.opening
  split <;> simp

section Patch

variable (h : tree.root.Sound tree) (hs : Inner tree n nodes p.parts) (hfits : Fits tree n nodes (.function f))
  (hwithin : List.Forall₂ (fun c q => c.asked tree q.site.needsValue ⊆ n.asked tree p.site.needsValue) nodes p.parts)
include h hs hfits hwithin

theorem makes_concise (hconcise : f.isConcise = true) :
    Makes tree S true p.parts f.patchConcise g (nodes.flatMap (declared tree)) fun _ _ => True := by
  cases hfits with
  | @function v _ view _ _ params partBody concise =>
  -- Without lines for parameters there are no default values.
  have hdefaults : v.params.filterMap (·.default?) = [] := by
    refine filterMap_eq_nil_iff.2 fun w hw => ?_
    obtain ⟨i, hi⟩ := getElem?_of_mem hw
    obtain ⟨q, hq, hfits⟩ := forall₂_getElem?_left params hi
    have hnone := any_eq_false.1 (concise hconcise).2 q (mem_of_getElem? hq)
    have hdefault := hfits.default?
    cases hd : q.default? with
    | some d => simp [hd] at hnone
    | none =>
      rw [hd] at hdefault
      generalize w.default? = o at hdefault
      cases hdefault
      rfl
  have hnodes : (functionNodes v).flatMap (declared tree) = v.body.toList.flatMap (declared tree) := by
    rw [functionNodes, hdefaults, nil_append]
  unfold Function.patchConcise
  refine Makes.when (fun _ => Quietly.overwrite (by decide)) fun g₁ _ => ?_
  rw [hnodes]
  cases hpart : f.body with
  | none =>
    rw [hpart] at partBody
    generalize v.body = o at partBody
    cases partBody
    exact Makes.pure trivial
  | some b =>
    rw [hpart] at partBody
    obtain ⟨c, hc, hb⟩ := exists_of_rel_some partBody
    rw [hc, Option.toList_some, flatMap_singleton]
    exact makes_function_body h hs view hc hb hwithin

/-- The parameters and the body, between braces. -/
theorem makes_braces : Makes tree S true p.parts (do
      let lines ← f.patchParams p.site
      match f.body with
      | none =>
        let inside := if lines.isEmpty then "" else " " ++ " ".intercalate lines ++ " "
        Patching.overwrite f.arrow.range (f.opening ++ inside ++ "\x7d")
      | some body =>
        Patching.overwrite f.arrow.range f.opening
        Script.patchPart body
        prependBodyLines p body lines
        let close ← closingBrace p.site body.site
        Patching.insert p.site.content.stop close) g (nodes.flatMap (declared tree)) fun _ _ => True := by
  cases hfits with
  | @function v _ view _ _ params partBody =>
  rw [functionNodes, flatMap_append]
  refine (makes_patchParams (h.descendant hs.owner).1 hs view params).bind fun lines g₁ _ hlines => ?_
  cases hpart : f.body with
  | none =>
    rw [hpart] at partBody
    generalize v.body = o at partBody
    cases partBody
    exact Makes.step (Quietly.overwrite (Let.ofText?_eq_none ⟨'\x7d', by simp, rfl⟩))
  | some b =>
    rw [hpart] at partBody
    obtain ⟨c, hc, hb⟩ := exists_of_rel_some partBody
    obtain ⟨-, -, hblock⟩ := mem_children_of_body view hc
    rw [hc, Option.toList_some, flatMap_singleton]
    refine Makes.after (Quietly.overwrite (Let.ofText?_eq_none (foreign_opening f))) fun _ g₂ _ _ => ?_
    refine Makes.perm ((makes_function_body h hs view hc hb hwithin).bind fun _ g₃ _ _ => ?_) (.of_eq (append_nil _))
    refine (makes_prependBodyLines hb hs.shows hblock hlines).bind fun _ g₄ _ _ => ?_
    refine Makes.after (closingBrace_quiet _ _) fun close g₅ _ hclose => ?_
    exact Makes.step (Quietly.insert (Let.ofText?_eq_none hclose))

theorem makes_function :
    Makes tree S true p.parts (f.patchValue p) g (nodes.flatMap (declared tree)) fun _ _ => True := by
  unfold Function.patchValue
  split
  · exact makes_concise h hs hfits hwithin ‹_›
  · unfold Function.patchBraced
    dsimp only
    split
    · cases f.paramList with
      | none => exact makes_braces h hs hfits hwithin
      | some range =>
        exact Makes.after (Quietly.insert (by decide)) fun _ g₁ _ _ => makes_braces h hs hfits hwithin
    · exact makes_braces h hs hfits hwithin

theorem makes_function_statement :
    Makes tree S true p.parts (f.patchStatement p) g (nodes.flatMap (declared tree)) fun _ _ => True := by
  refine Makes.perm ((makes_function h hs hfits hwithin).bind fun _ g₁ _ _ => ?_) (.of_eq (append_nil _))
  split
  · exact Makes.step (Quietly.surroundInParens _)
  · exact Makes.pure trivial

end Patch

end Functions

end Respell.Javascript
