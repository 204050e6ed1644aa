import Respell.Proofs.Normalize.Steps

/-!
Loops: the steps of patching one, put together.

The bindings, the target and the filter are patched where they stand.  Then the body follows: with the line
that takes a pattern apart in front of it if the loop starts with its keyword, else with the header in front
of that line.
-/

namespace Respell.Normalize

open List Text

/-- What a loop does with its header once the parts of it were patched, and then its body. -/
def Loop.place (l : Loop) (site : Site) (line : Option String) (keyword : Token) : Work Unit := do
  if l.isTrailing then
    protect l.target
    l.filter.forM protect
    moveHeader site keyword.range.start l.body
    line.forM fun line => do
      Patching.insert l.body.site.whole.start (line ++ (← get).stage.separator)
  else
    line.forM fun line => Patching.insertLineBefore l.body.site line
  Script.patchPart l.body

/-- A loop patches the parts of its header first. -/
theorem Loop.patch_eq (l : Loop) (site : Site) :
    l.patch site = (do
      l.key.forM Script.patchPart
      let line ← (match l.value with
        | some value => patchLoopValue site.scope value
        | none => pure none)
      Script.patchPart l.target
      l.filter.forM Script.patchPart
      let keyword ← l.keyword site
      l.place site line keyword) := by
  unfold Loop.patch Loop.place
  cases l.value <;> rfl

theorem lift_some {α : Type} (a : α) : (liftM (some a) : Translating α) = pure a := rfl

section Facts

variable {tree : Tree} {n : Node} {s : LoopShape} {v : LoopView}

/-- The loop is trailing if its body stands before the keyword. -/
theorem isTrailing_eq (hn : n.Sound tree) (hs : s.Of tree n) :
    (loopOf tree v s.header.target s.body).isTrailing = s.isTrailing := by
  have hbody : s.body.unwrapParens = s.body := Node.unwrapParens_of_ne (by rw [hs.body]; decide)
  have htarget := hn.child (hs.mem_children (Or.inr s.header.target_mem))
  obtain ⟨hsound, -, h1, h2⟩ := htarget.unwrapParens
  have h3 := hsound.inside.nonempty
  have h4 := (hn.child (hs.mem_children (Or.inl rfl))).inside.nonempty
  show decide (s.body.unwrapParens.range.start < s.header.target.unwrapParens.range.start) = _
  rw [hbody]
  cases ht : s.isTrailing with
  | true =>
    obtain ⟨t, -, -, -, hle, hp⟩ := hs.trailing hn ht
    have := (hp.mem (mem_map_of_mem s.header.target_mem)).1
    rw [decide_eq_true_eq]
    omega
  | false =>
    obtain ⟨t, c, -, -, hp, hc, -⟩ := hs.leading hn ht
    have := (hp.mem (mem_map_of_mem s.header.target_mem)).2.2
    rw [decide_eq_false_iff_not]
    omega

theorem start_lt_iff (hn : n.Sound tree) (hs : s.Of tree n) {t : Token}
    (ht : tree.token? s.keyword = some t) :
    decide (s.body.range.start < t.range.start) = s.isTrailing := by
  have hbody := (hn.child (hs.mem_children (Or.inl rfl))).inside.nonempty
  cases htrailing : s.isTrailing with
  | true =>
    obtain ⟨t', ht', -, -, hle, -⟩ := hs.trailing hn htrailing
    cases ht.symm.trans ht'
    rw [decide_eq_true_eq]
    omega
  | false =>
    obtain ⟨t', c, ht', hstart, hp, hc, -⟩ := hs.leading hn htrailing
    cases ht.symm.trans ht'
    have := hp.mem (mem_map_of_mem s.header.target_mem)
    have := this.2.1.nonempty
    rw [decide_eq_false_iff_not]
    omega

/-- The first part of the header is one of its parts. -/
theorem firstOfHeader_site (hv : ∀ c ∈ v.key, c ∈ s.header.nodes)
    (hv' : ∀ c ∈ v.value, c ∈ s.header.nodes) :
    ∃ c ∈ s.header.nodes, (loopOf tree v s.header.target s.body).firstOfHeader.site = .ofNode tree c := by
  have hfold : ∀ (ps : List Part) (q : Part) (f : Part → Part → Bool),
      (∀ r ∈ ps, ∃ c ∈ s.header.nodes, r.site = .ofNode tree c) →
      (∃ c ∈ s.header.nodes, q.site = .ofNode tree c) →
      ∃ c ∈ s.header.nodes, (ps.foldr (fun r best => if f r best then r else best) q).site = .ofNode tree c := by
    intro ps q f hps hq
    induction ps with
    | nil => exact hq
    | cons r ps ih =>
      obtain ⟨hr, hps⟩ := forall_mem_cons.1 hps
      rw [foldr_cons]
      split
      · exact hr
      · exact ih hps
  have hpart : ∀ {o : Option Node} {i : Nat}, (∀ c ∈ o, c ∈ s.header.nodes) →
      ∀ r ∈ (o.map (partAt tree i)).toList, ∃ c ∈ s.header.nodes, r.site = .ofNode tree c := by
    intro o i ho r hr
    cases o with
    | none => cases hr
    | some c =>
      rw [mem_singleton.1 hr]
      exact ⟨c, ho c rfl, rfl⟩
  have := hfold ((v.key.map (partAt tree 0)).toList ++ (v.value.map (partAt tree v.key.toList.length)).toList)
    (partAt tree (v.key.toList.length + v.value.toList.length) s.header.target)
    (fun p best => decide (p.site.content.start ≤ best.site.content.start))
    (forall_mem_append.2 ⟨hpart hv, hpart hv'⟩) ⟨_, s.header.target_mem, rfl⟩
  simp only [decide_eq_true_eq] at this
  exact this

/-- The parts of the header lie apart, strictly behind the start of the loop. -/
theorem header_apart (hn : n.Sound tree) (hs : s.Of tree n)
    (hv : v = s.header.view tree s.keyword s.thenToken s.body) :
    (v.key.toList ++ v.value.toList ++ s.header.target :: v.filter.toList).Pairwise (fun d d' =>
        d.range.stop < d'.range.start ∨ d'.range.stop < d.range.start) ∧
      ∀ d ∈ v.key.toList ++ v.value.toList ++ s.header.target :: v.filter.toList,
        d.range.Inside tree.text ∧ n.range.start < d.range.start ∧ d.range.stop ≤ n.range.stop := by
  have hperm : (v.key.toList ++ v.value.toList ++ s.header.target :: v.filter.toList).Perm s.header.nodes := by
    rw [← @Header.view_nodes tree s.header s.keyword s.thenToken s.body, ← hv]
    split
    · exact .refl _
    · exact perm_append_comm.append_right _
  obtain ⟨k, b, hk, hb, hp⟩ : ∃ k b, n.range.start ≤ k ∧ b ≤ n.range.stop ∧
      InOrder tree.text 1 k b (s.header.nodes.map fun c => c.range) := by
    cases ht : s.isTrailing with
    | true =>
      obtain ⟨t, -, -, hstart, hle, hp⟩ := hs.trailing hn ht
      have := (hn.child (hs.mem_children (Or.inl rfl))).inside.nonempty
      exact ⟨t.range.start, n.range.stop, by omega, Nat.le_refl _, hp⟩
    | false =>
      obtain ⟨t, c, -, -, hp, hc, hstop⟩ := hs.leading hn ht
      have := (hn.child (hs.mem_children (Or.inl rfl))).inside.nonempty
      exact ⟨n.range.start, c, Nat.le_refl _, by omega, hp⟩
  constructor
  · refine List.Pairwise.perm ?_ hperm.symm (fun h => h.symm)
    exact (pairwise_map.1 hp.pairwise).imp Or.inl
  · intro d hd
    obtain ⟨h1, h2, h3⟩ := hp.mem (mem_map_of_mem (hperm.subset hd))
    exact ⟨h2, by omega, by omega⟩

variable {callee : Callee Context Construct} {p : Patcher Construct} {g : Context} {site : Site}

theorem follows_keyword (hn : n.Sound tree) (hs : s.Of tree n) (hv : ∀ c ∈ v.key, c ∈ s.header.nodes)
    (hv' : ∀ c ∈ v.value, c ∈ s.header.nodes) (hsite : site.node = n) (htree : g.tree = tree) {t : Token}
    (ht : tree.token? s.keyword = some t) :
    Follows tree callee ((loopOf tree v s.header.target s.body).keyword site) p g (Pure.pure ())
      fun _ t' p' g' => t' = t ∧ p' = p ∧ g' = g := by
  have hkind : t.kind = .forKw := by
    have := hs.keyword
    rwa [Tree.kindAt, ht] at this
  unfold Loop.keyword
  refine .step (m := get) (a := g) rfl rfl ?_
  rw [htree, isTrailing_eq hn hs]
  cases htrailing : s.isTrailing with
  | true =>
    obtain ⟨c, hc, hfirst⟩ := @firstOfHeader_site tree s v hv hv'
    have hitems : n.items = [] ++ [.node s.body] ++ .token s.keyword :: s.header.items := by
      rw [hs.items, LoopShape.items, if_pos htrailing]
      rfl
    have hfind : tree.keywordBetween? (.ofNode tree s.body) (.ofNode tree c) .forKw = tree.token? s.keyword :=
      hn.keywordBetween?_eq hitems (by simp) (Header.mem_nodes.1 hc) hs.keyword rfl rfl rfl
    rw [if_pos rfl, hfirst]
    simp only [show (loopOf tree v s.header.target s.body).body.site = .ofNode tree s.body from rfl, hfind, ht]
    exact .pure ⟨rfl, rfl, rfl⟩
  | false =>
    have hitems : n.items = .token s.keyword ::
        (s.header.items ++ (s.thenToken.map Item.token).toList ++ [.node s.body]) := by
      rw [hs.items, LoopShape.items, if_neg (by simp [htrailing])]
      simp
    obtain ⟨last, htokens⟩ := hn.first_token hitems (by rw [hs.keyword]; rfl)
    rw [if_neg (by simp), hsite, htokens]
    simp only [Option.bind_some, ht, Option.filter_some, hkind, beq_self_eq_true, if_true]
    exact .pure ⟨rfl, rfl, rfl⟩

end Facts

section Translation

variable {tree : Tree} {of : Node → Translating (List Char)} {n : Node} {v : LoopView} {keyword : Nat} {t : Token}
  {target body : Node}

/-- The text of a loop from those of its parts. -/
def loopPatchwork (tree : Tree) (n : Node) (v : LoopView) (keyword : Token) (body : Node) (isTrailing : Bool)
    (key : List Piece) (value : List Piece × Option (List Char)) (rest : List Piece) (bodyText : List Char) :
    List Char :=
  let header := (if v.isOf then key ++ value.1 else value.1 ++ key) ++ rest
  if isTrailing then
    patchwork tree.text keyword.range.start n.range.stop header ++ " then ".toList ++
      (value.2.map (· ++ "; ".toList)).getD [] ++ bodyText
  else
    patchwork tree.text n.range.start n.range.stop
      (header ++ [(body.range, (value.2.map (lineBefore tree body)).getD [] ++ bodyText)])

theorem loopText_eq (hfor : v.forToken = some keyword) (ht : tree.token? keyword = some t)
    (htarget : v.target = some target) (hbody : v.body = some body) {isTrailing : Bool}
    (htrailing : decide (body.range.start < t.range.start) = isTrailing) :
    loopText tree of n v = (do
      let key ← v.key.toList.mapM fun c => do return (c.range, ← of c)
      let value ← valueText of (tree.enclosing n.id) v.value
      let x ← of target
      let filter ← v.filter.toList.mapM fun c => do
        return (c.range, (fun c x => if isTrailing then guarded tree c x else x) c (← of c))
      let bodyText ← of body
      return loopPatchwork tree n v t body isTrailing key value
        ((target.range, if isTrailing then guarded tree target x else x) :: filter) bodyText) := by
  subst htrailing
  unfold loopText
  simp only [hfor, Option.bind_some, ht, htarget, hbody, lift_some, pure_bind, bind_assoc, loopPatchwork]
  by_cases h : body.range.start < t.range.start <;>
    simp only [h, decide_true, decide_false, if_true, if_false, Bool.false_eq_true] <;> rfl

end Translation

section Line

variable {tree : Tree} {callee : Callee Context Construct} {p : Patcher Construct} {g : Context} {body : Node} {i : Nat}

theorem follows_line (hready : Ready tree g body.range) (hin : body.range.Inside tree.text)
    (line : Option (List Char)) :
    Follows tree callee
      ((line.map String.ofList).forM fun line =>
        (liftM (Patching.insertLineBefore (partAt tree i body).site line) : Work Unit)) p g (Pure.pure ())
      fun _ _ p' g' => p' = p ∧ Continues g g' ∧ Ready tree g' body.range ∧
        g'.editor.active = g.editor.active ∧ g'.editor.reading =
          g.editor.reading.insert body.range.start ((line.map (lineBefore tree body)).getD []) := by
  cases line with
  | none =>
    refine .pure ⟨rfl, ⟨rfl, rfl⟩, hready, rfl, ?_⟩
    refine Reading.ext (funext fun p => ?_) rfl rfl
    simp [Reading.insert]
  | some line =>
    have hlt := hin.nonempty
    obtain ⟨e, he, hfine, hr, hactive⟩ := hready.fine.insert hin.start (fun r hr => by
      have := hready.fresh.active r hr
      omega) (g.lineText body.range.start (String.ofList line))
    have htext : (g.lineText body.range.start (String.ofList line)).toList = lineBefore tree body line := by
      simp only [Context.lineText, Context.lineIndent?, hready.tree_eq, hready.stage_eq, lineBefore]
      cases Text.lineIndent? tree.text body.range.start <;> simp [Stage.separator]
    rw [htext] at hr
    have hget : (get : Patching Context) g = (.ok g, g) := rfl
    have hstep : Patching.insertLineBefore (partAt tree i body).site (String.ofList line) g =
        (.ok (), { g with editor := e }) := (bind_patching hget).trans (edit_eq he)
    refine .last hstep rfl ⟨rfl, ⟨rfl, rfl⟩, ⟨hready.tree_eq, hready.stage_eq, hfine, ?_⟩, hactive, hr⟩
    exact hready.fresh.of_insert hr hactive

end Line

section Finish

variable {tree : Tree} {callee : Callee Context Construct} {of : Node → Translating (List Char)}
  {p₀ p : Patcher Construct} {g₀ g : Context} {n : Node} {s : LoopShape} {v : LoopView} {site : Site} {t : Token}
  {key new : List Piece} {value : List Piece × Option (List Char)}

/-- The parts of a loop, in the order in which they are patched. -/
theorem partsOf_loop (hk : n.kind = .forExpr) (hs : s.Of tree n)
    (hv : v = s.header.view tree s.keyword s.thenToken s.body) :
    partsOf tree n = v.key.toList ++ v.value.toList ++ s.header.target :: v.filter.toList ++ [s.body] := by
  have hview := hs.view hk
  rw [← hv] at hview
  have htarget : v.target = some s.header.target := by rw [hv]; rfl
  have hbody : v.body = some s.body := by rw [hv]; rfl
  simp [partsOf, hview, htarget, hbody]

theorem getElem?_body (hk : n.kind = .forExpr) (hs : s.Of tree n)
    (hv : v = s.header.view tree s.keyword s.thenToken s.body) :
    (partsOf tree n)[(v.key.toList ++ v.value.toList ++ [s.header.target] ++ v.filter.toList).length]? =
      some s.body := by
  simp [partsOf_loop hk hs hv]

/-- The pieces of a header, from left to right. -/
theorem header_ranges (hv : v = s.header.view tree s.keyword s.thenToken s.body) {x : List Char}
    (hkey : key.map Prod.fst = v.key.toList.map fun c => c.range)
    (hvalue : value.1.map Prod.fst = v.value.toList.map fun c => c.range)
    (hnew : new.map Prod.fst = v.filter.toList.map fun c => c.range) :
    ((if v.isOf then key ++ value.1 else value.1 ++ key) ++ (s.header.target.range, x) :: new).map Prod.fst =
      s.header.nodes.map fun c => c.range := by
  rw [← @Header.view_nodes tree s.header s.keyword s.thenToken s.body, ← hv]
  split <;> simp [hkey, hvalue, hnew]

theorem mem_header {q : Piece} {x : Piece} :
    q ∈ (if v.isOf then key ++ value.1 else value.1 ++ key) ++ x :: new ↔
      q ∈ key ++ value.1 ++ [x] ++ new := by
  split <;> simp
  tauto

theorem body_eq : (loopOf tree v s.header.target s.body).body = partAt tree
    (v.key.toList ++ v.value.toList ++ [s.header.target] ++ v.filter.toList).length s.body := by
  simp [loopOf, Nat.add_assoc, Nat.add_comm 1]

section Body

variable {x : List Char} {new filter : List Piece} (hn : n.Sound tree) (hk : n.kind = .forExpr) (hs : s.Of tree n)
  (hv : v = s.header.view tree s.keyword s.thenToken s.body) (ha : Answers tree callee of (partsOf tree n) p₀)
  (hready : Ready tree g₀ n.range) (ht : tree.token? s.keyword = some t)
  (hkey : key.map Prod.fst = v.key.toList.map fun c => c.range)
  (hvalue : value.1.map Prod.fst = v.value.toList.map fun c => c.range)
  (hnew : new.map Prod.fst = v.filter.toList.map fun c => c.range)
  (hdone : Done tree p₀ g₀ (v.key.toList ++ v.value.toList ++ [s.header.target] ++ v.filter.toList)
    (key ++ value.1 ++ [(s.header.target.range, x)] ++ new) p g)
include hn hk hs hv ha hready ht hkey hvalue hnew hdone

omit ht in
/-- The body of a loop that starts with its keyword. -/
theorem follows_place_leading (htrailing : s.isTrailing = false) :
    Follows tree callee ((loopOf tree v s.header.target s.body).place site (value.2.map String.ofList) t) p g
      (of s.body >>= fun y => Pure.pure
        (loopPatchwork tree n v t s.body false key value ((s.header.target.range, x) :: new) y))
      fun x _ _ g' => Patched tree n x g₀ g' := by
  obtain ⟨t', c, ht', hstart, hp, hc, hstop⟩ := hs.leading hn htrailing
  have hbody := (hn.child (hs.mem_children (Or.inl rfl))).inside
  have hlt : n.range.start < s.body.range.start := by
    obtain ⟨h1, h2, h3⟩ := hp.mem (mem_map_of_mem s.header.target_mem)
    have := h2.nonempty
    omega
  have hranges := @header_ranges tree s v key new value hv x hkey hvalue hnew
  rw [← hranges] at hp
  have hrewrites := hdone.rewrites.congr fun q => @mem_header v key new value q (s.header.target.range, x)
  unfold Loop.place loopPatchwork
  generalize (if v.isOf = true then key ++ value.1 else value.1 ++ key) ++ (s.header.target.range, x) :: new =
    header at *
  have hbefore : ∀ q ∈ header, q.1.Inside tree.text ∧ n.range.start < q.1.start ∧ q.1.stop ≤ s.body.range.start := by
    intro q hq
    obtain ⟨h1, h2, h3⟩ := hp.mem (mem_map_of_mem hq)
    exact ⟨h2, h1, h3.trans hc⟩
  have hapart : Apart header s.body.range := fun q hq => Or.inl (hbefore q hq).2.2
  have hready' : Ready tree g s.body.range :=
    hready.continue hdone.context hrewrites.fine (hrewrites.fresh (hready.fresh.mono (Nat.le_of_lt hlt) hstop) hapart)
  rw [isTrailing_eq hn hs, htrailing, body_eq]
  simp only [Bool.false_eq_true, if_false]
  refine (follows_line hready' hbody value.2).seq ?_
  rintro _ p₁ g₁ ⟨rfl, hline, hready₁, hactive, hr⟩
  refine (follows_call ha (getElem?_body hk hs hv) (hdone.rest _ (Nat.le_refl _)) hready₁).map ?_
  rintro y _ p' g' ⟨hpatched, -⟩
  have hall := hrewrites.append (hpatched.rewrites.of_insert hbody hr hactive) (fun q hq => (hbefore q hq).1)
    hbody hapart
  have hp' : InOrder tree.text 0 n.range.start n.range.stop
      ((header ++ [(s.body.range, (value.2.map (lineBefore tree s.body)).getD [] ++ y)]).map Prod.fst) := by
    rw [map_append]
    exact (hp.mono (Nat.zero_le _)).append ⟨hc, hbody, hstop⟩
  exact {
    context := (hdone.context.trans hline).trans hpatched.context
    rewrites := hall.patchwork hready.fine hready.fresh hn.inside hp'
    quiet := fun _ => (hall.outside _ fun q hq => by
      rcases mem_append.1 hq with hq | hq
      · exact Or.inl (hbefore q hq).2.1
      · rw [mem_singleton.1 hq]
        exact Or.inl hlt).1 }

variable (hsite : site.content = n.range)
  (hfilter : v.filter = none ∧ new = [] ∧ filter = [] ∨ ∃ c z, v.filter = some c ∧ new = [(c.range, z)] ∧
    filter = [(c.range, if s.isTrailing then guarded tree c z else z)])
include hsite hfilter

/-- The header and the body of a loop that starts with its body. -/
theorem follows_place_trailing (htrailing : s.isTrailing = true) :
    Follows tree callee ((loopOf tree v s.header.target s.body).place site (value.2.map String.ofList) t) p g
      (of s.body >>= fun y => Pure.pure
        (loopPatchwork tree n v t s.body true key value
          ((s.header.target.range, guarded tree s.header.target x) :: filter) y))
      fun x _ _ g' => Patched tree n x g₀ g' := by
  simp only [htrailing, if_true] at hfilter
  obtain ⟨t', ht', htin, hstart, hle, hp⟩ := hs.trailing hn htrailing
  cases ht.symm.trans ht'
  have hbody := hn.child (hs.mem_children (Or.inl rfl))
  have htarget := hn.child (hs.mem_children (Or.inr s.header.target_mem))
  have hle' : n.range.start ≤ t.range.start := by
    have := hbody.inside.nonempty
    omega
  have htrails : Trails tree n s.body t.range.start := by
    refine .of_le hn hbody hstart htin.start hle ?_
    obtain ⟨h1, h2, h3⟩ := hp.mem (mem_map_of_mem s.header.target_mem)
    have := h2.nonempty
    omega
  have hranges := @header_ranges tree s v key new value hv x hkey hvalue hnew
  rw [← hranges] at hp
  have hrewrites := hdone.rewrites.congr fun q => @mem_header v key new value q (s.header.target.range, x)
  unfold Loop.place loopPatchwork
  rw [isTrailing_eq hn hs, htrailing, if_pos rfl, body_eq]
  simp only [if_true]
  generalize (if v.isOf = true then key ++ value.1 else value.1 ++ key) = first at *
  have hencloses := hrewrites.encloses hready.fresh hle' hp
  -- The parts of the header that need parentheses get them.
  refine (follows_protect (hdone.context.tree_eq.trans hready.tree_eq) htarget hready.fresh hle' hp hencloses).seq ?_
  rintro _ p₁ g₁ ⟨rfl, hg₁, h₁⟩
  have hp₁ : InOrder tree.text 1 t.range.start n.range.stop
      ((first ++ [(s.header.target.range, guarded tree s.header.target x)] ++ new).map Prod.fst) := by
    simpa using hp
  refine (follows_protect_option ((hdone.context.trans hg₁).tree_eq.trans hready.tree_eq) (fun c hc => ?_)
    hready.fresh hle' hfilter hp₁ (by simpa using h₁)).seq ?_
  · exact hn.child (hs.mem_children (Or.inr (s.header.mem_of_filter (hv ▸ hc))))
  rintro _ p₂ g₂ ⟨rfl, hg₂, h₂⟩
  have hp₂ : InOrder tree.text 1 t.range.start n.range.stop
      ((first ++ [(s.header.target.range, guarded tree s.header.target x)] ++ filter).map Prod.fst) := by
    rcases hfilter with ⟨-, rfl, rfl⟩ | ⟨c, z, -, rfl, rfl⟩
    · exact hp₁
    · simpa using hp₁
  -- The header moves, the line follows it, and then the body.
  refine (follows_moveHeader htrails hsite hready.fine hready.fresh hp₂ h₂).seq ?_
  rintro _ p₃ g₃ ⟨rfl, hg₃, h₃⟩
  have hcontext := ((hdone.context.trans hg₁).trans hg₂).trans hg₃
  refine (follows_moved_line htrails (hcontext.stage_eq.trans hready.stage_eq) hready.fresh h₃ value.2).seq ?_
  rintro _ p₄ g₄ ⟨rfl, hg₄, h₄⟩
  rw [append_assoc first] at h₄
  exact follows_moved htrails ha (getElem?_body hk hs hv) (hdone.rest _ (Nat.le_refl _)) hready
    (hs.not_steady hk htrailing) (hcontext.trans hg₄) h₄

/-- The header and the body, once the parts of the header were patched. -/
theorem follows_place :
    Follows tree callee ((loopOf tree v s.header.target s.body).place site (value.2.map String.ofList) t) p g
      (of s.body >>= fun y => Pure.pure
        (loopPatchwork tree n v t s.body s.isTrailing key value ((s.header.target.range,
          if s.isTrailing then guarded tree s.header.target x else x) :: filter) y))
      fun x _ _ g' => Patched tree n x g₀ g' := by
  cases htrailing : s.isTrailing with
  | false =>
    have heq : filter = new := by
      rcases hfilter with ⟨-, rfl, rfl⟩ | ⟨c, z, -, rfl, rfl⟩
      · rfl
      · simp [htrailing]
    rw [heq]
    exact follows_place_leading hn hk hs hv ha hready hkey hvalue hnew hdone htrailing
  | true => exact follows_place_trailing hn hk hs hv ha hready ht hkey hvalue hnew hdone hsite hfilter htrailing

end Body

theorem follows_loop (hn : n.Sound tree) (hk : n.kind = .forExpr) (hs : s.Of tree n)
    (hv : v = s.header.view tree s.keyword s.thenToken s.body)
    (ha : Answers tree callee of (partsOf tree n) p₀) (hready : Ready tree g₀ n.range)
    (hnode : site.node = n) (hscope : site.scope = tree.enclosing n.id) :
    Follows tree callee ((loopOf tree v s.header.target s.body).patch site) p₀ g₀ (loopText tree of n v)
      fun x _ _ g' => Patched tree n x g₀ g' := by
  have hsite : site.content = n.range := by rw [Site.content, hnode]
  obtain ⟨t, ht, -⟩ := tree.exists_token (i := s.keyword) (by rw [hs.keyword]; rfl)
  have hparts := partsOf_loop hk hs hv
  obtain ⟨hapart, hinside⟩ := header_apart hn hs hv
  rw [loopText_eq (by rw [hv]; rfl) ht (by rw [hv]; rfl) (by rw [hv]; rfl) (start_lt_iff hn hs ht),
    Loop.patch_eq, hscope]
  -- The parts of the header come one after the other.
  have hnext : ∀ {done c rest}, v.key.toList ++ v.value.toList ++ s.header.target :: v.filter.toList =
      done ++ c :: rest → (partsOf tree n)[done.length]? = some c ∧ Next tree g₀ done c := by
    intro done c rest heq
    refine ⟨by rw [hparts, heq]; simp, .of_pairwise heq hready (fun d hd => ?_) (hapart.imp ?_)⟩
    · obtain ⟨h1, h2, h3⟩ := hinside d hd
      exact ⟨h1, Nat.le_of_lt h2, h3⟩
    · omega
  have hoption : ∀ {done o rest}, v.key.toList ++ v.value.toList ++ s.header.target :: v.filter.toList =
      done ++ Option.toList o ++ rest →
      ∀ c ∈ o, (partsOf tree n)[done.length]? = some c ∧ Next tree g₀ done c := by
    rintro done o rest heq c hc
    cases hc
    exact hnext (by simpa using heq)
  have hkey := @hoption [] v.key (v.value.toList ++ s.header.target :: v.filter.toList) (by simp)
  have hvalue := @hoption v.key.toList v.value (s.header.target :: v.filter.toList) (by simp)
  have htarget := @hnext (v.key.toList ++ v.value.toList) s.header.target v.filter.toList rfl
  have hfilter := @hoption (v.key.toList ++ v.value.toList ++ [s.header.target]) v.filter [] (by simp)
  refine ((Done.nil hready.fine).follows_option ha (fun c hc => (hkey c hc).1) fun c hc => (hkey c hc).2).bind ?_
  rintro key _ p₁ g₁ ⟨new₁, h₁, hkey'⟩
  have hkeyNew : new₁ = key := by
    rcases hkey' with ⟨-, rfl, rfl⟩ | ⟨c, x, -, rfl, rfl⟩ <;> rfl
  rw [hkeyNew, nil_append, nil_append] at h₁
  refine (h₁.follows_value ha (tree.enclosing n.id) (fun c hc => (hvalue c hc).1) (fun c hc => (hvalue c hc).2)
    (fun c hc => ?_) (fun c hc => (Header.steady_of_value hs.header (hv ▸ hc)).1)
    fun c hc => (Header.steady_of_value hs.header (hv ▸ hc)).2).bind ?_
  · obtain ⟨h1, h2, h3⟩ := hinside c (by simp [Option.mem_def.1 hc])
    have := h1.nonempty
    exact hready.fresh.ahead _ h2 (by omega)
  rintro value line p₂ g₂ ⟨h₂, rfl⟩
  have htargetPart : (loopOf tree v s.header.target s.body).target =
    partAt tree (v.key.toList ++ v.value.toList).length s.header.target := by simp [loopOf]
  rw [htargetPart]
  refine (h₂.follows_patch ha htarget.1 htarget.2).bind ?_
  rintro x _ p₃ g₃ ⟨-, h₃⟩
  have hfilterPart : (loopOf tree v s.header.target s.body).filter =
    v.filter.map (partAt tree (v.key.toList ++ v.value.toList ++ [s.header.target]).length) := by
    simp [loopOf, Nat.add_assoc]
  rw [hfilterPart]
  refine (h₃.follows_option ha (fun c hc => (hfilter c hc).1) fun c hc => (hfilter c hc).2).bind ?_
  rintro filter _ p₄ g₄ ⟨new, h₄, hnew⟩
  refine (follows_keyword hn hs (fun c hc => s.header.mem_of_key (hv ▸ hc))
    (fun c hc => s.header.mem_of_value (hv ▸ hc)) hnode (h₄.context.tree_eq.trans hready.tree_eq) ht).seq ?_
  rintro t' p' g' ⟨rfl, rfl, rfl⟩
  have hvalueRanges : value.1.map Prod.fst = v.value.toList.map fun c => c.range := by
    have := h₂.ranges
    rw [map_append, map_append, h₁.ranges] at this
    exact append_cancel_left this
  have hnewRanges : new.map Prod.fst = v.filter.toList.map fun c => c.range := by
    rcases hnew with ⟨heq, rfl, -⟩ | ⟨c, x, heq, rfl, -⟩ <;> rw [heq] <;> rfl
  exact follows_place hn hk hs hv ha hready ht h₁.ranges hvalueRanges hnewRanges h₄ hsite hnew

end Finish

end Respell.Normalize
