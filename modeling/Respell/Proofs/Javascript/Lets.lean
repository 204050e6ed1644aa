import Respell.Proofs.Compile
import Respell.Proofs.Javascript.Assembled
import Respell.Proofs.Editor.Soundness
import Respell.Proofs.Tree.Names

/-!
The declarations that are put into the text: `let` in front of an assignment that introduces all names of its
target, and `let a, b;` in front of a statement.

They are read back from the texts that were put in.  A list of names is read as those names
(`Let.ofText?_line`), and no other text that the constructs put in is read as a declaration
(`Let.ofText?_eq_none`).
-/

namespace Respell

open Lexeme List Text

namespace Javascript

variable {names : List String} {f : Editor → Except EditError Editor}

/-! ## Reading declarations -/

/-- A declaration that is put into the text. -/
inductive Let where
  /-- `let` in front of an assignment, for all names in its target. -/
  | inline
  /-- `let a, b;` -/
  | line (names : List String)
deriving DecidableEq, Repr

/-- A character in a list of names. -/
def isListed (c : Char) : Bool := isNamePart c || c == ',' || c == ' '

/-- The names of a list. -/
def listedNames (list : List Char) : List String :=
  (list.splitOn ',').map fun name => String.ofList (name.dropWhile (· == ' '))

/-- The declaration that a text is, if it is one and nothing else. -/
def Let.ofText? (text : String) : Option Let :=
  match text.toList with
  | ['l', 'e', 't', ' '] => some .inline
  | 'l' :: 'e' :: 't' :: ' ' :: rest =>
    match rest.dropWhile isListed with
    | ';' :: space => if space.all isSpace then some (.line (listedNames (rest.takeWhile isListed))) else none
    | _ => none
  | _ => none

/-- The text has a character that no declaration has. -/
def Foreign (text : String) : Prop :=
  ∃ c ∈ text.toList, (isListed c || c == ';' || isSpace c) = false

theorem Foreign.append_left {text : String} (h : Foreign text) (more : String) : Foreign (text ++ more) := by
  obtain ⟨c, hc, hother⟩ := h
  exact ⟨c, by simp [hc], hother⟩

theorem Let.ofText?_eq_none {text : String} (h : Foreign text) : Let.ofText? text = none := by
  obtain ⟨c, hc, hother⟩ := h
  simp only [Bool.or_eq_false_iff, beq_eq_false_iff_ne] at hother
  obtain ⟨⟨hlisted, hsemicolon⟩, hspace⟩ := hother
  have hword : c ∉ ['l', 'e', 't', ' '] := fun h => by
    have hall : ['l', 'e', 't', ' '].all isListed = true := by decide
    simp [all_eq_true.1 hall c h] at hlisted
  unfold Let.ofText?
  split
  · rename_i heq
    exact absurd (heq ▸ hc) hword
  · rename_i rest hne heq
    rw [heq] at hc
    have hrest : c ∈ rest :=
      (mem_append.1 (show c ∈ ['l', 'e', 't', ' '] ++ rest from hc)).resolve_left hword
    rw [← takeWhile_append_dropWhile (p := isListed) (l := rest)] at hrest
    have hdrop : c ∈ rest.dropWhile isListed := by
      refine (mem_append.1 hrest).resolve_left fun h => ?_
      have := all_eq_true.1 (all_takeWhile) c h
      simp [hlisted] at this
    split
    · rename_i space heq
      rw [heq] at hdrop
      have hmem : c ∈ space := (mem_cons.1 hdrop).resolve_left hsemicolon
      exact if_neg fun h => by simp [all_eq_true.1 h c hmem] at hspace
    · rfl
  · rfl

theorem intercalate_comma (l : List Char) (ls : List (List Char)) :
    [',', ' '].intercalate (l :: ls) = [','].intercalate (l :: ls.map (' ' :: ·)) := by
  induction ls generalizing l with
  | nil => simp
  | cons m ls ih => simp [intercalate_cons_cons, ih]

/-- A list of names is read as those names. -/
theorem listedNames_intercalate (hne : names ≠ []) (hnames : ∀ x ∈ names, IsName x.toList) :
    listedNames (", ".intercalate names).toList = names := by
  have hcomma : isNamePart ',' = false := by decide
  have hblank : isNamePart ' ' = false := by decide
  obtain ⟨x, xs, rfl⟩ := exists_cons_of_ne_nil hne
  obtain ⟨hx, hxs⟩ := forall_mem_cons.1 hnames
  have hdrop {y : String} (hy : IsName y.toList) : y.toList.dropWhile (· == ' ') = y.toList := by
    obtain ⟨c, cs, heq⟩ := exists_cons_of_ne_nil hy.1
    have hc : (c == ' ') = false := by
      refine beq_false_of_ne fun h => ?_
      have := hy.2 c (by rw [heq]; exact mem_cons_self)
      rw [h, hblank] at this
      cases this
    rw [heq, dropWhile_cons_of_neg (by simp [hc])]
  have hnot {y : String} (hy : IsName y.toList) : ',' ∉ y.toList := fun h => by
    have := hy.2 ',' h
    rw [hcomma] at this
    cases this
  rw [listedNames, String.toList_intercalate, show ", ".toList = [',', ' '] from rfl, map_cons,
    intercalate_comma, splitOn_intercalate _ ?_ (cons_ne_nil _ _)]
  · rw [map_cons, hdrop hx, String.ofList_toList, map_map, map_map]
    congr 1
    refine (map_congr_left fun y hy => ?_).trans (map_id xs)
    simp [hdrop (hxs y hy)]
  · simp only [mem_cons, mem_map, map_map]
    rintro l (rfl | ⟨y, hy, rfl⟩)
    · exact hnot hx
    · simp [hnot (hxs y hy)]

theorem isListed_of_mem (hnames : ∀ x ∈ names, IsName x.toList) :
    ∀ c ∈ (", ".intercalate names).toList, isListed c = true := by
  rw [String.toList_intercalate]
  induction names with
  | nil => exact fun c hc => absurd hc not_mem_nil
  | cons x xs ih =>
    obtain ⟨hx, hxs⟩ := forall_mem_cons.1 hnames
    have hname : ∀ c ∈ x.toList, isListed c = true := fun c hc => by simp [isListed, hx.2 c hc]
    cases xs with
    | nil => simpa using hname
    | cons y ys =>
      intro c hc
      simp only [map_cons, intercalate_cons_cons, mem_append] at hc
      rcases hc with (hc | hc) | hc
      · exact hname c hc
      · have hall : ", ".toList.all isListed = true := by decide
        exact all_eq_true.1 hall c hc
      · exact ih hxs c hc

/-- The line that declares names is read as their declaration. -/
theorem Let.ofText?_line (hne : names ≠ []) (hnames : ∀ x ∈ names, IsName x.toList) {space : String}
    (hspace : space.toList.all isSpace = true) :
    Let.ofText? ("let " ++ ", ".intercalate names ++ ";" ++ space) = some (.line names) := by
  have hlisted := isListed_of_mem hnames
  have hsemicolon : isListed ';' = false := by decide
  obtain ⟨rest, hrest⟩ : ∃ rest, rest = (", ".intercalate names).toList ++ ';' :: space.toList := ⟨_, rfl⟩
  have htext : ("let " ++ ", ".intercalate names ++ ";" ++ space).toList = 'l' :: 'e' :: 't' :: ' ' :: rest := by
    simp [hrest]
  have htake : rest.takeWhile isListed = (", ".intercalate names).toList := by
    rw [hrest, takeWhile_append_of_pos hlisted, takeWhile_cons_of_neg (by simp [hsemicolon]), append_nil]
  have hdrop : rest.dropWhile isListed = ';' :: space.toList := by
    rw [hrest, dropWhile_append_of_pos hlisted, dropWhile_cons_of_neg (by simp [hsemicolon])]
  have hnil : rest ≠ [] := by simp [hrest]
  unfold Let.ofText?
  rw [htext]
  obtain ⟨c, cs, rfl⟩ := exists_cons_of_ne_nil hnil
  simp only
  rw [hdrop, htake]
  simp only [hspace, if_true, listedNames_intercalate hne hnames]

/-! ## Edits -/

/-- The texts that were put in, with their offsets. -/
def puts (e : Editor) : List (Nat × String) := e.inserts.map fun i => (i.offset, i.text)

/-- The texts that were put in place of others, with their ranges. -/
def swaps (e : Editor) : List (Span × String) := e.replacements.map fun r => (r.range, r.text)

/-- The text was written at the offset. -/
def Written (e : Editor) (offset : Nat) (text : String) : Prop :=
  (offset, text) ∈ puts e ∨ ∃ stop, (⟨offset, stop⟩, text) ∈ swaps e

/-- Edits were added, among them the texts `ps` put in. -/
structure Added (ps : List (Nat × String)) (e e' : Editor) : Prop where
  source : e'.source = e.source
  puts : puts e' = puts e ++ ps
  swaps : swaps e <+: swaps e'

/-- The edits were added on top of the others: nothing that was replaced came back. -/
structure Layered (ps : List (Nat × String)) (e e' : Editor) : Prop extends Added ps e e' where
  kept : ∀ r, e.Replaces r → e'.Replaces r

section Added

variable {e e' e'' : Editor} {ps qs : List (Nat × String)}

theorem Added.refl (e : Editor) : Added [] e e := ⟨rfl, (append_nil _).symm, prefix_rfl⟩

theorem Added.trans (h : Added ps e e') (h' : Added qs e' e'') : Added (ps ++ qs) e e'' :=
  ⟨h'.source.trans h.source, by rw [h'.puts, h.puts, append_assoc], h.swaps.trans h'.swaps⟩

theorem Layered.refl (e : Editor) : Layered [] e e := ⟨.refl e, fun _ h => h⟩

theorem Layered.trans (h : Layered ps e e') (h' : Layered qs e' e'') : Layered (ps ++ qs) e e'' :=
  ⟨h.toAdded.trans h'.toAdded, fun r hr => h'.kept r (h.kept r hr)⟩

end Added

/-- Edits were added. -/
def Grown (e e' : Editor) : Prop := ∃ ps, Added ps e e'

namespace Grown

variable {e e' e'' : Editor}

theorem refl (e : Editor) : Grown e e := ⟨[], .refl e⟩

theorem trans (h : Grown e e') (h' : Grown e' e'') : Grown e e'' := by
  obtain ⟨_, h⟩ := h
  obtain ⟨_, h'⟩ := h'
  exact ⟨_, h.trans h'⟩

theorem written (h : Grown e e') {offset : Nat} {text : String} (hw : Written e offset text) :
    Written e' offset text := by
  obtain ⟨_, h⟩ := h
  rcases hw with hput | ⟨stop, hswap⟩
  · exact Or.inl (h.puts ▸ mem_append_left _ hput)
  · exact Or.inr ⟨stop, h.swaps.subset hswap⟩

end Grown

section Edits

variable {e e' : Editor} {offset : Nat} {text : String} {range : Span}

theorem added_of_place {order : Int} (h : e.place offset text order = .ok e') : Layered [(offset, text)] e e' := by
  have hkept (r : Span) (hr : e.Replaces r) := hr.of_place h
  unfold Editor.place at h
  split at h
  · cases h
  · cases h
    exact ⟨⟨rfl, by simp [puts], prefix_rfl⟩, hkept⟩

/-- Text that takes the place of a range is written at its start. -/
theorem added_of_overwrite (h : e.overwrite range text = .ok e') :
    ∃ ps, Layered ps e e' ∧ (∀ x ∈ ps, x.2 = text ∧ range.isEmpty = true) ∧ Written e' range.start text := by
  have hkept (r : Span) (hr : e.Replaces r) := hr.of_overwrite h
  unfold Editor.overwrite at h
  split at h
  · rename_i hempty
    have hadded := added_of_place h
    refine ⟨_, hadded, by simpa using hempty, Or.inl ?_⟩
    rw [hadded.puts]
    simp
  · split at h
    · cases h
    · cases h
      refine ⟨[], ⟨⟨rfl, ?_, ?_⟩, hkept⟩, by simp, Or.inr ⟨range.stop, ?_⟩⟩
      · simp only [puts, map_map, append_nil]
        refine map_congr_left fun i _ => ?_
        simp only [Function.comp]
        split <;> rfl
      · simp only [swaps, map_append, map_map]
        refine ⟨_, congrArg (· ++ _) (map_congr_left fun r _ => ?_)⟩
        simp only [Function.comp]
        split <;> rfl
      · simp [swaps]

theorem added_of_remove (h : e.remove range = .ok e') : ∃ ps, Layered ps e e' ∧ ∀ x ∈ ps, x.2 = "" := by
  unfold Editor.remove at h
  split at h
  · cases h
    exact ⟨[], .refl e, by simp⟩
  · obtain ⟨ps, hadded, hps, -⟩ := added_of_overwrite h
    exact ⟨ps, hadded, fun x hx => (hps x hx).1⟩

end Edits

/-! ## Steps without declarations -/

/-- All that was done are edits, among them the texts `ps` put in. -/
structure Edited (ps : List (Nat × String)) (g g' : Context) : Prop where
  tree : g'.tree = g.tree
  stage : g'.stage = g.stage
  declarations : g'.declarations = g.declarations
  added : Layered ps g.editor g'.editor

theorem exists_of_edit {g g' : Context} {u : Unit} (heq : Patching.edit f g = (.ok u, g')) :
    ∃ e, f g.editor = .ok e ∧ g' = { g with editor := e } := by
  refine Patching.Safe.of_eq (E := fun _ => True)
    (Q := fun _ g' => ∃ e, f g.editor = .ok e ∧ g' = { g with editor := e }) ?_ heq
  apply Patching.Safe.get_bind
  cases hf : f g.editor with
  | error e => trivial
  | ok e => exact ⟨e, rfl, rfl⟩

theorem Edited.of_edit {ps : List (Nat × String)} {g g' : Context} {u : Unit} (heq : Patching.edit f g = (.ok u, g'))
    (h : ∀ e, f g.editor = .ok e → Layered ps g.editor e) : Edited ps g g' := by
  obtain ⟨e, he, rfl⟩ := exists_of_edit heq
  exact ⟨rfl, rfl, rfl, h e he⟩

/-- All that was done are edits, and the texts that were put in are all so. -/
def Quiet (P : String → Prop) (g g' : Context) : Prop := ∃ ps, Edited ps g g' ∧ ∀ x ∈ ps, P x.2

namespace Quiet

variable {P : String → Prop} {g g' g'' : Context}

theorem refl (g : Context) : Quiet P g g := ⟨[], ⟨rfl, rfl, rfl, .refl _⟩, by simp⟩

theorem trans (h : Quiet P g g') (h' : Quiet P g' g'') : Quiet P g g'' := by
  obtain ⟨ps, h, hps⟩ := h
  obtain ⟨qs, h', hqs⟩ := h'
  refine ⟨ps ++ qs, ⟨h'.tree.trans h.tree, h'.stage.trans h.stage, h'.declarations.trans h.declarations,
    h.added.trans h'.added⟩, fun x hx => ?_⟩
  exact (mem_append.1 hx).elim (hps x) (hqs x)

theorem grown (h : Quiet P g g') : Grown g.editor g'.editor := by
  obtain ⟨ps, h, -⟩ := h
  exact ⟨ps, h.added.toAdded⟩

theorem of_editor (htree : g'.tree = g.tree) (hstage : g'.stage = g.stage)
    (hdeclarations : g'.declarations = g.declarations) (heditor : g'.editor = g.editor) : Quiet P g g' :=
  ⟨[], ⟨htree, hstage, hdeclarations, heditor ▸ .refl _⟩, by simp⟩

end Quiet

/-- The step is quiet if it succeeds, and its result is so. -/
def Quietly {α : Type} (P : String → Prop) (m : Patching α) (Q : α → Prop) : Prop :=
  ∀ g, Patching.Safe (fun _ => True) m g fun a g' => Quiet P g g' ∧ Q a

/-- Texts among which are the empty one and all that are foreign to declarations. -/
class Ordinary (P : String → Prop) : Prop where
  empty : P ""
  foreign : ∀ {text}, Foreign text → P text

/-- The text is no declaration. -/
abbrev NoLet (text : String) : Prop := Let.ofText? text = none

instance : Ordinary NoLet := ⟨rfl, Let.ofText?_eq_none⟩

namespace Quietly

variable {P : String → Prop} {α β : Type} {Q : α → Prop} {R : β → Prop} {m : Patching α}

theorem of_eq (h : Quietly P m Q) {g g' : Context} {a : α} (heq : m g = (.ok a, g')) :
    Quiet P g g' ∧ Q a := (h g).of_eq heq

theorem pure {a : α} (h : Q a) : Quietly P (Pure.pure a) Q := fun g => ⟨.refl g, h⟩

theorem bind {f : α → Patching β} (h : Quietly P m Q) (hf : ∀ a, Q a → Quietly P (f a) R) :
    Quietly P (m >>= f) R := fun g =>
  (h g).bind fun a g' h' => (hf a h'.2 g').mono fun _ _ h'' => ⟨h'.1.trans h''.1, h''.2⟩

theorem of_get {f : Context → Patching β} (h : ∀ g, Quietly P (f g) R) : Quietly P (get >>= f) R :=
  fun g => Patching.Safe.get_bind (h g g)

theorem forM {xs : List α} {f : α → Patching PUnit} (h : ∀ x ∈ xs, Quietly P (f x) fun _ => True) :
    Quietly P (xs.forM f) fun _ => True := by
  induction xs with
  | nil => exact pure trivial
  | cons x xs ih =>
    obtain ⟨hx, hxs⟩ := forall_mem_cons.1 h
    exact hx.bind fun _ _ => ih hxs

theorem edit {f : Editor → Except EditError Editor}
    (h : ∀ e e', f e = .ok e' → ∃ ps, Layered ps e e' ∧ ∀ x ∈ ps, P x.2) :
    Quietly P (Patching.edit f) fun _ => True := by
  intro g
  apply Patching.Safe.get_bind
  cases hf : f g.editor with
  | error e => trivial
  | ok e =>
    obtain ⟨ps, hadded, hps⟩ := h _ _ hf
    exact ⟨⟨ps, ⟨rfl, rfl, rfl, hadded⟩, hps⟩, trivial⟩

variable {offset : Nat} {text : String} {range : Span}

theorem insert (h : P text) : Quietly P (Patching.insert offset text) fun _ => True :=
  edit fun _ _ he => ⟨_, added_of_place he, by simpa using h⟩

theorem prepend (h : P text) : Quietly P (Patching.prepend offset text) fun _ => True :=
  edit fun _ _ he => ⟨_, added_of_place he, by simpa using h⟩

theorem overwrite (h : P text) : Quietly P (Patching.overwrite range text) fun _ => True :=
  edit fun _ _ he => by
    obtain ⟨ps, hadded, hps, -⟩ := added_of_overwrite he
    exact ⟨ps, hadded, fun x hx => (hps x hx).1 ▸ h⟩

/-- Text that takes the place of some is not put in. -/
theorem overwrite_of_lt (h : range.start < range.stop) : Quietly P (Patching.overwrite range text) fun _ => True :=
  edit fun _ _ he => by
    obtain ⟨ps, hadded, hps, -⟩ := added_of_overwrite he
    refine ⟨ps, hadded, fun x hx => ?_⟩
    have hempty := (hps x hx).2
    simp only [Span.isEmpty, beq_iff_eq] at hempty
    omega

theorem remove [Ordinary P] : Quietly P (Patching.remove range) fun _ => True :=
  edit fun _ _ he => by
    obtain ⟨ps, hadded, hps⟩ := added_of_remove he
    exact ⟨ps, hadded, fun x hx => hps x hx ▸ Ordinary.empty⟩

theorem rendered {f : Editor → Except EditError String} : Quietly P (Patching.rendered f) fun _ => True := by
  intro g
  apply Patching.Safe.get_bind
  cases f g.editor with
  | error e => trivial
  | ok text => exact ⟨.refl g, trivial⟩

theorem claim {scope : Nat} {hint : String} : Quietly P (Patching.claim scope hint range) fun _ => True :=
  fun _ => Patching.Safe.claim trivial fun _ _ => ⟨.of_editor rfl rfl rfl rfl, trivial⟩

theorem surroundInParens [Ordinary P] (s : Site) : Quietly P (Patching.surroundInParens s) fun _ => True := by
  unfold Patching.surroundInParens
  split
  · exact pure trivial
  · exact (prepend (Ordinary.foreign ⟨'(', by simp, rfl⟩)).bind fun _ _ =>
      insert (Ordinary.foreign ⟨')', by simp, rfl⟩)

theorem prependLineBefore [Ordinary P] (s : Site) {line : String} (h : Foreign line) :
    Quietly P (Patching.prependLineBefore s line) fun _ => True := by
  refine of_get fun g => prepend (Ordinary.foreign ?_)
  unfold Context.lineText
  split
  · exact (h.append_left _).append_left _
  · exact h.append_left _

end Quietly

/-! ## Taking comments -/

section Comments

variable {P : String → Prop}

theorem takeComments_quiet (indent cursor : Nat) (taken : Taken) (cs : List Comment) :
    Quietly P (takeComments indent cursor taken cs) fun _ => True := by
  induction cs generalizing cursor taken with
  | nil => exact Quietly.pure trivial
  | cons c cs ih =>
    intro g
    have hmoved : Quiet P g (g.moveComment c.range.start).2 := by
      unfold Context.moveComment
      split <;> exact .of_editor rfl rfl rfl rfl
    rw [takeComments]
    apply Patching.Safe.get_bind
    dsimp only
    split
    · refine Patching.Safe.bind (Q := fun _ g' => Quiet P g g') hmoved fun _ g' hg' => ?_
      exact (ih _ _ g').mono fun _ _ h => ⟨hg'.trans h.1, trivial⟩
    · exact ⟨.refl g, trivial⟩

variable [Ordinary P]

theorem takeTrailingComments_quiet (stop indent : Nat) :
    Quietly P (takeTrailingComments stop indent) fun _ => True := by
  refine Quietly.of_get fun g => (takeComments_quiet _ _ _ _).bind fun taken _ => ?_
  refine Quietly.bind (Q := fun _ => True) ?_ fun _ _ => Quietly.pure trivial
  cases taken.stop with
  | none => exact Quietly.pure trivial
  | some last => exact Quietly.remove

/-- The brace that closes a body is no declaration. -/
theorem closingBrace_quiet (owner body : Site) : Quietly P (closingBrace owner body) Foreign := by
  refine Quietly.of_get fun g => ?_
  split
  · exact (takeTrailingComments_quiet _ _).bind fun moved _ => Quietly.pure ⟨'\x7d', by simp, rfl⟩
  · exact Quietly.pure ⟨'\x7d', by simp, rfl⟩

theorem respellComments_quiet : Quietly P respellComments fun _ => True := by
  refine Quietly.of_get fun g => Quietly.forM fun c _ => Quietly.forM fun x hx => Quietly.overwrite ?_
  have hsign : x.2 = "//" ∨ x.2 = "/*" ∨ x.2 = "*/" := by
    unfold Comment.delimiters at hx
    split at hx
    · rw [mem_singleton.1 hx]
      exact Or.inl rfl
    · dsimp only at hx
      split at hx
      · simp only [mem_cons, not_mem_nil, or_false] at hx
        rcases hx with rfl | rfl <;> simp
      · rw [mem_singleton.1 hx]
        exact Or.inr (Or.inl rfl)
  refine Ordinary.foreign ⟨'/', ?_, rfl⟩
  rcases hsign with h | h | h <;> rw [h] <;> simp

end Comments

end Javascript

end Respell
