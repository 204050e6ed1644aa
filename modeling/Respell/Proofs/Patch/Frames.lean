import Respell.Proofs.Patch.Contract

/-!
The functions around a patcher.

While a tree of patchers is prepared the context keeps a frame for each function around, and a `return` marks the
innermost frame.  If functions enter and leave their frames and nothing else touches them (`Hooks.Framing`), the frame
that a function leaves is marked if and only if there is a `return` below it with no other function between
(`Hooks.Framing.exit_of_log`), and in the end the frames are what they were (`Hooks.Framing.prepare_safe`).
-/

namespace Respell

open List

variable {κ α β γ : Type} {fits : Kind → κ → Prop} {E : PatchError → Prop} {kind : Kind} {g : Context}

/-! ## Frames -/

/-- In `after` the innermost of the frames is marked if it was before, or if `P`. -/
def Marked (P : Prop) : (before after : List Bool) → Prop
  | [], after => after = []
  | b :: frames, after => ∃ b', after = b' :: frames ∧ (b' = true ↔ b = true ∨ P)

namespace Marked

variable {P Q : Prop} {frames frames' frames'' : List Bool}

theorem refl (hP : ¬ P) (frames : List Bool) : Marked P frames frames := by
  cases frames with
  | nil => rfl
  | cons b frames => exact ⟨b, rfl, by simp [hP]⟩

theorem trans (h : Marked P frames frames') (h' : Marked Q frames' frames'') : Marked (P ∨ Q) frames frames'' := by
  cases frames with
  | nil =>
    cases h
    exact h'
  | cons b frames =>
    obtain ⟨b', rfl, hb'⟩ := h
    obtain ⟨b'', rfl, hb''⟩ := h'
    exact ⟨b'', rfl, by rw [hb'', hb', or_assoc]⟩

theorem congr (h : Marked P frames frames') (hPQ : P ↔ Q) : Marked Q frames frames' := by rwa [← hPQ]

theorem head (hP : P) (frames : List Bool) : Marked P frames (frames.modifyHead fun _ => true) := by
  cases frames with
  | nil => rfl
  | cons b frames => exact ⟨true, rfl, by simp [hP]⟩

end Marked

/-! ## Returns and their functions -/

namespace Patcher

variable {path : List Nat}

/-- The path to the function nearest around the patcher at the end of a path. -/
def nearestFunction? : Patcher κ → List Nat → Option (List Nat)
  | _, [] => none
  | p, i :: path =>
    (p.parts[i]?.bind fun q => (q.nearestFunction? path).map (i :: ·)) <|>
      if p.site.kind = .function then some [] else none

/-- There is a `return` with this function nearest around it, or with none. -/
def HasReturn (p : Patcher κ) (owner : Option (List Nat)) : Prop :=
  ∃ path r, p.follow? path = some r ∧ r.site.kind = .returnStmt ∧ p.nearestFunction? path = owner

/-- What of a patcher cannot be changed from above: its node and what is below. -/
def outline (p : Patcher κ) : Node × List (Patcher κ) := (p.site.node, p.parts)

variable {p q : Patcher κ} {owner : Option (List Nat)}

theorem follow?_cons (p : Patcher κ) (i : Nat) (path : List Nat) :
    p.follow? (i :: path) = p.parts[i]?.bind (follow? · path) := rfl

/-- The nearest function is there, and it is a function. -/
theorem exists_of_nearestFunction? {place : List Nat} (h : p.nearestFunction? path = some place) :
    ∃ f, p.follow? place = some f ∧ f.site.kind = .function := by
  induction path generalizing p place with
  | nil => cases h
  | cons i path ih =>
    rw [nearestFunction?] at h
    cases hbelow : p.parts[i]?.bind fun q => (q.nearestFunction? path).map (i :: ·) with
    | none =>
      rw [hbelow] at h
      change (if p.site.kind = .function then some [] else none) = _ at h
      split at h
      · cases h
        exact ⟨p, rfl, ‹_›⟩
      · cases h
    | some place' =>
      rw [hbelow] at h
      cases h
      obtain ⟨q, hq, hplace⟩ := Option.bind_eq_some_iff.1 hbelow
      obtain ⟨place', hnearest, rfl⟩ := Option.map_eq_some_iff.1 hplace
      rw [follow?_cons, hq]
      exact ih hnearest

/-- The function nearest around the patcher at the end of a path. -/
def around? (p : Patcher κ) (path : List Nat) : Option (Patcher κ) := (p.nearestFunction? path).bind p.follow?

theorem around?_cons {i : Nat} (hq : p.parts[i]? = some q) :
    p.around? (i :: path) = (q.around? path <|> if p.site.kind = .function then some p else none) := by
  rw [around?, around?, nearestFunction?, hq, Option.bind_some]
  cases hnearest : q.nearestFunction? path with
  | none =>
    show (if p.site.kind = .function then some [] else none).bind p.follow? =
      if p.site.kind = .function then some p else none
    split <;> rfl
  | some place =>
    obtain ⟨f, hf, -⟩ := exists_of_nearestFunction? hnearest
    show p.follow? (i :: place) = (q.follow? place <|> _)
    rw [follow?_cons, hq, hf]
    exact hf

/-- A `return` is the patcher itself, or below one of its parts. -/
theorem hasReturn_iff : p.HasReturn owner ↔ p.site.kind = .returnStmt ∧ owner = none ∨
    ∃ i, ∃ q : Patcher κ, ∃ o : Option (List Nat), p.parts[i]? = some q ∧ q.HasReturn o ∧
      (o.map (i :: ·) <|> if p.site.kind = .function then some [] else none) = owner := by
  constructor
  · rintro ⟨path, r, hfollow, hr, hnearest⟩
    cases path with
    | nil =>
      cases hfollow
      exact Or.inl ⟨hr, hnearest.symm⟩
    | cons i path =>
      rw [follow?_cons] at hfollow
      obtain ⟨q, hq, hfollow⟩ := Option.bind_eq_some_iff.1 hfollow
      rw [nearestFunction?, hq] at hnearest
      exact Or.inr ⟨i, q, _, hq, ⟨path, r, hfollow, hr, rfl⟩, hnearest⟩
  · rintro (⟨hk, rfl⟩ | ⟨i, q, o, hq, ⟨path, r, hfollow, hr, rfl⟩, rfl⟩)
    · exact ⟨[], p, rfl, hk, rfl⟩
    · refine ⟨i :: path, r, ?_, hr, ?_⟩
      · rw [follow?_cons, hq]
        exact hfollow
      · rw [nearestFunction?, hq]
        rfl

theorem exists_getElem?_iff {P : Patcher κ → Prop} {ps : List (Patcher κ)} :
    (∃ (i : Nat) (q : Patcher κ), ps[i]? = some q ∧ P q) ↔ ∃ q ∈ ps, P q := by
  constructor
  · rintro ⟨i, q, hq, h⟩
    exact ⟨q, mem_of_getElem? hq, h⟩
  · rintro ⟨q, hq, h⟩
    obtain ⟨i, hi⟩ := getElem?_of_mem hq
    exact ⟨i, q, hi, h⟩

/-- A function lets no `return` out. -/
theorem not_hasReturn_none (hk : p.site.kind = .function) : ¬ p.HasReturn none := by
  rw [hasReturn_iff]
  rintro (⟨hr, -⟩ | ⟨i, q, o, -, -, h⟩)
  · cases hk.symm.trans hr
  · rw [if_pos hk] at h
    cases o <;> cases h

theorem hasReturn_none (hk : p.site.kind ≠ .function) :
    p.HasReturn none ↔ p.site.kind = .returnStmt ∨ ∃ q ∈ p.parts, q.HasReturn none := by
  rw [hasReturn_iff, ← exists_getElem?_iff]
  refine or_congr (and_iff_left rfl) ⟨?_, ?_⟩
  · rintro ⟨i, q, o, hq, h, ho⟩
    rw [if_neg hk] at ho
    cases o with
    | none => exact ⟨i, q, hq, h⟩
    | some path => cases ho
  · rintro ⟨i, q, hq, h⟩
    exact ⟨i, q, none, hq, h, by rw [if_neg hk]; rfl⟩

theorem hasReturn_here (hk : p.site.kind = .function) : p.HasReturn (some []) ↔ ∃ q ∈ p.parts, q.HasReturn none := by
  rw [hasReturn_iff, ← exists_getElem?_iff]
  constructor
  · rintro (⟨-, h⟩ | ⟨i, q, o, hq, h, ho⟩)
    · cases h
    · cases o with
      | none => exact ⟨i, q, hq, h⟩
      | some path => cases ho
  · rintro ⟨i, q, hq, h⟩
    exact Or.inr ⟨i, q, none, hq, h, by rw [if_pos hk]; rfl⟩

theorem hasReturn_cons {i : Nat} (hq : p.parts[i]? = some q) :
    p.HasReturn (some (i :: path)) ↔ q.HasReturn (some path) := by
  rw [hasReturn_iff]
  constructor
  · rintro (⟨-, h⟩ | ⟨j, q', o, hq', h, ho⟩)
    · cases h
    · cases o with
      | none =>
        change (if p.site.kind = .function then some [] else none) = _ at ho
        split at ho <;> cases ho
      | some path' =>
        cases ho
        cases hq.symm.trans hq'
        exact h
  · intro h
    exact Or.inr ⟨i, q, some path, hq, h, rfl⟩

theorem kind_of_outline (h : p.outline = q.outline) : p.site.kind = q.site.kind :=
  congrArg (fun o => o.1.kind) h

theorem parts_of_outline (h : p.outline = q.outline) : p.parts = q.parts := congrArg Prod.snd h

theorem hasReturn_of_outline (h : p.outline = q.outline) : p.HasReturn owner ↔ q.HasReturn owner := by
  rw [hasReturn_iff, hasReturn_iff (p := q), kind_of_outline h, parts_of_outline h]

@[simp] theorem outline_demandValue (p : Patcher κ) : p.demandValue.outline = p.outline := by
  cases p
  rfl

@[simp] theorem outline_adjust (f : κ → κ) (p : Patcher κ) : (p.adjust f).outline = p.outline := by
  cases p
  rfl

end Patcher

/-! ## Scripts that leave frames alone -/

theorem Script.bind_assoc (s : Script γ κ α) {δ : Type} (f : α → Script γ κ β) (f' : β → Script γ κ δ) :
    s >>= f >>= f' = s >>= fun a => f a >>= f' := by
  show (s.bind f).bind f' = s.bind fun a => (f a).bind f'
  induction s with
  | done a => rfl
  | fail e => rfl
  | read next ih => exact congrArg read (funext ih)
  | write g next ih => exact congrArg (write g) ih
  | self next ih => exact congrArg self (funext ih)
  | become k next ih => exact congrArg (become k) ih
  | demand i next ih => exact congrArg (demand i) ih
  | adjust i g next ih => exact congrArg (adjust i g) ih
  | call i c next ih => exact congrArg (call i c) (funext ih)

namespace Script

/-- From the context on, the script of a patcher of the kind leaves the frames as they are and calls no part.  It keeps
constructs such that they fit the kinds of their nodes, and fails in `E` only. -/
def Steady (fits : Kind → κ → Prop) (E : PatchError → Prop) (kind : Kind) : Script Context κ α → Context → Prop
  | done _, _ => True
  | fail e, _ => E e
  | read next, g => (next g).Steady fits E kind g
  | write g' next, g => g'.functions = g.functions ∧ next.Steady fits E kind g'
  | self next, g => ∀ p, (next p).Steady fits E kind g
  | become k next, g => fits kind k ∧ next.Steady fits E kind g
  | demand _ next, g => next.Steady fits E kind g
  | adjust _ f next, g => (∀ kind k, fits kind k → fits kind (f k)) ∧ next.Steady fits E kind g
  | call _ _ _, _ => False

theorem steady_iff {s : Script Context κ α} :
    s.Steady fits E kind g ↔ s.Prepares fits E (fun g g' => g'.functions = g.functions) kind g := by
  induction s generalizing g with
  | done a => exact Iff.rfl
  | fail e => exact Iff.rfl
  | read next ih => exact ih g
  | write g' next ih => exact and_congr_right fun _ => ih
  | self next ih => exact forall_congr' fun p => ih p
  | become k next ih => exact and_congr_right fun _ => ih
  | demand i next ih => exact ih
  | adjust i f next ih => exact and_congr_right fun _ => ih
  | call => exact Iff.rfl

end Script

namespace Patcher

/-- The construct of every patcher from this one down fits the kind of its node. -/
inductive Fitting (fits : Kind → κ → Prop) : Patcher κ → Prop
  | intro {p : Patcher κ} (here : fits p.site.kind p.construct) (parts : ∀ q ∈ p.parts, Fitting fits q) :
    Fitting fits p

/-- A patcher at work that was `p₀`: only what its parts are asked for and what they stand for may have changed. -/
structure AtWork (fits : Kind → κ → Prop) (p₀ p : Patcher κ) : Prop where
  site : p.site = p₀.site
  here : fits p.site.kind p.construct
  outlines : p.parts.map outline = p₀.parts.map outline
  parts : ∀ q ∈ p.parts, q.Fitting fits

variable {fits : Kind → κ → Prop} {p p₀ : Patcher κ}

theorem Fitting.atWork (h : p.Fitting fits) : p.AtWork fits p := by
  obtain ⟨here, parts⟩ := h
  exact ⟨rfl, here, rfl, parts⟩

theorem AtWork.length (h : p₀.AtWork fits p) : p.parts.length = p₀.parts.length := by
  have hmap := congrArg List.length h.outlines
  rwa [length_map, length_map] at hmap

theorem AtWork.modify (h : p₀.AtWork fits p) {f : Patcher κ → Patcher κ} (hf : ∀ q, (f q).outline = q.outline)
    (hfits : ∀ q : Patcher κ, q.Fitting fits → (f q).Fitting fits) (i : Nat) :
    p₀.AtWork fits (p.withParts (p.parts.modify i f)) := by
  have hsame : (p.parts.modify i f).map outline = p.parts.map outline := by
    refine ext_getElem? fun j => ?_
    rw [getElem?_map, getElem?_map, getElem?_modify]
    split <;> cases p.parts[j]? <;> simp [hf]
  obtain ⟨site, here, outlines, parts⟩ := h
  cases p
  exact ⟨site, here, hsame.trans outlines, forall_mem_modify parts hfits⟩

end Patcher

variable {s : Script Context κ α}

open Patcher in
/-- A run of a script that leaves the frames alone. -/
theorem Script.Steady.safe (hs : s.Steady fits E kind g)
    (callee : Callee Context κ) (p : Patcher κ) :
    Safe E callee s p g fun _ p' g' => g'.functions = g.functions ∧
      ∀ p₀ : Patcher κ, p₀.site.kind = kind → p₀.AtWork fits p → p₀.AtWork fits p' := by
  induction s generalizing p g with
  | done a => exact ⟨rfl, fun _ _ h => h⟩
  | fail e => exact hs
  | read next ih => exact ih g hs p
  | write g' next ih => exact Safe.mono (ih hs.2 p) fun _ _ _ h => ⟨h.1.trans hs.1, h.2⟩
  | self next ih => exact ih p (hs p) p
  | become k next ih =>
    refine Safe.mono (ih hs.2 _) fun _ _ _ h => ⟨h.1, fun p₀ hk hw => h.2 p₀ hk ?_⟩
    obtain ⟨site, -, outlines, parts⟩ := hw
    cases p
    refine ⟨site, ?_, outlines, parts⟩
    rw [← hk, ← show _ = p₀.site from site] at hs
    exact hs.1
  | demand i next ih =>
    refine Safe.mono (ih hs _) fun _ _ _ h => ⟨h.1, fun p₀ hk hw => h.2 p₀ hk ?_⟩
    refine hw.modify outline_demandValue (fun q hq => ?_) i
    obtain ⟨here, parts⟩ := hq
    cases q
    exact .intro here parts
  | adjust i f next ih =>
    refine Safe.mono (ih hs.2 _) fun _ _ _ h => ⟨h.1, fun p₀ hk hw => h.2 p₀ hk ?_⟩
    refine hw.modify (outline_adjust f) (fun q hq => ?_) i
    obtain ⟨here, parts⟩ := hq
    cases q
    exact .intro (hs.1 _ _ here) parts
  | call => exact hs.elim

variable {callee : Callee Context κ} {logOf : Call → Patcher κ → Context → Patcher.Log Context κ}

theorem Script.Steady.log_eq_nil (hs : s.Steady fits E kind g) (p : Patcher κ) : s.log callee logOf p g = [] :=
  (steady_iff.1 hs).log_eq_nil p

theorem Script.Steady.log_bind_eq_nil {f : α → Script Context κ β} (hs : s.Steady fits E kind g)
    (hf : ∀ a p g, (f a).log callee logOf p g = []) (p : Patcher κ) : (s >>= f).log callee logOf p g = [] := by
  rw [log_bind, hs.log_eq_nil, nil_append]
  split
  · exact hf _ _ _
  · rfl

/-! ## Hooks that keep frames -/

/-- A function enters a frame when it is prepared and leaves it when those below are, and a `return` marks the innermost
frame.  Nothing else touches the frames.  A function may turn down the `return` in it, and all else fails in `E`. -/
structure Hooks.Framing (h : Hooks Context κ) (fits : Kind → κ → Prop) (E : PatchError → Prop) : Prop where
  enters : ∀ p : Patcher κ, p.site.kind = .function → fits .function p.construct →
    ∃ first rest : Script Context κ Unit, h.prepare p = (do first; modify Context.enterFunction; rest) ∧
      (∀ g, first.Steady fits E .function g) ∧ ∀ g, rest.Steady fits E .function g
  leaves : ∀ p : Patcher κ, p.site.kind = .function → fits .function p.construct →
    ∃ (first : Script Context κ Unit) (rest : Bool → Script Context κ Unit),
      h.finish p = (do first; rest (← modifyGet Context.exitFunction)) ∧ (∀ g, first.Steady fits E .function g) ∧
      ∀ b g, (rest b).Steady fits (fun e => E e ∨ b = true ∧ e = .violation .conciseReturn p.site.content) .function g
  marks : ∀ p : Patcher κ, p.site.kind = .returnStmt → fits .returnStmt p.construct →
    ∃ first rest : Script Context κ Unit, h.prepare p = (do first; modify Context.markReturn; rest) ∧
      (∀ g, first.Steady fits E .returnStmt g) ∧ ∀ g, rest.Steady fits E .returnStmt g
  prepare : ∀ p : Patcher κ, p.site.kind ≠ .function → p.site.kind ≠ .returnStmt → fits p.site.kind p.construct →
    ∀ g, (h.prepare p).Steady fits E p.site.kind g
  finish : ∀ p : Patcher κ, p.site.kind ≠ .function → fits p.site.kind p.construct →
    ∀ g, (h.finish p).Steady fits E p.site.kind g
  refuses : ∀ kind range, E (.violation (.preparedTwice kind) range)

namespace Patcher

variable {E : PatchError → Prop} {fits : Kind → κ → Prop} {p q : Patcher κ} {e : PatchError}

/-- The work of preparing a patcher up to where those below are prepared. -/
def opening (h : Hooks γ κ) (p : Patcher κ) : Script γ κ Unit := do
  h.prepare p
  (List.range p.parts.length).forM fun i => Script.callPart i .prepare

theorem prepareScript_eq (h : Hooks γ κ) (p : Patcher κ) :
    p.prepareScript h = (p.opening h >>= fun _ => Script.getSelf >>= h.finish) := by
  rw [opening, Script.bind_assoc]
  rfl

/-- The error is in `E`, or a function from here down turns down a `return` of its own. -/
def Blames (E : PatchError → Prop) (p : Patcher κ) (e : PatchError) : Prop :=
  E e ∨ ∃ path f, p.follow? path = some f ∧ f.site.kind = .function ∧ p.HasReturn (some path) ∧
    e = .violation .conciseReturn f.site.content

theorem content_of_outline (h : p.outline = q.outline) : p.site.content = q.site.content :=
  congrArg (fun o => o.1.range) h

theorem follow?_of_outline (h : p.outline = q.outline) {path : List Nat} {f : Patcher κ}
    (hf : p.follow? path = some f) : ∃ f', q.follow? path = some f' ∧ f.outline = f'.outline := by
  cases path with
  | nil =>
    cases hf
    exact ⟨q, rfl, h⟩
  | cons i path =>
    rw [follow?_cons, parts_of_outline h] at hf
    exact ⟨f, hf, rfl⟩

/-- What a part is to blame for, the patcher above is. -/
theorem Blames.part {q' : Patcher κ} (h : q'.Blames E e) (hq : q ∈ p.parts) (hoq : q'.outline = q.outline) :
    p.Blames E e := by
  rcases h with h | ⟨path, f, hfollow, hk, hreturn, rfl⟩
  · exact Or.inl h
  · obtain ⟨i, hi⟩ := getElem?_of_mem hq
    obtain ⟨f', hf', hof⟩ := follow?_of_outline hoq hfollow
    refine Or.inr ⟨i :: path, f', ?_, (kind_of_outline hof).symm.trans hk, ?_, by rw [content_of_outline hof]⟩
    · rw [follow?_cons, hi]
      exact hf'
    · rw [hasReturn_cons hi, ← hasReturn_of_outline hoq]
      exact hreturn

variable {p₀ : Patcher κ}

theorem AtWork.exists_part (h : p₀.AtWork fits p) (hq : q ∈ p.parts) : ∃ q₀ ∈ p₀.parts, q.outline = q₀.outline := by
  have hmem : q.outline ∈ p₀.parts.map outline := h.outlines ▸ mem_map_of_mem hq
  obtain ⟨q₀, hq₀, heq⟩ := mem_map.1 hmem
  exact ⟨q₀, hq₀, heq.symm⟩

theorem AtWork.exists_hasReturn (h : p₀.AtWork fits p) :
    (∃ q ∈ p.parts, q.HasReturn none) ↔ ∃ q ∈ p₀.parts, q.HasReturn none := by
  constructor
  · rintro ⟨q, hq, hr⟩
    obtain ⟨q₀, hq₀, heq⟩ := h.exists_part hq
    exact ⟨q₀, hq₀, (hasReturn_of_outline heq).1 hr⟩
  · rintro ⟨q₀, hq₀, hr⟩
    have hmem : q₀.outline ∈ p.parts.map outline := h.outlines ▸ mem_map_of_mem hq₀
    obtain ⟨q, hq, heq⟩ := mem_map.1 hmem
    exact ⟨q, hq, (hasReturn_of_outline heq).2 hr⟩

/-- What is there of the frames when all parts of `p` are prepared. -/
structure Opened (fits : Kind → κ → Prop) (p : Patcher κ) (g : Context) (p' : Patcher κ) (g' : Context) : Prop where
  site : p'.site = p.site
  here : fits p'.site.kind p'.construct
  function : p.site.kind = .function → ∃ b, g'.functions = b :: g.functions ∧ (b = true ↔ p.HasReturn (some []))
  other : p.site.kind ≠ .function → Marked (p.HasReturn none) g.functions g'.functions

end Patcher

variable {p : Patcher κ}

/-- Calls of parts, one after the other, each of which may mark the innermost frame. -/
theorem Script.safe_forM_callPart {c : Call} (hcallee : ∀ q ∈ p.parts, ∀ g, (callee c q g).Safe E fun _ _ g' =>
      Marked (q.HasReturn none) g.functions g'.functions) (g : Context) :
    Safe E callee ((List.range' 0 p.parts.length).forM fun i => (callPart i c : Script Context κ Unit)) p g
      fun _ p' g' => p'.site = p.site ∧ p'.construct = p.construct ∧
        Marked (∃ q ∈ p.parts, q.HasReturn none) g.functions g'.functions := by
  have hparts : List.Forall₂ (fun x q => x = q ∧ ∀ g, (callee c q g).Safe E fun _ _ g' =>
      Marked (q.HasReturn none) g.functions g'.functions) p.parts p.parts :=
    forall₂_same.2 fun q hq => ⟨rfl, hcallee q hq⟩
  refine (Safe.forM_callPart (S := fun _ _ => True) (I := fun (xs : List (Patcher κ)) (g' : Context) =>
    Marked (∃ q ∈ xs, q.HasReturn none) g.functions g'.functions) ?_ (nil_append _).symm .nil hparts
    (Marked.refl (by simp) _)).mono fun _ _ _ h => ⟨h.1, h.2.1, h.2.2.2⟩
  rintro xs _ q g' ⟨rfl, hq⟩ hmarked
  exact (hq g').mono fun _ _ _ h => ⟨trivial, (hmarked.trans h).congr (by simp [or_and_right, exists_or])⟩

namespace Hooks.Framing

open Patcher

variable {h : Hooks Context κ} {fits : Kind → κ → Prop} {E : PatchError → Prop} {p : Patcher κ}

/-- What the construct itself does to the frames when it is prepared. -/
theorem prepare_hook (hf : h.Framing fits E) (hp : p.Fitting fits)
    (callee : Callee Context κ) (g : Context) :
    Script.Safe E callee (h.prepare p) p g fun _ p' g' => p.AtWork fits p' ∧
      (p.site.kind = .function → g'.functions = false :: g.functions) ∧
      (p.site.kind ≠ .function → Marked (p.site.kind = .returnStmt) g.functions g'.functions) := by
  have hwork := hp.atWork
  have hstep {f : Context → Context} {first rest : Script Context κ Unit}
      (hf : ∀ g g' : Context, g.functions = g'.functions → (f g).functions = (f g').functions)
      (hfirst : ∀ g, first.Steady fits E p.site.kind g) (hrest : ∀ g, rest.Steady fits E p.site.kind g) :
      Script.Safe E callee (do first; modify f; rest) p g fun _ p' g' =>
        p.AtWork fits p' ∧ g'.functions = (f g).functions := by
    refine Script.Safe.bind ((hfirst g).safe callee p) fun _ p₁ g₁ h₁ => ?_
    refine Script.Safe.bind (Q := fun _ p' g' => p' = p₁ ∧ g' = f g₁)
      (Script.Safe.step (m := modify f) (Patching.Safe.of_modify ⟨rfl, rfl⟩)) fun _ p' g' h => ?_
    obtain ⟨rfl, rfl⟩ := h
    exact ((hrest _).safe callee _).mono fun _ _ _ h =>
      ⟨h.2 _ rfl (h₁.2 _ rfl hwork), h.1.trans (hf _ _ h₁.1)⟩
  by_cases hfun : p.site.kind = .function
  · obtain ⟨first, rest, hprepare, hfirst, hrest⟩ := hf.enters p hfun (hfun ▸ hwork.here)
    rw [← hfun] at hfirst hrest
    rw [hprepare]
    refine (hstep (fun _ _ h => congrArg (false :: ·) h) hfirst hrest).mono fun _ _ _ h => ?_
    exact ⟨h.1, fun _ => h.2, fun hne => absurd hfun hne⟩
  · by_cases hret : p.site.kind = .returnStmt
    · obtain ⟨first, rest, hprepare, hfirst, hrest⟩ := hf.marks p hret (hret ▸ hwork.here)
      rw [← hret] at hfirst hrest
      rw [hprepare]
      refine (hstep (fun _ _ h => congrArg (List.modifyHead fun _ => true) h) hfirst hrest).mono fun _ _ g' h => ?_
      refine ⟨h.1, fun heq => absurd heq hfun, fun _ => ?_⟩
      rw [h.2]
      exact Marked.head hret _
    · refine ((hf.prepare p hfun hret hwork.here g).safe callee p).mono fun _ _ g' h =>
        ⟨h.2 p rfl hwork, fun heq => absurd heq hfun, fun _ => ?_⟩
      rw [h.1]
      exact Marked.refl hret _

/-- Preparing a patcher up to where those below are prepared, if these do as they should. -/
theorem safe_opening (hf : h.Framing fits E) (hp : p.Fitting fits) (g : Context)
    (ih : ∀ q : Patcher κ, q.height < p.height → q.Fitting fits → ∀ g, (q.call h .prepare g).Safe (q.Blames E)
      fun _ _ g' => Marked (q.HasReturn none) g.functions g'.functions) :
    Script.Safe (p.Blames E) (call h) (p.opening h) p g fun _ p' g' => p.Opened fits g p' g' := by
  refine Script.Safe.bind (Outcome.Safe.weaken (hf.prepare_hook hp (call h) g) fun _ => Or.inl) ?_
  rintro _ p₁ g₁ ⟨hwork, hfun, hother⟩
  have hcallee : ∀ q ∈ p₁.parts, ∀ g, (q.call h .prepare g).Safe (p.Blames E) fun _ _ g' =>
      Marked (q.HasReturn none) g.functions g'.functions := by
    intro q hq g
    obtain ⟨q₀, hq₀, heq⟩ := hwork.exists_part hq
    have hheight : q.height < p.height := by
      rw [height_eq q, parts_of_outline heq, ← height_eq]
      exact height_lt_of_mem hq₀
    exact (ih q hheight (hwork.parts q hq) g).weaken fun _ h => h.part hq₀ heq
  rw [range_eq_range', ← hwork.length]
  refine (Script.safe_forM_callPart hcallee g₁).mono ?_
  rintro _ p₂ g₂ ⟨hsite, hconstruct, hmarked⟩
  replace hmarked := hmarked.congr hwork.exists_hasReturn
  refine ⟨hsite.trans hwork.site, by rw [hsite, hconstruct]; exact hwork.here, fun hk => ?_, fun hk => ?_⟩
  · rw [hfun hk] at hmarked
    obtain ⟨b, hb, hiff⟩ := hmarked
    exact ⟨b, hb, by rw [hiff, hasReturn_here hk]; simp⟩
  · exact ((hother hk).trans hmarked).congr (hasReturn_none hk).symm

/-- A patcher that is prepared marks the innermost frame if it lets a `return` out, and does nothing else to the
frames. -/
theorem prepare_safe (hf : h.Framing fits E) (hp : p.Fitting fits) (g : Context) :
    (p.call h .prepare g).Safe (p.Blames E) fun _ _ g' => Marked (p.HasReturn none) g.functions g'.functions := by
  induction hn : p.height using Nat.strongRecOn generalizing p g with
  | ind n ih =>
    rw [call_eq]
    split
    · refine Outcome.Safe.advance ?_
      rw [Call.work, prepareScript_eq]
      refine Script.Safe.bind (hf.safe_opening hp g fun q hlt hq g => ih _ (hn ▸ hlt) hq g rfl) ?_
      rintro _ p' g' ⟨hsite, hhere, hfun, hother⟩
      show Script.Safe _ _ (h.finish p') p' g' _
      by_cases hk : p.site.kind = .function
      · obtain ⟨b, hb, hiff⟩ := hfun hk
        have hk' : p'.site.kind = .function := by rw [hsite, hk]
        obtain ⟨first, rest, hfinish, hfirst, hrest⟩ := hf.leaves p' hk' (hk' ▸ hhere)
        rw [hfinish]
        have hrun := (hfirst g').safe (call h) p'
        refine Script.Safe.bind (Outcome.Safe.weaken hrun fun _ => Or.inl) fun _ p₁ g₁ h₁ => ?_
        refine Script.Safe.bind (Q := fun b' _ g'' => b' = b ∧ g''.functions = g.functions)
          (Script.Safe.step (m := modifyGet Context.exitFunction) (Patching.Safe.of_modifyGet ?_)) ?_
        · simp [Context.exitFunction, h₁.1, hb]
        · rintro b' q g'' ⟨hb', hframes⟩
          refine (Outcome.Safe.weaken ((hrest b' g'').safe (call h) q) fun e he => ?_).mono fun _ _ g₃ h₃ => ?_
          · rcases he with he | ⟨htrue, rfl⟩
            · exact Or.inl he
            · exact Or.inr ⟨[], p, rfl, hk, hiff.1 (hb' ▸ htrue), by rw [hsite]⟩
          · rw [h₃.1, hframes]
            exact Marked.refl (not_hasReturn_none hk) _
      · have hk' : p'.site.kind ≠ .function := by rwa [hsite]
        have hrun := (hf.finish p' hk' hhere g').safe (call h) p'
        refine (Outcome.Safe.weaken hrun fun e => Or.inl).mono fun _ _ g₃ h₃ => ?_
        rw [h₃.1]
        exact hother hk
    · exact Or.inl (hf.refuses _ _)

end Hooks.Framing

/-! ## Logs -/

namespace Script

open Patcher

variable {callee : Callee γ κ} {logOf : Call → Patcher κ → γ → Log γ κ} {g : γ} {s : Script γ κ α}
  {f : α → Script γ κ β} {p : Patcher κ}

theorem ok_of_bind {b : β} (h : ((s >>= f).run callee p g).result = .ok b) : ∃ a, (s.run callee p g).result = .ok a ∧
      ((f a).run callee (s.run callee p g).patcher (s.run callee p g).context).result = .ok b := by
  rw [run_bind, Outcome.andThen] at h
  cases hr : (s.run callee p g).result with
  | error e =>
    rw [hr] at h
    cases h
  | ok a =>
    rw [hr] at h
    exact ⟨a, rfl, h⟩

/-- Each part that is called has its answers in the log. -/
theorem log_forM_callPart {c : Call} (before todo : List (Patcher κ)) (hp : p.parts = before ++ todo)
    (hok : (((List.range' before.length todo.length).forM fun i => (callPart i c : Script γ κ Unit)).run callee p
      g).result = .ok ()) {j : Nat} {q : Patcher κ} (hq : todo[j]? = some q) (path : List Nat) :
    ∃ g', (callee c q g').result = .ok () ∧
      (((List.range' before.length todo.length).forM fun i => (callPart i c : Script γ κ Unit)).log callee logOf p
        g).atPath ((before.length + j) :: path) = (logOf c q g').atPath path := by
  induction todo generalizing before p g j with
  | nil => cases hq
  | cons q₀ todo ih =>
    have hget : p.parts[before.length]? = some q₀ := by simp [hp]
    rw [length_cons, range'_succ] at hok ⊢
    change ((callPart before.length c >>= fun _ =>
      (List.range' (before.length + 1) todo.length).forM fun i => (callPart i c : Script γ κ Unit)).run callee p
        g).result = _ at hok
    change ∃ g', _ ∧ ((callPart before.length c >>= fun _ =>
      (List.range' (before.length + 1) todo.length).forM fun i => (callPart i c : Script γ κ Unit)).log callee logOf p
        g).atPath _ = _
    rw [run_bind, run_callPart hget, Outcome.andThen] at hok
    cases hres : (callee c q₀ g).result with
    | error e =>
      rw [hres] at hok
      cases hok
    | ok u =>
      rw [hres] at hok
      have hfirst : ((callPart before.length c : Script γ κ Unit).run callee p g).result = .ok u := by
        rw [run_callPart hget, hres]
      rw [log_bind, hfirst, log_callPart hget, run_callPart hget, Log.atPath_append]
      cases j with
      | zero =>
        cases hq
        refine ⟨g, hres, ?_⟩
        rw [Nat.add_zero, Log.atPath_under_cons, append_right_eq_self, Log.atPath, filterMap_eq_nil_iff]
        intro e he
        obtain ⟨i, hi, -, -, e', -, rfl⟩ := exists_of_mem_log he
        rw [if_neg]
        rintro heq
        cases heq
        have := (mem_range'_1.1 hi).1
        omega
      | succ j =>
        have hset : (p.withParts (p.parts.set before.length (callee c q₀ g).patcher)).parts =
            (before ++ [(callee c q₀ g).patcher]) ++ todo := by simp [hp]
        have hrest := ih (before ++ [(callee c q₀ g).patcher]) hset (by rwa [length_append, length_singleton]) hq
        rw [length_append, length_singleton] at hrest
        obtain ⟨g', hg', hlog⟩ := hrest
        refine ⟨g', hg', ?_⟩
        have hne : ∀ rest, (before.length + (j + 1)) :: path ≠ before.length :: rest := fun rest heq => by
          have := (List.cons.inj heq).1
          omega
        rw [Log.atPath_under_eq_nil hne, nil_append, ← hlog]
        congr 2
        omega

end Script

/-- What a function is told when it leaves its frame, once those below it are prepared. -/
def Patcher.Answer.exitValue (h : Hooks Context κ) (a : Patcher.Answer Context κ) : Bool :=
  ((a.patcher.opening h).run (Patcher.call h) a.patcher a.context).context.exitFunction.1

namespace Hooks.Framing

open Patcher

variable {h : Hooks Context κ} {fits : Kind → κ → Prop} {E : PatchError → Prop} {p : Patcher κ}
  {callee : Callee Context κ} {logOf : Call → Patcher κ → Context → Log Context κ} {g : Context}
  (hf : h.Framing fits E)
include hf

/-- The construct itself calls nothing when it is prepared. -/
theorem log_prepare (hp : fits p.site.kind p.construct) (q : Patcher κ) (g : Context) :
    (h.prepare p).log callee logOf q g = [] := by
  by_cases hfun : p.site.kind = .function
  · obtain ⟨first, rest, hprepare, hfirst, hrest⟩ := hf.enters p hfun (hfun ▸ hp)
    rw [hprepare]
    refine (hfirst g).log_bind_eq_nil (fun _ q _ => ?_) q
    exact (hrest _).log_eq_nil q
  · by_cases hret : p.site.kind = .returnStmt
    · obtain ⟨first, rest, hprepare, hfirst, hrest⟩ := hf.marks p hret (hret ▸ hp)
      rw [hprepare]
      refine (hfirst g).log_bind_eq_nil (fun _ q _ => ?_) q
      exact (hrest _).log_eq_nil q
    · exact (hf.prepare p hfun hret hp g).log_eq_nil q

theorem log_finish (hp : fits p.site.kind p.construct) (q : Patcher κ) (g : Context) :
    (h.finish p).log callee logOf q g = [] := by
  by_cases hfun : p.site.kind = .function
  · obtain ⟨first, rest, hfinish, hfirst, hrest⟩ := hf.leaves p hfun (hfun ▸ hp)
    rw [hfinish]
    refine (hfirst g).log_bind_eq_nil (fun _ q _ => ?_) q
    exact (hrest _ _).log_eq_nil q
  · exact (hf.finish p hfun hp g).log_eq_nil q

/-- A patcher that was prepared has opened its frame. -/
theorem opened (hp : p.Fitting fits) (hok : ((p.opening h).run (call h) p g).result = .ok ()) :
    p.Opened fits g ((p.opening h).run (call h) p g).patcher ((p.opening h).run (call h) p g).context :=
  (hf.safe_opening hp g fun _ _ hq g => hf.prepare_safe hq g).of_ok hok

/-- The log of a patcher that was prepared: the answers of its parts, and its own. -/
theorem log_of_ok (hp : p.Fitting fits) (hok : (p.call h .prepare g).result = .ok ()) :
    ((p.opening h).run (call h) p g).result = .ok () ∧ ∃ p₁ g₁, p.AtWork fits p₁ ∧
      (((List.range' 0 p₁.parts.length).forM fun i => (Script.callPart i .prepare : Script Context κ Unit)).run (call h)
        p₁ g₁).result = .ok () ∧
      p.log h .prepare g = ((List.range' 0 p₁.parts.length).forM fun i =>
        (Script.callPart i .prepare : Script Context κ Unit)).log (call h) (log h) p₁ g₁ ++
          [([], p.answer h .prepare g)] := by
  have hwork := hp.atWork
  rw [call_eq] at hok
  rw [log_eq]
  split at hok
  case isFalse => cases hok
  case isTrue hw =>
    rw [if_pos hw]
    rw [Call.work, prepareScript_eq] at hok ⊢
    have hrun : ((p.opening h >>= fun _ => Script.getSelf >>= h.finish).run (call h) p g).result = .ok () :=
      (result_advance _ _).symm.trans hok
    obtain ⟨_, hopen, -⟩ := Script.ok_of_bind hrun
    obtain ⟨_, hprepare, hvisit⟩ := Script.ok_of_bind hopen
    obtain ⟨hatWork, -⟩ := (hf.prepare_hook hp (call h) g).of_ok hprepare
    rw [range_eq_range', ← hatWork.length] at hvisit
    refine ⟨hopen, _, _, hatWork, hvisit, ?_⟩
    rw [Script.log_bind, hopen]
    have hfinish : (Script.getSelf >>= h.finish).log (call h) (log h) ((p.opening h).run (call h) p g).patcher
        ((p.opening h).run (call h) p g).context = [] := hf.log_finish (hf.opened hp hopen).here _ _
    rw [hfinish, append_nil, opening, Script.log_bind, hprepare, hf.log_prepare hwork.here, nil_append,
      range_eq_range', ← hatWork.length]

/-- The frame that a function leaves is marked if and only if there is a `return` with this function nearest around
it.  In the log of a tree that was prepared there is one answer for each function. -/
theorem exit_of_log (hp : p.Fitting fits) (hok : (p.call h .prepare g).result = .ok ())
    {path : List Nat} {f : Patcher κ} (hfollow : p.follow? path = some f) (hk : f.site.kind = .function) :
    ∃ a, (p.log h .prepare g).atPath path = [a] ∧ a.call = .prepare ∧
      (a.exitValue h = true ↔ p.HasReturn (some path)) := by
  induction path generalizing p g f with
  | nil =>
    cases hfollow
    obtain ⟨hopen, p₁, g₁, -, -, hlog⟩ := hf.log_of_ok hp hok
    obtain ⟨b, hb, hiff⟩ := (hf.opened hp hopen).function hk
    refine ⟨p.answer h .prepare g, ?_, rfl, ?_⟩
    · rw [hlog, Log.atPath_append, append_eq_singleton_iff]
      refine Or.inl ⟨filterMap_eq_nil_iff.2 fun e he => ?_, rfl⟩
      obtain ⟨i, -, -, -, e', -, rfl⟩ := Script.exists_of_mem_log he
      rw [if_neg (by simp)]
    · rw [← hiff, Answer.exitValue, Context.exitFunction]
      show (((p.opening h).run (call h) p g).context.functions.headD false = true ↔ b = true)
      rw [hb]
      rfl
  | cons i path ih =>
    rw [follow?_cons] at hfollow
    obtain ⟨q, hq, hfollow⟩ := Option.bind_eq_some_iff.1 hfollow
    obtain ⟨-, p₁, g₁, hwork, hvisit, hlog⟩ := hf.log_of_ok hp hok
    -- The part at its turn differs from what it was in what does not matter here.
    obtain ⟨q', hq', hoq⟩ : ∃ q', p₁.parts[i]? = some q' ∧ q.outline = q'.outline := by
      have hget := congrArg (fun l => l[i]?) hwork.outlines
      simp only [getElem?_map, hq, Option.map_some, Option.map_eq_some_iff] at hget
      exact hget.imp fun _ h => ⟨h.1, h.2.symm⟩
    obtain ⟨f', hf', hof⟩ := follow?_of_outline hoq hfollow
    obtain ⟨g', hg', hat⟩ := Script.log_forM_callPart [] p₁.parts rfl hvisit hq' path
    obtain ⟨a, ha, hcall, hiff⟩ := ih (hwork.parts q' (mem_of_getElem? hq')) hg' hf'
      ((kind_of_outline hof).symm.trans hk)
    refine ⟨a, ?_, hcall, ?_⟩
    · rw [hlog, Log.atPath_append]
      rw [length_nil, Nat.zero_add] at hat
      rw [hat, ha]
      rfl
    · rw [hiff, hasReturn_cons hq, hasReturn_of_outline hoq]

end Hooks.Framing

/-- In the end no frame is left, and every function was told of the `return`s of its own. -/
structure Patcher.ReportsReturns (h : Hooks Context κ) (p : Patcher κ) (g : Context) : Prop where
  frames : (p.call h .prepare g).context.functions = []
  exits : ∀ path f, p.follow? path = some f → f.site.kind = .function →
    ∃ a, (p.log h .prepare g).atPath path = [a] ∧ a.call = .prepare ∧
      (a.exitValue h = true ↔ p.HasReturn (some path))

theorem Hooks.Framing.reportsReturns {h : Hooks Context κ} (hf : h.Framing fits E) (hp : p.Fitting fits)
    (hg : g.functions = []) (hok : (p.call h .prepare g).result = .ok ()) : p.ReportsReturns h g where
  frames := by
    have hmarked := (hf.prepare_safe hp g).of_ok hok
    rwa [hg] at hmarked
  exits := fun _ _ hfollow hk => hf.exit_of_log hp hok hfollow hk

end Respell
