import Respell.Proofs.Patch.Script

/-!
What happens in a run, and in which order.

The trace of a run lists the steps in the life of each patcher: its preparation starts and ends, its value is asked
for, it is patched.  `Script.trace` and `Patcher.traceWithin` follow `Script.run` and `Patcher.callWithin` step by
step, and patchers are named by their paths from the top.  `Patcher.RunsOnce` says of the trace of a whole run that
every patcher is prepared and patched in its turn and once only.
-/

namespace Respell

open List

variable {γ κ α β : Type}

/-! ## Traces -/

/-- A step in the life of a patcher. -/
inductive Patcher.Event where
  /-- Its preparation starts. -/
  | prepare
  /-- Its preparation has ended well. -/
  | prepared
  /-- It is asked for its value, in this phase. -/
  | demand (phase : Phase)
  /-- It is patched, for its value or as a statement, whether or not it was asked for its value. -/
  | patch (isValue isAsked : Bool)
deriving DecidableEq, Repr

def Patcher.Event.isPatch : Patcher.Event → Bool
  | patch _ _ => true
  | _ => false

/-- Events in the order in which they happen, each with the path to its patcher. -/
abbrev Trace := List (List Nat × Patcher.Event)

namespace Trace

variable (f : Patcher.Event → Bool)

/-- The trace of the patcher at a place, seen from above. -/
def below (i : Nat) (t : Trace) : Trace := t.map fun e => (i :: e.1, e.2)

/-- The patchers that events of one sort happen to, in this order. -/
def pathsOf (t : Trace) : List (List Nat) := (t.filter fun e => f e.2).map Prod.fst

@[simp] theorem pathsOf_append (t u : Trace) : pathsOf f (t ++ u) = pathsOf f t ++ pathsOf f u := by
  simp [pathsOf]

theorem pathsOf_cons (path : List Nat) (e : Patcher.Event) (t : Trace) :
    pathsOf f ((path, e) :: t) = if f e then path :: pathsOf f t else pathsOf f t := by
  simp only [pathsOf, filter_cons]
  split <;> rfl

theorem mem_pathsOf {f : Patcher.Event → Bool} {t : Trace} {path : List Nat} :
    path ∈ pathsOf f t ↔ ∃ e, (path, e) ∈ t ∧ f e = true := by
  simp [pathsOf]

theorem pathsOf_eq_nil {f : Patcher.Event → Bool} {t : Trace} (h : ∀ e ∈ t, f e.2 = false) : pathsOf f t = [] := by
  rw [pathsOf, filter_eq_nil_iff.2, map_nil]
  intro e he
  simp [h e he]

@[simp] theorem pathsOf_below (i : Nat) (t : Trace) : pathsOf f (below i t) = (pathsOf f t).map (i :: ·) := by
  induction t with
  | nil => rfl
  | cons e t ih =>
    rw [below, map_cons, pathsOf_cons]
    obtain ⟨path, e⟩ := e
    rw [pathsOf_cons]
    split
    · exact congrArg _ ih
    · exact ih

end Trace

/-- The events of a script's run, given how patchers below answer calls and the events of that. -/
def Script.trace (callee : Call → Patcher κ → γ → Outcome γ κ Unit) (events : Call → Patcher κ → γ → Trace) :
    Script γ κ α → Patcher κ → γ → Trace
  | done _, _, _ => []
  | fail _, _, _ => []
  | read next, p, g => (next g).trace callee events p g
  | write g next, p, _ => next.trace callee events p g
  | self next, p, g => (next p).trace callee events p g
  | become k next, p, g => next.trace callee events (p.withConstruct k) g
  | demand i next, p, g =>
    p.parts[i]?.toList.map (fun q => ([i], .demand q.phase)) ++
      next.trace callee events (p.withParts (p.parts.modify i Patcher.demandValue)) g
  | adjust i f next, p, g => next.trace callee events (p.withParts (p.parts.modify i (Patcher.adjust f))) g
  | call i c next, p, g =>
    match p.parts[i]? with
    | none => (next (.ok ())).trace callee events p g
    | some child =>
      let o := callee c child g
      (events c child g).below i ++
        (next o.result).trace callee events (p.withParts (p.parts.set i o.patcher)) o.context

/-- The events of what is done first come before those of what is done then. -/
theorem Script.trace_bind {callee : Callee γ κ}
    {events : Call → Patcher κ → γ → Trace} (s : Script γ κ α) (f : α → Script γ κ β) (p : Patcher κ) (g : γ) :
    (s >>= f).trace callee events p g = s.trace callee events p g ++
      match (s.run callee p g).result with
      | .ok a => (f a).trace callee events (s.run callee p g).patcher (s.run callee p g).context
      | .error _ => [] := by
  show (s.bind f).trace callee events p g = _
  induction s generalizing p g with
  | done a => rfl
  | fail e => rfl
  | read next ih => exact ih g p g
  | write g' next ih => exact ih p g'
  | self next ih => exact ih p p g
  | become k next ih => exact ih (p.withConstruct k) g
  | demand i next ih =>
    simp only [bind, trace, run, append_assoc]
    rw [ih]
  | adjust i h next ih => exact ih (p.withParts (p.parts.modify i (Patcher.adjust h))) g
  | call i c next ih =>
    simp only [bind, trace, run]
    cases p.parts[i]? with
    | none => exact ih (.ok ()) p g
    | some child =>
      simp only [append_assoc]
      rw [ih]

namespace Patcher

/-- The events of a call, with calls nested at most `depth` deep. -/
def traceWithin (h : Hooks γ κ) : (depth : Nat) → Call → Patcher κ → γ → Trace
  | 0, _, _, _ => []
  | depth + 1, c, p, g =>
    let events (script : Script γ κ Unit) : Trace := script.trace (callWithin h depth) (traceWithin h depth) p g
    let patchAs (isValue : Bool) : Trace :=
      if p.phase = .prepared ∧ (isValue = true → h.isExpression p = true) then
        ([], .patch isValue p.site.needsValue) ::
          events (if isValue then h.patchValue p else h.patchStatement p)
      else
        []
    match c with
    | .prepare =>
      if p.phase = .constructed then
        ([], .prepare) :: events (prepareScript h p) ++
          match ((prepareScript h p).run (callWithin h depth) p g).result with
          | .ok () => [([], .prepared)]
          | .error _ => []
      else
        []
    | .patch => patchAs p.site.needsValue
    | .patchValue => patchAs true
    | .patchStatement => patchAs false

def trace (h : Hooks γ κ) (c : Call) (p : Patcher κ) (g : γ) : Trace := traceWithin h p.height c p g

/-- The events of running a whole tree of patchers. -/
def traceAll (h : Hooks Context κ) (p : Patcher κ) (g : Context) : Trace :=
  let prepared := p.call h .prepare g
  p.trace h .prepare g ++
    match prepared.result with
    | .ok () => prepared.patcher.trace h .patch prepared.context
    | .error _ => []

/-- The patchers once the whole tree was prepared and patched. -/
def afterAll (h : Hooks Context κ) (p : Patcher κ) (g : Context) : Patcher κ :=
  let prepared := p.call h .prepare g
  (prepared.patcher.call h .patch prepared.context).patcher

/-! ## Paths -/

mutual

/-- The paths to all patchers from this one down, each before those below it. -/
def paths : Patcher κ → List (List Nat)
  | mk _ _ _ parts => [] :: pathsFrom 0 parts

/-- The paths through the patchers at the places from `i` on. -/
def pathsFrom (i : Nat) : List (Patcher κ) → List (List Nat)
  | [] => []
  | p :: ps => p.paths.map (i :: ·) ++ pathsFrom (i + 1) ps

end

theorem paths_eq (p : Patcher κ) : p.paths = [] :: pathsFrom 0 p.parts := by
  cases p
  rfl

theorem exists_of_mem_pathsFrom {i : Nat} {ps : List (Patcher κ)} {path : List Nat} (h : path ∈ pathsFrom i ps) :
    ∃ j rest, i ≤ j ∧ path = j :: rest := by
  induction ps generalizing i with
  | nil => cases h
  | cons p ps ih =>
    rw [pathsFrom, mem_append] at h
    rcases h with h | h
    · obtain ⟨rest, -, rfl⟩ := mem_map.1 h
      exact ⟨i, rest, Nat.le_refl i, rfl⟩
    · obtain ⟨j, rest, hle, rfl⟩ := ih h
      exact ⟨j, rest, Nat.le_of_succ_le hle, rfl⟩

mutual

theorem nodup_paths : (p : Patcher κ) → p.paths.Nodup
  | mk _ _ _ parts => by
    rw [paths, nodup_cons]
    refine ⟨fun h => ?_, nodup_pathsFrom 0 parts⟩
    obtain ⟨j, rest, -, hpath⟩ := exists_of_mem_pathsFrom h
    cases hpath

theorem nodup_pathsFrom : (i : Nat) → (ps : List (Patcher κ)) → (pathsFrom i ps).Nodup
  | _, [] => nodup_nil
  | i, p :: ps => by
    rw [pathsFrom]
    refine nodup_append.2 ⟨?_, nodup_pathsFrom (i + 1) ps, ?_⟩
    · exact List.Pairwise.map _ (fun _ _ hne h => hne (List.cons.inj h).2) (nodup_paths p)
    · rintro path h _ h' rfl
      obtain ⟨rest, -, rfl⟩ := mem_map.1 h
      obtain ⟨j, _, hle, hpath⟩ := exists_of_mem_pathsFrom h'
      cases hpath
      omega

end

mutual

/-- Up to any point in the list of paths, a path comes with the path to the patcher above. -/
theorem parent_mem_of_isPrefix : (p : Patcher κ) → {paths' : List (List Nat)} → paths' <+: p.paths →
    ∀ path i, path ++ [i] ∈ paths' → path ∈ paths'
  | mk _ _ _ parts, paths', hprefix, path, i, hmem => by
    rw [paths] at hprefix
    obtain rfl | ⟨more, rfl, hmore⟩ := prefix_cons_iff.1 hprefix
    · cases hmem
    · rcases mem_cons.1 hmem with hnil | hmem
      · simp at hnil
      · rcases parent_mem_of_isPrefix_from 0 parts hmore path i hmem with rfl | hpath
        · exact mem_cons_self
        · exact mem_cons_of_mem _ hpath

theorem parent_mem_of_isPrefix_from : (k : Nat) → (ps : List (Patcher κ)) → {paths' : List (List Nat)} →
    paths' <+: pathsFrom k ps → ∀ path i, path ++ [i] ∈ paths' → path = [] ∨ path ∈ paths'
  | _, [], paths', hprefix, path, i, hmem => by
    rw [prefix_nil.1 hprefix] at hmem
    cases hmem
  | k, p :: ps, paths', hprefix, path, i, hmem => by
    rw [pathsFrom] at hprefix
    -- A part of the first patcher's paths, or all of them and a part of the others.
    have first {more : List (List Nat)} (hmore : more <+: p.paths) (hmem : path ++ [i] ∈ more.map (k :: ·)) :
        path = [] ∨ path ∈ more.map (k :: ·) := by
      obtain ⟨rest, hrest, heq⟩ := mem_map.1 hmem
      cases path with
      | nil => exact Or.inl rfl
      | cons j path =>
        obtain ⟨rfl, rfl⟩ := List.cons.inj heq
        exact Or.inr (mem_map_of_mem (parent_mem_of_isPrefix p hmore path i hrest))
    obtain ⟨behind, hbehind⟩ := hprefix
    rcases append_eq_append_iff.1 hbehind with ⟨rest, hrest, -⟩ | ⟨more, rfl, hmore⟩
    · obtain ⟨more, hmore, rfl⟩ := prefix_map_iff.1 ⟨rest, hrest.symm⟩
      exact first hmore hmem
    · rcases mem_append.1 hmem with hmem | hmem
      · exact (first (prefix_refl _) hmem).imp_right (mem_append_left _)
      · have := parent_mem_of_isPrefix_from (k + 1) ps ⟨behind, hmore.symm⟩ path i hmem
        exact this.imp_right (mem_append_right _)

end

/-! ## Runs -/

/-- All patchers from this one down are in the phase. -/
inductive InPhase (phase : Phase) : Patcher κ → Prop
  | intro {p : Patcher κ} (here : p.phase = phase) (parts : ∀ q ∈ p.parts, InPhase phase q) : InPhase phase p

end Patcher

/-- The error of a patcher that is called when it is not its turn. -/
def PatchError.IsOutOfTurn : PatchError → Prop
  | violation (.preparedTwice _) _ | violation (.patchedUnprepared _) _ | violation (.patchedTwice _) _ => True
  | _ => False

/-- The error of a patcher that is asked for what it cannot do. -/
def PatchError.IsViolation : PatchError → Prop
  | violation _ _ => True
  | _ => False

theorem PatchError.not_isOutOfTurn {e : PatchError} (h : ¬ e.IsViolation) : ¬ e.IsOutOfTurn := by
  cases e with
  | violation => exact absurd trivial h
  | obstacle | edit | binding => exact id

/-- Every patcher of the tree is prepared and patched in its turn, and once only. -/
structure Patcher.RunsOnce (h : Hooks Context κ) (p : Patcher κ) (g : Context) : Prop where
  preparedOnce : ((p.traceAll h g).pathsOf (· == .prepare)).Nodup
  /-- A patcher is prepared after the one above it. -/
  parentsFirst : ∀ before path i after, p.traceAll h g = before ++ (path ++ [i], .prepare) :: after →
    (path, .prepare) ∈ before
  /-- A patcher is asked for its value before it is prepared. -/
  askedFirst : ∀ path phase, (path, .demand phase) ∈ p.traceAll h g → phase = .constructed
  patchedOnce : ((p.traceAll h g).pathsOf Event.isPatch).Nodup
  /-- A patcher is patched for its value if that was asked for. -/
  patchedAsAsked : ∀ path isValue isAsked, (path, .patch isValue isAsked) ∈ p.traceAll h g → isValue = isAsked
  /-- A patcher is patched after its preparation has ended. -/
  preparedFirst : ∀ before path isValue isAsked after,
    p.traceAll h g = before ++ (path, .patch isValue isAsked) :: after → (path, .prepared) ∈ before
  /-- A run that succeeds leaves no patcher out. -/
  allPatched : (p.runAll h g).1 = .ok () → (p.traceAll h g).pathsOf Event.isPatch = p.paths ∧
    (p.afterAll h g).paths = p.paths ∧ (p.afterAll h g).InPhase .patched
  inTurn : ∀ e, (p.runAll h g).1 = .error e → ¬ e.IsOutOfTurn

end Respell
