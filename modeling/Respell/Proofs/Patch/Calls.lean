import Respell.Proofs.Patch.Walks

/-!
What a call comes to.

Nothing that a run does moves a patcher to another place.  So calls never nest deeper than a patcher is high, the bound
on their depth does not show, and a call can be said in terms of the calls of the parts (`Patcher.call_eq`): it does
its work if it is welcome, and else it is turned away.
-/

namespace Respell

open List

variable {γ κ α : Type}

/-! ## Heights -/

namespace Patcher

theorem heights_eq (ps : List (Patcher κ)) : heights ps = (ps.map height).foldr max 0 := by
  induction ps with
  | nil => rfl
  | cons p ps ih => rw [heights, ih, map_cons, foldr_cons]

theorem height_withParts (p : Patcher κ) (parts : List (Patcher κ)) :
    (p.withParts parts).height = heights parts + 1 := by
  rw [height_eq, parts_withParts]

theorem height_withPhase (phase : Phase) (p : Patcher κ) : (p.withPhase phase).height = p.height := by
  cases p
  rfl

theorem height_withConstruct (k : κ) (p : Patcher κ) : (p.withConstruct k).height = p.height := by
  cases p
  rfl

theorem heights_modify {f : Patcher κ → Patcher κ} (hf : ∀ q, (f q).height = q.height) (i : Nat)
    (ps : List (Patcher κ)) : heights (ps.modify i f) = heights ps := by
  have hsame : (ps.modify i f).map height = ps.map height := by
    refine ext_getElem? fun j => ?_
    rw [getElem?_map, getElem?_map, getElem?_modify]
    split <;> cases ps[j]? <;> simp [hf]
  rw [heights_eq, hsame, ← heights_eq]

theorem heights_set {i : Nat} {q q' : Patcher κ} {ps : List (Patcher κ)} (hq : ps[i]? = some q)
    (hh : q'.height = q.height) : heights (ps.set i q') = heights ps := by
  have hsame : (ps.set i q').map height = ps.map height := by
    refine ext_getElem? fun j => ?_
    rw [getElem?_map, getElem?_map, getElem?_set]
    split
    · subst j
      rw [hq]
      split
      · simp [hh]
      · obtain ⟨hlt, -⟩ := List.getElem?_eq_some_iff.1 hq
        contradiction
    · rfl
  rw [heights_eq, hsame, ← heights_eq]

end Patcher

namespace Script

open Patcher

variable {callee callee' : Callee γ κ}

theorem height_run (hcallee : ∀ c q g, (callee c q g).patcher.height = q.height) (s : Script γ κ α) (p : Patcher κ)
    (g : γ) : (s.run callee p g).patcher.height = p.height := by
  induction s generalizing p g with
  | done a => rfl
  | fail e => rfl
  | read next ih => exact ih g p g
  | write g' next ih => exact ih p g'
  | self next ih => exact ih p p g
  | become k next ih => exact (ih _ g).trans (height_withConstruct k p)
  | demand i next ih =>
    refine (ih _ g).trans ?_
    rw [height_withParts, heights_modify height_demandValue, ← height_eq]
  | adjust i f next ih =>
    refine (ih _ g).trans ?_
    rw [height_withParts, heights_modify (height_adjust f), ← height_eq]
  | call i c next ih =>
    rw [run]
    cases hchild : p.parts[i]? with
    | none => exact ih _ p g
    | some child =>
      refine (ih _ _ _).trans ?_
      rw [height_withParts, heights_set hchild (hcallee c child g), ← height_eq]

/-- A run is the same with another way to answer calls, if the two agree on patchers that are low enough. -/
theorem run_congr {depth : Nat} (hcallee : ∀ c q g, (callee c q g).patcher.height = q.height)
    (hsame : ∀ c (q : Patcher κ) g, q.height ≤ depth → callee c q g = callee' c q g) (s : Script γ κ α) (p : Patcher κ)
    (g : γ) (hp : heights p.parts ≤ depth) : s.run callee p g = s.run callee' p g := by
  induction s generalizing p g with
  | done a => rfl
  | fail e => rfl
  | read next ih => exact ih g p g hp
  | write g' next ih => exact ih p g' hp
  | self next ih => exact ih p p g hp
  | become k next ih => exact ih _ g (by cases p; exact hp)
  | demand i next ih => exact ih _ g (by rwa [parts_withParts, heights_modify height_demandValue])
  | adjust i f next ih => exact ih _ g (by rwa [parts_withParts, heights_modify (height_adjust f)])
  | call i c next ih =>
    rw [run, run]
    cases hchild : p.parts[i]? with
    | none => exact ih _ p g hp
    | some child =>
      have hle : child.height ≤ depth := Nat.le_trans (height_le_heights (mem_of_getElem? hchild)) hp
      simp only [← hsame c child g hle]
      exact ih _ _ _ (by rwa [parts_withParts, heights_set hchild (hcallee c child g)])

end Script

/-! ## Calls in turn -/

namespace Call

/-- The phase in which a patcher takes the call. -/
def turn : Call → Phase
  | prepare => .constructed
  | _ => .prepared

/-- The phase to which the call takes a patcher. -/
def next : Call → Phase
  | prepare => .prepared
  | _ => .patched

/-- The call asks a patcher for its value. -/
def asksValue (p : Patcher κ) : Call → Bool
  | patchValue => true
  | patch => p.site.needsValue
  | prepare | patchStatement => false

/-- What is wrong with a call that is turned away in a phase. -/
def fault : Call → Phase → Kind → Violation
  | prepare, _ => .preparedTwice
  | _, .constructed => .patchedUnprepared
  | _, .prepared => .notExpression
  | _, .patched => .patchedTwice

/-- The patcher takes the call: it is in turn, and a value is asked for only where there is one. -/
def Welcome (h : Hooks γ κ) (c : Call) (p : Patcher κ) : Prop :=
  p.phase = c.turn ∧ (c.asksValue p = true → h.isExpression p = true)

instance (h : Hooks γ κ) (c : Call) (p : Patcher κ) : Decidable (c.Welcome h p) := inferInstanceAs (Decidable (_ ∧ _))

theorem not_welcome_iff {h : Hooks γ κ} {c : Call} {p : Patcher κ} :
    ¬ c.Welcome h p ↔ p.phase ≠ c.turn ∨ c.asksValue p = true ∧ h.isExpression p = false := by
  rw [Welcome, not_and_or, Classical.not_imp, Bool.not_eq_true]

/-- The work that the call sets off. -/
def work (h : Hooks γ κ) (p : Patcher κ) (c : Call) : Script γ κ Unit :=
  match c with
  | prepare => p.prepareScript h
  | _ => if c.asksValue p then h.patchValue p else h.patchStatement p

end Call

namespace Patcher

variable (h : Hooks γ κ)

/-- A call that is welcome does its work; any other is turned away. -/
theorem callWithin_succ (depth : Nat) (c : Call) (p : Patcher κ) (g : γ) :
    callWithin h (depth + 1) c p g =
      if c.Welcome h p then advance c.next ((c.work h p).run (callWithin h depth) p g)
      else p.violate g (c.fault p.phase) := by
  cases c with
  | prepare =>
    rw [callWithin]
    by_cases hphase : p.phase = .constructed
    · have hw : Call.prepare.Welcome h p := ⟨hphase, Bool.noConfusion⟩
      simp only [hphase, hw, if_true]
      rfl
    · have hw : ¬ Call.prepare.Welcome h p := fun hw => hphase hw.1
      simp only [hphase, hw, if_false]
      rfl
  | patchStatement =>
    rw [callWithin]
    cases hphase : p.phase <;> simp [Call.Welcome, Call.turn, Call.asksValue, Call.work, Call.next, Call.fault, hphase]
  | patch =>
    rw [callWithin]
    cases hphase : p.phase <;> cases hvalue : p.site.needsValue <;> cases hexp : h.isExpression p <;>
      simp [Call.Welcome, Call.turn, Call.asksValue, Call.work, Call.next, Call.fault, hphase, hvalue, hexp]
  | patchValue =>
    rw [callWithin]
    cases hphase : p.phase <;> cases hexp : h.isExpression p <;>
      simp [Call.Welcome, Call.turn, Call.asksValue, Call.work, Call.next, Call.fault, hphase, hexp]

theorem height_advance (phase : Phase) (o : Outcome γ κ Unit) :
    (advance phase o).patcher.height = o.patcher.height := by
  rw [advance]
  split
  · exact height_withPhase phase o.patcher
  · rfl

theorem result_advance (phase : Phase) (o : Outcome γ κ Unit) : (advance phase o).result = o.result := by
  rw [advance]
  split <;> rfl

theorem context_advance (phase : Phase) (o : Outcome γ κ Unit) : (advance phase o).context = o.context := by
  rw [advance]
  split <;> rfl

theorem height_callWithin (depth : Nat) (c : Call) (p : Patcher κ) (g : γ) :
    (callWithin h depth c p g).patcher.height = p.height := by
  induction depth generalizing c p g with
  | zero => rfl
  | succ depth ih =>
    rw [callWithin_succ]
    split
    · rw [height_advance, Script.height_run ih]
    · rfl

theorem height_call (c : Call) (p : Patcher κ) (g : γ) : (p.call h c g).patcher.height = p.height :=
  height_callWithin h _ c p g

/-- What is said by depth of calls is the same from the height of a patcher on, if it is said in terms of its parts. -/
theorem eq_of_height_le {δ : Type} {F : Nat → Call → Patcher κ → γ → δ}
    (hstep : ∀ depth, (∀ c (q : Patcher κ) g, q.height ≤ depth → F (depth + 1) c q g = F depth c q g) →
      ∀ c p g, heights p.parts ≤ depth → F (depth + 2) c p g = F (depth + 1) c p g)
    {depth : Nat} {p : Patcher κ} (hp : p.height ≤ depth) (c : Call) (g : γ) : F depth c p g = F p.height c p g := by
  have more (depth : Nat) : ∀ c (p : Patcher κ) g, p.height ≤ depth → F (depth + 1) c p g = F depth c p g := by
    induction depth with
    | zero =>
      intro c p g hp
      rw [height_eq] at hp
      omega
    | succ depth ih =>
      intro c p g hp
      rw [height_eq] at hp
      exact hstep depth ih c p g (by omega)
  induction hp with
  | refl => rfl
  | step hp ih => exact (more _ c p g hp).trans ih

/-- A greater depth than the height is not made use of. -/
theorem callWithin_of_height_le {depth : Nat} {p : Patcher κ} (hp : p.height ≤ depth) (c : Call) (g : γ) :
    callWithin h depth c p g = p.call h c g := by
  refine eq_of_height_le (F := callWithin h) (fun depth ih c p g hparts => ?_) hp c g
  rw [callWithin_succ, callWithin_succ, Script.run_congr (height_callWithin h (depth + 1)) ih _ p g hparts]

/-- What a call comes to, in terms of calls of the parts. -/
theorem call_eq (c : Call) (p : Patcher κ) (g : γ) :
    p.call h c g = if c.Welcome h p then advance c.next ((c.work h p).run (call h) p g)
      else p.violate g (c.fault p.phase) := by
  rw [call, height_eq, callWithin_succ, Script.run_congr (height_callWithin h _)
    (fun c q g hq => callWithin_of_height_le h hq c g) _ p g (Nat.le_refl _)]

end Patcher

end Respell
