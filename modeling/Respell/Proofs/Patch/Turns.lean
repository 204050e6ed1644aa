import Respell.Proofs.Patch.Safety
import Respell.Proofs.Patch.Trace

/-!
Constructs that call their parts in turn.

A construct is *placed* if the parts that it names are those of its patcher, in order.  Hooks are *disciplined* if
they keep constructs placed, call nothing while they prepare, and patch all parts from the first to the last.
Then each of the two walks over a tree of patchers, the one that prepares and the one that patches, comes to the
patchers in the order of their paths (`Hooks.Disciplined.runsOnce`).
-/

namespace Respell

variable {α β γ κ ι : Type} {e : PatchError}

/-! ## Steps on the context -/

namespace Patching

/-- The step does not fail as a call does that is turned away. -/
def Mild (m : Patching α) : Prop := ∀ g, Safe (fun e => ¬ e.IsViolation) m g fun _ _ => True

namespace Mild

variable {f : α → Patching PUnit}

theorem pure (a : α) : Mild (Pure.pure a) := fun _ => trivial

theorem bind {m : Patching α} {f : α → Patching β} (hm : Mild m) (hf : ∀ a, Mild (f a)) : Mild (m >>= f) :=
  fun g => (hm g).bind fun a g' _ => hf a g'

theorem get : Mild get := fun _ => trivial

theorem set (g : Context) : Mild (set g) := fun _ => trivial

theorem modify (f : Context → Context) : Mild (modify f) := fun _ => trivial

theorem modifyGet (f : Context → α × Context) : Mild (modifyGet f) := fun _ => trivial

theorem edit (f : Editor → Except EditError Editor) : Mild (edit f) := by
  refine Mild.get.bind fun cx => ?_
  split
  · exact set _
  · exact fun _ => id

theorem rendered (f : Editor → Except EditError String) : Mild (rendered f) := by
  refine Mild.get.bind fun cx => ?_
  split
  · exact pure _
  · exact fun _ => id

theorem claim (scope : Nat) (hint : String) (range : Span) : Mild (claim scope hint range) :=
  fun _ => Safe.claim id fun _ _ => trivial

theorem forM {xs : List α} (hf : ∀ x, Mild (f x)) : Mild (xs.forM f) := by
  induction xs with
  | nil => exact pure _
  | cons x xs ih => exact (hf x).bind fun _ => ih

theorem option_forM {o : Option α} (hf : ∀ x, Mild (f x)) : Mild (o.forM f) := by
  cases o with
  | none => exact pure _
  | some x => exact hf x

theorem insertLineBefore (s : Site) (line : String) : Mild (insertLineBefore s line) := Mild.get.bind fun _ => edit _

theorem prependLineBefore (s : Site) (line : String) : Mild (prependLineBefore s line) :=
  Mild.get.bind fun _ => edit _

theorem surroundInParens (s : Site) : Mild (surroundInParens s) := by
  unfold Patching.surroundInParens
  split
  · exact pure _
  · exact (edit _).bind fun _ => edit _

end Mild

end Patching

/-! ## Scripts that call parts in turn -/

/-- How a call in its turn may fail.  That there is a `return` in a function without braces comes out while the
function is prepared. -/
structure Call.Allows (c : Call) (e : PatchError) : Prop where
  inTurn : ¬ e.IsOutOfTurn
  conciseReturn : c ≠ .prepare → ∀ range, e ≠ .violation .conciseReturn range

theorem Call.Allows.of_not_isViolation {c : Call} (h : ¬ e.IsViolation) : c.Allows e :=
  ⟨PatchError.not_isOutOfTurn h, fun _ _ he => h (he ▸ trivial)⟩

theorem Call.Allows.prepare (h : ¬ e.IsOutOfTurn) : Call.prepare.Allows e :=
  ⟨h, fun hc => absurd rfl hc⟩

theorem Call.Allows.notExpression (c : Call) (kind : Kind) (range : Span) :
    c.Allows (.violation (.notExpression kind) range) := ⟨id, fun _ _ he => by cases he⟩

namespace Script

/-- The script calls the parts from place `k` on, of `n` in all, one after the other, and does nothing else to the
patcher.  It ends with `Q` of its result and of the place it has come to. -/
inductive InTurn (c : Call) (n : Nat) : Script γ κ α → (k : Nat) → (α → Nat → Prop) → Prop
  | done {a : α} {k : Nat} {Q : α → Nat → Prop} (h : Q a k) : InTurn c n (done a) k Q
  | fail {e : PatchError} {k : Nat} {Q : α → Nat → Prop} (h : c.Allows e) : InTurn c n (fail e) k Q
  | read {next : γ → Script γ κ α} {k : Nat} {Q : α → Nat → Prop} (h : ∀ g, InTurn c n (next g) k Q) :
    InTurn c n (read next) k Q
  | write {g : γ} {next : Script γ κ α} {k : Nat} {Q : α → Nat → Prop} (h : InTurn c n next k Q) :
    InTurn c n (write g next) k Q
  | call {k : Nat} {next : Except PatchError Unit → Script γ κ α} {Q : α → Nat → Prop} (hlt : k < n)
    (hnext : InTurn c n (next (.ok ())) (k + 1) Q) (hfail : ∀ e, next (.error e) = fail e) :
    InTurn c n (call k c next) k Q

namespace InTurn

variable {c : Call} {n k : Nat} {Q : α → Nat → Prop} {R : β → Nat → Prop} {s : Script γ κ α}

theorem pure {a : α} (h : Q a k) : (Pure.pure a : Script γ κ α).InTurn c n k Q := done h

theorem bind {f : α → Script γ κ β} (hs : s.InTurn c n k Q) (hf : ∀ a k, Q a k → (f a).InTurn c n k R) :
    (s >>= f).InTurn c n k R := by
  show (s.bind f).InTurn c n k R
  induction hs with
  | done h => exact hf _ _ h
  | fail h => exact fail h
  | read h ih => exact read fun g => ih g hf
  | write h ih => exact write (ih hf)
  | call hlt hnext hfail ih =>
    refine call hlt (ih hf) fun e => ?_
    rw [hfail e]
    rfl

theorem mono {R : α → Nat → Prop} (hs : s.InTurn c n k Q) (h : ∀ a k, Q a k → R a k) : s.InTurn c n k R := by
  induction hs with
  | done hQ => exact done (h _ _ hQ)
  | fail he => exact fail he
  | read _ ih => exact read fun g => ih g h
  | write _ ih => exact write (ih h)
  | call hlt _ hfail ih => exact call hlt (ih h) hfail

theorem step {m : Patching α} (hm : m.Mild) : (liftM m : Script Context κ α).InTurn c n k fun _ k' => k' = k := by
  refine read fun g => write ?_
  have h := hm g
  unfold Patching.Safe at h
  show (ofExcept (m g).1 : Script Context κ α).InTurn c n k fun _ k' => k' = k
  generalize m g = r at h
  obtain ⟨r, g'⟩ := r
  cases r with
  | ok a => exact done rfl
  | error e => exact fail (.of_not_isViolation h)

theorem callPart (h : k < n) : (Script.callPart k c : Script γ κ Unit).InTurn c n k fun _ k' => k' = k + 1 :=
  call h (done rfl) fun _ => rfl

theorem forM_callPart (m : Nat) (h : k + m = n) :
    ((List.range' k m).forM fun i => (Script.callPart i c : Script γ κ Unit)).InTurn c n k fun _ k' => k' = n := by
  induction m generalizing k with
  | zero => exact done h
  | succ m ih =>
    refine (callPart (by omega)).bind ?_
    rintro _ _ rfl
    exact ih (by omega)

end InTurn

/-- The script makes a patcher of the sort `x` ready: it may ask the parts for their values and adjust them, but it
calls none of them.  Constructs go on fitting the sorts of their patchers, the context moves by `W`, and failures are
in `E`. -/
def Prepares (fits : ι → κ → Prop) (E : PatchError → Prop) (W : γ → γ → Prop) (x : ι) : Script γ κ α → γ → Prop
  | done _, _ => True
  | fail e, _ => E e
  | read next, g => (next g).Prepares fits E W x g
  | write g' next, g => W g g' ∧ next.Prepares fits E W x g'
  | self next, g => ∀ p, (next p).Prepares fits E W x g
  | become k next, g => fits x k ∧ next.Prepares fits E W x g
  | demand _ next, g => next.Prepares fits E W x g
  | adjust _ f next, g => (∀ y k, fits y k → fits y (f k)) ∧ next.Prepares fits E W x g
  | call _ _ _, _ => False

namespace Prepares

variable {fits : ι → κ → Prop} {E : PatchError → Prop} {W : γ → γ → Prop} {x : ι} {g : γ} {f : α → Script γ κ PUnit}

theorem pure (a : α) : (Pure.pure a : Script γ κ α).Prepares fits E W x g := trivial

theorem bind {s : Script γ κ α} {f : α → Script γ κ β} (hs : s.Prepares fits E W x g)
    (hf : ∀ a g, (f a).Prepares fits E W x g) : (s >>= f).Prepares fits E W x g := by
  show (s.bind f).Prepares fits E W x g
  induction s generalizing g with
  | done a => exact hf a g
  | fail e => exact hs
  | read next ih => exact ih g hs
  | write g' next ih => exact ⟨hs.1, ih hs.2⟩
  | self next ih => exact fun p => ih p (hs p)
  | become k next ih => exact ⟨hs.1, ih hs.2⟩
  | demand i next ih => exact ih hs
  | adjust i f next ih => exact ⟨hs.1, ih hs.2⟩
  | call => exact hs.elim

theorem demandValue (i : Nat) : (Script.demandValue i : Script γ κ Unit).Prepares fits E W x g := trivial

theorem forM {xs : List α} (hf : ∀ y g, (f y).Prepares fits E W x g) : (xs.forM f).Prepares fits E W x g := by
  induction xs generalizing g with
  | nil => trivial
  | cons y xs ih => exact (hf y g).bind fun _ _ => ih

theorem option_forM {o : Option α} (hf : ∀ y, (f y).Prepares fits E W x g) : (o.forM f).Prepares fits E W x g := by
  cases o with
  | none => trivial
  | some y => exact hf y

end Prepares

end Script

/-- The work of patching a patcher. -/
def Patcher.patchScript (h : Hooks γ κ) (p : Patcher κ) : Script γ κ Unit :=
  if p.site.needsValue then h.patchValue p else h.patchStatement p

/-- The hooks keep constructs placed, call nothing while they prepare, and patch all parts in turn. -/
structure Hooks.Disciplined (h : Hooks γ κ) (Placed : κ → Nat → Prop) : Prop where
  prepare : ∀ p : Patcher κ, Placed p.construct p.parts.length → ∀ g,
    (h.prepare p).Prepares (flip Placed) (fun e => ¬ e.IsOutOfTurn) (fun _ _ => True) p.parts.length g
  finish : ∀ (p : Patcher κ) n, (h.finish p).InTurn .prepare n n fun _ k => k = n
  patch : ∀ p : Patcher κ, Placed p.construct p.parts.length →
    (p.patchScript h).InTurn .patch p.parts.length 0 fun _ k => k = p.parts.length

end Respell
