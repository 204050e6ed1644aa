import Mathlib.Algebra.GroupWithZero.Nat
import Respell.Proofs.Patch.Answers
import Respell.Proofs.Patch.Frames

/-!
Tallies.

A tally tells what was added from one context to another.  What a script adds by itself can be said without its parts
(`Script.Adds`).  If the script calls its parts in turn, it adds this and what its parts add, each of them once
(`Script.InTurn.exists_tally`), and what is so after a part is so in the end (`Script.InTurn.exists_part`).

In the same way all that is called by a script in turn can be listed: each patcher of a tree answers once, and as it was
when the tree was called (`Hooks.Disciplined.mem_log_patch`).
-/

namespace Respell

open List

variable {γ κ α β : Type} {D : γ → Nat → γ → Prop}

/-- What is added on the way is added in all. -/
class Additive (D : γ → Nat → γ → Prop) : Prop where
  refl (g : γ) : D g 0 g
  trans {g g₁ g' : γ} {m m' : Nat} : D g m g₁ → D g₁ m' g' → D g (m + m') g'

namespace Script

variable {callee : Callee γ κ}

/-! ## What a script adds -/

/-- The script, which has come from `g₀` to `g`, adds a number by itself, and ends with `Q` of its result and of that
number. -/
def Adds (D : γ → Nat → γ → Prop) : Script γ κ α → (g₀ g : γ) → (α → Nat → Prop) → Prop
  | done a, g₀, g, Q => ∃ m, D g₀ m g ∧ Q a m
  | fail _, _, _, _ => True
  | read next, g₀, g, Q => (next g).Adds D g₀ g Q
  | write g next, g₀, _, Q => next.Adds D g₀ g Q
  | call _ _ next, g₀, g, Q => ∃ m, D g₀ m g ∧ ∀ g', (next (.ok ())).Adds D g' g' fun a m' => Q a (m + m')
  | self _, _, _, _ | become _ _, _, _, _ | demand _ _, _, _, _ | adjust _ _ _, _, _, _ => False

/-- The script adds `m` in any context, and its result is so. -/
def Brings (D : γ → Nat → γ → Prop) (s : Script γ κ α) (m : Nat) (Q : α → Prop) : Prop :=
  ∀ g, s.Adds D g g fun a m' => m' = m ∧ Q a

section Adds

variable {s : Script γ κ α} {Q : α → Nat → Prop} {g₀ g : γ}

theorem Adds.mono {R : α → Nat → Prop} (h : s.Adds D g₀ g Q) (hQ : ∀ a m, Q a m → R a m) : s.Adds D g₀ g R := by
  induction s generalizing g₀ g Q R with
  | done a =>
    obtain ⟨m, hm, h⟩ := h
    exact ⟨m, hm, hQ a m h⟩
  | fail e => trivial
  | read next ih => exact ih g h hQ
  | write g' next ih => exact ih h hQ
  | call i c next ih =>
    obtain ⟨m, hm, h⟩ := h
    exact ⟨m, hm, fun g' => ih _ (h g') fun a m' => hQ a (m + m')⟩
  | self | become | demand | adjust => exact h.elim

/-- What was added before counts as well. -/
theorem Adds.shift [Additive D] {g₁ : γ} {m : Nat} (hm : D g₀ m g₁) (h : s.Adds D g₁ g fun a m' => Q a (m + m')) :
    s.Adds D g₀ g Q := by
  induction s generalizing g₁ g Q with
  | done a =>
    obtain ⟨m', hm', h⟩ := h
    exact ⟨m + m', Additive.trans hm hm', h⟩
  | fail e => trivial
  | read next ih => exact ih g hm h
  | write g' next ih => exact ih hm h
  | call i c next ih =>
    obtain ⟨m', hm', h⟩ := h
    refine ⟨m + m', Additive.trans hm hm', fun g' => ?_⟩
    simpa only [Nat.add_assoc] using h g'
  | self | become | demand | adjust => exact h.elim

theorem Adds.bind [Additive D] {f : α → Script γ κ β} {R : β → Nat → Prop} (h : s.Adds D g₀ g Q)
    (hf : ∀ a m g', Q a m → (f a).Adds D g' g' fun b m' => R b (m + m')) : (s >>= f).Adds D g₀ g R := by
  show (s.bind f).Adds D g₀ g R
  induction s generalizing g₀ g Q R with
  | done a =>
    obtain ⟨m, hm, h⟩ := h
    exact (hf a m g h).shift hm
  | fail e => trivial
  | read next ih => exact ih g h hf
  | write g' next ih => exact ih h hf
  | call i c next ih =>
    obtain ⟨m, hm, h⟩ := h
    refine ⟨m, hm, fun g' => ih _ (h g') fun a m' g'' ha => ?_⟩
    simpa only [Nat.add_assoc] using hf a (m + m') g'' ha
  | self | become | demand | adjust => exact h.elim

end Adds

namespace Brings

variable {m m' : Nat} {Q : α → Prop} {R : β → Prop} {s : Script γ κ α} {f : α → Script γ κ PUnit} {o : Option α}

theorem fail {e : PatchError} : (Script.fail e : Script γ κ α).Brings D m Q := fun _ => trivial

theorem step {D : Context → Nat → Context → Prop} {s : Patching α}
    (h : ∀ g, Patching.Safe (fun _ => True) s g fun a g' => D g m g' ∧ Q a) :
    (liftM s : Script Context κ α).Brings D m Q := by
  intro g
  have h := h g
  unfold Patching.Safe at h
  show (ofExcept (s g).1 : Script Context κ α).Adds D g (s g).2 _
  generalize s g = r at h
  obtain ⟨r, g'⟩ := r
  cases r with
  | ok a => exact ⟨m, h.1, rfl, h.2⟩
  | error e => trivial

theorem ite {b : Prop} [Decidable b] {s' : Script γ κ α} (hs : b → s.Brings D m Q) (hs' : ¬ b → s'.Brings D m Q) :
    (if b then s else s').Brings D m Q := by
  split
  · exact hs ‹_›
  · exact hs' ‹_›

variable [Additive D]

theorem pure {a : α} (h : Q a) : (Pure.pure a : Script γ κ α).Brings D 0 Q := fun _ => ⟨0, Additive.refl _, rfl, h⟩

theorem bind {f : α → Script γ κ β} (h : s.Brings D m Q) (hf : ∀ a, Q a → (f a).Brings D m' R) :
    (s >>= f).Brings D (m + m') R := by
  refine fun g => (h g).bind ?_
  rintro a _ g' ⟨rfl, ha⟩
  exact (hf a ha g').mono fun _ _ h' => ⟨congrArg _ h'.1, h'.2⟩

theorem after {f : α → Script γ κ β} (h : s.Brings D 0 Q) (hf : ∀ a, Q a → (f a).Brings D m R) :
    (s >>= f).Brings D m R := by
  have := h.bind hf
  rwa [Nat.zero_add] at this

theorem patch (i : Nat) : (Script.patch i : Script γ κ Unit).Brings D 0 fun _ => True :=
  fun _ => ⟨0, Additive.refl _, fun _ => ⟨0, Additive.refl _, rfl, trivial⟩⟩

theorem when {b : Prop} [Decidable b] {s : Script γ κ PUnit} {f : PUnit → Script γ κ β} {P : PUnit → Prop}
    (hs : b → s.Brings D 0 P) (hf : (f ⟨⟩).Brings D m R) : (if b then s >>= f else f ⟨⟩).Brings D m R :=
  ite (fun hb => (hs hb).after fun _ _ => hf) fun _ => hf

theorem forM {xs : List α} {m : α → Nat} (h : ∀ x ∈ xs, (f x).Brings D (m x) fun _ => True) :
    (xs.forM f).Brings D (xs.map m).sum fun _ => True := by
  induction xs with
  | nil => exact pure trivial
  | cons x xs ih =>
    obtain ⟨hx, hxs⟩ := forall_mem_cons.1 h
    exact hx.bind fun _ _ => ih hxs

/-- Nothing is added by things that add nothing. -/
theorem forM_zero {xs : List α} (h : ∀ x ∈ xs, (f x).Brings D 0 fun _ => True) :
    (xs.forM f).Brings D 0 fun _ => True := by
  have hall := forM h
  rwa [map_const', sum_replicate_nat, Nat.mul_zero] at hall

theorem option_forM (h : ∀ x, o = some x → (f x).Brings D 0 fun _ => True) : (o.forM f).Brings D 0 fun _ => True := by
  cases o with
  | none => exact pure trivial
  | some x => exact h x rfl

theorem option_mapM {f : α → Script γ κ β} (h : ∀ x, (f x).Brings D 0 fun _ => True) :
    (o.mapM f).Brings D 0 fun _ => True := by
  cases o with
  | none => exact pure trivial
  | some x => exact (h x).after fun _ _ => pure trivial

end Brings

/-! ## What a script and its parts add -/

section Parts

variable [Additive D] {c : Call} {R : Nat → γ → γ → Prop} {s : Script γ κ α} {k : Nat} {Q S : α → Nat → Prop}
  {g₀ g g' : γ} {a : α}

/-- A script that calls its parts in turn adds what it adds by itself and what the parts add that are left. -/
theorem InTurn.exists_tally {ws : List Nat} (hR : ∀ i w, ws[i]? = some w → ∀ g g', R i g g' → D g w g')
    (hs : s.InTurn c ws.length k Q) (hadds : s.Adds D g₀ g S) (hdoes : s.Does R g a g') :
    ∃ k' m total, Q a k' ∧ S a m ∧ D g₀ total g' ∧ total + (ws.drop k').sum = m + (ws.drop k).sum := by
  induction hs generalizing g₀ g S with
  | @done _ k _ h =>
    obtain ⟨rfl, rfl⟩ := hdoes
    obtain ⟨m, hm, hS⟩ := hadds
    exact ⟨k, m, m, h, hS, hm, rfl⟩
  | fail => exact hdoes.elim
  | read _ ih => exact ih g hadds hdoes
  | write _ ih => exact ih hadds hdoes
  | @call k _ _ hlt _ _ ih =>
    obtain ⟨g₁, hcall, hdoes⟩ := hdoes
    obtain ⟨m, hm, hadds⟩ := hadds
    obtain ⟨k', m', total, hQ, hS, htotal, hsum⟩ := ih (hadds g₁) hdoes
    have hpart := hR k _ (getElem?_eq_getElem hlt) g g₁ hcall
    refine ⟨k', m + m', _, hQ, hS, Additive.trans hm (Additive.trans hpart htotal), ?_⟩
    rw [drop_eq_getElem_cons hlt, sum_cons]
    omega

/-- Like what it does itself, a script only adds if its parts do. -/
theorem Adds.exists_of_does (hR : ∀ i g g', R i g g' → ∃ m, D g m g') (hadds : s.Adds D g₀ g S)
    (hdoes : s.Does R g a g') : ∃ m, D g₀ m g' := by
  induction s generalizing g₀ g S with
  | done b =>
    obtain ⟨-, rfl⟩ := hdoes
    exact hadds.imp fun _ h => h.1
  | read next ih => exact ih g hadds hdoes
  | write g₁ next ih => exact ih hadds hdoes
  | call i c next ih =>
    obtain ⟨g₁, hcall, hdoes⟩ := hdoes
    obtain ⟨m, hm, hadds⟩ := hadds
    obtain ⟨w, hw⟩ := hR i g g₁ hcall
    obtain ⟨m', hm'⟩ := ih _ (hadds g₁) hdoes
    exact ⟨_, Additive.trans hm (Additive.trans hw hm')⟩
  | fail | self | become | demand | adjust => exact hdoes.elim

/-- Each of the parts that are left was called on the way. -/
theorem InTurn.exists_part {n : Nat} (hR : ∀ i g g', R i g g' → ∃ m, D g m g') (hs : s.InTurn c n k Q)
    (hadds : s.Adds D g₀ g S) (hdoes : s.Does R g a g') : ∃ k', Q a k' ∧
      ∀ i, k ≤ i → i < k' → ∃ g₁ g₂ m m', D g₀ m g₁ ∧ R i g₁ g₂ ∧ D g₂ m' g' := by
  induction hs generalizing g₀ g S with
  | @done _ k _ h =>
    obtain ⟨rfl, rfl⟩ := hdoes
    exact ⟨k, h, fun i hle hlt => by omega⟩
  | fail => exact hdoes.elim
  | read _ ih => exact ih g hadds hdoes
  | write _ ih => exact ih hadds hdoes
  | @call k _ _ hlt _ _ ih =>
    obtain ⟨g₁, hcall, hdoes⟩ := hdoes
    obtain ⟨m, hm, hadds⟩ := hadds
    obtain ⟨w, hw⟩ := hR k g g₁ hcall
    obtain ⟨m', hm'⟩ := (hadds g₁).exists_of_does hR hdoes
    obtain ⟨k', hQ, hall⟩ := ih (hadds g₁) hdoes
    refine ⟨k', hQ, fun i hle hi => ?_⟩
    rcases Nat.eq_or_lt_of_le hle with rfl | hle
    · exact ⟨g, g₁, m, m', hm, hcall, hm'⟩
    · obtain ⟨g₂, g₃, m₂, m₃, h₂, hpart, h₃⟩ := hall i hle hi
      exact ⟨g₂, g₃, _, m₃, Additive.trans hm (Additive.trans hw h₂), hpart, h₃⟩

end Parts

/-! ## What answers -/

/-- All that answers while parts are called in turn are the parts that are left, each of them as it was in the
beginning. -/
theorem InTurn.log_of_ok (logOf : Call → Patcher κ → γ → Patcher.Log γ κ) {c : Call} {n k : Nat} {Q : α → Nat → Prop}
    {s : Script γ κ α} (hs : s.InTurn c n k Q) {p : Patcher κ} (hp : p.parts.length = n) {g : γ} {a : α}
    (hok : (s.run callee p g).result = .ok a) :
    (∀ e ∈ s.log callee logOf p g, ∃ i q g', k ≤ i ∧ p.parts[i]? = some q ∧ (callee c q g').result = .ok () ∧
      e ∈ (logOf c q g').under [i]) ∧
    ∃ k', Q a k' ∧ ∀ i q, k ≤ i → i < k' → p.parts[i]? = some q →
      ∃ g', (callee c q g').result = .ok () ∧ ∀ e ∈ (logOf c q g').under [i], e ∈ s.log callee logOf p g := by
  induction hs generalizing p g with
  | @done _ k _ h =>
    cases hok
    exact ⟨forall_mem_nil _, k, h, fun i _ hle hlt => by omega⟩
  | fail => cases hok
  | read _ ih => exact ih g hp hok
  | write _ ih => exact ih hp hok
  | @call k next _ hlt hnext hfail ih =>
    have hq : p.parts[k]? = some p.parts[k] := getElem?_eq_getElem (hp ▸ hlt)
    rw [run, hq] at hok
    rw [log, hq]
    generalize p.parts[k] = q at hq hok
    dsimp only at hok ⊢
    cases hr : (callee c q g).result with
    | error e =>
      rw [hr, hfail] at hok
      cases hok
    | ok u =>
      rw [hr] at hok
      -- The parts behind this one are as they were.
      have hsame {i : Nat} (hi : k + 1 ≤ i) :
          (p.withParts (p.parts.set k (callee c q g).patcher)).parts[i]? = p.parts[i]? := by
        rw [Patcher.parts_withParts, getElem?_set_ne (by omega)]
      obtain ⟨hmem, k', hQ, hall⟩ := ih (by simpa using hp) hok
      refine ⟨forall_mem_append.2 ⟨fun e he => ⟨k, q, g, Nat.le_refl k, hq, hr, he⟩, fun e he => ?_⟩, k', hQ,
        fun i r hle hlt hi => ?_⟩
      · obtain ⟨i, r, g', hle, hi, hok', he⟩ := hmem e he
        exact ⟨i, r, g', by omega, hsame hle ▸ hi, hok', he⟩
      · rcases Nat.eq_or_lt_of_le hle with rfl | hle
        · cases hq.symm.trans hi
          exact ⟨g, hr, fun e he => mem_append_left _ he⟩
        · obtain ⟨g', hok', he⟩ := hall i r hle hlt ((hsame hle).trans hi)
          exact ⟨g', hok', fun e h => mem_append_right _ (he e h)⟩

end Script

/-- When a tree of patchers has been patched, each of its patchers has answered once it was patched itself, as it was in
the beginning. -/
theorem Hooks.Disciplined.mem_log_patch {h : Hooks γ κ} {Placed : κ → Nat → Prop} (hd : h.Disciplined Placed)
    {p : Patcher κ} (hp : p.Tidy Placed .prepared) {g : γ} (hok : (p.call h .patch g).result = .ok ()) :
    (∀ e ∈ p.log h .patch g, p.follow? e.1 = some e.2.patcher ∧ e.2.patcher.Tidy Placed .prepared ∧
      (∃ g', e.2 = e.2.patcher.answer h .patch g') ∧ e.2.outcome.result = .ok ()) ∧
    ∀ path q, p.follow? path = some q → ∃ e ∈ p.log h .patch g, e.1 = path ∧ e.2.patcher = q := by
  induction hp generalizing g with
  | @intro p here placed parts ih =>
    have hcall := hok
    rw [Patcher.call_eq] at hcall
    split at hcall
    case isFalse => cases hcall
    case isTrue hw =>
    rw [Patcher.result_advance] at hcall
    obtain ⟨hmem, k', rfl, hall⟩ := (hd.patch p placed).log_of_ok (Patcher.log h) rfl hcall
    have hlog : p.log h .patch g = (p.patchScript h).log (Patcher.call h) (Patcher.log h) p g ++
        [([], p.answer h .patch g)] := by
      rw [Patcher.log_eq, if_pos hw]
      rfl
    rw [hlog]
    have hself : p.Tidy Placed .prepared := ⟨here, placed, parts⟩
    refine ⟨forall_mem_append.2 ⟨fun e he => ?_, forall_mem_singleton.2 ⟨rfl, hself, ⟨g, rfl⟩, hok⟩⟩, ?_⟩
    · obtain ⟨i, q, g', -, hq, hok', he⟩ := hmem e he
      obtain ⟨e', he', rfl⟩ := mem_map.1 he
      refine ⟨?_, ((ih q (mem_of_getElem? hq) hok').1 e' he').2⟩
      rw [singleton_append, Patcher.follow?_cons, hq]
      exact ((ih q (mem_of_getElem? hq) hok').1 e' he').1
    · rintro (_ | ⟨i, path⟩) q hq
      · cases hq
        exact ⟨_, mem_append_right _ (mem_singleton_self _), rfl, rfl⟩
      · rw [Patcher.follow?_cons] at hq
        obtain ⟨r, hr, hq⟩ := Option.bind_eq_some_iff.1 hq
        obtain ⟨g', hok', hin⟩ := hall i r (Nat.zero_le i) (List.getElem?_eq_some_iff.1 hr).1 hr
        obtain ⟨e, he, hpath, hpatcher⟩ := (ih r (mem_of_getElem? hr) hok').2 path q hq
        exact ⟨_, mem_append_left _ (hin _ (mem_map_of_mem he)), congrArg (i :: ·) hpath, hpatcher⟩

end Respell
