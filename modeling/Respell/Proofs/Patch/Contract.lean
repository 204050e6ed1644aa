import Respell.Proofs.Patch.Calls

/-!
The contract between a patcher and whoever calls it.

A driver may send any sequence of requests to any patchers of a tree, in any order and whatever became of the
requests before.  The log of the run lists every call that is answered, those that constructs make on their parts
included, with the patcher and the context as they were when it came and when it was over.  `Patcher.keepsContract`
says of every log that each patcher goes from phase to phase as it should, and that a call which is turned away runs
nothing and changes nothing.
-/

namespace Respell

open List

variable {γ κ α : Type} {callee : Callee γ κ}

/-! ## Logs -/

namespace Patcher

/-- A call that was answered. -/
structure Answer (γ κ : Type) where
  call : Call
  /-- The patcher that was called, as it was then. -/
  patcher : Patcher κ
  context : γ
  /-- What became of the work that the call set off; none if it was turned away. -/
  work : Option (Except PatchError Unit)
  outcome : Outcome γ κ Unit

/-- The answers in a run in the order in which they were given, each with the path to its patcher. -/
abbrev Log (γ κ : Type) := List (List Nat × Answer γ κ)

namespace Log

/-- The log of the patcher at the end of a path, seen from above. -/
def under (path : List Nat) (log : Log γ κ) : Log γ κ := log.map fun e => (path ++ e.1, e.2)

/-- The answers of the patcher at the end of a path. -/
def atPath (path : List Nat) (log : Log γ κ) : List (Answer γ κ) :=
  log.filterMap fun e => if e.1 = path then some e.2 else none

end Log

end Patcher

open Patcher in
/-- The answers that parts give while a script is run. -/
def Script.log (callee : Call → Patcher κ → γ → Outcome γ κ Unit) (logOf : Call → Patcher κ → γ → Log γ κ) :
    Script γ κ α → Patcher κ → γ → Log γ κ
  | done _, _, _ => []
  | fail _, _, _ => []
  | read next, p, g => (next g).log callee logOf p g
  | write g next, p, _ => next.log callee logOf p g
  | self next, p, g => (next p).log callee logOf p g
  | become k next, p, g => next.log callee logOf (p.withConstruct k) g
  | demand i next, p, g => next.log callee logOf (p.withParts (p.parts.modify i Patcher.demandValue)) g
  | adjust i f next, p, g => next.log callee logOf (p.withParts (p.parts.modify i (Patcher.adjust f))) g
  | call i c next, p, g =>
    match p.parts[i]? with
    | none => (next (.ok ())).log callee logOf p g
    | some child =>
      let o := callee c child g
      (logOf c child g).under [i] ++ (next o.result).log callee logOf (p.withParts (p.parts.set i o.patcher)) o.context

open Patcher in
/-- A script's log is the same with other logs of the parts, if the two agree on patchers that are low enough. -/
theorem Script.log_congr {logOf logOf' : Call → Patcher κ → γ → Log γ κ} {depth : Nat}
    (hcallee : ∀ c q g, (callee c q g).patcher.height = q.height)
    (hsame : ∀ c (q : Patcher κ) g, q.height ≤ depth → logOf c q g = logOf' c q g) (s : Script γ κ α) (p : Patcher κ)
    (g : γ) (hp : heights p.parts ≤ depth) : s.log callee logOf p g = s.log callee logOf' p g := by
  induction s generalizing p g with
  | done a => rfl
  | fail e => rfl
  | read next ih => exact ih g p g hp
  | write g' next ih => exact ih p g' hp
  | self next ih => exact ih p p g hp
  | become k next ih => exact ih _ g (by cases p; exact hp)
  | demand i next ih => exact ih _ g (by rwa [parts_withParts, heights_modify height_demandValue])
  | adjust i f next ih => exact ih _ g (by rwa [parts_withParts, heights_modify (height_adjust f)])
  | call i c next ih =>
    rw [log, log]
    cases hchild : p.parts[i]? with
    | none => exact ih _ p g hp
    | some child =>
      have hle : child.height ≤ depth := Nat.le_trans (height_le_heights (mem_of_getElem? hchild)) hp
      simp only [hsame c child g hle]
      rw [ih _ _ _ (by rwa [parts_withParts, heights_set hchild (hcallee c child g)])]

namespace Script

open Patcher

variable {β ι : Type} {logOf : Call → Patcher κ → γ → Log γ κ} {s : Script γ κ α} {f : α → Script γ κ β} {p : Patcher κ}
  {g : γ} {e : List Nat × Answer γ κ}

/-- The answers to what is done first come before those to what is done then. -/
theorem log_bind : (s >>= f).log callee logOf p g = s.log callee logOf p g ++
    match (s.run callee p g).result with
    | .ok a => (f a).log callee logOf (s.run callee p g).patcher (s.run callee p g).context
    | .error _ => [] := by
  show (s.bind f).log callee logOf p g = _
  induction s generalizing p g with
  | done a => rfl
  | fail e => rfl
  | read next ih => exact ih g
  | write g' next ih => exact ih
  | self next ih => exact ih p
  | become k next ih => exact ih
  | demand i next ih => exact ih
  | adjust i f next ih => exact ih
  | call i c next ih =>
    simp only [bind, run, log]
    cases p.parts[i]? with
    | none => exact ih _
    | some q =>
      simp only [append_assoc]
      rw [ih]

theorem mem_log_bind (he : e ∈ (s >>= f).log callee logOf p g) :
    e ∈ s.log callee logOf p g ∨ ∃ a p' g', e ∈ (f a).log callee logOf p' g' := by
  rw [log_bind] at he
  refine (mem_append.1 he).imp_right fun he => ?_
  split at he
  · exact ⟨_, _, _, he⟩
  · cases he

theorem log_ofExcept (r : Except PatchError α) (p : Patcher κ) (g : γ) :
    (ofExcept r : Script γ κ α).log callee logOf p g = [] := by
  cases r <;> rfl

theorem log_callPart {i : Nat} {q : Patcher κ} (hq : p.parts[i]? = some q) (c : Call) (g : γ) :
    (callPart i c : Script γ κ Unit).log callee logOf p g = (logOf c q g).under [i] := by
  rw [callPart, log]
  simp only [hq, log_ofExcept, append_nil]

/-- Answers are those of the parts that are called. -/
theorem exists_of_mem_log {c : Call} {places : List Nat}
    (he : e ∈ (places.forM fun i => (callPart i c : Script γ κ Unit)).log callee logOf p g) :
    ∃ i ∈ places, ∃ q g', ∃ e' ∈ logOf c q g', e = (i :: e'.1, e'.2) := by
  induction places generalizing p g with
  | nil => cases he
  | cons i places ih =>
    rcases mem_log_bind he with he | ⟨_, p', g', he⟩
    · cases hq : p.parts[i]? with
      | none =>
        simp only [callPart, log, hq] at he
        cases he
      | some q =>
        rw [log_callPart hq] at he
        obtain ⟨e', he', rfl⟩ := mem_map.1 he
        exact ⟨i, mem_cons_self, q, g, e', he', rfl⟩
    · obtain ⟨j, hj, hpart⟩ := ih he
      exact ⟨j, mem_cons_of_mem _ hj, hpart⟩

/-- A construct calls nothing while it makes its patcher ready. -/
theorem Prepares.log_eq_nil {fits : ι → κ → Prop} {E : PatchError → Prop} {W : γ → γ → Prop} {x : ι}
    (hs : s.Prepares fits E W x g) (p : Patcher κ) : s.log callee logOf p g = [] := by
  induction s generalizing p g with
  | done a => rfl
  | fail e => rfl
  | read next ih => exact ih g hs p
  | write g' next ih => exact ih hs.2 p
  | self next ih => exact ih p (hs p) p
  | become k next ih => exact ih hs.2 _
  | demand i next ih => exact ih hs _
  | adjust i f next ih => exact ih hs.2 _
  | call => exact hs.elim

end Script

namespace Patcher

def answer (h : Hooks γ κ) (c : Call) (p : Patcher κ) (g : γ) : Answer γ κ where
  call := c
  patcher := p
  context := g
  work := if c.Welcome h p then some ((c.work h p).run (call h) p g).result else none
  outcome := p.call h c g

/-- The answers to a call and to those it leads to, nested at most `depth` deep. -/
def logWithin (h : Hooks γ κ) : (depth : Nat) → Call → Patcher κ → γ → Log γ κ
  | 0, _, _, _ => []
  | depth + 1, c, p, g =>
    (if c.Welcome h p then (c.work h p).log (call h) (logWithin h depth) p g else []) ++ [([], p.answer h c g)]

def log (h : Hooks γ κ) (c : Call) (p : Patcher κ) (g : γ) : Log γ κ := logWithin h p.height c p g

theorem logWithin_of_height_le (h : Hooks γ κ) {depth : Nat} {p : Patcher κ} (hp : p.height ≤ depth) (c : Call)
    (g : γ) : logWithin h depth c p g = p.log h c g := by
  refine eq_of_height_le (F := logWithin h) (fun depth ih c p g hparts => ?_) hp c g
  rw [logWithin, logWithin, Script.log_congr (height_call h) ih _ p g hparts]

/-- The log of a call, in terms of the logs of the parts: no answer is left out for want of depth. -/
theorem log_eq (h : Hooks γ κ) (c : Call) (p : Patcher κ) (g : γ) :
    p.log h c g = (if c.Welcome h p then (c.work h p).log (call h) (log h) p g else []) ++ [([], p.answer h c g)] := by
  rw [log, height_eq, logWithin, Script.log_congr (height_call h)
    (fun c q g hq => logWithin_of_height_le h hq c g) _ p g (Nat.le_refl _)]

/-! ## Requests -/

/-- What a driver can ask of a patcher. -/
inductive Request where
  | plain (c : Call)
  /-- To be patched, and to give its text. -/
  | render
deriving DecidableEq, Repr

namespace Request

/-- The call that a request makes. -/
def toCall : Request → Call
  | plain c => c
  | render => .patch

/-- What becomes of a request to the patcher at the end of a path; none if there is no such patcher. -/
def outcome? (h : Hooks γ κ) (view : γ → Context) (path : List Nat) (p : Patcher κ) (g : γ) :
    Request → Option (Outcome γ κ Unit)
  | plain c => p.callAt? h c path g
  | render => (p.patchAndRenderAt? h view path g).map fun o => ⟨o.result.map fun _ => (), o.patcher, o.context⟩

end Request

/-- The tree and the context after a request. -/
def afterRequest (h : Hooks γ κ) (view : γ → Context) (s : Patcher κ × γ) (r : List Nat × Request) : Patcher κ × γ :=
  match r.2.outcome? h view r.1 s.1 s.2 with
  | some o => (o.patcher, o.context)
  | none => s

/-- The tree and the context after a sequence of requests, whatever became of each of them. -/
def afterRequests (h : Hooks γ κ) (view : γ → Context) (s : Patcher κ × γ) (rs : List (List Nat × Request)) :
    Patcher κ × γ :=
  rs.foldl (afterRequest h view) s

/-- The answers to a request and to the calls it leads to. -/
def logRequest (h : Hooks γ κ) (s : Patcher κ × γ) (r : List Nat × Request) : Log γ κ :=
  match s.1.follow? r.1 with
  | some q => (q.log h r.2.toCall s.2).under r.1
  | none => []

/-- The answers to a sequence of requests. -/
def logRequests (h : Hooks γ κ) (view : γ → Context) : Patcher κ × γ → List (List Nat × Request) → Log γ κ
  | _, [] => []
  | s, r :: rs => logRequest h s r ++ logRequests h view (afterRequest h view s r) rs

/-! ## Chains of answers -/

/-- The phase of the patcher at the end of a path. -/
def phaseAt? (path : List Nat) (p : Patcher κ) : Option Phase := (p.follow? path).map phase

/-- Answers of one patcher that take it from a phase to another, each given in the phase that the one before left. -/
def Chained : Option Phase → List (Answer γ κ) → Option Phase → Prop
  | a, [], b => a = b
  | a, x :: xs, b => a = some x.patcher.phase ∧ Chained (some x.outcome.patcher.phase) xs b

/-- The log accounts for all moves of all patchers from one state of the tree to the other. -/
def Log.Leads (log : Log γ κ) (p p' : Patcher κ) : Prop :=
  ∀ path, Chained (p.phaseAt? path) (log.atPath path) (p'.phaseAt? path)

theorem Chained.append {a b c : Option Phase} {xs ys : List (Answer γ κ)} (h : Chained a xs b) (h' : Chained b ys c) :
    Chained a (xs ++ ys) c := by
  induction xs generalizing a with
  | nil => exact (show a = b from h) ▸ h'
  | cons x xs ih => exact ⟨h.1, ih h.2⟩

@[simp] theorem phaseAt?_nil (p : Patcher κ) : p.phaseAt? [] = some p.phase := rfl

theorem phaseAt?_cons (i : Nat) (path : List Nat) (p : Patcher κ) :
    p.phaseAt? (i :: path) = p.parts[i]?.bind (phaseAt? path) := by
  rw [phaseAt?, follow?]
  cases p.parts[i]? <;> rfl

theorem phaseAt?_withPhase_cons (phase : Phase) (i : Nat) (path : List Nat) (p : Patcher κ) :
    (p.withPhase phase).phaseAt? (i :: path) = p.phaseAt? (i :: path) := by
  cases p
  rfl

theorem phaseAt?_withConstruct (k : κ) (path : List Nat) (p : Patcher κ) :
    (p.withConstruct k).phaseAt? path = p.phaseAt? path := by
  cases p
  cases path <;> rfl

theorem phaseAt?_demandValue (path : List Nat) (p : Patcher κ) : p.demandValue.phaseAt? path = p.phaseAt? path := by
  cases p
  cases path <;> rfl

theorem phaseAt?_adjust (f : κ → κ) (path : List Nat) (p : Patcher κ) :
    (p.adjust f).phaseAt? path = p.phaseAt? path := by
  cases p
  cases path <;> rfl

theorem phase_withParts (p : Patcher κ) (parts : List (Patcher κ)) : (p.withParts parts).phase = p.phase := by
  cases p
  rfl

theorem phaseAt?_modify {f : Patcher κ → Patcher κ} (hf : ∀ path q, (f q).phaseAt? path = q.phaseAt? path) (i : Nat)
    (path : List Nat) (p : Patcher κ) : (p.withParts (p.parts.modify i f)).phaseAt? path = p.phaseAt? path := by
  cases path with
  | nil => rw [phaseAt?_nil, phaseAt?_nil, phase_withParts]
  | cons j path =>
    rw [phaseAt?_cons, phaseAt?_cons, parts_withParts, getElem?_modify]
    split <;> cases p.parts[j]? <;> simp [hf]

namespace Log

@[simp] theorem atPath_append (path : List Nat) (l m : Log γ κ) :
    (l ++ m).atPath path = l.atPath path ++ m.atPath path := filterMap_append

theorem atPath_under_cons (i : Nat) (path : List Nat) (l : Log γ κ) :
    (l.under [i]).atPath (i :: path) = l.atPath path := by
  simp [under, atPath, filterMap_map]

theorem atPath_under_eq_nil {i : Nat} {path : List Nat} (hpath : ∀ rest, path ≠ i :: rest) (l : Log γ κ) :
    (l.under [i]).atPath path = [] := by
  rw [under, atPath, filterMap_map, filterMap_eq_nil_iff]
  intro e _
  have hne : i :: e.1 ≠ path := fun heq => hpath e.1 heq.symm
  simp [hne]

theorem under_under (i : Nat) (path : List Nat) (l : Log γ κ) : (l.under path).under [i] = l.under (i :: path) := by
  simp [under]

theorem under_nil (l : Log γ κ) : l.under [] = l := by simp [under]

namespace Leads

variable {l m : Log γ κ} {p p' p'' : Patcher κ}

theorem of_phaseAt? (h : ∀ path, p'.phaseAt? path = p.phaseAt? path) : Log.Leads ([] : Log γ κ) p p' :=
  fun path => (h path).symm

theorem trans (h : l.Leads p p') (h' : m.Leads p' p'') : (l ++ m).Leads p p'' := by
  intro path
  rw [atPath_append]
  exact (h path).append (h' path)

/-- What moves one part moves nothing else. -/
theorem part {i : Nat} {q q' : Patcher κ} (hq : p.parts[i]? = some q) (h : l.Leads q q') :
    (l.under [i]).Leads p (p.withParts (p.parts.set i q')) := by
  intro path
  cases path with
  | nil =>
    rw [atPath_under_eq_nil (fun _ => cons_ne_nil _ _ |>.symm), phaseAt?_nil, phaseAt?_nil, phase_withParts]
    rfl
  | cons j path =>
    rw [phaseAt?_cons, phaseAt?_cons, parts_withParts]
    by_cases hj : j = i
    · subst hj
      obtain ⟨hlt, -⟩ := List.getElem?_eq_some_iff.1 hq
      rw [atPath_under_cons, hq, getElem?_set_self hlt]
      exact h path
    · rw [atPath_under_eq_nil (fun rest heq => hj (List.cons.inj heq).1), getElem?_set_ne fun heq => hj heq.symm]
      rfl

/-- What moves the patcher at the end of a path moves nothing else. -/
theorem modifyAt {path : List Nat} {q q' : Patcher κ} (hq : p.follow? path = some q) (h : l.Leads q q') :
    (l.under path).Leads p (p.modifyAt (fun _ => q') path) := by
  induction path generalizing p with
  | nil =>
    cases hq
    rw [under_nil]
    exact h
  | cons i path ih =>
    rw [follow?] at hq
    obtain ⟨child, hchild, hq⟩ := Option.bind_eq_some_iff.1 hq
    have hset : p.parts.modify i (Patcher.modifyAt (fun _ => q') path) =
        p.parts.set i (child.modifyAt (fun _ => q') path) := by
      rw [modify_eq_set_getElem?, hchild]
      rfl
    rw [Patcher.modifyAt, hset, ← under_under]
    exact part hchild (ih hq)

end Leads

end Log

end Patcher

namespace Script

open Patcher

variable {callee : Callee γ κ} {logOf : Call → Patcher κ → γ → Log γ κ}

/-- A script does not touch the phase of its own patcher. -/
theorem phase_run (s : Script γ κ α) (p : Patcher κ) (g : γ) : (s.run callee p g).patcher.phase = p.phase := by
  induction s generalizing p g with
  | done a => rfl
  | fail e => rfl
  | read next ih => exact ih g p g
  | write g' next ih => exact ih p g'
  | self next ih => exact ih p p g
  | become k next ih => exact (ih _ g).trans (by cases p; rfl)
  | demand i next ih => exact (ih _ g).trans (phase_withParts p _)
  | adjust i f next ih => exact (ih _ g).trans (phase_withParts p _)
  | call i c next ih =>
    rw [run]
    cases p.parts[i]? with
    | none => exact ih _ p g
    | some child => exact (ih _ _ _).trans (phase_withParts p _)

/-- If the answers of the parts account for the moves of the parts, they account for what a script moves. -/
theorem leads_run {depth : Nat} (hcallee : ∀ c q g, (callee c q g).patcher.height = q.height)
    (hlog : ∀ c (q : Patcher κ) g, q.height ≤ depth → (logOf c q g).Leads q (callee c q g).patcher)
    (s : Script γ κ α) (p : Patcher κ) (g : γ) (hp : heights p.parts ≤ depth) :
    (s.log callee logOf p g).Leads p (s.run callee p g).patcher := by
  induction s generalizing p g with
  | done a => exact .of_phaseAt? fun _ => rfl
  | fail e => exact .of_phaseAt? fun _ => rfl
  | read next ih => exact ih g p g hp
  | write g' next ih => exact ih p g' hp
  | self next ih => exact ih p p g hp
  | become k next ih =>
    exact (Log.Leads.of_phaseAt? fun path => phaseAt?_withConstruct k path p).trans (ih _ g (by cases p; exact hp))
  | demand i next ih =>
    exact (Log.Leads.of_phaseAt? fun path => phaseAt?_modify phaseAt?_demandValue i path p).trans
      (ih _ g (by rwa [parts_withParts, heights_modify height_demandValue]))
  | adjust i f next ih =>
    exact (Log.Leads.of_phaseAt? fun path => phaseAt?_modify (phaseAt?_adjust f) i path p).trans
      (ih _ g (by rwa [parts_withParts, heights_modify (height_adjust f)]))
  | call i c next ih =>
    rw [run, log]
    cases hchild : p.parts[i]? with
    | none => exact ih _ p g hp
    | some child =>
      have hle : child.height ≤ depth := Nat.le_trans (height_le_heights (mem_of_getElem? hchild)) hp
      exact (Log.Leads.part hchild (hlog c child g hle)).trans
        (ih _ _ _ (by rwa [parts_withParts, heights_set hchild (hcallee c child g)]))

end Script

/-! ## The contract -/

namespace Patcher

variable {callee : Callee γ κ} {path : List Nat}

/-- The answer is to a patch that went well. -/
def Answer.Patches (a : Answer γ κ) : Prop := a.call ≠ .prepare ∧ a.work = some (.ok ())

/-- The answer keeps to the contract. -/
structure Answer.Lawful (h : Hooks γ κ) (a : Answer γ κ) : Prop where
  genuine : a.outcome = a.patcher.call h a.call a.context
  /-- Nothing is run for a call out of turn, or for one that asks for a value where there is none. -/
  refused_iff : a.work = none ↔
    a.patcher.phase ≠ a.call.turn ∨ a.call.asksValue a.patcher = true ∧ h.isExpression a.patcher = false
  /-- A call that is turned away changes neither the patchers nor the context. -/
  unchanged : a.work = none → ∃ cause,
    a.outcome = ⟨.error (.violation cause a.patcher.site.content), a.patcher, a.context⟩
  result : ∀ r, a.work = some r → a.outcome.result = r
  /-- Work that goes well takes the patcher one phase further. -/
  moves : a.work = some (.ok ()) → a.patcher.phase = a.call.turn ∧ a.outcome.patcher.phase = a.call.next
  stays : a.work ≠ some (.ok ()) → a.outcome.patcher.phase = a.patcher.phase

/-- A run of requests keeps to the contract. -/
structure KeepsContract (h : Hooks γ κ) (view : γ → Context) (s : Patcher κ × γ) (rs : List (List Nat × Request)) :
    Prop where
  lawful : ∀ e ∈ logRequests h view s rs, e.2.Lawful h
  /-- All moves of all patchers are those of the answers. -/
  leads : (logRequests h view s rs).Leads s.1 (afterRequests h view s rs).1
  patchedOnce : ∀ path, ((logRequests h view s rs).atPath path).Pairwise fun a b => ¬ (a.Patches ∧ b.Patches)
  /-- A patcher is patched after it was prepared. -/
  preparedFirst : ∀ path before a after, s.1.phaseAt? path = some .constructed →
    (logRequests h view s rs).atPath path = before ++ a :: after → a.Patches →
    ∃ b ∈ before, b.call = .prepare ∧ b.outcome.result = .ok ()
  /-- After the run, a request that is turned away runs nothing and changes neither the tree nor the context. -/
  refused : ∀ path q r p g, afterRequests h view s rs = (p, g) → p.follow? path = some q →
    (q.phase ≠ r.toCall.turn ∨ r.toCall.asksValue q = true ∧ h.isExpression q = false) →
    logRequest h (p, g) (path, r) = [(path, q.answer h r.toCall g)] ∧ (q.answer h r.toCall g).work = none ∧
    ∃ cause, r.outcome? h view path p g = some ⟨.error (.violation cause q.site.content), p, g⟩

variable {h : Hooks γ κ}

theorem answer_lawful (h : Hooks γ κ) (c : Call) (p : Patcher κ) (g : γ) : (p.answer h c g).Lawful h := by
  by_cases hw : c.Welcome h p
  · obtain ⟨o, ho⟩ : ∃ o, (c.work h p).run (call h) p g = o := ⟨_, rfl⟩
    have hwork : (p.answer h c g).work = some o.result := by rw [answer, if_pos hw, ho]
    have houtcome : (p.answer h c g).outcome = advance c.next o :=
      (call_eq h c p g).trans (by rw [if_pos hw, ho])
    have hphase : o.patcher.phase = p.phase := ho ▸ Script.phase_run _ p g
    refine ⟨rfl, ?_, ?_, ?_, ?_, ?_⟩
    · rw [← Call.not_welcome_iff, hwork]
      exact ⟨fun hnone => absurd hnone (Option.some_ne_none _), fun hn => absurd hw hn⟩
    · rw [hwork]
      exact fun hnone => absurd hnone (Option.some_ne_none _)
    · rintro r hr
      obtain rfl := Option.some.inj (hwork.symm.trans hr)
      rw [houtcome, advance]
      split <;> rfl
    · intro hok
      have hres : o.result = .ok () := Option.some.inj (hwork.symm.trans hok)
      refine ⟨hw.1, ?_⟩
      rw [houtcome, advance, hres]
      cases o.patcher
      rfl
    · intro hfail
      rw [houtcome, advance]
      split
      · rename_i hres
        exact absurd (hwork.trans (congrArg some hres)) hfail
      · exact hphase
  · have hwork : (p.answer h c g).work = none := by rw [answer, if_neg hw]
    have houtcome : (p.answer h c g).outcome = p.violate g (c.fault p.phase) :=
      (call_eq h c p g).trans (if_neg hw)
    refine ⟨rfl, ?_, ?_, ?_, ?_, ?_⟩
    · rw [← Call.not_welcome_iff, hwork]
      exact ⟨fun _ => hw, fun _ => rfl⟩
    · exact fun _ => ⟨_, houtcome⟩
    · rw [hwork]
      exact fun _ hsome => absurd hsome.symm (Option.some_ne_none _)
    · rw [hwork]
      exact fun hsome => absurd hsome.symm (Option.some_ne_none _)
    · exact fun _ => congrArg (fun o : Outcome γ κ Unit => o.patcher.phase) houtcome

theorem mem_script_log {logOf : Call → Patcher κ → γ → Log γ κ} {P : Answer γ κ → Prop}
    (hlog : ∀ c q g, ∀ e ∈ logOf c q g, P e.2) (s : Script γ κ α) (p : Patcher κ) (g : γ) :
    ∀ e ∈ s.log callee logOf p g, P e.2 := by
  induction s generalizing p g with
  | done a => exact forall_mem_nil _
  | fail e => exact forall_mem_nil _
  | read next ih => exact ih g p g
  | write g' next ih => exact ih p g'
  | self next ih => exact ih p p g
  | become k next ih => exact ih _ g
  | demand i next ih => exact ih _ g
  | adjust i f next ih => exact ih _ g
  | call i c next ih =>
    rw [Script.log]
    cases p.parts[i]? with
    | none => exact ih _ p g
    | some child =>
      intro e he
      rcases mem_append.1 he with he | he
      · obtain ⟨e', he', rfl⟩ := mem_map.1 he
        exact hlog c child g e' he'
      · exact ih _ _ _ e he

theorem lawful_logWithin (depth : Nat) (c : Call) (p : Patcher κ) (g : γ) :
    ∀ e ∈ logWithin h depth c p g, e.2.Lawful h := by
  induction depth generalizing c p g with
  | zero => exact forall_mem_nil _
  | succ depth ih =>
    intro e he
    rcases mem_append.1 he with he | he
    · split at he
      · exact mem_script_log ih _ p g e he
      · cases he
    · obtain rfl := mem_singleton.1 he
      exact answer_lawful h c p g

theorem leads_log (c : Call) (p : Patcher κ) (g : γ) : (p.log h c g).Leads p (p.call h c g).patcher := by
  induction hn : p.height using Nat.strongRecOn generalizing c p g with
  | ind n ih =>
    have hlow (c : Call) (q : Patcher κ) (g : γ) (hq : q.height ≤ heights p.parts) :
        (q.log h c g).Leads q (q.call h c g).patcher := by
      refine ih q.height ?_ c q g rfl
      rw [← hn, height_eq p]
      omega
    -- The answer itself moves the patcher that was called, and no other.
    have last {p' : Patcher κ} (hphase : p'.phase = p.phase) (hbelow : ∀ i path,
        (p.call h c g).patcher.phaseAt? (i :: path) = p'.phaseAt? (i :: path)) :
        Log.Leads [([], p.answer h c g)] p' (p.call h c g).patcher := by
      intro path
      cases path with
      | nil => exact ⟨congrArg some hphase, rfl⟩
      | cons i path => exact (hbelow i path).symm
    rw [log_eq]
    by_cases hw : c.Welcome h p
    · rw [if_pos hw]
      refine (Script.leads_run (height_call h) hlow (c.work h p) p g (Nat.le_refl _)).trans
        (last (Script.phase_run _ p g) fun i path => ?_)
      rw [call_eq, if_pos hw, advance]
      split
      · exact phaseAt?_withPhase_cons _ i path _
      · rfl
    · rw [if_neg hw]
      refine last rfl fun i path => ?_
      rw [call_eq, if_neg hw]
      rfl

theorem modifyAt_follow? {p q : Patcher κ} (hq : p.follow? path = some q) : p.modifyAt (fun _ => q) path = p := by
  induction path generalizing p with
  | nil =>
    cases hq
    rfl
  | cons i path ih =>
    rw [follow?] at hq
    obtain ⟨child, hchild, hq⟩ := Option.bind_eq_some_iff.1 hq
    obtain ⟨hlt, rfl⟩ := List.getElem?_eq_some_iff.1 hchild
    rw [modifyAt, modify_eq_set_getElem?, hchild]
    show p.withParts (p.parts.set i (modifyAt (fun _ => q) path p.parts[i])) = p
    rw [ih hq, set_getElem_self]
    cases p
    rfl

theorem Request.outcome?_eq (h : Hooks γ κ) (view : γ → Context) {p q : Patcher κ} (hq : p.follow? path = some q)
    (r : Request) (g : γ) : ∃ result, r.outcome? h view path p g =
      some ⟨result, p.modifyAt (fun _ => (q.call h r.toCall g).patcher) path, (q.call h r.toCall g).context⟩ ∧
      ∀ e, (q.call h r.toCall g).result = .error e → result = .error e := by
  cases r with
  | plain c => exact ⟨_, by rw [outcome?, callAt?, hq]; rfl, fun e he => he⟩
  | render =>
    refine ⟨_, by rw [outcome?, patchAndRenderAt?, callAt?, hq]; rfl, fun e he => ?_⟩
    rw [toCall] at he
    simp only [he]
    rfl

section Requests

variable {view : γ → Context} {s : Patcher κ × γ} {q : Patcher κ} {path : List Nat}

theorem afterRequest_eq {r : List Nat × Request} (hq : s.1.follow? r.1 = some q) :
    (afterRequest h view s r).1 = s.1.modifyAt (fun _ => (q.call h r.2.toCall s.2).patcher) r.1 := by
  obtain ⟨result, hresult, -⟩ := Request.outcome?_eq h view hq r.2 s.2
  rw [afterRequest, hresult]

theorem leads_logRequest (s : Patcher κ × γ) (r : List Nat × Request) :
    (logRequest h s r).Leads s.1 (afterRequest h view s r).1 := by
  rw [logRequest]
  cases hq : s.1.follow? r.1 with
  | none =>
    have hstate : afterRequest h view s r = s := by
      obtain ⟨path, r⟩ := r
      cases r <;> simp [afterRequest, Request.outcome?, callAt?, patchAndRenderAt?, hq]
    rw [hstate]
    exact .of_phaseAt? fun _ => rfl
  | some q =>
    rw [afterRequest_eq hq]
    exact .modifyAt hq (leads_log _ _ _)

theorem lawful_logRequest (s : Patcher κ × γ) (r : List Nat × Request) : ∀ e ∈ logRequest h s r, e.2.Lawful h := by
  rw [logRequest]
  cases s.1.follow? r.1 with
  | none => exact forall_mem_nil _
  | some q =>
    intro e he
    obtain ⟨e', he', rfl⟩ := mem_map.1 he
    exact lawful_logWithin _ _ _ _ e' he'

theorem leads_logRequests (h : Hooks γ κ) (view : γ → Context) (s : Patcher κ × γ) (rs : List (List Nat × Request)) :
    (logRequests h view s rs).Leads s.1 (afterRequests h view s rs).1 := by
  induction rs generalizing s with
  | nil => exact .of_phaseAt? fun _ => rfl
  | cons r rs ih => exact (leads_logRequest s r).trans (ih (afterRequest h view s r))

theorem lawful_logRequests (h : Hooks γ κ) (view : γ → Context) (s : Patcher κ × γ) (rs : List (List Nat × Request)) :
    ∀ e ∈ logRequests h view s rs, e.2.Lawful h := by
  induction rs generalizing s with
  | nil => exact forall_mem_nil _
  | cons r rs ih =>
    intro e he
    rcases mem_append.1 he with he | he
    · exact lawful_logRequest s r e he
    · exact ih _ e he

/-- A request that is turned away changes nothing. -/
theorem outcome?_of_not_welcome {p : Patcher κ} (hq : p.follow? path = some q) {r : Request} {g : γ}
    (hw : ¬ r.toCall.Welcome h q) :
    ∃ cause, r.outcome? h view path p g = some ⟨.error (.violation cause q.site.content), p, g⟩ := by
  have hcall : q.call h r.toCall g = q.violate g (r.toCall.fault q.phase) := (call_eq h _ q g).trans (if_neg hw)
  obtain ⟨result, houtcome, hresult⟩ := Request.outcome?_eq h view hq r g
  rw [hcall] at houtcome hresult
  refine ⟨r.toCall.fault q.phase q.site.kind, ?_⟩
  rw [houtcome, hresult _ rfl]
  show some (Outcome.mk _ (p.modifyAt (fun _ => q) path) g) = _
  rw [modifyAt_follow? hq]

theorem logRequest_of_not_welcome {p : Patcher κ} (hq : p.follow? path = some q) {r : Request} {g : γ}
    (hw : ¬ r.toCall.Welcome h q) : logRequest h (p, g) (path, r) = [(path, q.answer h r.toCall g)] := by
  simp only [logRequest, hq]
  rw [log_eq, if_neg hw, Log.under]
  simp

end Requests

/-! ## What follows for one patcher -/

section Chains

variable {xs : List (Answer γ κ)} {b : Option Phase}

/-- Once it is patched, a patcher is not patched again. -/
theorem Chained.not_patches (h' : Chained (some .patched) xs b) (hxs : ∀ x ∈ xs, x.Lawful h) :
    ∀ x ∈ xs, ¬ x.Patches := by
  induction xs with
  | nil => exact forall_mem_nil _
  | cons x xs ih =>
    obtain ⟨hx, hxs⟩ := forall_mem_cons.1 hxs
    obtain ⟨hphase, hrest⟩ := h'
    have hphase := Option.some.inj hphase
    have hfails : x.work ≠ some (.ok ()) := by
      intro hwork
      have hturn := (hx.moves hwork).1
      rw [← hphase] at hturn
      cases hcall : x.call <;> rw [hcall] at hturn <;> cases hturn
    rw [hx.stays hfails, ← hphase] at hrest
    exact forall_mem_cons.2 ⟨fun hp => hfails hp.2, ih hrest hxs⟩

variable {a : Answer γ κ}

/-- Answers after which a patcher is patched. -/
theorem Answer.Lawful.phase_of_patches (ha : a.Lawful h) (hp : a.Patches) :
    a.patcher.phase = .prepared ∧ a.outcome.patcher.phase = .patched := by
  obtain ⟨hcall, hwork⟩ := hp
  have hmoves := ha.moves hwork
  cases hc : a.call with
  | prepare => exact absurd hc hcall
  | patch | patchValue | patchStatement => simpa [hc, Call.turn, Call.next] using hmoves

theorem Chained.pairwise {a : Option Phase} (h' : Chained a xs b) (hxs : ∀ x ∈ xs, x.Lawful h) :
    xs.Pairwise fun x y => ¬ (x.Patches ∧ y.Patches) := by
  induction xs generalizing a with
  | nil => exact List.Pairwise.nil
  | cons x xs ih =>
    obtain ⟨hx, hxs⟩ := forall_mem_cons.1 hxs
    refine pairwise_cons.2 ⟨?_, ih h'.2 hxs⟩
    rintro y hy ⟨hxp, hyp⟩
    have hrest := h'.2
    rw [(hx.phase_of_patches hxp).2] at hrest
    exact hrest.not_patches hxs y hy hyp

theorem Chained.exists_prepare {before after : List (Answer γ κ)}
    (h' : Chained (some .constructed) (before ++ a :: after) b) (hxs : ∀ x ∈ before ++ a :: after, x.Lawful h)
    (ha : a.Patches) : ∃ x ∈ before, x.call = .prepare ∧ x.outcome.result = .ok () := by
  induction before with
  | nil =>
    have hphase := ((hxs a mem_cons_self).phase_of_patches ha).1
    have hcontra := h'.1
    rw [hphase] at hcontra
    cases hcontra
  | cons x before ih =>
    obtain ⟨hx, hxs⟩ := forall_mem_cons.1 hxs
    obtain ⟨hphase, hrest⟩ := h'
    have hphase := Option.some.inj hphase
    by_cases hwork : x.work = some (.ok ())
    · refine ⟨x, mem_cons_self, ?_, hx.result _ hwork⟩
      have hturn := (hx.moves hwork).1
      rw [← hphase] at hturn
      cases hcall : x.call with
      | prepare => rfl
      | patch | patchValue | patchStatement =>
        rw [hcall] at hturn
        cases hturn
    · rw [hx.stays hwork, ← hphase] at hrest
      obtain ⟨y, hy, hfound⟩ := ih hrest hxs
      exact ⟨y, mem_cons_of_mem _ hy, hfound⟩

end Chains

/-- Whatever is asked of the patchers of a tree, and in whatever order, they keep to the contract. -/
theorem keepsContract (h : Hooks γ κ) (view : γ → Context) (s : Patcher κ × γ) (rs : List (List Nat × Request)) :
    KeepsContract h view s rs := by
  have lawful := lawful_logRequests h view s rs
  have leads := leads_logRequests h view s rs
  have lawfulAt (path : List Nat) : ∀ a ∈ (logRequests h view s rs).atPath path, a.Lawful h := by
    intro a ha
    obtain ⟨e, he, hea⟩ := mem_filterMap.1 ha
    split at hea
    · exact Option.some.inj hea ▸ lawful e he
    · cases hea
  refine ⟨lawful, leads, fun path => (leads path).pairwise (lawfulAt path), ?_, ?_⟩
  · intro path before a after hstart hsplit ha
    have hchain := leads path
    have hall := lawfulAt path
    rw [hstart, hsplit] at hchain
    rw [hsplit] at hall
    exact hchain.exists_prepare hall ha
  · intro path q r p g _ hq hrefused
    have hw := Call.not_welcome_iff.2 hrefused
    exact ⟨logRequest_of_not_welcome hq hw, (answer_lawful h _ q g).refused_iff.2 hrefused,
      outcome?_of_not_welcome hq hw⟩

end Patcher

end Respell
