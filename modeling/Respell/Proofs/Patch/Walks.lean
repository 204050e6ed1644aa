import Respell.Proofs.Patch.Turns

/-!
The two walks over a tree of patchers.

The first walk prepares the patchers, the second patches them.  With disciplined hooks each of them starts at the
patchers in the order of their paths, up to where an error stops it (`Hooks.Disciplined.answers_prepare`,
`Hooks.Disciplined.answers_patch`).  So a run comes to every patcher once (`Hooks.Disciplined.runsOnce`).
-/

namespace Respell

open List

variable {α β γ κ : Type} {Placed : κ → Nat → Prop}

/-! ## Tidy trees -/

/-- All patchers from this one down are in the phase, and their constructs are placed. -/
inductive Patcher.Tidy (Placed : κ → Nat → Prop) (phase : Phase) : Patcher κ → Prop
  | intro {p : Patcher κ} (here : p.phase = phase) (placed : Placed p.construct p.parts.length)
    (parts : ∀ q ∈ p.parts, Tidy Placed phase q) : Tidy Placed phase p

namespace Patcher

variable {Placed : κ → Nat → Prop} {phase : Phase} {p : Patcher κ}

theorem Tidy.inPhase (h : p.Tidy Placed phase) : p.InPhase phase := by
  induction h with
  | intro here _ _ ih => exact .intro here ih

theorem Tidy.demandValue (h : p.Tidy Placed phase) : p.demandValue.Tidy Placed phase := by
  obtain ⟨here, placed, parts⟩ := h
  cases p
  exact .intro here placed parts

theorem Tidy.adjust (h : p.Tidy Placed phase) {f : κ → κ} (hf : ∀ k m, Placed k m → Placed (f k) m) :
    (p.adjust f).Tidy Placed phase := by
  obtain ⟨here, placed, parts⟩ := h
  cases p
  exact .intro here (hf _ _ placed) parts

@[simp] theorem paths_demandValue (p : Patcher κ) : p.demandValue.paths = p.paths := by
  cases p
  rfl

@[simp] theorem paths_adjust (f : κ → κ) (p : Patcher κ) : (p.adjust f).paths = p.paths := by
  cases p
  rfl

@[simp] theorem height_demandValue (p : Patcher κ) : p.demandValue.height = p.height := by
  cases p
  rfl

@[simp] theorem height_adjust (f : κ → κ) (p : Patcher κ) : (p.adjust f).height = p.height := by
  cases p
  rfl

theorem pathsFrom_modify {f : Patcher κ → Patcher κ} (hf : ∀ q, (f q).paths = q.paths) (i k : Nat)
    (ps : List (Patcher κ)) : pathsFrom k (ps.modify i f) = pathsFrom k ps := by
  induction ps generalizing i k with
  | nil => rw [modify_nil]
  | cons p ps ih =>
    cases i with
    | zero => simp [pathsFrom, hf]
    | succ i => simp [pathsFrom, ih]

end Patcher

theorem forall_mem_modify {P : α → Prop} {f : α → α} {xs : List α} {i : Nat} (h : ∀ x ∈ xs, P x)
    (hf : ∀ x, P x → P (f x)) : ∀ x ∈ xs.modify i f, P x := by
  induction xs generalizing i with
  | nil => simp
  | cons x xs ih =>
    obtain ⟨hx, hxs⟩ := forall_mem_cons.1 h
    cases i with
    | zero => simpa using ⟨hf x hx, hxs⟩
    | succ i => simpa using ⟨hx, ih hxs⟩

/-! ## Results and events -/

namespace Script

variable {c : Call} {callee : Callee γ κ} {events : Call → Patcher κ → γ → Trace} {p : Patcher κ} {g : γ}

/-- A run ends with `Q` of the result, the patcher and the events, or with an error that calls of the sort `c` may fail
with and `F` of the events. -/
def Traces (c : Call) (callee : Call → Patcher κ → γ → Outcome γ κ Unit) (events : Call → Patcher κ → γ → Trace)
    (s : Script γ κ α) (p : Patcher κ) (g : γ) (Q : α → Patcher κ → Trace → Prop) (F : Trace → Prop) : Prop :=
  match (s.run callee p g).result with
  | .ok a => Q a (s.run callee p g).patcher (s.trace callee events p g)
  | .error e => c.Allows e ∧ F (s.trace callee events p g)

variable {s : Script γ κ α} {Q : α → Patcher κ → Trace → Prop} {F : Trace → Prop}

theorem Traces.mono {R : α → Patcher κ → Trace → Prop} {F' : Trace → Prop} (h : s.Traces c callee events p g Q F)
    (hQ : ∀ a p' t, Q a p' t → R a p' t) (hF : ∀ t, F t → F' t) : s.Traces c callee events p g R F' := by
  unfold Traces at *
  cases hr : (s.run callee p g).result with
  | ok a =>
    rw [hr] at h
    exact hQ _ _ _ h
  | error e =>
    rw [hr] at h
    exact ⟨h.1, hF _ h.2⟩

theorem Traces.getSelf_bind {f : Patcher κ → Script γ κ β} {Q : β → Patcher κ → Trace → Prop}
    (h : (f p).Traces c callee events p g Q F) : (getSelf >>= f).Traces c callee events p g Q F := h

theorem Traces.bind {f : α → Script γ κ β} {R : β → Patcher κ → Trace → Prop} {F' : Trace → Prop}
    (h : s.Traces c callee events p g Q F) (hF : ∀ t, F t → F' t)
    (hf : ∀ a p' g' t, Q a p' t → (f a).Traces c callee events p' g' (fun b p'' t' => R b p'' (t ++ t'))
      fun t' => F' (t ++ t')) : (s >>= f).Traces c callee events p g R F' := by
  unfold Traces at *
  rw [run_bind, trace_bind, Outcome.andThen]
  cases hr : (s.run callee p g).result with
  | ok a =>
    rw [hr] at h
    exact hf a _ (s.run callee p g).context _ h
  | error e =>
    rw [hr] at h
    rw [append_nil]
    exact ⟨h.1, hF _ h.2⟩

end Script

/-! ## Preparing one patcher -/

/-- Nothing but values asked for in time. -/
def Trace.OnlyDemands (t : Trace) : Prop := ∀ e ∈ t, ∃ i, e = ([i], .demand .constructed)

/-- The patcher with its parts as before, but for what they are asked for. -/
structure Patcher.Ready (Placed : κ → Nat → Prop) (depth : Nat) (p₀ p : Patcher κ) : Prop where
  phase : p.phase = p₀.phase
  placed : Placed p.construct p.parts.length
  length : p.parts.length = p₀.parts.length
  paths : pathsFrom 0 p.parts = pathsFrom 0 p₀.parts
  parts : ∀ q ∈ p.parts, q.Tidy Placed .constructed ∧ q.height ≤ depth

variable {p : Patcher κ}

theorem Patcher.Ready.modify {depth : Nat} {p₀ : Patcher κ} (h : p₀.Ready Placed depth p) {f : Patcher κ → Patcher κ}
    (hpaths : ∀ q, (f q).paths = q.paths) (hheight : ∀ q, (f q).height = q.height)
    (hf : ∀ q, q.Tidy Placed .constructed → (f q).Tidy Placed .constructed) (i : Nat) :
    p₀.Ready Placed depth (p.withParts (p.parts.modify i f)) := by
  obtain ⟨phase, placed, length, paths, parts⟩ := h
  cases p with
  | mk site _ construct parts' =>
    have hlength : (parts'.modify i f).length = parts'.length := length_modify ..
    refine ⟨phase, ?_, hlength.trans length, (pathsFrom_modify hpaths i 0 parts').trans paths, ?_⟩
    · show Placed construct (parts'.modify i f).length
      rw [hlength]
      exact placed
    · exact forall_mem_modify parts fun q hq => ⟨hf q hq.1, hheight q ▸ hq.2⟩

variable {callee : Callee γ κ} {events : Call → Patcher κ → γ → Trace} {s : Script γ κ α}

theorem Script.Prepares.traces {p₀ : Patcher κ} {depth : Nat} {g : γ}
    (hs : s.Prepares (flip Placed) (fun e => ¬ e.IsOutOfTurn) (fun _ _ => True) p₀.parts.length g)
    (hp : p₀.Ready Placed depth p) :
    s.Traces .prepare callee events p g (fun _ p' t => p₀.Ready Placed depth p' ∧ t.OnlyDemands) Trace.OnlyDemands := by
  have hnil : Trace.OnlyDemands [] := fun e he => absurd he not_mem_nil
  induction s generalizing p g with
  | done a => exact ⟨hp, hnil⟩
  | fail e => exact ⟨.prepare hs, hnil⟩
  | read next ih => exact ih g hs hp
  | write g' next ih => exact ih hs.2 hp
  | self next ih => exact ih p (hs p) hp
  | become k next ih =>
    refine ih hs.2 ?_
    obtain ⟨phase, placed, length, paths, parts⟩ := hp
    cases p
    exact ⟨phase, length ▸ hs.1, length, paths, parts⟩
  | demand i next ih =>
    have hnext := ih hs (p := p.withParts (p.parts.modify i Patcher.demandValue)) ?_
    · have hhead : Trace.OnlyDemands (p.parts[i]?.toList.map fun q => ([i], .demand q.phase)) := by
        intro e he
        obtain ⟨q, hq, rfl⟩ := mem_map.1 he
        obtain ⟨here, -, -⟩ := (hp.parts q (mem_of_getElem? (Option.mem_toList.1 hq))).1
        exact ⟨i, by rw [here]⟩
      have hall {t : Trace} (ht : t.OnlyDemands) :
          Trace.OnlyDemands (p.parts[i]?.toList.map (fun q => ([i], .demand q.phase)) ++ t) :=
        fun e he => (mem_append.1 he).elim (hhead e) (ht e)
      unfold Traces at hnext ⊢
      simp only [run, trace]
      cases hr : (next.run callee (p.withParts (p.parts.modify i Patcher.demandValue)) g).result with
      | ok a =>
        rw [hr] at hnext
        exact ⟨hnext.1, hall hnext.2⟩
      | error e =>
        rw [hr] at hnext
        exact ⟨hnext.1, hall hnext.2⟩
    · exact hp.modify Patcher.paths_demandValue Patcher.height_demandValue (fun _ hq => hq.demandValue) i
  | adjust i f next ih =>
    refine ih hs.2 (hp.modify (Patcher.paths_adjust f) (Patcher.height_adjust f) (fun _ hq => hq.adjust ?_) i)
    exact fun k m => hs.1 m k
  | call => exact hs.elim

/-! ## Walking -/

/-- One of the two walks: what it calls, the phase from which it takes patchers to which other, the events that
start and end its stay at a patcher, and those that may happen. -/
structure Walk where
  call : Call
  before : Phase
  after : Phase
  starts : Patcher.Event → Bool
  ends : Patcher.Event → Bool
  allows : Patcher.Event → Bool

namespace Walk

def prepare : Walk where
  call := .prepare
  before := .constructed
  after := .prepared
  starts := (· == .prepare)
  ends := (· == .prepared)
  allows
    | .prepare | .prepared => true
    | .demand phase => phase == .constructed
    | .patch .. => false

def patch : Walk where
  call := .patch
  before := .prepared
  after := .patched
  starts := Patcher.Event.isPatch
  ends := Patcher.Event.isPatch
  allows
    | .patch isValue isAsked => isValue == isAsked
    | _ => false

/-- The events come to the paths in order, up to some point. -/
structure Comes (w : Walk) (paths : List (List Nat)) (t : Trace) : Prop where
  starts : t.pathsOf w.starts <+: paths
  allows : ∀ e ∈ t, w.allows e.2 = true

/-- The events come to all paths. -/
structure Covers (w : Walk) (paths : List (List Nat)) (t : Trace) : Prop where
  starts : t.pathsOf w.starts = paths
  ends : paths ⊆ t.pathsOf w.ends
  allows : ∀ e ∈ t, w.allows e.2 = true

/-- A call of a patcher takes all patchers from it down to the next phase, unless it fails on the way. -/
def Answers (w : Walk) (Placed : κ → Nat → Prop) (q : Patcher κ) (o : Outcome γ κ Unit) (t : Trace) : Prop :=
  match o.result with
  | .ok () => o.patcher.Tidy Placed w.after ∧ o.patcher.paths = q.paths ∧ w.Covers q.paths t
  | .error e => w.call.Allows e ∧ w.Comes q.paths t

variable {w : Walk} {paths more : List (List Nat)} {t u : Trace}

theorem Covers.comes (h : w.Covers paths t) : w.Comes paths t := ⟨h.starts ▸ prefix_refl _, h.allows⟩

theorem Covers.nil (w : Walk) : w.Covers [] [] := ⟨rfl, nil_subset _, fun _ h => absurd h not_mem_nil⟩

theorem Comes.nil (w : Walk) (paths : List (List Nat)) : w.Comes paths [] :=
  ⟨ nil_prefix, fun _ h => absurd h not_mem_nil⟩

theorem Covers.append (h : w.Covers paths t) (h' : w.Covers more u) : w.Covers (paths ++ more) (t ++ u) := by
  refine ⟨by rw [Trace.pathsOf_append, h.starts, h'.starts], ?_, forall_mem_append.2 ⟨h.allows, h'.allows⟩⟩
  rw [Trace.pathsOf_append]
  exact append_subset.2 ⟨subset_append_of_subset_left _ h.ends, subset_append_of_subset_right _ h'.ends⟩

theorem Covers.append_comes (h : w.Covers paths t) (h' : w.Comes more u) : w.Comes (paths ++ more) (t ++ u) := by
  refine ⟨?_, forall_mem_append.2 ⟨h.allows, h'.allows⟩⟩
  rw [Trace.pathsOf_append, h.starts]
  exact (prefix_append_right_inj _).2 h'.starts

theorem Comes.mono (h : w.Comes paths t) (more : List (List Nat)) : w.Comes (paths ++ more) t :=
  ⟨h.starts.trans (prefix_append _ _), h.allows⟩

theorem Covers.below (h : w.Covers paths t) (i : Nat) : w.Covers (paths.map (i :: ·)) (t.below i) := by
  refine ⟨by rw [Trace.pathsOf_below, h.starts], ?_, fun e he => ?_⟩
  · rw [Trace.pathsOf_below]
    exact map_subset _ h.ends
  · obtain ⟨e', he', rfl⟩ := mem_map.1 he
    exact h.allows e' he'

theorem Comes.below (h : w.Comes paths t) (i : Nat) : w.Comes (paths.map (i :: ·)) (t.below i) := by
  refine ⟨?_, fun e he => ?_⟩
  · rw [Trace.pathsOf_below]
    exact h.starts.map _
  · obtain ⟨e', he', rfl⟩ := mem_map.1 he
    exact h.allows e' he'

variable {e : Patcher.Event}

/-- The walk comes to a patcher before it comes to those below. -/
theorem Comes.here (h : w.Comes paths t) (hstarts : w.starts e = true) (hallows : w.allows e = true) :
    w.Comes ([] :: paths) (([], e) :: t) := by
  refine ⟨?_, forall_mem_cons.2 ⟨hallows, h.allows⟩⟩
  rw [Trace.pathsOf_cons, if_pos hstarts]
  exact cons_prefix_cons.2 ⟨rfl, h.starts⟩

theorem Covers.here (h : w.Covers paths t) (hstarts : w.starts e = true) (hallows : w.allows e = true)
    (hu : w.Covers [] u) (hends : [] ∈ Trace.pathsOf w.ends (([], e) :: u)) :
    w.Covers ([] :: paths) (([], e) :: t ++ u) := by
  refine ⟨?_, ?_, forall_mem_append.2 ⟨forall_mem_cons.2 ⟨hallows, h.allows⟩, hu.allows⟩⟩
  · rw [Trace.pathsOf_append, Trace.pathsOf_cons, if_pos hstarts, h.starts, hu.starts, append_nil]
  · have hmem {f : List Nat} (hf : f ∈ Trace.pathsOf w.ends (([], e) :: u) ∨ f ∈ Trace.pathsOf w.ends t) :
        f ∈ Trace.pathsOf w.ends (([], e) :: t ++ u) := by
      simp only [Trace.mem_pathsOf, mem_append, mem_cons] at hf ⊢
      grind
    exact cons_subset.2 ⟨hmem (Or.inl hends), fun f hf => hmem (Or.inr (h.ends hf))⟩

end Walk

/-- A script that calls its parts in turn takes those that are left to the next phase. -/
theorem Script.InTurn.traces {w : Walk} {n k : Nat} {Q : α → Nat → Prop} (hs : s.InTurn w.call n k Q)
    (hQ : ∀ a k, Q a k → k = n) (before todo : List (Patcher κ)) (hk : before.length = k)
    (hparts : p.parts = before ++ todo) (hn : p.parts.length = n)
    (hcallee : ∀ q ∈ todo, ∀ g, w.Answers Placed q (callee w.call q g) (events w.call q g)) (g : γ) :
    s.Traces w.call callee events p g
      (fun _ p' t => w.Covers (Patcher.pathsFrom k todo) t ∧
        ∃ todo', p' = p.withParts (before ++ todo') ∧ todo'.length = todo.length ∧
          Patcher.pathsFrom k todo' = Patcher.pathsFrom k todo ∧ ∀ q ∈ todo', q.Tidy Placed w.after)
      (w.Comes (Patcher.pathsFrom k todo)) := by
  induction hs generalizing before todo p g with
  | done h =>
    have hlen := hQ _ _ h
    obtain rfl : todo = [] := by
      rw [hparts, length_append] at hn
      exact eq_nil_of_length_eq_zero (by omega)
    refine ⟨.nil w, [], ?_, rfl, rfl, fun q hq => absurd hq not_mem_nil⟩
    rw [← hparts]
    cases p
    rfl
  | fail h => exact ⟨h, .nil w _⟩
  | read h ih => exact ih g hQ before todo hk hparts hn hcallee g
  | @write g' next k Q h ih => exact ih hQ before todo hk hparts hn hcallee g'
  | @call k next Q hlt hnext hfail ih =>
    obtain ⟨q, rest, rfl⟩ : ∃ q rest, todo = q :: rest := by
      cases todo with
      | nil => simp [← hn, hparts, hk] at hlt
      | cons q rest => exact ⟨q, rest, rfl⟩
    have hq : p.parts[k]? = some q := by simp [hparts, ← hk]
    obtain ⟨hhead, htail⟩ := forall_mem_cons.1 hcallee
    have hanswer := hhead g
    unfold Walk.Answers at hanswer
    unfold Traces
    simp only [run, trace, hq]
    cases hr : (callee w.call q g).result with
    | error e =>
      rw [hr] at hanswer
      simp only [hfail, run, trace, append_nil]
      refine ⟨hanswer.1, ?_⟩
      rw [Patcher.pathsFrom]
      exact (hanswer.2.below _).mono _
    | ok u =>
      rw [hr] at hanswer
      obtain ⟨htidy, hpaths, hcovers⟩ := hanswer
      obtain ⟨p', hp'⟩ : ∃ p', p' = p.withParts (p.parts.set k (callee w.call q g).patcher) := ⟨_, rfl⟩
      have hparts' : p'.parts = (before ++ [(callee w.call q g).patcher]) ++ rest := by
        rw [hp', Patcher.parts_withParts, hparts, ← hk]
        simp
      have hlen' : p'.parts.length = n := by
        rw [hparts', ← hn, hparts]
        simp
      have hlast := ih hQ (before ++ [(callee w.call q g).patcher]) rest (by simp [hk]) hparts' hlen' htail
        (callee w.call q g).context
      rw [← hp', Patcher.pathsFrom]
      unfold Traces at hlast
      cases hr' : ((next (.ok ())).run callee p' (callee w.call q g).context).result with
      | error e =>
        rw [hr'] at hlast
        exact ⟨hlast.1, (hcovers.below _).append_comes hlast.2⟩
      | ok a =>
        rw [hr'] at hlast
        obtain ⟨hrest, todo', heq, hlength, hpaths', htidy'⟩ := hlast
        refine ⟨(hcovers.below _).append hrest, (callee w.call q g).patcher :: todo', ?_, ?_, ?_, ?_⟩
        · rw [heq, hp']
          cases p
          simp [Patcher.withParts]
        · simp [hlength]
        · rw [Patcher.pathsFrom, hpaths, hpaths']
        · exact forall_mem_cons.2 ⟨htidy, htidy'⟩

namespace Script.InTurn

variable {callee : Callee γ κ} {events : Call → Patcher κ → γ → Trace} {Placed : κ → Nat → Prop} {w : Walk}
  {s : Script γ κ α} {p : Patcher κ}

theorem traces_all (hs : s.InTurn w.call p.parts.length 0 fun _ k => k = p.parts.length)
    (hcallee : ∀ q ∈ p.parts, ∀ g, w.Answers Placed q (callee w.call q g) (events w.call q g)) (g : γ) :
    s.Traces w.call callee events p g
      (fun _ p' t => w.Covers (Patcher.pathsFrom 0 p.parts) t ∧
        ∃ parts, p' = p.withParts parts ∧ parts.length = p.parts.length ∧
          Patcher.pathsFrom 0 parts = Patcher.pathsFrom 0 p.parts ∧ ∀ q ∈ parts, q.Tidy Placed w.after)
      (w.Comes (Patcher.pathsFrom 0 p.parts)) :=
  hs.traces (fun _ _ h => h) [] p.parts rfl rfl rfl hcallee g

/-- A script that comes after all calls of parts. -/
theorem traces_none (hs : s.InTurn w.call p.parts.length p.parts.length fun _ k => k = p.parts.length) (g : γ) :
    s.Traces w.call callee events p g (fun _ p' t => w.Covers [] t ∧ p' = p) (w.Comes []) := by
  have h := @traces _ _ _ (fun _ _ => True) p callee events s w _ _ _ hs (fun _ _ h => h) p.parts [] rfl
    (append_nil _).symm rfl (fun q hq => absurd hq not_mem_nil) g
  refine h.mono ?_ fun t ht => ht
  rintro _ _ t ⟨ht, rest, rfl, hrest, -⟩
  obtain rfl := eq_nil_of_length_eq_zero hrest
  refine ⟨ht, ?_⟩
  cases p
  simp [Patcher.withParts, Patcher.parts]

end Script.InTurn

/-! ## Disciplined hooks -/

theorem Trace.OnlyDemands.covers {t : Trace} (h : t.OnlyDemands) : Walk.prepare.Covers [] t := by
  refine ⟨?_, nil_subset _, fun e he => ?_⟩
  · rw [eq_nil_iff_forall_not_mem]
    intro path hpath
    obtain ⟨e, he, hstarts⟩ := mem_pathsOf.1 hpath
    obtain ⟨i, heq⟩ := h _ he
    obtain ⟨-, rfl⟩ := Prod.mk.inj heq
    cases hstarts
  · obtain ⟨i, rfl⟩ := h e he
    rfl

namespace Hooks.Disciplined

open Patcher

variable {h : Hooks γ κ} {Placed : κ → Nat → Prop} {p : Patcher κ}

/-- The work of preparing takes all parts to the next phase. -/
theorem traces_prepareScript (hd : h.Disciplined Placed) {depth : Nat} (hp : p.Ready Placed depth p) (g : γ)
    (ih : ∀ q : Patcher κ, q.Tidy Placed .constructed → q.height ≤ depth → ∀ g,
      Walk.prepare.Answers Placed q (callWithin h depth .prepare q g) (traceWithin h depth .prepare q g)) :
    (prepareScript h p).Traces .prepare (callWithin h depth) (traceWithin h depth) p g
      (fun _ p' t => Walk.prepare.Covers (pathsFrom 0 p.parts) t ∧ pathsFrom 0 p'.parts = pathsFrom 0 p.parts ∧
        Placed p'.construct p'.parts.length ∧ ∀ q ∈ p'.parts, q.Tidy Placed .prepared)
      (Walk.prepare.Comes (pathsFrom 0 p.parts)) := by
  refine ((hd.prepare p hp.placed g).traces hp).bind (fun t ht => ?_) ?_
  · exact ht.covers.comes.mono _
  rintro _ p₁ g₁ t₁ ⟨hready, ht₁⟩
  have hcalls : ((List.range p.parts.length).forM fun i => (Script.callPart i .prepare : Script γ κ Unit)).InTurn
      .prepare p.parts.length 0 fun _ k => k = p.parts.length := by
    rw [range_eq_range']
    exact Script.InTurn.forM_callPart _ (Nat.zero_add _)
  rw [← hready.length] at hcalls
  have hparts := hcalls.traces_all (w := .prepare) (fun q hq => ih q (hready.parts q hq).1 (hready.parts q hq).2) g₁
  rw [hready.paths, hready.length] at hparts
  refine hparts.bind (fun t ht => ht₁.covers.append_comes ht) ?_
  rintro _ p₂ g₂ t₂ ⟨ht₂, parts, hp₂, hlength, hpaths, htidy⟩
  have hparts₂ : p₂.parts = parts := by rw [hp₂, parts_withParts]
  have hconstruct : p₂.construct = p₁.construct := by
    rw [hp₂]
    cases p₁
    rfl
  have hcovers := ht₁.covers.append ht₂
  refine Script.Traces.getSelf_bind (((hd.finish p₂ _).traces_none (w := .prepare) g₂).mono ?_ fun t₃ ht₃ => ?_)
  · rintro _ _ t₃ ⟨ht₃, rfl⟩
    refine ⟨?_, ?_, ?_, ?_⟩
    · have := hcovers.append ht₃
      rwa [append_nil, append_assoc] at this
    · rw [hparts₂, hpaths]
    · rw [hconstruct, hparts₂, hlength, ← hready.length]
      exact hready.placed
    · rw [hparts₂]
      exact htidy
  · have := hcovers.append_comes ht₃
    rwa [append_nil, append_assoc] at this

theorem answers_prepare (hd : h.Disciplined Placed) (depth : Nat) (hp : p.Tidy Placed .constructed)
    (hdepth : p.height ≤ depth) (g : γ) :
    Walk.prepare.Answers Placed p (callWithin h depth .prepare p g) (traceWithin h depth .prepare p g) := by
  induction depth generalizing p g with
  | zero =>
    rw [height_eq] at hdepth
    omega
  | succ depth ih =>
    obtain ⟨here, placed, parts⟩ := hp
    have hready : p.Ready Placed depth p := by
      refine ⟨rfl, placed, rfl, rfl, fun q hq => ⟨parts q hq, ?_⟩⟩
      have := height_lt_of_mem hq
      omega
    have htraces := hd.traces_prepareScript hready g fun q hq hle g => ih hq hle g
    have hcall : callWithin h (depth + 1) .prepare p g =
        advance .prepared ((prepareScript h p).run (callWithin h depth) p g) := by
      simp only [callWithin, here, if_true]
    unfold Script.Traces at htraces
    simp only [Walk.Answers, hcall, traceWithin, here, if_true]
    generalize (prepareScript h p).trace (callWithin h depth) (traceWithin h depth) p g = t at htraces
    generalize (prepareScript h p).run (callWithin h depth) p g = o at htraces
    obtain ⟨result, p', g'⟩ := o
    rw [paths_eq p]
    cases result with
    | error e =>
      refine ⟨htraces.1, ?_⟩
      simp only [append_nil]
      exact htraces.2.here rfl rfl
    | ok u =>
      obtain ⟨hcovers, hpaths, hplaced, htidy⟩ := htraces
      refine ⟨?_, ?_, ?_⟩
      · cases p'
        exact .intro rfl hplaced htidy
      · rw [← hpaths]
        cases p'
        rfl
      · refine hcovers.here rfl rfl ⟨rfl, nil_subset _, ?_⟩ ?_
        · simp [Walk.prepare]
        · simp [Walk.prepare, Trace.pathsOf]

theorem answers_patch (hd : h.Disciplined Placed) (depth : Nat) (hp : p.Tidy Placed .prepared)
    (hdepth : p.height ≤ depth) (g : γ) :
    Walk.patch.Answers Placed p (callWithin h depth .patch p g) (traceWithin h depth .patch p g) := by
  induction depth generalizing p g with
  | zero =>
    rw [height_eq] at hdepth
    omega
  | succ depth ih =>
    obtain ⟨here, placed, parts⟩ := hp
    have hparts (q : Patcher κ) (hq : q ∈ p.parts) (g : γ) : Walk.patch.Answers Placed q
        (callWithin h depth .patch q g) (traceWithin h depth .patch q g) := by
      have := height_lt_of_mem hq
      exact ih (parts q hq) (by omega) g
    have htraces := (hd.patch p placed).traces_all (w := .patch) hparts g
    by_cases hvalue : p.site.needsValue = true → h.isExpression p = true
    · have hcall : callWithin h (depth + 1) .patch p g =
          advance .patched ((p.patchScript h).run (callWithin h depth) p g) := by
        simp only [callWithin, here, patchScript]
        split
        · rw [if_pos (hvalue ‹_›)]
        · rfl
      have htrace : traceWithin h (depth + 1) .patch p g = ([], .patch p.site.needsValue p.site.needsValue) ::
          (p.patchScript h).trace (callWithin h depth) (traceWithin h depth) p g := by
        simp only [traceWithin, here, true_and]
        rw [if_pos hvalue]
        rfl
      unfold Script.Traces at htraces
      rw [Walk.Answers, hcall, htrace, paths_eq p]
      generalize (p.patchScript h).trace (callWithin h depth) (traceWithin h depth) p g = t at htraces
      generalize (p.patchScript h).run (callWithin h depth) p g = o at htraces
      obtain ⟨result, p', g'⟩ := o
      cases result with
      | error e => exact ⟨htraces.1, htraces.2.here rfl (beq_self_eq_true _)⟩
      | ok u =>
        obtain ⟨hcovers, qs, heq, hlength, hpaths, htidy⟩ := htraces
        obtain rfl : p' = p.withParts qs := heq
        refine ⟨?_, ?_, ?_⟩
        · rw [← hlength] at placed
          cases p
          exact .intro rfl placed htidy
        · rw [← hpaths]
          cases p
          rfl
        · have := hcovers.here (e := .patch p.site.needsValue p.site.needsValue) rfl (beq_self_eq_true _) (.nil _)
            (by simp [Walk.patch, Trace.pathsOf, Event.isPatch])
          rwa [append_nil] at this
    · obtain ⟨hneeds, hnot⟩ := Classical.not_imp.1 hvalue
      have hcall : callWithin h (depth + 1) .patch p g = p.violate g .notExpression := by
        simp only [callWithin, here, hneeds, if_true]
        rw [if_neg hnot]
      have htrace : traceWithin h (depth + 1) .patch p g = [] := by
        simp only [traceWithin, here, true_and]
        rw [if_neg hvalue]
      rw [Walk.Answers, hcall, htrace]
      exact ⟨.notExpression _ _ _, .nil _ _⟩

end Hooks.Disciplined

/-! ## Whole runs -/

namespace Hooks.Disciplined

open Patcher

variable {κ : Type} {h : Hooks Context κ} {Placed : κ → Nat → Prop} {p : Patcher κ}

/-- A run is the walk that prepares, and the walk that patches once all is prepared. -/
theorem traceAll_walks (hd : h.Disciplined Placed) (hp : p.Tidy Placed .constructed) (g : Context) :
    ∃ t u, p.traceAll h g = t ++ u ∧ Walk.prepare.Comes p.paths t ∧ Walk.patch.Comes p.paths u ∧
      (u = [] ∨ Walk.prepare.Covers p.paths t) ∧
      match (p.runAll h g).1 with
      | .ok () => u.pathsOf Event.isPatch = p.paths ∧ (p.afterAll h g).paths = p.paths ∧
          (p.afterAll h g).InPhase .patched
      | .error e => ¬ e.IsOutOfTurn := by
  have hprepare := hd.answers_prepare p.height hp (Nat.le_refl _) g
  unfold Walk.Answers at hprepare
  unfold traceAll afterAll runAll call trace
  generalize callWithin h p.height .prepare p g = prepared at hprepare
  generalize traceWithin h p.height .prepare p g = t at hprepare
  obtain ⟨result, p', g'⟩ := prepared
  cases result with
  | error e => exact ⟨t, [], rfl, hprepare.2, .nil _ _, Or.inl rfl, hprepare.1.inTurn⟩
  | ok u =>
    obtain ⟨htidy, hpaths, hcovers⟩ := hprepare
    have hpatch := hd.answers_patch p'.height htidy (Nat.le_refl _) g'
    unfold Walk.Answers at hpatch
    dsimp only at hpaths hpatch ⊢
    rw [← hpaths] at hcovers ⊢
    generalize callWithin h p'.height .patch p' g' = patched at hpatch
    generalize traceWithin h p'.height .patch p' g' = u at hpatch
    obtain ⟨result, p'', g''⟩ := patched
    cases result with
    | error e => exact ⟨t, u, rfl, hcovers.comes, hpatch.2, Or.inr hcovers, hpatch.1.inTurn⟩
    | ok _ =>
      obtain ⟨htidy', hpaths', hcovers'⟩ := hpatch
      exact ⟨t, u, rfl, hcovers.comes, hcovers'.comes, Or.inr hcovers, hcovers'.starts, hpaths', htidy'.inPhase⟩

/-- With disciplined hooks, every patcher of a tidy tree is prepared and patched in its turn, and once only. -/
theorem runsOnce (hd : h.Disciplined Placed) (hp : p.Tidy Placed .constructed) (g : Context) : p.RunsOnce h g := by
  obtain ⟨t, u, htrace, hprepare, hpatch, hcovers, hresult⟩ := hd.traceAll_walks hp g
  have ht : t.pathsOf Event.isPatch = [] := by
    refine Trace.pathsOf_eq_nil fun e he => ?_
    have := hprepare.allows e he
    cases hevent : e.2 <;> simp_all [Walk.prepare, Event.isPatch]
  have hu : u.pathsOf (· == .prepare) = [] := by
    refine Trace.pathsOf_eq_nil fun e he => ?_
    have := hpatch.allows e he
    cases hevent : e.2 <;> simp_all [Walk.patch]
  have hprepares : (p.traceAll h g).pathsOf (· == .prepare) <+: p.paths := by
    rw [htrace, Trace.pathsOf_append, hu, append_nil]
    exact hprepare.starts
  have hpatches : (p.traceAll h g).pathsOf Event.isPatch = u.pathsOf Event.isPatch := by
    rw [htrace, Trace.pathsOf_append, ht, nil_append]
  constructor
  case preparedOnce => exact hprepares.sublist.nodup p.nodup_paths
  case parentsFirst =>
    intro before path i after heq
    rw [heq, Trace.pathsOf_append, Trace.pathsOf_cons, if_pos (beq_self_eq_true _), append_cons] at hprepares
    have hmem := parent_mem_of_isPrefix p ((prefix_append _ _).trans hprepares) path i (by simp)
    have hbefore : path ∈ Trace.pathsOf (· == .prepare) before := by simpa using hmem
    obtain ⟨e, he, hevent⟩ := Trace.mem_pathsOf.1 hbefore
    exact eq_of_beq hevent ▸ he
  case askedFirst =>
    intro path phase hmem
    rw [htrace] at hmem
    rcases mem_append.1 hmem with hmem | hmem
    · exact eq_of_beq (hprepare.allows _ hmem)
    · cases hpatch.allows _ hmem
  case patchedOnce =>
    rw [hpatches]
    exact hpatch.starts.sublist.nodup p.nodup_paths
  case patchedAsAsked =>
    intro path isValue isAsked hmem
    rw [htrace] at hmem
    rcases mem_append.1 hmem with hmem | hmem
    · cases hprepare.allows _ hmem
    · exact eq_of_beq (hpatch.allows _ hmem)
  case preparedFirst =>
    intro before path isValue isAsked after heq
    rw [htrace] at heq
    have hnot : (path, .patch isValue isAsked) ∉ t := fun hmem => by cases hprepare.allows _ hmem
    have hmem : (path, .patch isValue isAsked) ∈ u := by
      have : (path, .patch isValue isAsked) ∈ t ++ u := by simp [heq]
      exact (mem_append.1 this).resolve_left hnot
    -- The walk that prepares is over when the first patcher is patched.
    have hbefore : t <+: before := by
      rcases append_eq_append_iff.1 heq with ⟨rest, hrest, -⟩ | ⟨rest, ht, hrest⟩
      · exact ⟨rest, hrest.symm⟩
      · cases rest with
        | nil => simp [ht]
        | cons e rest =>
          obtain ⟨rfl, -⟩ := List.cons.inj hrest
          exact absurd (ht ▸ mem_append_right _ mem_cons_self) hnot
    have hcovers := hcovers.resolve_left (ne_nil_of_mem hmem)
    have hpath : path ∈ p.paths := hpatch.starts.subset (Trace.mem_pathsOf.2 ⟨_, hmem, rfl⟩)
    obtain ⟨e, he, hevent⟩ := Trace.mem_pathsOf.1 (hcovers.ends hpath)
    exact hbefore.subset (eq_of_beq hevent ▸ he)
  case allPatched =>
    intro hok
    rw [hok] at hresult
    rwa [hpatches]
  case inTurn =>
    intro e herror
    rwa [herror] at hresult

end Hooks.Disciplined

end Respell
