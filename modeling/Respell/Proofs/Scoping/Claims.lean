import Respell.Patch.Context
import Respell.Proofs.Scoping

/-!
Names for temporaries.

What the scopes of a tree hold is said by the occurrences of its nodes: the names that are read, those that each
scope declares, and the scopes around each scope (`Scopes.holds_ofTree`).  Names are asked for one after another,
by any scope and for any hint.  At each point of such a run a name is bound in a scope exactly if it is not `Free`
there, and a request is given the first free candidate for its hint (`Claims.fresh_of_records`).
-/

namespace Respell

open List

variable {tree : Tree} {w : Nat} {x : String}

/-! ## Names in a tree -/

/-- The occurrence is that of a function with a scope of its own. -/
def Occurrence.isScope (o : Occurrence) : Bool :=
  o.node.kind == .function && (o.role == .read || o.role == .bind)

namespace Tree

/-- One of the occurrences reads the name. -/
def ReadIn (tree : Tree) (os : List Occurrence) (x : String) : Prop :=
  ∃ o ∈ os, o.node.kind = .ident ∧ o.role = .read ∧ tree.nodeText o.node = x

/-- One of the occurrences declares the name in scope `w`. -/
def DeclaredIn (tree : Tree) (os : List Occurrence) (w : Nat) (x : String) : Prop :=
  ∃ o ∈ os, o.node.kind = .ident ∧ (o.role = .bind ∨ o.role = .param) ∧ o.chain.head? = some w ∧
    tree.nodeText o.node = x

/-- The scope and those around it, the innermost first, if one of the occurrences opens it. -/
def chainIn? (tree : Tree) (os : List Occurrence) (w : Nat) : Option (List Nat) :=
  if w = tree.root.id then some [w]
  else (os.find? fun o => o.isScope && o.node.id == w).map fun o => w :: o.chain

/-- The scope and those around it, the innermost first. -/
def scopeChain (tree : Tree) (w : Nat) : List Nat := (tree.chainIn? tree.occurrences w).getD []

/-- The name is not read in the program, and no scope from `w` outwards declares it or was given it before. -/
structure Free (tree : Tree) (given : List (Nat × String)) (w : Nat) (x : String) : Prop where
  unread : ¬ tree.ReadIn tree.occurrences x
  undeclared : ∀ v ∈ tree.scopeChain w, ¬ tree.DeclaredIn tree.occurrences v x
  notGiven : ∀ v ∈ tree.scopeChain w, (v, x) ∉ given

theorem Free.mono {given given' : List (Nat × String)} (h : tree.Free given' w x) (hsub : given ⊆ given') :
    tree.Free given w x :=
  ⟨h.unread, h.undeclared, fun v hv hmem => h.notGiven v hv (hsub hmem)⟩

variable {os : List Occurrence} {o : Occurrence}

theorem readIn_append : tree.ReadIn (os ++ [o]) x ↔
    tree.ReadIn os x ∨ (o.node.kind = .ident ∧ o.role = .read ∧ tree.nodeText o.node = x) := by
  simp [ReadIn, or_and_right, exists_or]

theorem declaredIn_append : tree.DeclaredIn (os ++ [o]) w x ↔
    tree.DeclaredIn os w x ∨ (o.node.kind = .ident ∧ (o.role = .bind ∨ o.role = .param) ∧
      o.chain.head? = some w ∧ tree.nodeText o.node = x) := by
  simp only [DeclaredIn, mem_append, mem_singleton, or_and_right, exists_or, exists_eq_left]

theorem chainIn?_append : tree.chainIn? (os ++ [o]) w =
    (tree.chainIn? os w).or (if o.isScope && o.node.id == w then some (w :: o.chain) else none) := by
  unfold chainIn?
  split
  · rfl
  · rw [find?_append, Option.map_or]
    congr 1
    rw [find?_singleton]
    split <;> rfl

theorem self_mem_of_chainIn? {chain : List Nat} (h : tree.chainIn? os w = some chain) : w ∈ chain := by
  unfold chainIn? at h
  split at h
  · cases h
    exact mem_singleton_self w
  · obtain ⟨o, -, rfl⟩ := Option.map_eq_some_iff.1 h
    exact mem_cons_self

end Tree

/-! ## Building -/

namespace Scopes

variable {s : Scopes} {seen : List Occurrence} {o : Occurrence} {taken : String → Bool} {hint : String}

/-- What the scopes hold once the occurrences `seen` have been seen. -/
structure Holds (tree : Tree) (seen : List Occurrence) (s : Scopes) : Prop where
  reads : ∀ x, x ∈ s.reads ↔ tree.ReadIn seen x
  chains : ∀ w, (s.scope? w).map Scope.chain = tree.chainIn? seen w
  declared : ∀ w c, s.scope? w = some c → ∀ x, x ∈ c.declared ↔ tree.DeclaredIn seen w x
  unclaimed : ∀ w c, s.scope? w = some c → c.claimed = [] ∧ c.passed = []
  inScope : ∀ o ∈ seen, o.role ≠ .silent → ∀ w ∈ o.chain, (s.scope? w).isSome

section Step

variable (h : Holds tree seen s) (hopen : o.role ≠ .silent → ∀ w ∈ o.chain, (s.scope? w).isSome)
include h hopen

/-- Nothing is noted of an occurrence that neither reads nor declares a name nor opens a scope. -/
theorem Holds.other (hident : o.node.kind = .ident → o.role ≠ .read ∧ o.role ≠ .bind ∧ o.role ≠ .param)
    (hscope : o.isScope = false) : Holds tree (seen ++ [o]) s := by
  refine ⟨fun x => ?_, fun w => ?_, fun w c hc x => ?_, h.unclaimed, ?_⟩
  · rw [Tree.readIn_append, h.reads]
    exact (or_iff_left fun ho => (hident ho.1).1 ho.2.1).symm
  · rw [Tree.chainIn?_append, h.chains, hscope]
    simp
  · rw [Tree.declaredIn_append, h.declared w c hc]
    exact (or_iff_left fun ho => ho.2.1.elim (hident ho.1).2.1 (hident ho.1).2.2).symm
  · exact forall_mem_append.2 ⟨h.inScope, forall_mem_singleton.2 hopen⟩

theorem Holds.read (hk : o.node.kind = .ident) (hrole : o.role = .read) :
    Holds tree (seen ++ [o]) { s with reads := tree.nodeText o.node :: s.reads } := by
  refine ⟨fun x => ?_, fun w => ?_, fun w c hc x => ?_, h.unclaimed, ?_⟩
  · rw [Tree.readIn_append, ← h.reads, mem_cons, or_comm, eq_comm]
    simp [hk, hrole]
  · rw [Tree.chainIn?_append, ← h.chains]
    simp [Occurrence.isScope, hk, scope?]
  · rw [Tree.declaredIn_append, h.declared w c hc]
    simp [hrole]
  · exact forall_mem_append.2 ⟨h.inScope, forall_mem_singleton.2 hopen⟩

theorem Holds.declare (hk : o.node.kind = .ident) (hrole : o.role = .bind ∨ o.role = .param)
    (hw : o.chain.head? = some w) : Holds tree (seen ++ [o]) (s.declare w (tree.nodeText o.node)) := by
  have hscope (v : Nat) (c : Scope) (hc : (s.declare w (tree.nodeText o.node)).scope? v = some c) :
      ∃ c₀, s.scope? v = some c₀ ∧ c.claimed = c₀.claimed ∧ c.passed = c₀.passed ∧
        ∀ x, x ∈ c.declared ↔ x ∈ c₀.declared ∨ w = v ∧ tree.nodeText o.node = x := by
    rw [scope?_declare] at hc
    obtain ⟨c₀, hc₀, rfl⟩ := Option.map_eq_some_iff.1 hc
    obtain ⟨-, rfl⟩ := owner_of_scope? hc₀
    refine ⟨c₀, hc₀, ?_⟩
    split <;> rename_i howner <;> simp only [beq_iff_eq] at howner
    · simp [howner, or_comm, eq_comm]
    · simp [Ne.symm howner]
  refine ⟨fun x => ?_, fun v => ?_, fun v c hc x => ?_, fun v c hc => ?_, ?_⟩
  · rw [Tree.readIn_append, ← h.reads]
    rcases hrole with hrole | hrole <;> simp [hrole, Scopes.declare, modify]
  · rw [Tree.chainIn?_append, ← h.chains, scope?_declare, Option.map_map]
    have hchain : (Scope.chain ∘ fun c => if c.owner == w then
        { c with declared := tree.nodeText o.node :: c.declared } else c) = Scope.chain := by
      funext c
      simp only [Function.comp]
      split <;> rfl
    rw [hchain]
    simp [Occurrence.isScope, hk]
  · obtain ⟨c₀, hc₀, -, -, hdeclared⟩ := hscope v c hc
    rw [Tree.declaredIn_append, hdeclared, h.declared v c₀ hc₀]
    simp [hk, hrole, hw]
  · obtain ⟨c₀, hc₀, hclaimed, hpassed, -⟩ := hscope v c hc
    rw [hclaimed, hpassed]
    exact h.unclaimed v c₀ hc₀
  · have hsome (v : Nat) : ((s.declare w (tree.nodeText o.node)).scope? v).isSome = (s.scope? v).isSome := by
      rw [scope?_declare, Option.isSome_map]
    simp only [hsome]
    exact forall_mem_append.2 ⟨h.inScope, forall_mem_singleton.2 hopen⟩

theorem Holds.opens (hk : o.node.kind = .function) (hrole : o.role = .read ∨ o.role = .bind) :
    Holds tree (seen ++ [o])
      { s with scopes := s.scopes ++ [{ owner := o.node.id, chain := o.node.id :: o.chain }] } := by
  obtain ⟨s', hs'⟩ : ∃ s' : Scopes, s' = { s with
    scopes := s.scopes ++ [{ owner := o.node.id, chain := o.node.id :: o.chain }] } := ⟨_, rfl⟩
  have hscope (v : Nat) : s'.scope? v = (s.scope? v).or
      (if o.node.id = v then some { owner := v, chain := v :: o.chain } else none) := by
    rw [hs', scope?, find?_append, find?_singleton]
    congr 1
    by_cases hv : o.node.id = v <;> simp [hv]
  have hsome (v : Nat) (hv : (s.scope? v).isSome) : (s'.scope? v).isSome := by
    rw [hscope, Option.isSome_or, hv, Bool.true_or]
  -- A scope that is open keeps its record; a new one starts without names.
  have hcases (v : Nat) (c : Scope) (hc : s'.scope? v = some c) :
      s.scope? v = some c ∨ s.scope? v = none ∧ c.declared = [] ∧ c.claimed = [] ∧ c.passed = [] := by
    rw [hscope] at hc
    cases hv : s.scope? v with
    | some c₀ =>
      rw [hv] at hc
      exact Or.inl hc
    | none =>
      rw [hv, Option.none_or] at hc
      split at hc <;> cases hc
      exact Or.inr ⟨rfl, rfl, rfl, rfl⟩
  rw [← hs']
  refine ⟨fun x => ?_, fun v => ?_, fun v c hc x => ?_, fun v c hc => ?_, ?_⟩
  · rw [Tree.readIn_append, ← h.reads, hs']
    simp [hk]
  · rw [Tree.chainIn?_append, ← h.chains, hscope, Option.map_or]
    congr 1
    by_cases hv : o.node.id = v <;> rcases hrole with hrole | hrole <;> simp [Occurrence.isScope, hk, hrole, hv]
  · rw [Tree.declaredIn_append, or_iff_left fun ho => by cases hk.symm.trans ho.1]
    rcases hcases v c hc with hc | ⟨hnone, hdeclared, -, -⟩
    · exact h.declared v c hc x
    · rw [hdeclared]
      refine iff_of_false not_mem_nil ?_
      rintro ⟨o', ho', -, hrole', hv, -⟩
      have := h.inScope o' ho' (by rcases hrole' with h | h <;> simp [h]) v (mem_of_mem_head? hv)
      rw [hnone] at this
      cases this
  · rcases hcases v c hc with hc | ⟨-, -, hclaimed, hpassed⟩
    · exact h.unclaimed v c hc
    · exact ⟨hclaimed, hpassed⟩
  · refine forall_mem_append.2 ⟨fun o' ho' hrole' v hv => hsome v (h.inScope o' ho' hrole' v hv), ?_⟩
    exact forall_mem_singleton.2 fun hrole' v hv => hsome v (hopen hrole' v hv)

end Step

theorem Holds.see (h : Holds tree seen s)
    (hopen : o.role ≠ .silent → o.chain ≠ [] ∧ ∀ w ∈ o.chain, (s.scope? w).isSome) :
    Holds tree (seen ++ [o]) (see tree s o) := by
  have hopen' (hrole : o.role ≠ .silent) := (hopen hrole).2
  have howner (hrole : o.role ≠ .silent) : o.chain.head? = some (o.chain.headD s.root) := by
    rw [headD_eq_head?_getD, head?_eq_some_head (hopen hrole).1, Option.getD_some]
  unfold Scopes.see
  extract_lets owner name s₁
  split
  · rename_i hk hrole
    exact h.read hopen' hk hrole
  · rename_i hk hrole
    have h₁ : Holds tree seen s₁ := by
      show Holds tree seen (if _ then s else _)
      split
      · exact h
      · exact ⟨h.reads, h.chains, h.declared, h.unclaimed, h.inScope⟩
    have hscope (w : Nat) : (s₁.scope? w).map Scope.chain = (s.scope? w).map Scope.chain := by
      rw [h₁.chains, h.chains]
    refine h₁.declare (fun hrole w hw => ?_) hk (Or.inl hrole) (howner (by simp [hrole]))
    rw [← Option.isSome_map (f := Scope.chain), hscope, Option.isSome_map]
    exact hopen' hrole w hw
  · rename_i hk hrole
    exact h.declare hopen' hk (Or.inr hrole) (howner (by simp [hrole]))
  · rename_i hk hrole
    exact h.opens hopen' hk (Or.inl hrole)
  · rename_i hk hrole
    exact h.opens hopen' hk (Or.inr hrole)
  · rename_i h₁ h₂ h₃ h₄ h₅
    refine h.other hopen' (fun hk => ⟨h₁ hk, h₂ hk, h₃ hk⟩) ?_
    simpa [Occurrence.isScope] using fun hk => And.intro (h₄ hk) (h₅ hk)

theorem Holds.foldl {opened : List Nat} {os : List Occurrence} (h : Holds tree seen s) (hos : Opened opened os)
    (hopen : ∀ w ∈ opened, (s.scope? w).isSome) : Holds tree (seen ++ os) (os.foldl (Scopes.see tree) s) := by
  induction os generalizing s seen opened with
  | nil => rwa [append_nil]
  | cons o os ih =>
    have hs := sees_see tree s o
    rw [append_cons]
    refine ih (h.see fun hrole => ⟨(hos.1 hrole).1, fun w hw => hopen w ((hos.1 hrole).2 hw)⟩) hos.2 ?_
    exact hs.isSome_opens hopen

/-- Before anything is seen, there is the scope of the program. -/
theorem holds_nil (tree : Tree) : Holds tree [] {
    root := tree.root.id
    scopes := [{ owner := tree.root.id, chain := [tree.root.id] }] } := by
  obtain ⟨s, hs⟩ : ∃ s : Scopes, s = {
      root := tree.root.id
      scopes := [{ owner := tree.root.id, chain := [tree.root.id] }] } := ⟨_, rfl⟩
  have hscope (w : Nat) : s.scope? w = if w = tree.root.id then some { owner := w, chain := [w] } else none := by
    by_cases hw : w = tree.root.id
    · simp [hs, scope?, hw]
    · simp [hs, scope?, hw, Ne.symm hw]
  rw [← hs]
  refine ⟨by simp [hs, Tree.ReadIn], fun w => ?_, fun w c hc => ?_, fun w c hc => ?_, by simp⟩
  · rw [hscope, Tree.chainIn?]
    split <;> rfl
  · rw [hscope] at hc
    split at hc <;> cases hc
    simp [Tree.DeclaredIn]
  · rw [hscope] at hc
    split at hc <;> cases hc
    exact ⟨rfl, rfl⟩

/-- What the scopes of a tree hold. -/
theorem holds_ofTree (tree : Tree) : Holds tree tree.occurrences (ofTree tree) :=
  (holds_nil tree).foldl tree.opened_occurrences (by simp [scope?])

/-! ## Candidates -/

theorem firstFree_eq_some {first count n : Nat} :
    firstFree taken hint first count = some n ↔ first ≤ n ∧ n < first + count ∧
      taken (candidate hint n) = false ∧ ∀ j, first ≤ j → j < n → taken (candidate hint j) = true := by
  induction count generalizing first with
  | zero => exact iff_of_false nofun fun h => by omega
  | succ count ih =>
    rw [firstFree]
    split
    · rename_i htaken
      rw [ih]
      constructor
      · rintro ⟨hle, hlt, hfree, hbefore⟩
        refine ⟨by omega, by omega, hfree, fun j hj hjn => ?_⟩
        rcases Nat.eq_or_lt_of_le hj with rfl | hj
        · exact htaken
        · exact hbefore j hj hjn
      · rintro ⟨hle, hlt, hfree, hbefore⟩
        have hne : first ≠ n := by
          rintro rfl
          rw [htaken] at hfree
          cases hfree
        exact ⟨by omega, by omega, hfree, fun j hj => hbefore j (by omega)⟩
    · rename_i hfree
      rw [Option.some.injEq]
      constructor
      · rintro rfl
        exact ⟨Nat.le_refl _, by omega, by simpa using hfree, fun j hj hjn => by omega⟩
      · rintro ⟨hle, -, -, hbefore⟩
        by_contra hne
        exact hfree (hbefore first (Nat.le_refl _) (by omega))

theorem firstFree_eq_none {first count : Nat} :
    firstFree taken hint first count = none ↔
      ∀ j, first ≤ j → j < first + count → taken (candidate hint j) = true := by
  induction count generalizing first with
  | zero => exact iff_of_true rfl fun j hj hlt => by omega
  | succ count ih =>
    rw [firstFree]
    split
    · rename_i htaken
      rw [ih]
      constructor
      · intro h j hj hlt
        rcases Nat.eq_or_lt_of_le hj with rfl | hj
        · exact htaken
        · exact h j hj (by omega)
      · exact fun h j hj hlt => h j (by omega) (by omega)
    · rename_i hfree
      exact iff_of_false nofun fun h => hfree (h first (Nat.le_refl _) (by omega))

/-- The scope once candidate `n` for the hint was given. -/
def give (hint : String) (n : Nat) (c : Scope) : Scope :=
  { c with
    claimed := candidate hint n :: c.claimed
    passed := (hint, n + 1) :: c.passed.filter fun p => p.1 != hint }

theorem lookup_filter_ne {hint' : String} (h : hint' ≠ hint) (ps : List (String × Nat)) :
    (ps.filter fun p => p.1 != hint).lookup hint' = ps.lookup hint' := by
  induction ps with
  | nil => rfl
  | cons p ps ih =>
    obtain ⟨key, count⟩ := p
    by_cases hp : key = hint
    · rw [filter_cons_of_neg (by simpa using hp), ih, lookup_cons, hp, beq_false_of_ne h]
    · rw [filter_cons_of_pos (by simpa using hp), lookup_cons, lookup_cons, ih]

theorem lookup_passed_give (hint : String) (n : Nat) (c : Scope) (hint' : String) :
    (give hint n c).passed.lookup hint' = if hint' = hint then some (n + 1) else c.passed.lookup hint' := by
  split
  · rename_i heq
    rw [give, heq, lookup_cons_self]
  · rename_i hne
    rw [give, lookup_cons, beq_false_of_ne hne]
    exact lookup_filter_ne hne c.passed

/-- The candidates that a scope passed over are bound in it. -/
def Passes (s : Scopes) : Prop := ∀ w hint, ∀ k < s.passed w hint, s.isBound w (candidate hint k) = true

/-- A request is given the first candidate that is not bound. -/
theorem Passes.claim?_eq_some (h : s.Passes) {name : String} {s' : Scopes} :
    s.claim? w hint = some (name, s') ↔ ∃ n < candidateCount, name = candidate hint n ∧
      s.isBound w (candidate hint n) = false ∧ (∀ j < n, s.isBound w (candidate hint j) = true) ∧
      s' = s.modify w (give hint n) := by
  simp only [claim?, Option.map_eq_some_iff, firstFree_eq_some, Prod.mk.injEq]
  constructor
  · rintro ⟨n, ⟨hle, hlt, hfree, hbefore⟩, rfl, rfl⟩
    refine ⟨n, by omega, rfl, hfree, fun j hj => ?_, rfl⟩
    by_cases hp : j < s.passed w hint
    · exact h w hint j hp
    · exact hbefore j (by omega) hj
  · rintro ⟨n, hlt, rfl, hfree, hbefore, rfl⟩
    have hle : s.passed w hint ≤ n := by
      by_contra hp
      rw [h w hint n (by omega)] at hfree
      cases hfree
    exact ⟨n, ⟨hle, by omega, hfree, fun j _ hj => hbefore j hj⟩, rfl, rfl⟩

theorem Passes.claim?_eq_none (h : s.Passes) :
    s.claim? w hint = none ↔ ∀ k < candidateCount, s.isBound w (candidate hint k) = true := by
  simp only [claim?, Option.map_eq_none_iff, firstFree_eq_none]
  constructor
  · intro hall k hk
    by_cases hp : k < s.passed w hint
    · exact h w hint k hp
    · exact hall k (by omega) (by omega)
  · exact fun hall j hj hlt => hall j (by omega)

/-! ## Giving names -/

/-- What the scopes hold once names have been given out. -/
structure Records (tree : Tree) (given : List (Nat × String)) (s : Scopes) : Prop where
  reads : ∀ x, x ∈ s.reads ↔ tree.ReadIn tree.occurrences x
  chains : ∀ w, (s.scope? w).map Scope.chain = tree.chainIn? tree.occurrences w
  inScope : ∀ w, ∀ v ∈ tree.scopeChain w, (s.scope? v).isSome
  names : ∀ w c, s.scope? w = some c → ∀ x,
    (x ∈ c.declared ↔ tree.DeclaredIn tree.occurrences w x) ∧ (x ∈ c.claimed ↔ (w, x) ∈ given)
  passed : ∀ w hint, ∀ k < s.passed w hint, ¬ tree.Free given w (candidate hint k)

variable {given : List (Nat × String)}

theorem records_ofTree (tree : Tree) : Records tree [] (ofTree tree) := by
  have h := holds_ofTree tree
  have hsome (w : Nat) : ((ofTree tree).scope? w).isSome = (tree.chainIn? tree.occurrences w).isSome := by
    rw [← h.chains, Option.isSome_map]
  refine ⟨h.reads, h.chains, fun w v hv => ?_, fun w c hc x => ⟨h.declared w c hc x, ?_⟩, fun w hint k hk => ?_⟩
  · rw [Tree.scopeChain, Tree.chainIn?] at hv
    split at hv
    · rename_i hw
      rw [Option.getD_some, mem_singleton] at hv
      rw [hsome, Tree.chainIn?, if_pos (hv.trans hw)]
      rfl
    · rename_i hw
      cases hfind : tree.occurrences.find? fun o => o.isScope && o.node.id == w with
      | none =>
        rw [hfind] at hv
        cases hv
      | some o =>
        rw [hfind, Option.map_some, Option.getD_some, mem_cons] at hv
        rcases hv with rfl | hv
        · rw [hsome, Tree.chainIn?, if_neg hw, hfind]
          rfl
        · have hscope : o.isScope = true := by
            have := find?_some hfind
            simp only [Bool.and_eq_true] at this
            exact this.1
          refine h.inScope o (mem_of_find?_eq_some hfind) (fun hrole => ?_) v hv
          simp [Occurrence.isScope, hrole] at hscope
  · rw [(h.unclaimed w c hc).1]
    exact iff_of_false not_mem_nil not_mem_nil
  · have hpassed : (ofTree tree).passed w hint = 0 := by
      unfold passed
      cases hc : (ofTree tree).scope? w with
      | none => rfl
      | some c =>
        rw [Option.bind_some, (h.unclaimed w c hc).2]
        rfl
    omega

namespace Records

theorem chain_eq (h : Records tree given s) (w : Nat) : s.chain w = tree.scopeChain w := by
  rw [Scopes.chain, h.chains, Tree.scopeChain]

theorem isBound_iff (h : Records tree given s) : s.isBound w x = true ↔ ¬ tree.Free given w x := by
  have haround : ((s.around w).any fun c => c.declared.contains x || c.claimed.contains x) = true ↔
      ∃ v ∈ tree.scopeChain w, tree.DeclaredIn tree.occurrences v x ∨ (v, x) ∈ given := by
    simp only [any_eq_true, around, h.chain_eq, mem_filterMap, Bool.or_eq_true, contains_iff_mem]
    constructor
    · rintro ⟨c, ⟨v, hv, hc⟩, hx⟩
      exact ⟨v, hv, hx.imp (h.names v c hc x).1.1 (h.names v c hc x).2.1⟩
    · rintro ⟨v, hv, hx⟩
      obtain ⟨c, hc⟩ := Option.isSome_iff_exists.1 (h.inScope w v hv)
      exact ⟨c, ⟨v, hv, hc⟩, hx.imp (h.names v c hc x).1.2 (h.names v c hc x).2.2⟩
  rw [isBound, Bool.or_eq_true, haround, contains_iff_mem, h.reads]
  constructor
  · rintro (hread | ⟨v, hv, hdeclared | hgiven⟩) hfree
    · exact hfree.unread hread
    · exact hfree.undeclared v hv hdeclared
    · exact hfree.notGiven v hv hgiven
  · intro hbound
    by_contra hall
    rw [not_or] at hall
    refine hbound ⟨hall.1, fun v hv hdeclared => hall.2 ⟨v, hv, Or.inl hdeclared⟩, fun v hv hgiven => ?_⟩
    exact hall.2 ⟨v, hv, Or.inr hgiven⟩

theorem isBound_eq_false (h : Records tree given s) : s.isBound w x = false ↔ tree.Free given w x := by
  rw [← Bool.not_eq_true, h.isBound_iff, not_not]

theorem passes (h : Records tree given s) : s.Passes := fun w hint k hk => h.isBound_iff.2 (h.passed w hint k hk)

/-- A name that is given is recorded in its scope. -/
theorem claim (h : Records tree given s) {hint name : String} {s' : Scopes}
    (hclaim : s.claim? w hint = some (name, s')) : Records tree ((w, name) :: given) s' := by
  obtain ⟨n, -, rfl, -, hbefore, rfl⟩ := h.passes.claim?_eq_some.1 hclaim
  have hscope (v : Nat) := scope?_modify (f := give hint n) s w (fun _ => rfl) v
  refine ⟨h.reads, fun v => ?_, fun v u hu => ?_, fun v c hc x => ?_, fun v hint' k hk => ?_⟩
  · rw [hscope, Option.map_map, ← h.chains]
    congr 1
    funext c
    simp only [Function.comp]
    split <;> rfl
  · rw [hscope, Option.isSome_map]
    exact h.inScope v u hu
  · rw [hscope] at hc
    obtain ⟨c₀, hc₀, rfl⟩ := Option.map_eq_some_iff.1 hc
    obtain ⟨hdeclared, hclaimed⟩ := h.names v c₀ hc₀ x
    obtain ⟨-, rfl⟩ := owner_of_scope? hc₀
    split <;> rename_i howner <;> simp only [beq_iff_eq] at howner
    · exact ⟨hdeclared, by simp [give, hclaimed, howner]⟩
    · exact ⟨hdeclared, by simp [hclaimed, howner]⟩
  · have hmono : given ⊆ (w, candidate hint n) :: given := subset_cons_self _ _
    have hold (hk : k < s.passed v hint') : ¬ tree.Free ((w, candidate hint n) :: given) v (candidate hint' k) :=
      fun hfree => h.passed v hint' k hk (hfree.mono hmono)
    unfold Scopes.passed at hk hold
    rw [hscope] at hk
    cases hv : s.scope? v with
    | none =>
      rw [hv] at hk
      cases hk
    | some c =>
      rw [hv, Option.bind_some] at hold
      rw [hv, Option.map_some, Option.bind_some, (owner_of_scope? hv).2] at hk
      split at hk
      · rename_i hvw
        simp only [beq_iff_eq] at hvw
        subst hvw
        rw [lookup_passed_give] at hk
        split at hk
        · rename_i hhint
          subst hhint
          intro hfree
          rcases Nat.lt_succ_iff_lt_or_eq.1 hk with hk | rfl
          · exact h.isBound_iff.1 (hbefore k hk) (hfree.mono hmono)
          · -- The scope was given this very name.
            have hchain := h.chains v
            rw [hv, Option.map_some] at hchain
            refine hfree.notGiven v ?_ mem_cons_self
            rw [Tree.scopeChain, ← hchain]
            exact Tree.self_mem_of_chainIn? hchain.symm
        · exact hold hk
      · exact hold hk

end Records

end Scopes

/-! ## Runs of requests -/

/-- A scope asks for a name, for the construct at `range`. -/
structure Request where
  scope : Nat
  hint : String
  range : Span

/-- Takes a name for the request. -/
def Request.claim (r : Request) : Patching String := Patching.claim r.scope r.hint r.range

theorem Request.claim_eq (r : Request) (g : Context) : r.claim g =
    match g.scopes.claim? r.scope r.hint with
    | some (name, scopes) => (.ok name, { g with scopes })
    | none => (.error (.binding r.hint r.range), g) := by
  show (match g.scopes.claim? r.scope r.hint with
    | some (name, scopes) => (do set { g with scopes }; return name : Patching String)
    | none => (throw (PatchError.binding r.hint r.range) : Patching String)) g = _
  cases g.scopes.claim? r.scope r.hint <;> rfl

/-- The names given out so far, with the scopes that asked for them, and the context as it is then. -/
structure Claims where
  given : List (Nat × String) := []
  context : Context

namespace Claims

open Scopes

def ask (c : Claims) (r : Request) : Claims :=
  match r.claim c.context with
  | (.ok name, context) => ⟨(r.scope, name) :: c.given, context⟩
  | (.error _, context) => ⟨c.given, context⟩

/-- Asks for names one after another, whether they are given or not. -/
def ofRequests (tree : Tree) (stage : Stage) (rs : List Request) : Claims :=
  rs.foldl ask { context := .ofTree tree stage }

/-- How names are given out once the claims have been made. -/
structure Fresh (tree : Tree) (c : Claims) : Prop where
  /-- A name is bound if and only if it is not free. -/
  bound : ∀ w x, c.context.scopes.isBound w x = true ↔ ¬ tree.Free c.given w x
  /-- The name given is the first free candidate. -/
  first : ∀ (r : Request) name, (r.claim c.context).1 = .ok name ↔
    ∃ k < 10000, name = candidate r.hint k ∧ tree.Free c.given r.scope name ∧
      ∀ j < k, ¬ tree.Free c.given r.scope (candidate r.hint j)
  /-- A request is refused if and only if all candidates are bound. -/
  refused : ∀ r : Request, (∃ e, (r.claim c.context).1 = .error e) ↔
    ∀ k < 10000, c.context.scopes.isBound r.scope (candidate r.hint k) = true
  /-- A request that is refused changes nothing. -/
  unchanged : ∀ (r : Request) e, (r.claim c.context).1 = .error e →
    r.claim c.context = (.error (.binding r.hint r.range), c.context)
  /-- What is bound stays bound. -/
  kept : ∀ (rs : List Request) w x, c.context.scopes.isBound w x = true →
    (rs.foldl ask c).context.scopes.isBound w x = true

variable {c : Claims}

theorem records_ask (h : Records tree c.given c.context.scopes) (r : Request) :
    Records tree (c.ask r).given (c.ask r).context.scopes ∧ c.given ⊆ (c.ask r).given := by
  rw [ask, Request.claim_eq]
  cases hclaim : c.context.scopes.claim? r.scope r.hint with
  | none => exact ⟨h, List.Subset.refl _⟩
  | some answer => exact ⟨h.claim hclaim, subset_cons_self _ _⟩

theorem records_foldl (h : Records tree c.given c.context.scopes) (rs : List Request) :
    Records tree (rs.foldl ask c).given (rs.foldl ask c).context.scopes ∧ c.given ⊆ (rs.foldl ask c).given := by
  induction rs generalizing c with
  | nil => exact ⟨h, List.Subset.refl _⟩
  | cons r rs ih =>
    obtain ⟨hask, hsub⟩ := records_ask h r
    obtain ⟨hall, hsub'⟩ := ih hask
    exact ⟨hall, List.Subset.trans hsub hsub'⟩

theorem records_ofRequests (tree : Tree) (stage : Stage) (rs : List Request) :
    Records tree (ofRequests tree stage rs).given (ofRequests tree stage rs).context.scopes :=
  (records_foldl (c := { context := .ofTree tree stage }) (records_ofTree tree) rs).1

/-- If the scopes hold what was asked before, a request is given the first candidate that is free. -/
theorem fresh_of_records (h : Records tree c.given c.context.scopes) : Fresh tree c := by
  refine ⟨fun w x => h.isBound_iff, fun r name => ?_, fun r => ?_, fun r e => ?_, fun rs w x hbound => ?_⟩
  · have hclaim : (r.claim c.context).1 = .ok name ↔ ∃ s, c.context.scopes.claim? r.scope r.hint = some (name, s) := by
      rw [Request.claim_eq]
      cases c.context.scopes.claim? r.scope r.hint <;> simp [Prod.ext_iff]
    rw [hclaim]
    simp only [h.passes.claim?_eq_some, h.isBound_eq_false, h.isBound_iff, candidateCount]
    constructor
    · rintro ⟨s, k, hk, rfl, hfree, hbefore, -⟩
      exact ⟨k, hk, rfl, hfree, hbefore⟩
    · rintro ⟨k, hk, rfl, hfree, hbefore⟩
      exact ⟨_, k, hk, rfl, hfree, hbefore, rfl⟩
  · rw [← candidateCount, ← h.passes.claim?_eq_none, Request.claim_eq]
    cases c.context.scopes.claim? r.scope r.hint <;> simp
  · rw [Request.claim_eq]
    cases c.context.scopes.claim? r.scope r.hint with
    | none => exact fun _ => rfl
    | some answer => exact nofun
  · obtain ⟨hlater, hsub⟩ := records_foldl h rs
    exact hlater.isBound_iff.2 fun hfree => h.isBound_iff.1 hbound (hfree.mono hsub)

end Claims

end Respell
