import Respell.Tree.Grammar

/-!
What is written of a node can be resolved.

A node has events of its own, however it came to its elements: its start, those of what it holds, and its finish.  A
draft of it has the same tokens and finishes, and each mark is completed, preceded and met where it stands; so no mark
is misplaced, and the draft is resolved to the events of the node (`Completed.resolve_draft`).
-/

namespace Respell.Grammar

open List

/-- The events of a node around what was read. -/
def wrap (kind : Kind) (inside : List Event) : List Event := .start kind :: (inside ++ [.finish])

/-! ## Events -/

mutual

def Written.events : Written → List Event
  | .nil => []
  | .token index => [.token index]
  | .append first second => first.events ++ second.events
  | .node n => n.events

def Completed.events : Completed → List Event
  | .wrap kind inside => Grammar.wrap kind inside.events
  | .precede kind left rest => Grammar.wrap kind (left.events ++ rest.events)

end

instance : Coe Written (List Event) := ⟨Written.events⟩

instance : Coe Completed (List Event) := ⟨Completed.events⟩

/-- The events of what was read. -/
def Piece.events (p : Piece) : List Event := p.written.events

theorem Written.events_append (first second : Written) : (first ++ second).events = first.events ++ second.events := rfl

theorem Written.eq_nil {w : Written} (h : w.isNil = true) : w = .nil := by
  cases w with
  | nil => rfl
  | token | append | node => cases h

/-- A node that precedes another, with a sign behind that one. -/
theorem preceded_events (kind : Kind) (left : Completed) (sign rest : Written) :
    (Completed.precede kind left (sign ++ rest)).events = wrap kind (left.events ++ sign.events ++ rest.events) :=
  congrArg (Grammar.wrap kind) (append_assoc _ _ _).symm

/-! ## Entries -/

def Completed.kind : Completed → Kind
  | .wrap kind _ => kind
  | .precede kind _ _ => kind

mutual

def Written.entries : Written → List Entry
  | .nil => []
  | .token index => [.token index]
  | .append first second => first.entries ++ second.entries
  | .node n => n.front ++ .start (some n.kind) none :: n.behind

/-- The entries in front of the mark of the node: those of the one that it precedes. -/
def Completed.front : Completed → List Entry
  | .wrap _ _ => []
  | .precede _ left _ => left.front ++ .start (some left.kind) (some (left.behind.length + 1)) :: left.behind

/-- The entries behind the mark of the node. -/
def Completed.behind : Completed → List Entry
  | .wrap _ inside => inside.entries ++ [.finish]
  | .precede _ _ rest => rest.entries ++ [.finish]

end

/-! ## Writing -/

theorem mark_eq (es : List Entry) : mark es.toArray = .ok (es.length, (es ++ [Entry.tombstone]).toArray) := by
  simp [mark]

/-- The start of a node is found at its position. -/
theorem amend_length (es more : List Entry) (kind : Option Kind) (parent : Option Nat)
    (change : Option Kind → Option Nat → Entry) :
    amend (es ++ .start kind parent :: more).toArray es.length change =
      some (es ++ change kind parent :: more).toArray := by
  simp [amend]

/-- A node that was marked is completed behind what it holds. -/
theorem complete_write {w : Written} (hw : ∀ es : List Entry, w.write es.toArray = .ok ((), (es ++ w.entries).toArray))
    (es : List Entry) (kind : Kind) :
    (do w.write; complete es.length kind; return es.length : Writing Nat) (es ++ [Entry.tombstone]).toArray =
      .ok (es.length, (es ++ Entry.start (some kind) none :: (w.entries ++ [.finish])).toArray) := by
  have hwrite := hw (es ++ [.tombstone])
  rw [append_assoc, singleton_append, Entry.tombstone] at hwrite
  have hcomplete : complete es.length kind (es ++ Entry.start none none :: w.entries).toArray =
      .ok ((), (es ++ Entry.start (some kind) none :: (w.entries ++ [.finish])).toArray) := by
    rw [complete, amend_length]
    simp
  simp only [Entry.tombstone, bind, StateT.bind, Except.bind, hwrite, hcomplete]
  rfl

mutual

theorem Written.write_eq (es : List Entry) : (w : Written) → w.write es.toArray = .ok ((), (es ++ w.entries).toArray)
  | .nil => congrArg (fun es => Except.ok ((), toArray es)) (append_nil es).symm
  | .token _ => congrArg (fun es => Except.ok ((), es)) (push_toArray _ _)
  | .append first second => by
    have hsecond := second.write_eq (es ++ first.entries)
    rw [append_assoc] at hsecond
    simp only [Written.write, bind, StateT.bind, Except.bind, first.write_eq es, hsecond]
    rfl
  | .node n => by
    simp only [Written.write, bind, StateT.bind, Except.bind, n.write_eq es, append_assoc]
    rfl

/-- No mark is misplaced when a node is written. -/
theorem Completed.write_eq (es : List Entry) : (n : Completed) → n.write es.toArray =
    .ok ((es ++ n.front).length, (es ++ n.front ++ Entry.start (some n.kind) none :: n.behind).toArray)
  | .wrap kind inside => by
    simp only [Completed.write, bind, StateT.bind, Except.bind, mark_eq, Completed.front, append_nil]
    exact complete_write (fun es => inside.write_eq es) es kind
  | .precede kind left rest => by
    -- The mark of the node on the left is told how far ahead that of its parent is.
    have hparent : markParent (es ++ left.front).length
        (es ++ left.front ++ Entry.start (some left.kind) none :: left.behind).toArray =
          .ok ((es ++ (Completed.precede kind left rest).front).length,
            (es ++ (Completed.precede kind left rest).front ++ [Entry.tombstone]).toArray) := by
      simp only [markParent, mark_eq, bind, StateT.bind, Except.bind, append_assoc _ (_ :: _), cons_append,
        amend_length]
      simp [Completed.front]
      omega
    simp only [Completed.write, bind, StateT.bind, Except.bind, left.write_eq es, hparent]
    exact complete_write (fun es => rest.write_eq es) _ kind

end

/-! ## Resolving -/

/-- A chain that leads past some entries leaves them as they are. -/
theorem follow_append {parent : Option Nat} {more more' : List Entry} {kinds : List Kind}
    (h : follow (parent.map (1 + ·)) more = .ok (kinds, more')) (es : List Entry) :
    follow (parent.map (es.length + 1 + ·)) (es ++ more) = .ok (kinds, es ++ more') := by
  cases parent with
  | none =>
    simp only [Option.map_none, follow] at h ⊢
    cases h
    rfl
  | some ahead =>
    induction es with
    | nil => simpa using h
    | cons e es ih =>
      simp only [Option.map_some] at ih ⊢
      rw [show es.length + 1 + ahead = es.length + ahead + 1 by omega] at ih
      rw [length_cons, show es.length + 1 + 1 + ahead = es.length + ahead + 2 by omega, cons_append, follow, ih]
      rfl

/-- What a node holds, with the end of the node. -/
theorem resolve_behind {w : Written}
    (hw : ∀ count more, resolveWithin (w.entries.length + count) (w.entries ++ more) =
      (w.events ++ ·) <$> resolveWithin count more) (count : Nat) (more : List Entry) :
    resolveWithin ((w.entries ++ [Entry.finish]).length + count) (w.entries ++ [.finish] ++ more) =
      (w.events ++ .finish :: ·) <$> resolveWithin count more := by
  rw [length_append, append_assoc, Nat.add_assoc, hw, Nat.add_comm]
  show _ <$> (Event.finish :: ·) <$> resolveWithin count more = _
  simp

mutual

theorem Written.resolve_entries (count : Nat) (more : List Entry) : (w : Written) →
    resolveWithin (w.entries.length + count) (w.entries ++ more) = (w.events ++ ·) <$> resolveWithin count more
  | .nil => by
    rw [Written.entries, nil_append, length_nil, Nat.zero_add]
    exact (id_map _).symm
  | .token index => by
    rw [Written.entries, Nat.add_comm]
    rfl
  | .append first second => by
    rw [Written.entries, length_append, append_assoc, Nat.add_assoc, first.resolve_entries, second.resolve_entries,
      Written.events]
    simp
  | .node n => by
    have hnode := @Completed.resolve_entries count none more more [] n (by rw [Option.map_none, follow])
    rw [Written.entries, append_assoc, length_append, Nat.add_assoc]
    exact hnode

/-- What is written of a node, with parents behind it, is resolved to the starts of these and its own events. -/
theorem Completed.resolve_entries (count : Nat) {parent : Option Nat} {more more' : List Entry} {kinds : List Kind} :
    (n : Completed) → (hmore : follow (parent.map (1 + ·)) more = .ok (kinds, more')) →
    resolveWithin (n.front.length + (n.behind.length + 1 + count))
        (n.front ++ .start (some n.kind) (parent.map (n.behind.length + 1 + ·)) :: (n.behind ++ more)) =
      (kinds.reverse.map .start ++ n.events ++ ·) <$> resolveWithin count more'
  | .wrap kind inside, h => by
    have hinside := resolve_behind (fun count more => inside.resolve_entries count more) count more'
    rw [Completed.front, Completed.behind, Completed.kind, nil_append, length_nil, Nat.zero_add, Nat.add_right_comm,
      resolveWithin, follow_append h]
    show _ <$> resolveWithin _ _ = _
    rw [hinside]
    cases resolveWithin count more' with
    | error e => rfl
    | ok es => simp [Completed.events, wrap]
  | .precede kind left rest, h => by
    have hrest := resolve_behind (fun count more => rest.resolve_entries count more) count more'
    -- The chain goes from the node on the left to this one, and on to its own parents.
    have hchain : follow ((some 0).map (1 + ·)) (.start (some kind)
        (parent.map ((rest.entries ++ [Entry.finish]).length + 1 + ·)) :: (rest.entries ++ [.finish] ++ more)) =
          .ok (kind :: kinds, .tombstone :: (rest.entries ++ [.finish] ++ more')) := by
      rw [Option.map_some, follow, follow_append h]
      rfl
    have hleft := left.resolve_entries ((rest.entries ++ [Entry.finish]).length + count + 1) hchain
    rw [Entry.tombstone, resolveWithin, hrest] at hleft
    rw [Completed.front, Completed.behind, Completed.kind, append_assoc, cons_append, length_append, Nat.add_assoc,
      Nat.add_right_comm _ 1 count]
    refine hleft.trans ?_
    cases resolveWithin count more' with
    | error e => rfl
    | ok es => simp [Completed.events, wrap]

end

/-- A draft of a node can be resolved, and then gives the events of the node. -/
theorem Completed.resolve_draft (n : Completed) : ∃ es, n.draft = .ok es ∧ resolve es = .ok n.events := by
  refine ⟨(n.front ++ Entry.start (some n.kind) none :: n.behind).toArray, ?_, ?_⟩
  · rw [draft, n.write_eq []]
    rfl
  · have hall := @Completed.resolve_entries 0 none [] [] [] n (by rw [Option.map_none, follow])
    rw [append_nil] at hall
    rw [resolve, size_toArray, length_append]
    refine hall.trans ?_
    show Except.ok _ = _
    simp

/-- The events of a program are those of its node. -/
theorem program_eq_root (text : List Char) (tokens : List Token) :
    program text tokens = ((root text tokens).1.events, (root text tokens).2) := by
  unfold program
  generalize root text tokens = r
  obtain ⟨n, faults⟩ := r
  obtain ⟨es, hdraft, hresolve⟩ := n.resolve_draft
  simp only [hdraft, bind, Except.bind, hresolve]

end Respell.Grammar
