import Respell.Tree.Grammar

/-!
Parsing: from a text to its tree and the faults in it.
-/

namespace Respell

/-- A tree and the faults found while reading it. -/
structure Parse where
  tree : Tree
  errors : List Diagnostic
deriving Repr

/-- Parses a text.  There is always a tree: the events of a program have its root node and name tokens
of the stream only, so `Tree.ofEvents?` does not refuse them. -/
def Parse.ofText (text : List Char) : Parse :=
  let ⟨tokens, comments⟩ := Lexed.ofText text
  let (events, errors) := Grammar.program text tokens
  let bare : Tree := ⟨text, tokens, comments, ⟨⟨0, .program, .empty 0, none⟩, .nil⟩⟩
  ⟨(Tree.ofEvents? text tokens comments events).getD bare, errors⟩

end Respell
