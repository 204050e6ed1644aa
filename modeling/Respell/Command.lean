import Respell.Compile

/-!
The command line: what is asked for, and what a failure looks like on a terminal.
-/

namespace Respell

/-- What the program is asked to do with a file. -/
inductive Command where
  /-- Compile as far as `stage`, and write the result to `output`, or print it. -/
  | compile (path : String) (stage : Stage) (output : Option String)
  /-- Only report what is wrong. -/
  | check (path : String)
deriving DecidableEq, Repr

namespace Command

def usage : String :=
  "usage: respell compile <PATH> [--stage normalize|main] [-o|--output <OUTPUT>]\n       respell check <PATH>"

/-- Reads what follows `compile`, options and path in any order. -/
def compileArgs? (path : Option String) (stage : Stage) (output : Option String) :
    List String → Option Command
  | [] => path.map (.compile · stage output)
  | "--stage" :: "normalize" :: rest => compileArgs? path .normalize output rest
  | "--stage" :: "main" :: rest => compileArgs? path .main output rest
  | "-o" :: out :: rest => compileArgs? path stage (some out) rest
  | "--output" :: out :: rest => compileArgs? path stage (some out) rest
  | arg :: rest =>
    if path.isSome || arg.startsWith "-" then none else compileArgs? (some arg) stage output rest

def ofArgs? : List String → Option Command
  | "compile" :: args => compileArgs? none .main none args
  | ["check", path] => some (.check path)
  | _ => none

end Command

/-! ## Reports -/

/-- Line and column of an offset, both from 1, columns in characters. -/
def Text.position (text : List Char) (offset : Nat) : Nat × Nat :=
  let before := ((splitBytes? offset text).map (·.1)).getD text
  (before.count '\n' + 1, (lastLine before).length + 1)

/-- A diagnostic as lines: the message, the place and its label, the notes. -/
def Diagnostic.report (d : Diagnostic) (origin : String) (text : List Char) : String :=
  let (line, column) := Text.position text d.range.start
  "\n".intercalate
    (s!"error: {d.message}" :: s!" --> {origin}:{line}:{column}: {d.label}" ::
      d.notes.map fun note => s!" note: {note}")

/-- What to say of a failure: its diagnostics, against the text that the stage saw, then a summary. -/
def CompileError.report (e : CompileError) (path : String) : String :=
  let origin := match e.stage with
    | .normalize => path
    | .main => s!"{path} ({e.stage.name} stage input)"
  "\n".intercalate
    (e.diagnostics.map (·.report origin e.text.toList) ++
      [s!"failed to compile `{path}`: {e.message}"])

end Respell
