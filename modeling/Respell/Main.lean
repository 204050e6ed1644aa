import Respell.Command

/-!
The program: reads a file, compiles it, and prints or writes the result.
-/

namespace Respell

/-- Compiles a file; what went wrong is an error with the text to print. -/
def compileFile (path : String) (stage : Stage) : ExceptT String IO String := do
  match ← (IO.FS.readFile path).toBaseIO with
  | .error e => throw s!"failed to read `{path}`: {e}"
  | .ok text =>
    match compile stage text with
    | .ok code => return code
    | .error e => throw (e.report path)

def Command.run : Command → ExceptT String IO Unit
  | .compile path stage none => do IO.print (← compileFile path stage)
  | .compile path stage (some output) => do
    let code ← compileFile path stage
    match ← (IO.FS.writeFile output code).toBaseIO with
    | .error e => throw s!"failed to write `{output}`: {e}"
    | .ok () => return ()
  | .check path => do discard (compileFile path .main)

end Respell

def main (args : List String) : IO UInt32 := do
  match Respell.Command.ofArgs? args with
  | none => IO.eprintln Respell.Command.usage; return 2
  | some command =>
    match ← command.run.run with
    | .ok () => return 0
    | .error message => IO.eprintln message; return 1
