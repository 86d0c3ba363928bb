import MiniC.Compile
import MiniC.Files
import MiniC.Tree.Outline

/-!
# The command line

One source file is compiled; its assembly goes to standard output or to a file, and its tree can be shown on the way.
-/

namespace MiniC

/-- What a run is asked to do. -/
structure Options where
  input : String
  output : Option String
  /-- Whether the tree is shown on standard error before code is generated. -/
  showTree : Bool
  deriving DecidableEq

namespace Options

/-- The arguments read so far; each may be given once. -/
structure Given where
  input : Option String := none
  output : Option String := none
  showTree : Bool := false

/-- A file name: anything but the empty text. -/
def Given.withInput? (given : Given) (name : String) : Option Given :=
  if given.input.isSome ∨ name.isEmpty then none else some { given with input := some name }

def Given.withOutput? (given : Given) (name : String) : Option Given :=
  if given.output.isSome ∨ name.isEmpty then none else some { given with output := some name }

def Given.withTree? (given : Given) : Option Given :=
  if given.showTree then none else some { given with showTree := true }

/-- Whether an argument is an option; a single dash is a file name. -/
def isOption (arg : String) : Bool := arg.startsWith "-" && arg != "-"

/-- The value that is joined to an output option, with an equals sign in between or, after one letter, without. -/
def joined? (arg : String) : Option String :=
  if arg.startsWith "--output=" then some (arg.drop 9).toString
  else if arg.startsWith "-o=" then some (arg.drop 3).toString
  else if arg.startsWith "-o" ∧ arg ≠ "-o" then some (arg.drop 2).toString
  else none

/-- All arguments are file names. -/
def onlyNames (given : Given) : List String → Option Given
  | [] => some given
  | arg :: args => do onlyNames (← given.withInput? arg) args

/-- Read arguments from left to right; `--` ends the options. -/
def readArgs (given : Given) : List String → Option Given
  | [] => some given
  | "--" :: args => onlyNames given args
  | "--dump-ast" :: args => do readArgs (← given.withTree?) args
  | [arg] => do
    if isOption arg then given.withOutput? (← joined? arg) else given.withInput? arg
  | arg :: next :: args => do
    if arg = "-o" ∨ arg = "--output" then
      if isOption next then none else readArgs (← given.withOutput? next) args
    else if isOption arg then readArgs (← given.withOutput? (← joined? arg)) (next :: args)
    else readArgs (← given.withInput? arg) (next :: args)

/-- The options that arguments write, if they are of the right form. -/
def ofArgs? (args : List String) : Option Options := do
  let given ← readArgs {} args
  return { input := ← given.input, output := given.output, showTree := given.showTree }

end Options

/-- What a run leaves behind, files apart. -/
structure Outcome where
  exitCode : Nat
  stdout : String := ""
  stderr : String := ""
  deriving DecidableEq

namespace CommandLine

/-- The exit code of a run that failed. -/
def failed : Nat := 1

/-- The exit code of a run with wrong arguments. -/
def misused : Nat := 2

/-- The run ends with a diagnostic, after what it has shown on standard error. -/
def stop (shown : String) (diagnostic : Diagnostic) : Outcome :=
  { exitCode := failed, stderr := shown ++ diagnostic.text ++ "\n" }

/-- Compile a source text: what is shown of its tree, and its assembly. -/
def build (showTree : Bool) (source : String) : String × Except Fault String :=
  match (buildSource source {}).1 with
  | .rejected fault => ("", .error fault)
  | .lowered program listing _ => (if showTree then program.outline.render ++ "\n" else "", listing.map (·.render))

variable {m : Type → Type} [Monad m]

/-- Compile a file as the options ask. -/
def compileFile (files : Files m) (options : Options) : m Outcome := do
  match ← files.readSource options.input with
  | .error diagnostic => return stop "" diagnostic
  | .ok source =>
    match build options.showTree source with
    | (shown, .error fault) => return stop shown fault.diagnostic
    | (shown, .ok assembly) =>
      match options.output with
      | none => return { exitCode := 0, stdout := assembly, stderr := shown }
      | some path =>
        match ← files.writeOutput path assembly with
        | .error diagnostic => return stop shown diagnostic
        | .ok _ => return { exitCode := 0, stderr := shown }

/-- The line that reminds of the arguments. -/
def usage : String := "usage: [--dump-ast] [-o FILE] INPUT\n"

/-- A whole run. -/
def run (files : Files m) (args : List String) : m Outcome := do
  match Options.ofArgs? args with
  | some options => compileFile files options
  | none => return { exitCode := misused, stderr := usage }

end CommandLine

end MiniC
