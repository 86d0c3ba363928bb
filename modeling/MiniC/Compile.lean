import MiniC.Lower.Program
import MiniC.Parse.Program
import MiniC.Token.Lexer

/-!
# From source text to assembly

A source is cut into tokens, parsed into a typed tree and lowered to a listing. The stages share a context, and several
sources may share one too: a fault in any stage ends the run of one source and leaves in the context what was done so
far.
-/

namespace MiniC

/-- The program that a source text writes. -/
def parseSource (source : String) : CompileM Program := do
  match tokenize source with
  | .ok tokens => parse tokens
  | .error fault => throw fault

/-- The assembly of a source text on its own. -/
def compile (source : String) : Except Fault String :=
  match (do generate (← parseSource source) : CompileM Listing) {} with
  | .ok listing _ => .ok listing.render
  | .error fault _ => .error fault

/-! ## Several sources in one context -/

/-- What became of one source. -/
inductive Build where
  /-- No program. -/
  | rejected (fault : Fault)
  /-- A program, its listing if it has one, and the context after it. -/
  | lowered (program : Program) (listing : Except Fault Listing) (context : Context)

/-- Compile a source in a context that earlier sources have filled. -/
def buildSource (source : String) (context : Context) : Build × Context :=
  match parseSource source context with
  | .error fault context => (.rejected fault, context)
  | .ok program context =>
    match generate program context with
    | .ok listing context => (.lowered program (.ok listing) context, context)
    | .error fault context => (.lowered program (.error fault) context, context)

/-- Compile sources one after another, each in the context that the one before it leaves. -/
def buildSources : List String → Context → List Build × Context
  | [], context => ([], context)
  | source :: sources, context =>
    let (build, next) := buildSource source context
    let (builds, last) := buildSources sources next
    (build :: builds, last)

end MiniC
