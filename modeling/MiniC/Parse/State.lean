import MiniC.Context
import MiniC.Token

/-!
# The parser's state and results

A parser works on the tokens that are left and on the context that declarations fill. A success comes with the proof
that fewer tokens are left, so the recursion of the grammar is well founded on their number; a failure keeps the state
in which it was met.
-/

namespace MiniC.Parse

structure State where
  /-- The tokens not yet read. -/
  tokens : List Token
  /-- The line of the last token of all, which is reported when none is left. -/
  lastLine : Nat
  context : Context

/-- The number of tokens left. -/
def State.size (s : State) : Nat := s.tokens.length

/-- What parsing gives when `n` tokens were left: a value and a state with fewer tokens, or a fault and the state in
which it was met. -/
inductive Result (n : Nat) (α : Type) where
  | ok (value : α) (next : State) (shorter : next.size < n)
  | fail (fault : Fault) (last : State)

namespace Result

variable {m : Nat} {α β : Type}

/-- The value `a`, with nothing read to get it. -/
def done (a : α) (s : State) : Result (s.size + 1) α := ok a s (Nat.lt_succ_self _)

/-- Go on after a success with something that may read more tokens. -/
def bind (r : Result m α) (k : α → (s : State) → s.size < m → Result (s.size + 1) β) : Result m β :=
  match r with
  | ok a s h =>
    match k a s h with
    | ok b t h' => ok b t (Nat.lt_of_lt_of_le h' h)
    | fail fault last => fail fault last
  | fail fault last => fail fault last

/-- Forget that a token was read. -/
def relax (r : Result m α) : Result (m + 1) α :=
  match r with
  | ok a s h => ok a s (Nat.lt_succ_of_lt h)
  | fail fault last => fail fault last

/-- Go on after a success, as part of something that has read a token before. -/
def andThen (r : Result m α) (k : α → (s : State) → s.size < m → Result (s.size + 1) β) : Result (m + 1) β :=
  (r.bind k).relax

end Result

namespace State

/-- The line of the next token. -/
def line (s : State) : Nat :=
  match s.tokens with
  | t :: _ => t.line
  | [] => s.lastLine

/-- The next token as diagnostics show it. -/
def found (s : State) : String :=
  match s.tokens with
  | t :: _ => t.describe
  | [] => "end of input"

def kind? (s : State) : Option TokenKind := s.tokens.head?.map (·.kind)

/-- Whether there is nothing left to read. -/
def atEnd (s : State) : Bool :=
  match s.tokens with
  | t :: _ => t.kind == .eof
  | [] => true

/-- Whether the next token is the given one. -/
def sees (s : State) (terminal : Terminal) : Bool := s.tokens.head?.any (·.is terminal)

end State

/-! ## Reading one token -/

/-- A token that was read: what it was read as, and the state after it. -/
structure Taken (n : Nat) (α : Type) where
  value : α
  next : State
  shorter : next.size < n

namespace Taken

variable {m : Nat} {α β : Type}

/-- Go on after the token. -/
def bind (t : Taken m α) (k : α → (s : State) → s.size < m → Result (s.size + 1) β) : Result m β :=
  (Result.ok t.value t.next t.shorter).bind k

/-- Go on after the token, as part of something that has read a token before. -/
def andThen (t : Taken m α) (k : α → (s : State) → s.size < m → Result (s.size + 1) β) : Result (m + 1) β :=
  (t.bind k).relax

end Taken

namespace State

variable {n : Nat} {α β : Type}

/-- Read the next token as something, if it can be read so. -/
def take? (s : State) (read : Token → Option α) : Option (Taken s.size α) :=
  match s with
  | ⟨t :: rest, lastLine, context⟩ => (read t).map fun a => ⟨a, ⟨rest, lastLine, context⟩, Nat.lt_succ_self _⟩
  | ⟨[], _, _⟩ => none

/-- Read the given keyword or punctuator. -/
def accept? (s : State) (terminal : Terminal) : Option (Taken s.size Unit) :=
  s.take? fun t => if t.is terminal then some () else none

/-- The failure to find the next token that the grammar asks for. -/
def missing (s : State) (cause : String → GrammarFault) : Result n α := .fail (.grammar s.line (cause s.found)) s

/-- Read the next token, which must be readable so. -/
def need (s : State) (read : Token → Option α) (cause : String → GrammarFault) : Result s.size α :=
  match s.take? read with
  | some ⟨a, next, h⟩ => .ok a next h
  | none => s.missing cause

/-- Read the given keyword or punctuator, which must come next. -/
def expect (s : State) (terminal : Terminal) : Result s.size Unit :=
  s.need (fun t => if t.is terminal then some () else none) (.expected terminal.text)

/-! ## Between two tokens -/

/-- Go on with what a typing rule allows, or fail on `line`. -/
def demand (s : State) (line : Nat) (verdict : Except SemanticFault α) (k : α → Result n β) : Result n β :=
  match verdict with
  | .ok a => k a
  | .error cause => .fail (.semantic line cause) s

/-- Work on the context. -/
def perform (s : State) (work : CompileM α) : Result (s.size + 1) α :=
  match work s.context with
  | .ok a context => .ok a { s with context } (Nat.lt_succ_self _)
  | .error fault context => .fail fault { s with context }

end State

end MiniC.Parse
