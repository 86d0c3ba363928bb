import MiniC.Token
import MiniC.Token.Literal

/-!
# From source text to tokens

The source is cut into pieces from left to right. `readPiece` looks at the characters from one position on and says
what starts there, a gap (blank or comment) or a lexeme, and how many characters it takes. `tokenize` walks over the
pieces, counts bytes and newlines, keeps the lexemes and ends with an `eof` token.
-/

namespace MiniC

namespace Lexer

/-- What a piece of source is. -/
inductive Piece where
  /-- Blanks and comments. -/
  | gap
  | lexeme (kind : TokenKind) (value : Option Int)
  deriving DecidableEq

/-- Space, tab, newline, form feed and carriage return. -/
def isBlank (c : Char) : Bool := c == ' ' || c == '\t' || c == '\n' || c == '\x0c' || c == '\r'

def isWordStart (c : Char) : Bool := c.isAlpha || c == '_'

def isWordChar (c : Char) : Bool := c.isAlphanum || c == '_'

/-- The number that a run of decimal digits writes. -/
def decimal (digits : List Char) : Nat := digits.foldl (fun n c => 10 * n + (c.toNat - '0'.toNat)) 0

/-- Characters up to and with the first `*/`. -/
def commentEnd? : List Char → Option Nat
  | [] => none
  | '*' :: '/' :: _ => some 2
  | _ :: cs => (commentEnd? cs).map (· + 1)

/-- Numbers are below two to the power of 63. -/
def wordLimit : Nat := 9223372036854775808

/-- The number that starts with `c`; a number takes all the digits that follow. -/
def readNumber (c : Char) (cs : List Char) : Except LexicalFault (Piece × Nat) :=
  let more := cs.takeWhile Char.isDigit
  let value := decimal (c :: more)
  if value < wordLimit then .ok (.lexeme .number (some value), more.length)
  else .error (.numberTooLarge (String.ofList (c :: more)))

/-- The keyword or identifier that starts with `c`. -/
def readWord (c : Char) (cs : List Char) : Piece × Nat :=
  let more := cs.takeWhile isWordChar
  let kind := if String.ofList (c :: more) ∈ keywords then TokenKind.keyword else TokenKind.ident
  (.lexeme kind none, more.length)

/-- The punctuator that `cs` starts with. -/
def punctuator? (cs : List Char) : Option String := punctuators.find? (·.toList.isPrefixOf cs)

/-- What starts at `c`, and how many characters it takes beyond `c`. -/
def readPiece (c : Char) (cs : List Char) : Except LexicalFault (Piece × Nat) :=
  if isBlank c then .ok (.gap, 0)
  else if c = '/' ∧ cs.head? = some '/' then .ok (.gap, (cs.takeWhile (· ≠ '\n')).length)
  else if c = '/' ∧ cs.head? = some '*' then
    match commentEnd? cs.tail with
    | some count => .ok (.gap, count + 1)
    | none => .error .unclosedComment
  else if c.isDigit then readNumber c cs
  else if isWordStart c then .ok (readWord c cs)
  else if c = '\'' then do
    let (byte, count) ← Literal.charLiteral cs
    .ok (.lexeme .number (some byte.toNat), count)
  else if c = '"' then do
    let (_, count) ← Literal.stringLiteral cs
    .ok (.lexeme .string none, count)
  else
    match punctuator? (c :: cs) with
    | some op => .ok (.lexeme .punctuator none, op.length - 1)
    | none => .error (.unrecognised c)

/-- Bytes of a text in UTF-8. -/
def byteCount (text : List Char) : Nat := text.foldr (fun c count => c.utf8Size + count) 0

/-- The tokens of the characters that follow `start` bytes of source, the first of them on `line`. -/
def scan (start line : Nat) : List Char → Except Fault (List Token)
  | [] => .ok [Token.eof start line]
  | c :: cs =>
    match readPiece c cs with
    | .error cause => .error (.lexical line cause)
    | .ok (piece, extra) =>
      let text := c :: cs.take extra
      let start' := start + byteCount text
      let line' := line + text.count '\n'
      match piece with
      | .gap => scan start' line' (cs.drop extra)
      | .lexeme kind value =>
        (scan start' line' (cs.drop extra)).map (⟨kind, String.ofList text, value, start, line⟩ :: ·)
termination_by cs => cs.length
decreasing_by all_goals exact Nat.lt_succ_of_le (List.length_drop ▸ Nat.sub_le ..)

end Lexer

/-- The tokens of a source, with `eof` as the last, or the first thing in it that is no token. -/
def tokenize (source : String) : Except Fault (List Token) := Lexer.scan 0 1 source.toList

end MiniC
