/-!
# Tokens

A token keeps its own text, so nothing after the lexer needs the source. Tokens may also be cut out of a source by hand
(`Token.ofSpan`); the parser makes no assumption on where they come from.
-/

namespace MiniC

inductive TokenKind where
  | ident
  | keyword
  | punctuator
  | number
  | string
  | eof
  deriving DecidableEq

structure Token where
  kind : TokenKind
  text : String
  /-- The value of a number or a character literal. -/
  value : Option Int
  /-- Bytes of source before the token. -/
  start : Nat
  /-- The line the token starts on, counted from one. -/
  line : Nat
  deriving DecidableEq

/-- A token that the grammar asks for by its text. -/
inductive Terminal where
  | keyword (text : String)
  | punct (text : String)
  deriving DecidableEq

def Terminal.text : Terminal → String
  | keyword text => text
  | punct text => text

/-- The words that are no identifiers. -/
def keywords : List String :=
  ["func", "return", "global", "var", "if", "else", "while", "for", "void", "char", "int", "long"]

/-- The punctuators, in the order in which they are tried: the longer before the shorter. -/
def punctuators : List String :=
  ["<<", ">>", "==", "!=", "<=", ">=", "->", "++", "--", "+", "-", "*", "/", "%", "&", "|", "^", "!", "<", ">", "=",
    "(", ")", "\x7b", "\x7d", "[", "]", ";", ","]

/-- The text of the bytes `[start, start + length)` of `source`; bytes that are no whole characters have none. -/
def sliceBytes (source : String) (start length : Nat) : String :=
  (String.fromUTF8? (source.toUTF8.extract start (start + length))).getD ""

namespace Token

/-- Bytes of source that the token covers. -/
def length (t : Token) : Nat := t.text.utf8ByteSize

/-- The mark after the last token of a source of `size` bytes. -/
def eof (size line : Nat) : Token := ⟨.eof, "", none, size, line⟩

/-- The token over a range of bytes of `source`. -/
def ofSpan (source : String) (kind : TokenKind) (start length line : Nat) (value : Option Int) : Token :=
  ⟨kind, sliceBytes source start length, value, start, line⟩

/-- Whether the token is the given keyword or punctuator. -/
def is (t : Token) : Terminal → Bool
  | .keyword text => t.kind == .keyword && t.text == text
  | .punct text => t.kind == .punctuator && t.text == text

/-- The token as diagnostics show it. -/
def describe (t : Token) : String :=
  match t.kind with
  | .eof => "end of input"
  | _ => t.text

end Token

end MiniC
