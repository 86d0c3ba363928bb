import Mathlib.Algebra.Group.Nat.Defs
import MiniC.Proofs.Lexing

/-!
# The lexical grammar

Which texts are gaps and which are lexemes, and how a source splits into them from left to right. Numbers and words are
runs that the source does not go on with, a line comment ends before a newline, a block comment with the first `*/` after
its opening, a literal with its closing quote, and of the punctuators the longest one fits. `Flaw` says where no piece
starts, and why.
-/

namespace MiniC

namespace Lexical

open Lexer Literal

/-! ## Pieces -/

/-- `text` consists of characters in `p`, and `rest` does not go on with one. -/
structure Run (p : Char → Bool) (text rest : List Char) : Prop where
  inside : ∀ c ∈ text, p c = true
  outside : ∀ c, rest.head? = some c → p c = false

/-- A comment opens here. -/
def OpensComment (cs : List Char) : Prop := ['/', '/'] <+: cs ∨ ['/', '*'] <+: cs

/-- A character literal with its quotes, and its byte: that of an escape, or of any other character of one byte that ends
no line. -/
inductive CharacterLiteral : List Char → UInt8 → Prop
  | plain {c : Char} : c.toNat < 128 → c ≠ '\n' → c ≠ '\\' → CharacterLiteral ['\'', c, '\''] (UInt8.ofNat c.toNat)
  | escape {c : Char} {byte : UInt8} : escape? c = some byte → CharacterLiteral ['\'', '\\', c, '\''] byte

/-- A source that is `text` with `rest` after it starts with the piece `text`. -/
inductive Starts : (text : List Char) → Piece → (rest : List Char) → Prop
  | blank {c : Char} {rest : List Char} : isBlank c = true → Starts [c] .gap rest
  | lineComment {body rest : List Char} : Run (· ≠ '\n') body rest → Starts ('/' :: '/' :: body) .gap rest
  /-- The closing `*/` is the first after the opening. -/
  | blockComment {body rest : List Char} : ¬ ['*', '/'] <:+: body ++ ['*'] →
      Starts ('/' :: '*' :: (body ++ ['*', '/'])) .gap rest
  | number {digits rest : List Char} : digits ≠ [] → Run Char.isDigit digits rest → decimal digits < 2 ^ 63 →
      Starts digits (.lexeme .number (some (decimal digits))) rest
  | word {c : Char} {more rest : List Char} : isWordStart c = true → Run isWordChar more rest →
      Starts (c :: more) (.lexeme (if String.ofList (c :: more) ∈ keywords then .keyword else .ident) none) rest
  | character {text rest : List Char} {byte : UInt8} : CharacterLiteral text byte →
      Starts text (.lexeme .number (some byte.toNat)) rest
  | string {body rest : List Char} {bytes : List UInt8} : Quoted body bytes → Starts ('"' :: body) (.lexeme .string none) rest
  | punctuator {op : String} {rest : List Char} : op ∈ punctuators → ¬ OpensComment (op.toList ++ rest) →
      (∀ longer ∈ punctuators, longer.toList <+: op.toList ++ rest → longer.length ≤ op.length) →
      Starts op.toList (.lexeme .punctuator none) rest

/-- Pieces of a source with their texts, in order. -/
abbrev Pieces := List (List Char × Piece)

/-- What the pieces are pieces of. -/
def Pieces.text (pieces : Pieces) : List Char := pieces.flatMap (·.1)

/-- The source splits, from left to right, into the pieces and what is left after them. -/
inductive Splits : List Char → Pieces → List Char → Prop
  | stop {left : List Char} : Splits left [] left
  | piece {text rest left : List Char} {piece : Piece} {pieces : Pieces} :
      Starts text piece rest → Splits rest pieces left → Splits (text ++ rest) ((text, piece) :: pieces) left

theorem Splits.text_append {cs left : List Char} {pieces : Pieces} (h : Splits cs pieces left) : cs = pieces.text ++ left := by
  induction h with
  | stop => rfl
  | piece _ _ ih => rw [ih, Pieces.text, Pieces.text, List.flatMap_cons, List.append_assoc]

/-! ## Where no piece starts -/

/-- The first byte of a character, as the character of that number. -/
def shown (c : Char) : Char := Char.ofNat (leadByte c).toNat

/-- What follows an opening quote is no character literal. -/
inductive BadCharacter : List Char → LexicalFault → Prop
  | nothing : BadCharacter [] .endOfLiteral
  | newline {cs : List Char} : BadCharacter ('\n' :: cs) .endOfLiteral
  | backslash : BadCharacter ['\\'] .endOfLiteral
  | unknown {c : Char} {cs : List Char} : escape? c = none → BadCharacter ('\\' :: c :: cs) (.unknownEscape (shown c))
  | escape {c : Char} {cs : List Char} {byte : UInt8} : escape? c = some byte → cs.head? ≠ some '\'' →
      BadCharacter ('\\' :: c :: cs) .unclosedCharacter
  | wide {c : Char} {cs : List Char} : 128 ≤ c.toNat → BadCharacter (c :: cs) .unclosedCharacter
  | plain {c : Char} {cs : List Char} : c.toNat < 128 → c ≠ '\n' → c ≠ '\\' → cs.head? ≠ some '\'' →
      BadCharacter (c :: cs) .unclosedCharacter

/-- What follows an opening quote is no string literal. -/
inductive BadString : List Char → LexicalFault → Prop
  | nothing : BadString [] .unterminatedString
  | newline {cs : List Char} : BadString ('\n' :: cs) .unterminatedString
  | backslash : BadString ['\\'] .endOfLiteral
  | unknown {c : Char} {cs : List Char} : escape? c = none → BadString ('\\' :: c :: cs) (.unknownEscape (shown c))
  | escape {c : Char} {cs : List Char} {byte : UInt8} {cause : LexicalFault} : escape? c = some byte → BadString cs cause →
      BadString ('\\' :: c :: cs) cause
  | plain {c : Char} {cs : List Char} {cause : LexicalFault} : c ≠ '\n' → c ≠ '"' → c ≠ '\\' → BadString cs cause →
      BadString (c :: cs) cause

/-- No piece starts where the source goes on like this. -/
inductive Flaw : List Char → LexicalFault → Prop
  | number {digits rest : List Char} : digits ≠ [] → Run Char.isDigit digits rest → 2 ^ 63 ≤ decimal digits →
      Flaw (digits ++ rest) (.numberTooLarge (String.ofList digits))
  | comment {body : List Char} : ¬ ['*', '/'] <:+: body → Flaw ('/' :: '*' :: body) .unclosedComment
  | character {cs : List Char} {cause : LexicalFault} : BadCharacter cs cause → Flaw ('\'' :: cs) cause
  | string {cs : List Char} {cause : LexicalFault} : BadString cs cause → Flaw ('"' :: cs) cause
  | unrecognised {c : Char} {cs : List Char} : isBlank c = false → c.isDigit = false → isWordStart c = false →
      c ≠ '\'' → c ≠ '"' → (∀ op ∈ punctuators, ¬ op.toList <+: c :: cs) → Flaw (c :: cs) (.unrecognised c)

/-! ## Where pieces stand -/

/-- Bytes of a text in UTF-8. -/
def size (text : List Char) : Nat := (String.ofList text).utf8ByteSize

/-- The lexemes among the pieces, each one after as many bytes and newlines as the text before it has; that text starts
with `before`. -/
def placed (before : List Char) : Pieces → List Token
  | [] => []
  | (text, .gap) :: pieces => placed (before ++ text) pieces
  | (text, .lexeme kind value) :: pieces =>
    ⟨kind, String.ofList text, value, size before, 1 + before.count '\n'⟩ :: placed (before ++ text) pieces

/-- Lexemes of a source: each in its place, behind the one before it, and the keywords told from the identifiers. -/
structure Laid (source : String) (tokens : List Token) : Prop where
  disjoint : tokens.Pairwise fun t u => t.start + t.length ≤ u.start
  inside : ∀ t ∈ tokens, 0 < t.length ∧
    ∃ before after, source.toList = before ++ t.text.toList ++ after ∧ size before = t.start
  keyword : ∀ t ∈ tokens, t.kind = .keyword ↔ t.text ∈ keywords

end Lexical

end MiniC
