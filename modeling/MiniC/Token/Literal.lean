import MiniC.Fault

/-!
# Character and string literals

A literal is read twice: while scanning, over characters (`charLiteral`, `stringLiteral`), and when a string's bytes are
wanted, over the bytes of the token's text (`stringBytes`). Both share the table of escapes (`escape?`).
-/

namespace MiniC.Literal

/-- The byte that a backslash and `c` stand for. -/
def escape? : Char → Option UInt8
  | 'n' => some 10
  | 't' => some 9
  | 'r' => some 13
  | '0' => some 0
  | '\\' => some 92
  | '\'' => some 39
  | '"' => some 34
  | _ => none

/-- The UTF-8 bytes of one character. -/
def bytesOf (c : Char) : List UInt8 := String.utf8EncodeChar c

/-- The first UTF-8 byte of a character. -/
def leadByte (c : Char) : UInt8 := (bytesOf c).headD 0

/-- What the byte after a backslash stands for. -/
def escaped (byte : UInt8) : Except LexicalFault UInt8 :=
  let c := Char.ofNat byte.toNat
  match escape? c with
  | some value => .ok value
  | none => .error (.unknownEscape c)

/-- A character literal, read after its opening quote: its byte and the number of characters up to and with the closing
quote. Only a character of one byte can be quoted. -/
def charLiteral : List Char → Except LexicalFault (UInt8 × Nat)
  | [] => .error .endOfLiteral
  | '\n' :: _ => .error .endOfLiteral
  | '\\' :: [] => .error .endOfLiteral
  | '\\' :: c :: rest => do
    let byte ← escaped (leadByte c)
    match rest with
    | '\'' :: _ => .ok (byte, 3)
    | _ => .error .unclosedCharacter
  | c :: rest =>
    match bytesOf c, rest with
    | [byte], '\'' :: _ => .ok (byte, 2)
    | _, _ => .error .unclosedCharacter

/-- A string literal, read after its opening quote: its bytes and the number of characters up to and with the closing
quote. -/
def stringLiteral : List Char → Except LexicalFault (List UInt8 × Nat)
  | [] => .error .unterminatedString
  | '\n' :: _ => .error .unterminatedString
  | '"' :: _ => .ok ([], 1)
  | '\\' :: [] => .error .endOfLiteral
  | '\\' :: c :: rest => do
    let byte ← escaped (leadByte c)
    let (bytes, count) ← stringLiteral rest
    .ok (byte :: bytes, count + 2)
  | c :: rest => do
    let (bytes, count) ← stringLiteral rest
    .ok (bytesOf c ++ bytes, count + 1)

/-- The bytes of a literal's body, up to its last byte, which is the closing quote. -/
def decodeBody : List UInt8 → Except LexicalFault (List UInt8)
  | [] => .ok []
  | [_] => .ok []
  | first :: second :: rest =>
    if first = 10 then .error .endOfLiteral
    else if first = 92 then do
      let byte ← escaped second
      let bytes ← decodeBody rest
      .ok (byte :: bytes)
    else do
      let bytes ← decodeBody (second :: rest)
      .ok (first :: bytes)

/-- The bytes that a string literal with quotes stands for. -/
def stringBytes (text : String) : Except LexicalFault (List UInt8) :=
  decodeBody (text.toUTF8.toList.drop 1)

end MiniC.Literal
