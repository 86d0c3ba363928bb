import MiniC.Proofs.LongestMatch

/-!
# Texts as string literals

Every text has a literal, with backslashes before the characters that cannot stand in one as they are (`Spelled`). It is
one token (`tokenize_quoted`), and its bytes are those of the text (`Spelled.quoted`).
-/

namespace MiniC

namespace Literal

/-- The letter that stands for a character after a backslash. -/
def letter? : Char → Option Char
  | '\n' => some 'n'
  | '\t' => some 't'
  | '\r' => some 'r'
  | '\x00' => some '0'
  | '\\' => some '\\'
  | '\'' => some '\''
  | '"' => some '"'
  | _ => none

/-- Characters that cannot stand in a literal as they are. -/
def needsEscape (c : Char) : Bool := c == '\\' || c == '"' || c == '\n'

/-- `body` writes `text` between quotes: what needs an escape has one, and any other character with a letter of its own
may have one. -/
inductive Spelled : (text body : List Char) → Prop
  | nil : Spelled [] []
  | raw {c : Char} {text body : List Char} : needsEscape c = false → Spelled text body → Spelled (c :: text) (c :: body)
  | escape {c letter : Char} {text body : List Char} : letter? c = some letter → Spelled text body →
      Spelled (c :: text) ('\\' :: letter :: body)

/-- The letter of a character is an escape that stands for its byte. -/
theorem escape?_of_letter? {c letter : Char} (h : letter? c = some letter) :
    ∃ byte, escape? letter = some byte ∧ bytesOf c = [byte] := by
  unfold letter? at h
  split at h <;> cases h <;> exact ⟨_, rfl, rfl⟩

theorem Spelled.quoted {text body : List Char} (h : Spelled text body) :
    Quoted (body ++ ['"']) (text.flatMap bytesOf) := by
  induction h with
  | nil => exact .close
  | @raw c text body hneeds _ ih =>
    simp only [needsEscape, Bool.or_eq_false_iff, beq_eq_false_iff_ne] at hneeds
    exact .plain hneeds.2 hneeds.1.2 hneeds.1.1 ih
  | @escape c letter text body hletter _ ih =>
    obtain ⟨byte, hescape, hbytes⟩ := escape?_of_letter? hletter
    rw [List.flatMap_cons, hbytes]
    exact .escape (Lexical.escaped_of_some hescape) ih

/-- The literal of a text, with an escape for every character that has one. -/
def spelling (text : List Char) : List Char := text.flatMap fun c => (letter? c).elim [c] fun letter => ['\\', letter]

theorem spelled_spelling (text : List Char) : Spelled text (spelling text) := by
  induction text with
  | nil => exact .nil
  | cons c text ih =>
    rw [spelling, List.flatMap_cons]
    cases hletter : letter? c with
    | some letter => exact .escape hletter ih
    | none =>
      have hraw : needsEscape c = false := by
        simp only [needsEscape, Bool.or_eq_false_iff, beq_eq_false_iff_ne]
        refine ⟨⟨?_, ?_⟩, ?_⟩ <;> rintro rfl <;> cases hletter
      exact .raw hraw ih

/-- No literal contains a newline. -/
theorem Quoted.no_newline {cs : List Char} {bytes : List UInt8} (h : Quoted cs bytes) : '\n' ∉ cs := by
  induction h with
  | close => decide
  | @escape c cs byte bytes hbyte _ ih =>
    have hc : c ≠ '\n' := by
      rintro rfl
      cases hbyte
    simp [hc.symm, ih]
  | plain hnewline _ _ _ ih => simp [hnewline.symm, ih]

end Literal

namespace Lexical

open Lexer Literal

theorem Starts.string_inv {text rest : List Char} {value : Option Int} (h : Starts text (.lexeme .string value) rest) :
    value = none ∧ ∃ body bytes, text = '"' :: body ∧ Quoted body bytes := by
  generalize hpiece : Piece.lexeme .string value = piece at h
  cases h with
  | word => split at hpiece <;> cases hpiece
  | string hquoted =>
    cases hpiece
    exact ⟨rfl, _, _, rfl, hquoted⟩
  | _ => cases hpiece

/-- A literal between quotes is one token. -/
theorem tokenize_quoted {body : List Char} {bytes : List UInt8} (h : Quoted body bytes) :
    tokenize (String.ofList ('"' :: body)) = .ok
      [⟨.string, String.ofList ('"' :: body), none, 0, 1⟩,
        Token.eof (String.ofList ('"' :: body)).utf8ByteSize 1] := by
  have hsplits : Splits (String.ofList ('"' :: body)).toList [('"' :: body, .lexeme .string none)] [] := by
    rw [String.toList_ofList]
    have hpiece : Splits ('"' :: body ++ []) [('"' :: body, .lexeme .string none)] [] := .piece (.string h) .stop
    rwa [List.append_nil] at hpiece
  have hcount : ('"' :: body).count '\n' = 0 := List.count_eq_zero.2 (by simp [h.no_newline])
  rw [tokenize_of_splits hsplits, String.toList_ofList, hcount]
  rfl

end Lexical

end MiniC
