import MiniC.Proofs.Lines
import MiniC.Proofs.StringLiterals

/-!
# Scanning byte by byte

`Bytewise.scan` finds the tokens of a source with a cursor that counts bytes and goes forward one byte at a time through
comments, words and literals, whatever characters these bytes belong to. Where a part of the source is wanted it is cut
out at two cursors, and nothing comes of a cut through a character (`Bytewise.slice?`).

No cut is ever made there (`bytewise_scanning`): a piece of source that starts at the cursor is passed in one step that
ends behind it (`passed`), a flaw is reported where it is (`reported`), so the cursor stands on a boundary between
characters whenever something is cut out (`scanned`), and the tokens are those of `tokenize`.
-/

namespace MiniC

namespace Bytewise

open Lexer Literal

/-! ## Cuts -/

/-- A character of the source starts at byte `i`, or the source ends there. -/
abbrev Boundary (source : String) (i : Nat) : Prop := String.Pos.Raw.IsValid source ⟨i⟩

/-- The source from byte `start` up to byte `stop`, if that is no cut through a character. -/
def slice? (source : String) (start stop : Nat) : Option String :=
  if start ≤ stop ∧ Boundary source start ∧ Boundary source stop then some (sliceBytes source start (stop - start))
  else none

/-! ## Tokens without their texts -/

/-- A token with its place in the source instead of its text. -/
structure Span where
  kind : TokenKind
  start : Nat
  length : Nat
  line : Nat
  value : Option Int
  deriving DecidableEq

end Bytewise

/-- The place of the token. -/
def Token.span (t : Token) : Bytewise.Span := ⟨t.kind, t.start, t.length, t.line, t.value⟩

namespace Bytewise

open Lexer Literal

namespace Span

def text? (source : String) (span : Span) : Option String := slice? source span.start (span.start + span.length)

/-- The span as diagnostics show it. -/
def describe? (source : String) (span : Span) : Option String :=
  match span.kind with
  | .eof => some "end of input"
  | _ => span.text? source

/-- The bytes of the string literal that the span covers. -/
def stringBytes? (source : String) (span : Span) : Option (Except LexicalFault (List UInt8)) :=
  (span.text? source).map Literal.stringBytes

end Span

/-! ## One step -/

/-- The character of the byte's number; all classes of characters are classes of bytes below 128. -/
def byteChar (byte : UInt8) : Char := Char.ofNat byte.toNat

/-- What a step passes: a piece, the newlines that it counts, and the bytes it takes beyond the first. -/
structure Step where
  piece : Piece
  lines : Nat
  extra : Nat
  deriving DecidableEq

/-- A step from the cursor, or a flaw there; nothing if something was cut through a character. -/
abbrev Stepped := Option (Except LexicalFault Step)

/-- How many bytes of characters in `p` come next. -/
def run (p : Char → Bool) (bytes : List UInt8) : Nat := (bytes.takeWhile (p ∘ byteChar)).length

/-- A block comment that opens at `i`. -/
def blockComment (source : String) (i : Nat) : Stepped := do
  let body ← slice? source (i + 2) source.utf8ByteSize
  match commentEnd? body.toList with
  | none => return .error .unclosedComment
  | some count =>
    -- the bytes before the first `*/`
    let stop := Lexical.size (body.toList.take (count - 2))
    let comment ← slice? source i (i + 2 + stop)
    return .ok ⟨.gap, comment.toList.count '\n', stop + 3⟩

def number (source : String) (i : Nat) (after : List UInt8) : Stepped := do
  let text ← slice? source i (i + 1 + run Char.isDigit after)
  if decimal text.toList < wordLimit then
    return .ok ⟨.lexeme .number (some (decimal text.toList)), 0, run Char.isDigit after⟩
  else return .error (.numberTooLarge text)

def word (source : String) (i : Nat) (after : List UInt8) : Stepped := do
  let text ← slice? source i (i + 1 + run isWordChar after)
  return .ok ⟨.lexeme (if text ∈ keywords then .keyword else .ident) none, 0, run isWordChar after⟩

/-- One byte of a literal, perhaps escaped, and the number of bytes it takes. -/
def literalByte : List UInt8 → Except LexicalFault (UInt8 × Nat)
  | [] => .error .endOfLiteral
  | first :: after =>
    if first = 10 then .error .endOfLiteral
    else if first = 92 then
      match after with
      | [] => .error .endOfLiteral
      | second :: _ => (escaped second).map fun byte => (byte, 2)
    else .ok (first, 1)

def character (after : List UInt8) : Except LexicalFault Step := do
  let (byte, count) ← literalByte after
  if (after.drop count).head? = some 39 then return ⟨.lexeme .number (some byte.toNat), 0, count + 1⟩
  else throw .unclosedCharacter

/-- The bytes before the quote that closes a string literal. -/
def closingQuote : List UInt8 → Except LexicalFault Nat
  | [] => .error .unterminatedString
  | first :: after =>
    if first = 10 then .error .unterminatedString
    else if first = 34 then .ok 0
    else
      match literalByte (first :: after) with
      | .error cause => .error cause
      | .ok (_, count) => (closingQuote (after.drop (count - 1))).map (count + ·)
termination_by bytes => bytes.length
decreasing_by exact Nat.lt_succ_of_le (List.length_drop ▸ Nat.sub_le ..)

def string (after : List UInt8) : Except LexicalFault Step :=
  (closingQuote after).map fun count => ⟨.lexeme .string none, 0, count + 1⟩

def punctuator (here : String) : Except LexicalFault Step :=
  match punctuators.find? (·.toList.isPrefixOf here.toList) with
  | some op => .ok ⟨.lexeme .punctuator none, 0, op.utf8ByteSize - 1⟩
  | none => .error (.unrecognised (here.toList.head?.getD '\x00'))

/-- A lexeme that starts at byte `i`, which is `first`; `after` is behind it, and all of the source from there on is
`here`. -/
def lexeme (source : String) (i : Nat) (first : UInt8) (after : List UInt8) (here : String) : Stepped :=
  if (byteChar first).isDigit then number source i after
  else if isWordStart (byteChar first) then word source i after
  else if byteChar first = '\'' then some (character after)
  else if byteChar first = '"' then some (string after)
  else some (punctuator here)

/-- What starts at byte `i`, which is `first`, with `after` behind it. -/
def step (source : String) (i : Nat) (first : UInt8) (after : List UInt8) : Stepped :=
  if byteChar first = '\n' then some (.ok ⟨.gap, 1, 0⟩)
  else if isBlank (byteChar first) then some (.ok ⟨.gap, 0, 0⟩)
  else do
    let here ← slice? source i source.utf8ByteSize
    if ['/', '/'].isPrefixOf here.toList then return .ok ⟨.gap, 0, run (· ≠ '\n') after⟩
    else if ['/', '*'].isPrefixOf here.toList then blockComment source i
    else lexeme source i first after here

/-! ## The whole source -/

theorem lt_of_drop {α : Type} {l after : List α} {first : α} {i : Nat} (h : l.drop i = first :: after) :
    i < l.length := by
  refine Nat.lt_of_not_le fun hle => ?_
  rw [List.drop_eq_nil_of_le hle] at h
  cases h

/-- Tokens or a fault; nothing if something was cut through a character. -/
abbrev Scanned := Option (Except Fault (List Span))

/-- The spans with what was scanned behind them. -/
def Scanned.prepend (spans : List Span) (found : Scanned) : Scanned := found.map (Except.map (spans ++ ·))

@[simp] theorem Scanned.prepend_nil : ∀ found : Scanned, found.prepend [] = found
  | none | some (.error _) | some (.ok _) => rfl

theorem Scanned.prepend_append (spans more : List Span) :
    ∀ found : Scanned, found.prepend (spans ++ more) = (found.prepend more).prepend spans
  | none | some (.error _) => rfl
  | some (.ok found) => congrArg (fun all => some (Except.ok all)) (List.append_assoc spans more found)

/-- The tokens from byte `i` on, which stands on `line`. -/
def scan (source : String) (line i : Nat) : Scanned :=
  match _hleft : source.toUTF8.toList.drop i with
  | [] => some (.ok [⟨.eof, source.utf8ByteSize, 0, line, none⟩])
  | first :: after =>
    match step source i first after with
    | none => none
    | some (.error cause) => some (.error (.lexical line cause))
    | some (.ok ⟨.gap, lines, extra⟩) => scan source (line + lines) (i + 1 + extra)
    | some (.ok ⟨.lexeme kind value, lines, extra⟩) =>
      (scan source (line + lines) (i + 1 + extra)).prepend [⟨kind, i, 1 + extra, line, value⟩]
termination_by source.toUTF8.toList.length - i
decreasing_by all_goals exact Nat.sub_lt_sub_left (lt_of_drop ‹_›) (by omega)

/-! ## Characters and their bytes -/

section Bytes

/-- The bytes of a character are in `p` if and only if the character is. -/
def Uniform (p : Char → Bool) : Prop := ∀ c, ∀ byte ∈ bytesOf c, p (byteChar byte) = p c

theorem bytesOf_ne_nil (c : Char) : bytesOf c ≠ [] := by
  obtain ⟨-, hone⟩ | ⟨hne, -⟩ := bytesOf_cases c
  · simp [hone]
  · exact hne

theorem byteChar_toNat (byte : UInt8) : (byteChar byte).toNat = byte.toNat := by
  have hall : ∀ n : Fin 256, (Char.ofNat n.val).toNat = n.val := by decide +kernel
  exact hall ⟨byte.toNat, byte.toNat_lt⟩

theorem byteChar_ofNat {c : Char} (h : c.toNat < 128) : byteChar (UInt8.ofNat c.toNat) = c := by
  apply Char.toNat_inj.1
  rw [byteChar_toNat, UInt8.toNat_ofNat', Nat.mod_eq_of_lt (by omega)]

/-- A class that is decided below 128 is one of bytes. -/
theorem uniform_of_narrow {p : Char → Bool} {v : Bool} (h : ∀ c, 128 ≤ c.toNat → p c = v) : Uniform p := by
  intro c byte hbyte
  obtain ⟨hnarrow, hone⟩ | ⟨hne, hlarge⟩ := bytesOf_cases c
  · rw [hone, List.mem_singleton] at hbyte
    rw [hbyte, byteChar_ofNat hnarrow]
  · have hwide : 128 ≤ c.toNat := by
      refine Nat.le_of_not_lt fun hnarrow => ?_
      rw [Lexical.bytesOf_narrow hnarrow] at hbyte hlarge
      have hle := hlarge _ (List.mem_singleton_self _)
      rw [UInt8.toNat_ofNat', Nat.mod_eq_of_lt (by omega)] at hle
      omega
    rw [h c hwide, h (byteChar byte) (by rw [byteChar_toNat]; exact hlarge byte hbyte)]

theorem ne_of_wide {c x : Char} (hwide : 128 ≤ c.toNat) (hx : x.toNat < 128) : c ≠ x := by
  rintro rfl
  omega

theorem isBlank_wide {c : Char} (hwide : 128 ≤ c.toNat) : isBlank c = false := by
  rw [Bool.eq_false_iff]
  intro hblank
  simp only [isBlank, Bool.or_eq_true, beq_iff_eq] at hblank
  rcases hblank with (((rfl | rfl) | rfl) | rfl) | rfl <;> exact absurd hwide (by decide)

theorem isDigit_wide {c : Char} (hwide : 128 ≤ c.toNat) : c.isDigit = false := by
  rw [Bool.eq_false_iff, ne_eq, Char.isDigit_iff_toNat]
  rintro ⟨-, hnine⟩
  exact absurd (Nat.le_trans hwide hnine) (by decide)

theorem uniform_isDigit : Uniform Char.isDigit := uniform_of_narrow (v := false) fun _ => isDigit_wide

theorem isAlpha_wide {c : Char} (hwide : 128 ≤ c.toNat) : c.isAlpha = false := by
  -- letters are the codes from 65 to 90 and from 97 to 122
  have halpha : c.isAlpha = (decide (c.val ≥ 65 ∧ c.val ≤ 90) || decide (c.val ≥ 97) && decide (c.val ≤ 122)) := rfl
  have hval : 128 ≤ c.val.toNat := hwide
  rw [halpha, Bool.eq_false_iff]
  simp only [ne_eq, Bool.or_eq_true, Bool.and_eq_true, decide_eq_true_eq, UInt32.le_iff_toNat_le, ge_iff_le]
  rintro (⟨-, hle⟩ | ⟨-, hle⟩) <;> exact absurd (Nat.le_trans hval hle) (by decide)

theorem isWordStart_wide {c : Char} (hwide : 128 ≤ c.toNat) : isWordStart c = false := by
  rw [isWordStart, isAlpha_wide hwide, beq_eq_false_iff_ne.2 (ne_of_wide hwide (by decide))]
  rfl

theorem uniform_isWordChar : Uniform isWordChar := by
  refine uniform_of_narrow (v := false) fun c hwide => ?_
  rw [isWordChar, Char.isAlphanum, isAlpha_wide hwide, isDigit_wide hwide,
    beq_eq_false_iff_ne.2 (ne_of_wide hwide (by decide))]
  rfl

/-- What is in a class of narrow characters is narrow. -/
theorem narrow_of {p : Char → Bool} (hp : ∀ {c : Char}, 128 ≤ c.toNat → p c = false) {c : Char} (h : p c = true) :
    c.toNat < 128 := by
  refine Nat.lt_of_not_le fun hwide => ?_
  rw [hp hwide] at h
  cases h

theorem uniform_isBlank : Uniform isBlank := uniform_of_narrow (v := false) fun _ => isBlank_wide

theorem uniform_isWordStart : Uniform isWordStart := uniform_of_narrow (v := false) fun _ => isWordStart_wide

theorem uniform_ne {x : Char} (hx : x.toNat < 128) : Uniform (· ≠ x) :=
  uniform_of_narrow (v := true) fun _ hwide => decide_eq_true (ne_of_wide hwide hx)

theorem takeWhile_bytes {p : Char → Bool} (hp : Uniform p) : ∀ cs : List Char,
    (cs.flatMap bytesOf).takeWhile (p ∘ byteChar) = (cs.takeWhile p).flatMap bytesOf
  | [] => rfl
  | c :: cs => by
    rw [List.flatMap_cons]
    by_cases hc : p c = true
    · have hall : ∀ byte ∈ bytesOf c, (p ∘ byteChar) byte = true := fun byte hbyte => (hp c byte hbyte).trans hc
      rw [List.takeWhile_append_of_pos hall, takeWhile_bytes hp cs, List.takeWhile_cons_of_pos hc, List.flatMap_cons]
    · obtain ⟨byte, more, hbytes⟩ := List.exists_cons_of_ne_nil (bytesOf_ne_nil c)
      have hbyte : (p ∘ byteChar) byte ≠ true := by
        rw [Function.comp_apply, hp c byte (by rw [hbytes]; exact List.mem_cons_self)]
        exact hc
      rw [hbytes, List.cons_append, List.takeWhile_cons_of_neg hbyte, List.takeWhile_cons_of_neg hc]
      rfl

theorem run_bytes {p : Char → Bool} (hp : Uniform p) {text rest : List Char} (h : Lexical.Run p text rest) :
    run p ((text ++ rest).flatMap bytesOf) = Lexical.size text := by
  rw [run, takeWhile_bytes hp, h.takeWhile, Lexical.length_bytes]

end Bytes

/-! ## Cuts between characters -/

section Cuts

variable {source : String} {before text after : List Char}

theorem boundary_size (h : source.toList = before ++ after) : Boundary source (Lexical.size before) :=
  String.Pos.Raw.isValid_iff_exists_append.2
    ⟨String.ofList before, String.ofList after, by rw [← String.ofList_append, ← h, String.ofList_toList], rfl⟩

/-- What stands between two texts is cut out whole. -/
theorem slice?_size (h : source.toList = before ++ (text ++ after)) :
    slice? source (Lexical.size before) (Lexical.size before + Lexical.size text) = some (String.ofList text) := by
  have hbehind : source.toList = (before ++ text) ++ after := by rw [h, List.append_assoc]
  have hstop : Boundary source (Lexical.size before + Lexical.size text) := by
    rw [← Lexical.size_append]
    exact boundary_size hbehind
  have hbytes : source.toUTF8 =
      (String.ofList before).toUTF8 ++ ((String.ofList text).toUTF8 ++ (String.ofList after).toUTF8) := by
    show source.toByteArray = _ ++ (String.toByteArray _ ++ String.toByteArray _)
    rw [← String.ofList_toList (s := source), h, String.ofList_append, String.ofList_append, String.toByteArray_append,
      String.toByteArray_append]
    rfl
  have hextract : source.toUTF8.extract (Lexical.size before) (Lexical.size before + Lexical.size text) =
      (String.ofList text).toUTF8 := by
    rw [hbytes]
    exact ByteArray.extract_append_size_add (i := 0).trans (ByteArray.extract_append_eq_left rfl)
  rw [slice?, if_pos ⟨Nat.le_add_right _ _, boundary_size h, hstop⟩, Nat.add_sub_cancel_left, sliceBytes, hextract]
  exact congrArg (fun found => some (Option.getD found "")) (dif_pos (String.ofList text).isValidUTF8)

/-- What stands behind a text is cut out whole. -/
theorem slice?_rest (h : source.toList = before ++ after) :
    slice? source (Lexical.size before) source.utf8ByteSize = some (String.ofList after) := by
  have hsize : source.utf8ByteSize = Lexical.size before + Lexical.size after := by
    rw [← Lexical.size_append, ← h, Lexical.size, String.ofList_toList]
  have hnone : source.toList = before ++ (after ++ []) := by rw [h, List.append_nil]
  rw [hsize]
  exact slice?_size hnone

theorem bytes_drop (h : source.toList = before ++ after) :
    source.toUTF8.toList.drop (Lexical.size before) = after.flatMap bytesOf := by
  rw [bytes_eq, h, List.flatMap_append, ← Lexical.length_bytes, List.drop_left]

end Cuts

/-! ## Literals -/

section Literals

theorem bytes_narrow {c : Char} (h : c.toNat < 128) (cs : List Char) :
    (c :: cs).flatMap bytesOf = UInt8.ofNat c.toNat :: cs.flatMap bytesOf := by
  rw [List.flatMap_cons, Lexical.bytesOf_narrow h]
  rfl

theorem size_narrow {c : Char} (h : c.toNat < 128) (cs : List Char) :
    Lexical.size (c :: cs) = Lexical.size cs + 1 := by
  rw [← Lexical.length_bytes, bytes_narrow h, List.length_cons, Lexical.length_bytes]

theorem size_pos (c : Char) (cs : List Char) : 0 < Lexical.size (c :: cs) := by
  rw [← Lexical.length_bytes, List.flatMap_cons, List.length_append]
  exact Nat.add_pos_left (List.length_pos_of_ne_nil (bytesOf_ne_nil c)) _

theorem bytes_wide {c : Char} (h : 128 ≤ c.toNat) (cs : List Char) : ∃ first second after,
    (c :: cs).flatMap bytesOf = first :: second :: after ∧ 128 ≤ first.toNat ∧ 128 ≤ second.toNat := by
  obtain ⟨hnarrow, -⟩ | ⟨-, hlarge⟩ := bytesOf_cases c
  · omega
  have hne := Lexical.bytesOf_wide h
  rw [List.flatMap_cons]
  match hbytes : bytesOf c with
  | [] => exact absurd hbytes (bytesOf_ne_nil c)
  | [byte] => exact absurd hbytes (hne byte)
  | first :: second :: more =>
    rw [hbytes] at hlarge
    exact ⟨first, second, more ++ cs.flatMap bytesOf, rfl, hlarge first (by simp), hlarge second (by simp)⟩

theorem byte_ne {c x : Char} (hx : x.toNat < 128) (h : c ≠ x) : ∀ byte ∈ bytesOf c, byte ≠ UInt8.ofNat x.toNat := by
  rintro byte hbyte rfl
  have huniform := uniform_ne hx c _ hbyte
  rw [byteChar_ofNat hx] at huniform
  simp [h] at huniform

theorem literalByte_plain {byte : UInt8} (hnewline : byte ≠ 10) (hbackslash : byte ≠ 92) (after : List UInt8) :
    literalByte (byte :: after) = .ok (byte, 1) := by
  unfold literalByte
  exact (if_neg hnewline).trans (if_neg hbackslash)

theorem literalByte_escape (second : UInt8) (after : List UInt8) :
    literalByte (92 :: second :: after) = (escaped second).map fun byte => (byte, 2) := rfl

theorem bytes_escape {c : Char} {byte : UInt8} (h : escaped (leadByte c) = .ok byte) (cs : List Char) :
    ('\\' :: c :: cs).flatMap bytesOf = 92 :: leadByte c :: cs.flatMap bytesOf := by
  rw [bytes_narrow (by decide), List.flatMap_cons, leadByte_of_lt (escaped_lt h)]
  rfl

/-- Whatever comes after a backslash, its first byte does. -/
theorem bytes_backslash (c : Char) (cs : List Char) :
    ∃ after, ('\\' :: c :: cs).flatMap bytesOf = 92 :: leadByte c :: after := by
  obtain ⟨byte, more, hbytes⟩ := List.exists_cons_of_ne_nil (bytesOf_ne_nil c)
  refine ⟨more ++ cs.flatMap bytesOf, ?_⟩
  rw [bytes_narrow (by decide), List.flatMap_cons, leadByte, hbytes]
  rfl

/-- The next byte is a quote if and only if the next character is. -/
theorem head?_bytes (cs : List Char) : (cs.flatMap bytesOf).head? = some 39 ↔ cs.head? = some '\'' := by
  cases cs with
  | nil => simp
  | cons c cs =>
    obtain ⟨byte, more, hbytes⟩ := List.exists_cons_of_ne_nil (bytesOf_ne_nil c)
    rw [List.flatMap_cons, hbytes, List.cons_append, List.head?_cons, List.head?_cons, Option.some_inj, Option.some_inj]
    constructor
    · rintro rfl
      by_contra hc
      exact byte_ne (by decide : '\''.toNat < 128) hc 39 (by rw [hbytes]; exact List.mem_cons_self) rfl
    · rintro rfl
      exact (List.cons.inj hbytes).1.symm

/-- A quoted character takes one byte, or two for an escape. -/
theorem character_passed {body : List Char} {byte : UInt8} (h : Lexical.CharacterLiteral ('\'' :: body) byte)
    (rest : List Char) : character ((body ++ rest).flatMap bytesOf) =
      .ok ⟨.lexeme .number (some byte.toNat), 0, Lexical.size body⟩ := by
  generalize htext : '\'' :: body = text at h
  cases h with
  | @plain c hnarrow hnewline hbackslash =>
    cases htext
    have hbytes := Lexical.bytesOf_narrow hnarrow
    have hne := bytesOf_plain hnewline hbackslash _ (by rw [hbytes]; exact List.mem_singleton_self _)
    rw [List.cons_append, bytes_narrow hnarrow, character, literalByte_plain hne.1 hne.2, ← Lexical.length_bytes,
      bytes_narrow hnarrow]
    rfl
  | @escape c byte hescape =>
    cases htext
    have hbyte := Lexical.escaped_of_some hescape
    rw [List.cons_append, List.cons_append, bytes_escape hbyte, character, literalByte_escape, hbyte,
      ← Lexical.length_bytes, bytes_escape hbyte]
    rfl

theorem character_newline {text : List Char} {byte : UInt8} (h : Lexical.CharacterLiteral text byte) :
    '\n' ∉ text := by
  cases h with
  | plain _ hnewline => simp [hnewline.symm]
  | @escape c _ hescape =>
    have hnewline : c ≠ '\n' := by
      rintro rfl
      cases hescape
    simp [hnewline.symm]

theorem character_reported {cs : List Char} {cause : LexicalFault} (h : Lexical.BadCharacter cs cause) :
    character (cs.flatMap bytesOf) = .error cause := by
  cases h with
  | nothing => rfl
  | @newline cs =>
    rw [bytes_narrow (by decide)]
    rfl
  | backslash => rfl
  | @unknown c cs hescape =>
    obtain ⟨after, hafter⟩ := bytes_backslash c cs
    rw [hafter, character, literalByte_escape, Lexical.escaped_of_none hescape]
    rfl
  | @escape c cs byte hescape hquote =>
    have hbyte := Lexical.escaped_of_some hescape
    rw [bytes_escape hbyte, character, literalByte_escape, hbyte]
    exact if_neg ((head?_bytes cs).not.2 hquote)
  | @wide c cs hwide =>
    -- the second byte is no quote
    obtain ⟨first, second, after, hbytes, hfirst, hsecond⟩ := bytes_wide hwide cs
    have hne : ∀ {byte x : UInt8}, 128 ≤ byte.toNat → x.toNat < 128 → byte ≠ x := by
      rintro byte _ hle hlt rfl
      omega
    rw [hbytes, character, literalByte_plain (hne hfirst (by decide)) (hne hfirst (by decide))]
    exact if_neg fun hquote => hne hsecond (by decide) (Option.some.inj hquote)
  | @plain c cs hnarrow hnewline hbackslash hquote =>
    have hbytes := Lexical.bytesOf_narrow hnarrow
    have hne := bytesOf_plain hnewline hbackslash _ (by rw [hbytes]; exact List.mem_singleton_self _)
    rw [bytes_narrow hnarrow, character, literalByte_plain hne.1 hne.2]
    exact if_neg ((head?_bytes cs).not.2 hquote)

theorem closingQuote_plain {byte : UInt8} (hnewline : byte ≠ 10) (hquote : byte ≠ 34) (hbackslash : byte ≠ 92)
    (after : List UInt8) : closingQuote (byte :: after) = (closingQuote after).map (1 + ·) := by
  rw [closingQuote, if_neg hnewline, if_neg hquote, literalByte_plain hnewline hbackslash]
  rfl

theorem closingQuote_escape (second : UInt8) (after : List UInt8) : closingQuote (92 :: second :: after) =
    (escaped second).bind fun _ => (closingQuote after).map (2 + ·) := by
  rw [closingQuote, if_neg (by decide), if_neg (by decide), literalByte_escape]
  cases escaped second <;> rfl

/-- The bytes of a plain character are passed one by one. -/
theorem closingQuote_append : ∀ {plain : List UInt8}, (∀ byte ∈ plain, byte ≠ 10 ∧ byte ≠ 34 ∧ byte ≠ 92) →
    ∀ rest, closingQuote (plain ++ rest) = (closingQuote rest).map (plain.length + ·)
  | [], _, rest => by
    cases hrest : closingQuote rest with
    | error cause => rw [List.nil_append, hrest]; rfl
    | ok count => rw [List.nil_append, hrest]; exact congrArg Except.ok (Nat.zero_add count).symm
  | byte :: plain, h, rest => by
    obtain ⟨hnewline, hquote, hbackslash⟩ := h byte List.mem_cons_self
    rw [List.cons_append, closingQuote_plain hnewline hquote hbackslash,
      closingQuote_append (fun b hb => h b (List.mem_cons_of_mem _ hb))]
    cases closingQuote rest with
    | error cause => rfl
    | ok count => exact congrArg Except.ok (by dsimp only; rw [List.length_cons]; omega)

theorem bytesOf_unquoted {c : Char} (hnewline : c ≠ '\n') (hquote : c ≠ '"') (hbackslash : c ≠ '\\') :
    ∀ byte ∈ bytesOf c, byte ≠ 10 ∧ byte ≠ 34 ∧ byte ≠ 92 := fun byte hbyte =>
  ⟨byte_ne (by decide) hnewline byte hbyte, byte_ne (by decide) hquote byte hbyte,
    byte_ne (by decide) hbackslash byte hbyte⟩

/-- The closing quote is found at the last byte of the literal. -/
theorem closingQuote_quoted {cs : List Char} {bytes : List UInt8} (h : Quoted cs bytes) (rest : List Char) :
    ∃ count, closingQuote ((cs ++ rest).flatMap bytesOf) = .ok count ∧ Lexical.size cs = count + 1 := by
  simp only [← Lexical.length_bytes]
  induction h with
  | close =>
    refine ⟨0, ?_, rfl⟩
    rw [List.cons_append, bytes_narrow (by decide), closingQuote]
    rfl
  | @escape c cs byte bytes hbyte _ ih =>
    obtain ⟨count, hcount, hsize⟩ := ih
    refine ⟨2 + count, ?_, ?_⟩
    · rw [List.cons_append, List.cons_append, bytes_escape hbyte, closingQuote_escape, hbyte, hcount]
      rfl
    · rw [bytes_escape hbyte, List.length_cons, List.length_cons, hsize]
      omega
  | @plain c cs bytes hnewline hquote hbackslash _ ih =>
    obtain ⟨count, hcount, hsize⟩ := ih
    refine ⟨(bytesOf c).length + count, ?_, ?_⟩
    · rw [List.cons_append, List.flatMap_cons, closingQuote_append (bytesOf_unquoted hnewline hquote hbackslash), hcount]
      rfl
    · rw [List.flatMap_cons, List.length_append, hsize, Nat.add_assoc]

theorem closingQuote_bad {cs : List Char} {cause : LexicalFault} (h : Lexical.BadString cs cause) :
    closingQuote (cs.flatMap bytesOf) = .error cause := by
  induction h with
  | nothing =>
    rw [List.flatMap_nil, closingQuote]
  | @newline cs =>
    rw [bytes_narrow (by decide), closingQuote]
    rfl
  | backslash =>
    rw [bytes_narrow (by decide), closingQuote]
    rfl
  | @unknown c cs hescape =>
    obtain ⟨after, hafter⟩ := bytes_backslash c cs
    rw [hafter, closingQuote_escape, Lexical.escaped_of_none hescape]
    rfl
  | @escape c cs byte cause hescape _ ih =>
    have hbyte := Lexical.escaped_of_some hescape
    rw [bytes_escape hbyte, closingQuote_escape, hbyte, ih]
    rfl
  | @plain c cs cause hnewline hquote hbackslash _ ih =>
    rw [List.flatMap_cons, closingQuote_append (bytesOf_unquoted hnewline hquote hbackslash), ih]
    rfl

end Literals

/-! ## One step -/

section Steps

open Lexical (Starts Flaw OpensComment size)

variable {source : String} {before cs : List Char} {first : UInt8} {after : List UInt8}

theorem not_opens {c : Char} (h : c ≠ '/') (cs : List Char) : ¬ OpensComment (c :: cs) := by
  rintro (hopens | hopens) <;> exact h (List.cons_prefix_cons.1 hopens).1.symm

/-- A step that cuts out what is there. -/
theorem step_eq (hsource : source.toList = before ++ cs) : step source (size before) first after =
    if byteChar first = '\n' then some (.ok ⟨.gap, 1, 0⟩)
    else if isBlank (byteChar first) then some (.ok ⟨.gap, 0, 0⟩)
    else if ['/', '/'].isPrefixOf cs then some (.ok ⟨.gap, 0, run (· ≠ '\n') after⟩)
    else if ['/', '*'].isPrefixOf cs then blockComment source (size before)
    else lexeme source (size before) first after (String.ofList cs) := by
  unfold step
  rw [slice?_rest hsource]
  simp only [Option.bind_eq_bind, Option.bind_some, String.toList_ofList]
  rfl

/-- Where no gap starts, a lexeme does, or a flaw. -/
theorem step_lexeme (hsource : source.toList = before ++ cs) (hblank : isBlank (byteChar first) = false)
    (hcomment : ¬ OpensComment cs) :
    step source (size before) first after = lexeme source (size before) first after (String.ofList cs) := by
  have hnewline : byteChar first ≠ '\n' := by
    intro hnewline
    rw [hnewline] at hblank
    cases hblank
  obtain ⟨hline, hblock⟩ := not_or.1 hcomment
  rw [step_eq hsource, if_neg hnewline, hblank, if_neg Bool.false_ne_true,
    if_neg fun h => hline (List.isPrefixOf_iff_prefix.1 h), if_neg fun h => hblock (List.isPrefixOf_iff_prefix.1 h)]

theorem blank_passed {c : Char} (hblank : isBlank c = true) (i : Nat) (after : List UInt8) :
    step source i (UInt8.ofNat c.toNat) after = some (.ok ⟨.gap, [c].count '\n', 0⟩) := by
  unfold step
  rw [byteChar_ofNat (narrow_of isBlank_wide hblank), hblank, List.count_singleton]
  by_cases hnewline : c = '\n'
  · simp [hnewline]
  · simp [hnewline]

theorem lineComment_passed {body rest : List Char} (hbody : Lexical.Run (· ≠ '\n') body rest)
    (hsource : source.toList = before ++ '/' :: '/' :: (body ++ rest)) :
    step source (size before) 47 (('/' :: (body ++ rest)).flatMap bytesOf) = some (.ok ⟨.gap, 0, size body + 1⟩) := by
  have hrun : Lexical.Run (· ≠ '\n') ('/' :: body) rest := ⟨List.forall_mem_cons.2 ⟨rfl, hbody.inside⟩, hbody.outside⟩
  have hsize := run_bytes (uniform_ne (by decide)) hrun
  rw [List.cons_append, size_narrow (by decide)] at hsize
  rw [step_eq hsource, hsize]
  rfl

theorem step_block (hsource : source.toList = before ++ '/' :: '*' :: cs) (after : List UInt8) :
    step source (size before) 47 after = blockComment source (size before) := by
  rw [step_eq hsource]
  rfl

theorem slice?_body {body : List Char} (hsource : source.toList = before ++ '/' :: '*' :: body) :
    slice? source (size before + 2) source.utf8ByteSize = some (String.ofList body) := by
  have hbody : source.toList = (before ++ ['/', '*']) ++ body := by simp [hsource]
  have hslice := slice?_rest hbody
  rwa [Lexical.size_append] at hslice

theorem blockComment_passed {body rest : List Char} (hbody : ¬ ['*', '/'] <:+: body ++ ['*'])
    (hsource : source.toList = before ++ '/' :: '*' :: (body ++ '*' :: '/' :: rest)) :
    blockComment source (size before) = some (.ok ⟨.gap, body.count '\n', size body + 3⟩) := by
  have hcomment : source.toList = before ++ ('/' :: '*' :: body ++ '*' :: '/' :: rest) := by simp [hsource]
  have hwhole := slice?_size hcomment
  have hstop : size before + size ('/' :: '*' :: body) = size before + 2 + size body := by
    rw [size_narrow (by decide), size_narrow (by decide)]
    omega
  have hcount : ('/' :: '*' :: body).count '\n' = body.count '\n' := by simp
  unfold blockComment
  simp only [slice?_body hsource, Option.bind_eq_bind, Option.bind_some, String.toList_ofList,
    Lexical.commentEnd?_append body rest hbody, Nat.add_sub_cancel, List.take_left, ← hstop, hwhole, hcount]
  rfl

theorem blockComment_reported {body : List Char} (hbody : ¬ ['*', '/'] <:+: body)
    (hsource : source.toList = before ++ '/' :: '*' :: body) :
    blockComment source (size before) = some (.error .unclosedComment) := by
  unfold blockComment
  simp only [slice?_body hsource, Option.bind_eq_bind, Option.bind_some, String.toList_ofList,
    (Lexical.commentEnd?_eq_none body).2 hbody]
  rfl

theorem number_eq {c : Char} {more rest : List Char} (h : Lexical.Run Char.isDigit (c :: more) rest)
    (hsource : source.toList = before ++ (c :: more ++ rest)) :
    number source (size before) ((more ++ rest).flatMap bytesOf) =
      if decimal (c :: more) < wordLimit then some (.ok ⟨.lexeme .number (some (decimal (c :: more))), 0, size more⟩)
      else some (.error (.numberTooLarge (String.ofList (c :: more)))) := by
  have hslice := slice?_size hsource
  rw [size_narrow (narrow_of isDigit_wide (h.inside c List.mem_cons_self)), Nat.add_comm (size more) 1,
    ← Nat.add_assoc] at hslice
  unfold number
  rw [run_bytes uniform_isDigit h.tail, hslice]
  show (if decimal (String.ofList _).toList < _ then _ else _) = _
  rw [String.toList_ofList]
  rfl

theorem word_eq {c : Char} {more rest : List Char} (hc : isWordStart c = true) (h : Lexical.Run isWordChar more rest)
    (hsource : source.toList = before ++ (c :: more ++ rest)) :
    word source (size before) ((more ++ rest).flatMap bytesOf) =
      some (.ok ⟨.lexeme (if String.ofList (c :: more) ∈ keywords then .keyword else .ident) none, 0, size more⟩) := by
  have hslice := slice?_size hsource
  rw [size_narrow (narrow_of isWordStart_wide hc), Nat.add_comm (size more) 1, ← Nat.add_assoc] at hslice
  unfold word
  rw [run_bytes uniform_isWordChar h, hslice]
  rfl

theorem punctuator_eq (cs : List Char) : punctuator (String.ofList cs) =
    match punctuator? cs with
    | some op => .ok ⟨.lexeme .punctuator none, 0, op.utf8ByteSize - 1⟩
    | none => .error (.unrecognised (cs.head?.getD '\x00')) := by
  unfold punctuator punctuator?
  rw [String.toList_ofList]

theorem punctuators_narrow : ∀ op ∈ punctuators, ∀ c ∈ op.toList, c.toNat < 128 ∧ c ≠ '\n' := by
  have hall : ∀ op ∈ punctuators, op.toList.all (fun c => c.toNat < 128 && c != '\n') = true := by decide
  simpa using hall

/-- One step with the cursor behind `before` goes over the piece `text`, with its newlines and all its bytes. -/
def Passes (source : String) (before text : List Char) (piece : Piece) (rest : List Char) : Prop :=
  ∃ first after, (text ++ rest).flatMap bytesOf = first :: after ∧
    step source (size before) first after = some (.ok ⟨piece, text.count '\n', size text - 1⟩)

section Passes

variable {c : Char} {more text rest : List Char}

theorem passes_gap (hnarrow : c.toNat < 128) (h : step source (size before) (UInt8.ofNat c.toNat)
    ((more ++ rest).flatMap bytesOf) = some (.ok ⟨.gap, (c :: more).count '\n', size more⟩)) :
    Passes source before (c :: more) .gap rest := by
  refine ⟨_, _, bytes_narrow hnarrow (more ++ rest), ?_⟩
  rw [h, size_narrow hnarrow, Nat.add_sub_cancel]

/-- A lexeme contains no newline. -/
theorem passes_lexeme {kind : TokenKind} {value : Option Int} (hsource : source.toList = before ++ (c :: more ++ rest))
    (hnarrow : c.toNat < 128) (hblank : isBlank c = false) (hcomment : ¬ OpensComment (c :: more ++ rest))
    (hmore : '\n' ∉ more) (h : lexeme source (size before) (UInt8.ofNat c.toNat) ((more ++ rest).flatMap bytesOf)
      (String.ofList (c :: more ++ rest)) = some (.ok ⟨.lexeme kind value, 0, size more⟩)) :
    Passes source before (c :: more) (.lexeme kind value) rest := by
  have hnewline : '\n' ∉ c :: more := by
    refine fun hmem => (List.mem_cons.1 hmem).elim ?_ hmore
    rintro rfl
    cases hblank
  refine ⟨_, _, bytes_narrow hnarrow (more ++ rest), ?_⟩
  rw [step_lexeme hsource (by rwa [byteChar_ofNat hnarrow]) hcomment, h, List.count_eq_zero.2 hnewline,
    size_narrow hnarrow, Nat.add_sub_cancel]

theorem passes_number (hrun : Lexical.Run Char.isDigit (c :: more) rest) (hlimit : decimal (c :: more) < 2 ^ 63)
    (hsource : source.toList = before ++ (c :: more ++ rest)) :
    Passes source before (c :: more) (.lexeme .number (some (decimal (c :: more)))) rest := by
  have hdigit := hrun.inside c List.mem_cons_self
  have hnarrow := narrow_of isDigit_wide hdigit
  obtain ⟨hblank, hslash⟩ := not_gap_of (by decide) hdigit
  refine passes_lexeme hsource hnarrow hblank (not_opens hslash _) (fun hmem => ?_) ?_
  · exact absurd (hrun.inside _ (List.mem_cons_of_mem _ hmem)) (by decide)
  · rw [lexeme, byteChar_ofNat hnarrow, if_pos hdigit, number_eq hrun hsource]
    exact if_pos hlimit

theorem passes_word (hword : isWordStart c = true) (hrun : Lexical.Run isWordChar more rest)
    (hsource : source.toList = before ++ (c :: more ++ rest)) :
    Passes source before (c :: more)
      (.lexeme (if String.ofList (c :: more) ∈ keywords then .keyword else .ident) none) rest := by
  have hnarrow := narrow_of isWordStart_wide hword
  have hdigit := Lexical.isDigit_of_isWordStart hword
  obtain ⟨hblank, hslash⟩ := not_gap_of (by decide) hword
  refine passes_lexeme hsource hnarrow hblank (not_opens hslash _) (fun hmem => ?_) ?_
  · exact absurd (hrun.inside _ hmem) (by decide)
  · rw [lexeme, byteChar_ofNat hnarrow, hdigit, if_neg Bool.false_ne_true, if_pos hword, word_eq hword hrun hsource]

theorem passes_character {byte : UInt8} (hliteral : Lexical.CharacterLiteral text byte)
    (hsource : source.toList = before ++ (text ++ rest)) :
    Passes source before text (.lexeme .number (some byte.toNat)) rest := by
  obtain ⟨body, rfl, -⟩ := hliteral.reads rest
  refine passes_lexeme hsource (by decide) (by decide) (not_opens (by decide) _) ?_ ?_
  · exact fun hmem => character_newline hliteral (List.mem_cons_of_mem _ hmem)
  · exact congrArg some (character_passed hliteral rest)

theorem passes_string {body : List Char} {bytes : List UInt8} (hquoted : Quoted body bytes)
    (hsource : source.toList = before ++ ('"' :: body ++ rest)) :
    Passes source before ('"' :: body) (.lexeme .string none) rest := by
  obtain ⟨count, hcount, hsize⟩ := closingQuote_quoted hquoted rest
  refine passes_lexeme hsource (by decide) (by decide) (not_opens (by decide) _) hquoted.no_newline ?_
  show some (string ((body ++ rest).flatMap bytesOf)) = _
  rw [string, hcount, hsize]
  rfl

theorem passes_punctuator {op : String} (hop : op ∈ punctuators) (hcomment : ¬ OpensComment (op.toList ++ rest))
    (hfound : punctuator? (op.toList ++ rest) = some op) (hsource : source.toList = before ++ (op.toList ++ rest)) :
    Passes source before op.toList (.lexeme .punctuator none) rest := by
  obtain ⟨c, more, hchars, hblank, hdigit, hword, hcharacter, hstring⟩ := Lexical.punctuator_head op hop
  have hall := punctuators_narrow op hop
  have hsize : op.utf8ByteSize = size op.toList := by rw [size, String.ofList_toList]
  rw [hchars] at hcomment hfound hsource hall hsize ⊢
  have hnarrow := (hall c List.mem_cons_self).1
  refine passes_lexeme hsource hnarrow hblank hcomment (fun hmem => ?_) ?_
  · exact (hall _ (List.mem_cons_of_mem _ hmem)).2 rfl
  · rw [lexeme, byteChar_ofNat hnarrow, hdigit, hword, if_neg Bool.false_ne_true, if_neg Bool.false_ne_true,
      if_neg hcharacter, if_neg hstring, punctuator_eq, hfound]
    show some (Except.ok (Step.mk _ 0 (op.utf8ByteSize - 1))) = _
    rw [hsize, size_narrow hnarrow, Nat.add_sub_cancel]

end Passes

/-- **Pieces.** A piece that starts at the cursor is passed in one step. -/
theorem passed {text rest : List Char} {piece : Piece} (h : Starts text piece rest)
    (hsource : source.toList = before ++ (text ++ rest)) : Passes source before text piece rest := by
  cases h with
  | @blank c _ hblank =>
    exact passes_gap (narrow_of isBlank_wide hblank) (blank_passed hblank _ _)
  | @lineComment body _ hbody =>
    have hnewline : '\n' ∉ body := fun hmem => absurd (hbody.inside _ hmem) (by decide)
    refine passes_gap (by decide) ((lineComment_passed hbody hsource).trans ?_)
    rw [List.count_eq_zero.2 (by simp [hnewline]), size_narrow (by decide)]
  | @blockComment body _ hbody =>
    have hopen : source.toList = before ++ '/' :: '*' :: (body ++ '*' :: '/' :: rest) := by simpa using hsource
    have hsize : size ('*' :: (body ++ ['*', '/'])) = size body + 3 := by
      rw [size_narrow (by decide), Lexical.size_append]
      rfl
    refine passes_gap (by decide) ((step_block hopen _).trans ((blockComment_passed hbody hopen).trans ?_))
    rw [hsize]
    simp
  | number hne hrun hlimit =>
    obtain ⟨c, more, rfl⟩ := List.exists_cons_of_ne_nil hne
    exact passes_number hrun hlimit hsource
  | word hword hrun => exact passes_word hword hrun hsource
  | character hliteral => exact passes_character hliteral hsource
  | string hquoted => exact passes_string hquoted hsource
  | punctuator hop hcomment hlongest =>
    exact passes_punctuator hop hcomment (Lexical.punctuator?_of_longest hop (List.prefix_append _ _) hlongest) hsource

/-- Where no gap starts, a flaw is one of a lexeme. -/
theorem lexeme_reported {c : Char} {cause : LexicalFault} (hsource : source.toList = before ++ c :: cs)
    (hnarrow : c.toNat < 128) (hblank : isBlank c = false) (hslash : c ≠ '/')
    (h : lexeme source (size before) (UInt8.ofNat c.toNat) (cs.flatMap bytesOf) (String.ofList (c :: cs)) =
      some (.error cause)) :
    ∃ first after, (c :: cs).flatMap bytesOf = first :: after ∧
      step source (size before) first after = some (.error cause) := by
  refine ⟨_, _, bytes_narrow hnarrow cs, ?_⟩
  rw [step_lexeme hsource (by rwa [byteChar_ofNat hnarrow]) (not_opens hslash cs), h]

/-- A character that no lexeme starts with is found by its first byte. -/
theorem unrecognised_reported {c : Char} (hblank : isBlank c = false) (hdigit : c.isDigit = false)
    (hword : isWordStart c = false) (hcharacter : c ≠ '\'') (hstring : c ≠ '"')
    (hnone : ∀ op ∈ punctuators, ¬ op.toList <+: c :: cs) (hsource : source.toList = before ++ c :: cs) :
    ∃ first after, (c :: cs).flatMap bytesOf = first :: after ∧
      step source (size before) first after = some (.error (.unrecognised c)) := by
  obtain ⟨first, more, hbytes⟩ := List.exists_cons_of_ne_nil (bytesOf_ne_nil c)
  have hfirst : first ∈ bytesOf c := by rw [hbytes]; exact List.mem_cons_self
  have hcomment : ¬ OpensComment (c :: cs) := by
    -- a slash is a punctuator
    rintro (⟨rest, hrest⟩ | ⟨rest, hrest⟩) <;> cases hrest <;> exact hnone "/" (by decide) ⟨_, rfl⟩
  have hquotes : ∀ {x : Char}, x.toNat < 128 → c ≠ x → byteChar first ≠ x := fun hx hne =>
    of_decide_eq_true ((uniform_ne hx c first hfirst).trans (decide_eq_true hne))
  refine ⟨first, more ++ cs.flatMap bytesOf, by rw [List.flatMap_cons, hbytes, List.cons_append], ?_⟩
  rw [step_lexeme hsource ((uniform_isBlank c first hfirst).trans hblank) hcomment, lexeme,
    uniform_isDigit c first hfirst, hdigit, uniform_isWordStart c first hfirst, hword, if_neg Bool.false_ne_true,
    if_neg Bool.false_ne_true, if_neg (hquotes (by decide) hcharacter), if_neg (hquotes (by decide) hstring),
    punctuator_eq, Lexical.punctuator?_eq_none.2 hnone]
  rfl

/-- **Flaws.** Where no piece starts, the step says why. -/
theorem reported {cause : LexicalFault} (h : Flaw cs cause) (hsource : source.toList = before ++ cs) :
    ∃ first after, cs.flatMap bytesOf = first :: after ∧
      step source (size before) first after = some (.error cause) := by
  cases h with
  | @number digits rest hne hrun hlimit =>
    obtain ⟨c, more, rfl⟩ := List.exists_cons_of_ne_nil hne
    have hdigit := hrun.inside c List.mem_cons_self
    have hnarrow := narrow_of isDigit_wide hdigit
    obtain ⟨hblank, hslash⟩ := not_gap_of (by decide) hdigit
    refine lexeme_reported hsource hnarrow hblank hslash ?_
    change lexeme _ _ _ ((more ++ rest).flatMap bytesOf) _ = _
    rw [lexeme, byteChar_ofNat hnarrow, if_pos hdigit, number_eq hrun hsource]
    exact if_neg (Nat.not_lt_of_le hlimit)
  | comment hbody =>
    exact ⟨_, _, bytes_narrow (by decide) _, (step_block hsource _).trans (blockComment_reported hbody hsource)⟩
  | character hbad =>
    exact lexeme_reported hsource (by decide) (by decide) (by decide) (congrArg some (character_reported hbad))
  | @string cs _ hbad =>
    refine lexeme_reported hsource (by decide) (by decide) (by decide) ?_
    show some (string (cs.flatMap bytesOf)) = _
    rw [string, closingQuote_bad hbad]
    rfl
  | unrecognised hblank hdigit hword hcharacter hstring hnone =>
    exact unrecognised_reported hblank hdigit hword hcharacter hstring hnone hsource

end Steps

/-! ## The run -/

section Runs

open Lexical (Starts Flaw Splits Pieces size placed)

variable {source : String} {before cs : List Char}

theorem scan_nil {i : Nat} (h : source.toUTF8.toList.drop i = []) (line : Nat) :
    scan source line i = some (.ok [⟨.eof, source.utf8ByteSize, 0, line, none⟩]) := by
  rw [scan]
  split
  · rfl
  · next hleft => rw [h] at hleft; cases hleft

theorem scan_cons {i : Nat} {first : UInt8} {after : List UInt8} (h : source.toUTF8.toList.drop i = first :: after)
    (line : Nat) : scan source line i =
      match step source i first after with
      | none => none
      | some (.error cause) => some (.error (.lexical line cause))
      | some (.ok ⟨.gap, lines, extra⟩) => scan source (line + lines) (i + 1 + extra)
      | some (.ok ⟨.lexeme kind value, lines, extra⟩) =>
        (scan source (line + lines) (i + 1 + extra)).prepend [⟨kind, i, 1 + extra, line, value⟩] := by
  rw [scan]
  split
  · next hleft => rw [h] at hleft; cases hleft
  · next hleft =>
    rw [h] at hleft
    cases hleft
    rfl

/-- After a piece the scan goes on where the piece ends. -/
theorem scan_passed {text rest : List Char} {piece : Piece} (h : Starts text piece rest)
    (hsource : source.toList = before ++ (text ++ rest)) :
    scan source (1 + before.count '\n') (size before) =
      (scan source (1 + (before ++ text).count '\n') (size (before ++ text))).prepend
        ((placed before [(text, piece)]).map Token.span) := by
  obtain ⟨first, after, hbytes, hstep⟩ := passed h hsource
  have hsize : 1 + (size text - 1) = size text := by
    obtain ⟨c, more, rfl, -⟩ := h.reads
    exact Nat.add_sub_cancel' (size_pos c more)
  rw [scan_cons ((bytes_drop hsource).trans hbytes), hstep, List.count_append, Lexical.size_append, ← Nat.add_assoc]
  cases piece with
  | gap =>
    show scan source _ _ = _
    rw [Nat.add_assoc (size before), hsize]
    exact (Scanned.prepend_nil _).symm
  | lexeme kind value =>
    show Scanned.prepend _ (scan source _ _) = _
    rw [Nat.add_assoc (size before), hsize]
    rfl

/-- **The scan.** After the pieces of a split the cursor stands behind them. -/
theorem scanned {left : List Char} {pieces : Pieces} (h : Splits cs pieces left) : ∀ before : List Char,
    source.toList = before ++ cs → scan source (1 + before.count '\n') (size before) =
      (scan source (1 + (before ++ pieces.text).count '\n') (size (before ++ pieces.text))).prepend
        ((placed before pieces).map Token.span) := by
  induction h with
  | stop =>
    intro before _
    rw [Pieces.text, List.flatMap_nil, List.append_nil]
    exact (Scanned.prepend_nil _).symm
  | @piece text rest left piece pieces hstarts _ ih =>
    intro before hsource
    rw [scan_passed hstarts hsource, ih (before ++ text) (by rw [hsource, List.append_assoc]),
      Lexical.placed_cons before text piece pieces, Lexical.Pieces.text_cons, List.append_assoc, List.map_append,
      Scanned.prepend_append]

/-- The scan finds the tokens that the lexer finds, or the same fault. -/
theorem scan_eq (source : String) : scan source 1 0 = some ((tokenize source).map (List.map Token.span)) := by
  obtain ⟨pieces, hsplits, htokens⟩ | ⟨pieces, left, cause, hsplits, hflaw, herror⟩ :=
    Lexical.splits_of_tokenize source
  · have htext := hsplits.text_append
    rw [List.append_nil] at htext
    have hend : source.toUTF8.toList.drop (size pieces.text) = [] := bytes_drop (by rw [htext, List.append_nil])
    refine (scanned hsplits [] rfl).trans ?_
    rw [List.nil_append, scan_nil hend, htokens, ← htext]
    simp [Scanned.prepend, Except.map, Token.span, Token.eof, Token.length]
  · obtain ⟨first, after, hbytes, hstep⟩ := reported hflaw hsplits.text_append
    refine (scanned hsplits [] rfl).trans ?_
    rw [List.nil_append, scan_cons ((bytes_drop hsplits.text_append).trans hbytes), hstep, herror]
    rfl

/-! ## What the tokens cover -/

/-- The token stands between boundaries of the source, and its text is there. -/
structure Covers (source : String) (t : Token) : Prop where
  start : Boundary source t.start
  stop : Boundary source (t.start + t.length)
  text : t.span.text? source = some t.text

theorem covers_of_split {t : Token} {after : List Char} (h : source.toList = before ++ (t.text.toList ++ after))
    (hstart : t.start = size before) : Covers source t := by
  have hlength : t.length = size t.text.toList := by
    rw [size, String.ofList_toList]
    rfl
  refine ⟨?_, ?_, ?_⟩
  · rw [hstart]
    exact boundary_size h
  · rw [hstart, hlength, ← Lexical.size_append]
    exact boundary_size (by rw [h, List.append_assoc])
  · show slice? source t.start (t.start + t.length) = _
    rw [hstart, hlength, slice?_size h, String.ofList_toList]

theorem tokenize_covers {tokens : List Token} (h : tokenize source = .ok tokens) : ∀ t ∈ tokens, Covers source t := by
  obtain ⟨pieces, hsplits, htokens⟩ | ⟨_, _, _, _, _, herror⟩ := Lexical.splits_of_tokenize source
  · cases htokens.symm.trans h
    intro t ht
    rcases List.mem_append.1 ht with ht | ht
    · obtain ⟨before, after, hsource, -, hstart, -⟩ := hsplits.lexeme ht
      exact covers_of_split hsource hstart
    · cases List.mem_singleton.1 ht
      have hend : source.toList = source.toList ++ ("".toList ++ []) := (List.append_nil _).symm
      refine covers_of_split hend ?_
      rw [size, String.ofList_toList]
      rfl
  · cases herror.symm.trans h

theorem Covers.describe {t : Token} (h : Covers source t) : t.span.describe? source = some t.describe := by
  unfold Span.describe? Token.describe
  rw [h.text]
  cases t with
  | mk kind => cases kind <;> rfl

theorem Covers.stringBytes {t : Token} (h : Covers source t) :
    t.span.stringBytes? source = some (Literal.stringBytes t.text) := by
  rw [Span.stringBytes?, h.text, Option.map_some]

end Runs

end Bytewise

/-- **Byte by byte.** For every source, whatever characters it has, no cut goes through a character: scanning it byte by
byte finds the tokens of `tokenize`, or the same fault. Each of the tokens starts and ends on a boundary between
characters, within the source, and its text, its description and its bytes are found there. -/
theorem bytewise_scanning (source : String) :
    Bytewise.scan source 1 0 = some ((tokenize source).map (List.map Token.span)) ∧
    ∀ tokens, tokenize source = .ok tokens → ∀ t ∈ tokens,
      Bytewise.Boundary source t.start ∧ Bytewise.Boundary source (t.start + t.length) ∧
      t.start + t.length ≤ source.utf8ByteSize ∧
      t.span.text? source = some t.text ∧ t.span.describe? source = some t.describe ∧
      t.span.stringBytes? source = some (Literal.stringBytes t.text) := by
  refine ⟨Bytewise.scan_eq source, fun tokens h t ht => ?_⟩
  have hcovers := Bytewise.tokenize_covers h t ht
  exact ⟨hcovers.start, hcovers.stop, hcovers.stop.le_utf8ByteSize, hcovers.text, hcovers.describe, hcovers.stringBytes⟩

/-- Characters of two to four bytes in comments, in a literal and behind it. -/
def foreign : String := "/* é\n𝄞 */ x = \"ü\\n€\"; // ∀"

theorem foreign_scanned :
    tokenize foreign = .ok [⟨.ident, "x", none, 14, 2⟩, ⟨.punctuator, "=", none, 16, 2⟩,
      ⟨.string, "\"ü\\n€\"", none, 18, 2⟩, ⟨.punctuator, ";", none, 27, 2⟩, Token.eof 35 2] ∧
    Bytewise.scan foreign 1 0 = some (.ok [⟨.ident, 14, 1, 2, none⟩, ⟨.punctuator, 16, 1, 2, none⟩,
      ⟨.string, 18, 9, 2, none⟩, ⟨.punctuator, 27, 1, 2, none⟩, ⟨.eof, 35, 0, 2, none⟩]) ∧
    Bytewise.slice? foreign 18 (18 + 9) = some "\"ü\\n€\"" ∧ ¬ Bytewise.Boundary foreign 20 := by
  have hread : tokenize foreign = .ok [⟨.ident, "x", none, 14, 2⟩, ⟨.punctuator, "=", none, 16, 2⟩,
      ⟨.string, "\"ü\\n€\"", none, 18, 2⟩, ⟨.punctuator, ";", none, 27, 2⟩, Token.eof 35 2] := by decide +kernel
  have hstring := (bytewise_scanning foreign).2 _ hread ⟨.string, "\"ü\\n€\"", none, 18, 2⟩ (by simp)
  refine ⟨hread, ?_, hstring.2.2.2.1, by decide +kernel⟩
  rw [(bytewise_scanning foreign).1, hread]
  rfl

end MiniC
