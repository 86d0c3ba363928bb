import Mathlib.Algebra.Group.Int.Defs
import MiniC.Proofs.Layout
import MiniC.Proofs.StringLiterals

/-!
# Printing expressions

A phrase printed as tokens, with parentheses only where climbing would read it differently without them. Phrases that
tokens of a source denote are spellable: their names, numbers and strings can be written (`Grammar.spellable`). What is
printed of these are lexemes, so the text of a printed phrase is cut into the tokens it was printed as
(`tokenize_printed`).
-/

namespace MiniC

/-! ## The printer -/

/-- A token that has no place yet. -/
def lexeme (kind : TokenKind) (text : String) (value : Option Int) : Token := ⟨kind, text, value, 0, 0⟩

def punct (text : String) : Token := lexeme .punctuator text none

def word (text : String) : Token := lexeme .ident text none

def numeral (value : Int) : Token := lexeme .number (toString value) (some value)

/-- The literal of a text. -/
def quotation (text : String) : Token :=
  lexeme .string (String.ofList ('"' :: (Literal.spelling text.toList ++ ['"']))) none

namespace UnaryOp

def symbol : UnaryOp → String
  | addressOf => "&"
  | deref => "*"
  | negate => "-"
  | not => "!"
  | step _ .up => "++"
  | step _ .down => "--"

/-- Whether the operator stands after its operand. -/
def follows : UnaryOp → Bool
  | step .after _ => true
  | _ => false

end UnaryOp

namespace BinaryOp

/-- Whether `inner`, as the left operand of `op`, needs parentheses. -/
def guardsLeft (op inner : BinaryOp) : Bool := inner.strength < op.strength

/-- Whether `inner`, as the right operand of `op`, needs parentheses. -/
def guardsRight (op inner : BinaryOp) : Bool :=
  inner.strength < op.strength || (inner.strength == op.strength && !op.groupsRight)

end BinaryOp

/-- The tokens between parentheses, if they need them. -/
def guarded (needed : Bool) (w : List Token) : List Token := if needed then punct "(" :: (w ++ [punct ")"]) else w

namespace Phrase

/-- The binary operator that the phrase puts between two others. -/
def operator? : Phrase → Option BinaryOp
  | .binary op _ _ => some op
  | _ => none

mutual

/-- The tokens of an expression, with no parentheses around it. -/
def printed : Phrase → List Token
  | .name text => [word text]
  | .number value => [numeral value]
  | .string bytes => [quotation ((String.fromUTF8? ⟨bytes.toArray⟩).getD "")]
  | .unary op x =>
    if op.follows then x.printed ++ [punct op.symbol] else punct op.symbol :: guarded x.operator?.isSome x.printed
  | .binary op x y =>
    guarded (x.operator?.any op.guardsLeft) x.printed ++
      punct op.symbol :: guarded (y.operator?.any op.guardsRight) y.printed
  | .call f args => word f :: punct "(" :: printedArgs args
  | _ => []

/-- The tokens of arguments, up to and with the closing parenthesis. -/
def printedArgs : List Phrase → List Token
  | [] => [punct ")"]
  | [x] => x.printed ++ [punct ")"]
  | x :: xs => x.printed ++ punct "," :: printedArgs xs

end

mutual

/-- The phrase is an expression whose names, numbers and strings can be written. -/
def Spellable : Phrase → Prop
  | .name text => Lexed (word text)
  | .number value => 0 ≤ value ∧ value < 2 ^ 63
  | .string bytes => ∃ text : String, bytes = text.toUTF8.toList
  | .unary _ x => x.Spellable
  | .binary _ x y => x.Spellable ∧ y.Spellable
  | .call f args => Lexed (word f) ∧ AllSpellable args
  | _ => False

def AllSpellable : List Phrase → Prop
  | [] => True
  | x :: xs => x.Spellable ∧ AllSpellable xs

end

end Phrase

/-! ## What is printed are lexemes -/

section Lexemes

open Lexer

/-- What a source can start with is a lexeme. -/
theorem Lexical.Starts.lexed {text : List Char} {kind : TokenKind} {value : Option Int}
    (h : Starts text (.lexeme kind value) []) : Lexed (lexeme kind (String.ofList text) value) := by
  obtain ⟨c, more, rfl, hread⟩ := h.reads
  exact ⟨c, more ++ [], more.length, hread, by rw [List.take_left]; rfl⟩

theorem lexed_punct {text : String} (h : text ∈ punctuators) : Lexed (punct text) := by
  obtain ⟨c, more, hchars, hpiece⟩ := readPiece_punctuator h (.inl rfl : Separated [])
  exact ⟨c, more ++ [], more.length, hpiece, by rw [List.take_left, ← hchars, String.ofList_toList]; rfl⟩

theorem lexed_numeral {value : Int} (hnonneg : 0 ≤ value) (hlimit : value < 2 ^ 63) : Lexed (numeral value) := by
  obtain ⟨n, rfl⟩ := Int.eq_ofNat_of_zero_le hnonneg
  have hvalue : decimal (Nat.toDigits 10 n) = n := Nat.ofDigitChars_ten_toDigits
  have hrun : Lexical.Run Char.isDigit (Nat.toDigits 10 n) [] :=
    ⟨fun c hc => Nat.isDigit_of_mem_toDigits (by decide) (by decide) hc, fun c hc => by cases hc⟩
  have hstarts := Lexical.Starts.number Nat.toDigits_ne_nil hrun (by rw [hvalue]; exact_mod_cast hlimit)
  have hlexed := hstarts.lexed
  rw [hvalue] at hlexed
  exact hlexed

theorem lexed_quotation (text : String) : Lexed (quotation text) :=
  (Lexical.Starts.string (Literal.spelled_spelling text.toList).quoted).lexed

theorem UnaryOp.symbol_mem (op : UnaryOp) : op.symbol ∈ punctuators := by
  cases op with
  | step moment direction => cases moment <;> cases direction <;> decide
  | _ => decide

theorem BinaryOp.symbol_mem (op : BinaryOp) : op.symbol ∈ punctuators := by cases op <;> decide

/-- The token is a lexeme that has no place yet. -/
def Unplaced (t : Token) : Prop := Lexed t ∧ t.unplaced = t

theorem unplaced_punct {text : String} (h : text ∈ punctuators) : Unplaced (punct text) := ⟨lexed_punct h, rfl⟩

theorem unplaced_guarded {needed : Bool} {w : List Token} (hw : ∀ t ∈ w, Unplaced t) :
    ∀ t ∈ guarded needed w, Unplaced t := by
  have hopen : Unplaced (punct "(") := unplaced_punct (by decide)
  have hclose : Unplaced (punct ")") := unplaced_punct (by decide)
  cases needed with
  | false => exact hw
  | true => simpa [guarded, hopen, hclose, or_imp, forall_and] using hw

mutual

/-- A spellable phrase is printed as lexemes. -/
theorem Phrase.printed_unplaced : ∀ x : Phrase, x.Spellable → ∀ t ∈ x.printed, Unplaced t
  | .name text, h => by
    rw [Phrase.printed, List.forall_mem_singleton]
    exact ⟨h, rfl⟩
  | .number value, h => by
    rw [Phrase.printed, List.forall_mem_singleton]
    exact ⟨lexed_numeral h.1 h.2, rfl⟩
  | .string bytes, _ => by
    rw [Phrase.printed, List.forall_mem_singleton]
    exact ⟨lexed_quotation _, rfl⟩
  | .unary op x, h => by
    have hop := unplaced_punct op.symbol_mem
    have hx := x.printed_unplaced h
    rw [Phrase.printed]
    split
    · exact List.forall_mem_append.2 ⟨hx, List.forall_mem_singleton.2 hop⟩
    · exact List.forall_mem_cons.2 ⟨hop, unplaced_guarded hx⟩
  | .binary op x y, h => by
    have hop := unplaced_punct op.symbol_mem
    have hx := x.printed_unplaced h.1
    have hy := y.printed_unplaced h.2
    rw [Phrase.printed]
    exact List.forall_mem_append.2 ⟨unplaced_guarded hx, List.forall_mem_cons.2 ⟨hop, unplaced_guarded hy⟩⟩
  | .call f args, h => by
    rw [Phrase.printed]
    have hopen : Unplaced (punct "(") := unplaced_punct (by decide)
    exact List.forall_mem_cons.2 ⟨⟨h.1, rfl⟩, List.forall_mem_cons.2 ⟨hopen, Phrase.printedArgs_unplaced args h.2⟩⟩

theorem Phrase.printedArgs_unplaced : ∀ xs : List Phrase, AllSpellable xs → ∀ t ∈ printedArgs xs, Unplaced t
  | [], _ => List.forall_mem_singleton.2 (unplaced_punct (by decide))
  | [x], h => by
    have hclose : Unplaced (punct ")") := unplaced_punct (by decide)
    exact List.forall_mem_append.2 ⟨x.printed_unplaced h.1, List.forall_mem_singleton.2 hclose⟩
  | x :: y :: xs, h => by
    have hcomma : Unplaced (punct ",") := unplaced_punct (by decide)
    have hrest := Phrase.printedArgs_unplaced (y :: xs) h.2
    exact List.forall_mem_append.2 ⟨x.printed_unplaced h.1, List.forall_mem_cons.2 ⟨hcomma, hrest⟩⟩

end

end Lexemes

/-! ## Phrases of sources -/

section Sources

open Grammar

theorem Literal.exists_char {first byte : UInt8} (h : Literal.escaped first = .ok byte) :
    ∃ c, Literal.bytesOf c = [byte] := by
  unfold Literal.escaped at h
  simp only at h
  split at h
  · next value hescape =>
    cases h
    unfold Literal.escape? at hescape
    split at hescape <;> cases hescape
    exacts [⟨'\n', rfl⟩, ⟨'\t', rfl⟩, ⟨'\r', rfl⟩, ⟨'\x00', rfl⟩, ⟨'\\', rfl⟩, ⟨'\'', rfl⟩, ⟨'"', rfl⟩]
  · cases h

/-- The bytes of a literal are those of a text. -/
theorem Literal.Quoted.text {cs : List Char} {bytes : List UInt8} (h : Literal.Quoted cs bytes) :
    ∃ text : List Char, bytes = text.flatMap Literal.bytesOf := by
  induction h with
  | close => exact ⟨[], rfl⟩
  | @escape c cs byte bytes hbyte _ ih =>
    obtain ⟨text, rfl⟩ := ih
    obtain ⟨c', hc'⟩ := Literal.exists_char hbyte
    exact ⟨c' :: text, by rw [List.flatMap_cons, hc']; rfl⟩
  | @plain c cs bytes _ _ _ _ ih =>
    obtain ⟨text, rfl⟩ := ih
    exact ⟨c :: text, rfl⟩

theorem Lexed.word {t : Token} (h : Lexed t) (hkind : t.kind = .ident) : Lexed (word t.text) := by
  obtain ⟨c, cs, extra, hpiece, htext⟩ := h
  refine ⟨c, cs, extra, ?_, htext⟩
  rw [hkind] at hpiece
  generalize t.value = value at hpiece
  have hcut := Lexer.cut_of_readPiece hpiece
  generalize hk : TokenKind.ident = kind at hcut
  cases hcut with
  | word => exact hpiece
  | _ => cases hk

theorem Lexed.number {t : Token} {value : Int} (h : Lexed t) (hkind : t.kind = .number)
    (hvalue : t.value = some value) : 0 ≤ value ∧ value < 2 ^ 63 := by
  obtain ⟨c, cs, extra, hpiece, -⟩ := h
  rw [hkind, hvalue] at hpiece
  have hcut := Lexer.cut_of_readPiece hpiece
  generalize hk : TokenKind.number = kind at hcut
  generalize hv : some value = value' at hcut
  cases hcut with
  | number _ hlimit =>
    cases hv
    exact ⟨Int.natCast_nonneg _, by exact_mod_cast hlimit⟩
  | word => cases hv
  | @character byte _ _ _ =>
    cases hv
    have hbyte := byte.toNat_lt
    exact ⟨Int.natCast_nonneg _, by omega⟩
  | _ => cases hk

theorem Lexed.string {t : Token} {bytes : List UInt8} (h : Lexed t) (hkind : t.kind = .string)
    (hbytes : Literal.stringBytes t.text = .ok bytes) : ∃ text : String, bytes = text.toUTF8.toList := by
  obtain ⟨body, bytes', htext, hquoted⟩ := h.quoted hkind
  have hdecoded : Literal.stringBytes t.text = .ok bytes' := by
    rw [Literal.stringBytes, htext, Literal.bytes_ofList]
    exact hquoted.decodes
  cases hbytes.symm.trans hdecoded
  obtain ⟨text, rfl⟩ := hquoted.text
  exact ⟨String.ofList text, (Literal.bytes_ofList text).symm⟩

theorem Grammar.Operand.spellable {w : List Token} {x : Phrase} (h : Operand w x) :
    (∀ t ∈ w, Lexed t) → x.Spellable := by
  refine @Operand.rec (fun w x _ => (∀ t ∈ w, Lexed t) → x.Spellable)
    (fun _ w x _ => (∀ t ∈ w, Lexed t) → x.Spellable)
    (fun w suffix _ => (∀ t ∈ w, Lexed t) → ∀ text, Lexed (word text) → (suffix text).Spellable)
    (fun w xs _ => (∀ t ∈ w, Lexed t) → Phrase.AllSpellable xs)
    (fun w xs _ => (∀ t ∈ w, Lexed t) → Phrase.AllSpellable xs) ?unary ?parens ?number ?string ?name ?innermost ?tighter
    ?binary ?plain ?call ?index ?step ?empty ?series ?last ?more w x h
  case unary => exact fun _ _ _ ih hw => ih (List.forall_mem_cons.1 hw).2
  case parens => exact fun _ _ _ ih hw => ih (List.forall_mem_append.1 (List.forall_mem_cons.1 hw).2).1
  case number => exact fun hkind hvalue hw => (List.forall_mem_singleton.1 hw).number hkind hvalue
  case string => exact fun hkind hbytes hw => (List.forall_mem_singleton.1 hw).string hkind hbytes
  case name =>
    intro t w suffix hkind _ ih hw
    obtain ⟨ht, hw⟩ := List.forall_mem_cons.1 hw
    exact ih hw t.text (ht.word hkind)
  case innermost => exact fun _ ih hw => ih hw
  case tighter => exact fun _ ih hw => ih hw
  case binary =>
    intro n op symbol u v x y _ _ _ _ ihx ihy hw
    obtain ⟨hu, hv⟩ := List.forall_mem_append.1 hw
    exact ⟨ihx hu, ihy (List.forall_mem_cons.1 hv).2⟩
  case plain => exact fun _ _ htext => htext
  case call => exact fun _ _ ih hw text htext => ⟨htext, ih (List.forall_mem_cons.1 hw).2⟩
  case index =>
    intro opening close w x _ _ _ ih hw text htext
    exact ⟨htext, ih (List.forall_mem_append.1 (List.forall_mem_cons.1 hw).2).1⟩
  case step => exact fun _ _ _ text htext => htext
  case empty => exact fun _ _ => trivial
  case series => exact fun _ ih hw => ih hw
  case last => exact fun _ _ ih hw => ⟨ih (List.forall_mem_append.1 hw).1, trivial⟩
  case more =>
    intro w u comma x xs _ _ _ ihx ihxs hw
    obtain ⟨hw, hu⟩ := List.forall_mem_append.1 hw
    exact ⟨ihx hw, ihxs (List.forall_mem_cons.1 hu).2⟩

/-- **Expressions of a source can be written.** Their names, numbers and strings come from lexemes. -/
theorem Grammar.spellable {w : List Token} {x : Phrase} (h : Expression w x) (hw : ∀ t ∈ w, Lexed t) : x.Spellable := by
  have hopening : Lexed (punct "(") := lexed_punct (by decide)
  have hclosing : Lexed (punct ")") := lexed_punct (by decide)
  have hparens : Operand (punct "(" :: (w ++ [punct ")"])) x := .parens rfl h rfl
  refine hparens.spellable (List.forall_mem_cons.2 ⟨hopening, ?_⟩)
  exact List.forall_mem_append.2 ⟨hw, List.forall_mem_singleton.2 hclosing⟩

end Sources

/-! ## The text of a phrase -/

/-- Lexemes with spaces between them are cut into tokens like them. -/
theorem tokenize_of_lexed {ts : List Token} (h : ∀ t ∈ ts, Lexed t) : ∃ body last,
    tokenize (spaced ts) = .ok (body ++ [last]) ∧ IsEnd last ∧
      body.map (fun t => (t.kind, t.text, t.value)) = ts.map (fun t => (t.kind, t.text, t.value)) := by
  obtain ⟨body, last, hscan, hlast, hbody⟩ := Lexer.scan_spaced (.inl rfl) ts h 0 1
  refine ⟨body, last, ?_, hlast, hbody⟩
  have hchars : (spaced ts).toList = [' '].intercalate (ts.map (·.text.toList)) := by
    unfold spaced
    rw [String.toList_intercalate, List.map_map]
    rfl
  rw [tokenize, hchars, ← hscan, List.append_nil]

/-- **Printing.** The text of a phrase that can be written is cut into the tokens it was printed as and the end
mark. -/
theorem tokenize_printed {x : Phrase} (h : x.Spellable) : ∃ body last,
    tokenize (spaced x.printed) = .ok (body ++ [last]) ∧ IsEnd last ∧ body.map Token.unplaced = x.printed := by
  obtain ⟨body, last, htokens, hlast, hbody⟩ := tokenize_of_lexed fun t ht => (x.printed_unplaced h t ht).1
  refine ⟨body, last, htokens, hlast, ?_⟩
  have hsame := congrArg (List.map fun p => lexeme p.1 p.2.1 p.2.2) hbody
  rw [List.map_map, List.map_map] at hsame
  exact hsame.trans ((List.map_congr_left fun t ht => (x.printed_unplaced h t ht).2).trans (List.map_id _))

end MiniC
