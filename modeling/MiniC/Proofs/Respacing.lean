import Mathlib.Data.List.TakeWhile
import Mathlib.Tactic.FinCases
import MiniC.Proofs.Lexing

/-!
# Tokens cut out again

The text of a token, read again with a space or nothing after it, is that token (`Lexed.standalone`): numbers and words
take all they can and stop at the space, literals stop at their closing quote, and no punctuator is longer than the one
that was found unless the source went on with it. So the value of a token follows from its text, and the texts of tokens
with spaces between them are cut into the same tokens (`tokenize_spaced`).
-/

namespace MiniC

/-- Nothing, or a space and more. -/
def Separated (cs : List Char) : Prop := cs = [] ∨ ∃ rest, cs = ' ' :: rest

theorem Separated.head_ne {p : Char → Bool} (hp : p ' ' = false) {rest : List Char} (h : Separated rest) :
    rest.takeWhile p = [] := by
  obtain rfl | ⟨more, rfl⟩ := h
  · rfl
  · exact List.takeWhile_cons_of_neg (by simp [hp])

theorem takeWhile_separated {p : Char → Bool} (hp : p ' ' = false) {rest : List Char} (h : Separated rest) (cs : List Char) :
    (cs.takeWhile p ++ rest).takeWhile p = cs.takeWhile p := by
  rw [List.takeWhile_append_of_pos (fun c hc => List.mem_takeWhile_imp hc), h.head_ne hp, List.append_nil]

namespace Literal

/-- A character literal ends with its quote. -/
theorem charLiteral_append {cs : List Char} {byte : UInt8} {count : Nat} (h : charLiteral cs = .ok (byte, count))
    (rest : List Char) : charLiteral (cs.take count ++ rest) = .ok (byte, count) ∧ (cs.take count).length = count := by
  fun_cases charLiteral cs with
  | case1 => cases h
  | case2 => cases h
  | case3 => cases h
  | case4 c after =>
    rw [charLiteral] at h
    cases hbyte : escaped (leadByte c) with
    | error cause => rw [hbyte] at h; cases h
    | ok value =>
      rw [hbyte] at h
      simp only [bind, Except.bind] at h
      split at h
      · cases h
        refine ⟨?_, rfl⟩
        show charLiteral ('\\' :: c :: '\'' :: rest) = _
        rw [charLiteral, hbyte]
        rfl
      · cases h
  | case5 c hnewline value tail hbytes _ hescape =>
    have hplain : ∀ tail, charLiteral (c :: '\'' :: tail) = .ok (value, 2) := by
      intro tail
      rw [charLiteral]
      · exact hnewline
      · exact hbytes
      · rintro rfl ⟨⟩
      · rintro c' tail' rfl -
        exact hescape _ _ rfl rfl
    rw [hplain] at h
    cases h
    exact ⟨hplain rest, rfl⟩
  | case6 c tail hnewline hlast hescape hother =>
    rw [charLiteral] at h
    · cases h
    · exact hnewline
    · exact hother
    · exact hlast
    · exact hescape

/-- So does a string literal. -/
theorem Quoted.stringLiteral_append {cs : List Char} {bytes : List UInt8} (h : Quoted cs bytes) (rest : List Char) :
    stringLiteral (cs ++ rest) = .ok (bytes, cs.length) := by
  induction h with
  | close => rfl
  | @escape c cs byte bytes hbyte _ ih =>
    rw [List.cons_append, List.cons_append, stringLiteral, hbyte, ih]
    rfl
  | plain hnewline hquote hbackslash _ ih =>
    rw [List.cons_append, stringLiteral_plain hnewline hquote hbackslash, ih]
    rfl

theorem stringLiteral_append {cs : List Char} {bytes : List UInt8} {count : Nat}
    (h : stringLiteral cs = .ok (bytes, count)) (rest : List Char) :
    stringLiteral (cs.take count ++ rest) = .ok (bytes, count) ∧ (cs.take count).length = count := by
  have hquoted := quoted_of_stringLiteral cs h
  have hlength : (cs.take count).length = count := by
    have hwhole := hquoted.stringLiteral_append (cs.drop count)
    rw [List.take_append_drop, h] at hwhole
    exact (Prod.mk.inj (Except.ok.inj hwhole)).2.symm
  refine ⟨?_, hlength⟩
  have happend := hquoted.stringLiteral_append rest
  rwa [hlength] at happend

end Literal

namespace Lexer

/-! ## What starts a piece -/

/-- The characters that start a gap. -/
def gapStarts : List Char := [' ', '\t', '\n', '\x0c', '\r', '/']

/-- A property of no character that starts a gap keeps a character from starting one. -/
theorem not_gap_of {p : Char → Bool} {c : Char} (hp : gapStarts.any p = false) (hc : p c = true) :
    isBlank c = false ∧ c ≠ '/' := by
  have hne : ∀ x ∈ gapStarts, c ≠ x := by
    rintro x hx rfl
    rw [List.any_eq_true.2 ⟨c, hx, hc⟩] at hp
    cases hp
  simp only [gapStarts, List.forall_mem_cons] at hne
  obtain ⟨hspace, htab, hnewline, hfeed, hreturn, hslash, -⟩ := hne
  exact ⟨by simp [isBlank, hspace, htab, hnewline, hfeed, hreturn], hslash⟩

theorem readPiece_digit {c : Char} (hc : c.isDigit = true) (cs : List Char) : readPiece c cs = readNumber c cs := by
  obtain ⟨hblank, hslash⟩ := not_gap_of (by decide) hc
  simp [readPiece, hblank, hslash, hc]

theorem readPiece_word {c : Char} (hdigit : c.isDigit = false) (hc : isWordStart c = true) (cs : List Char) :
    readPiece c cs = .ok (readWord c cs) := by
  obtain ⟨hblank, hslash⟩ := not_gap_of (by decide) hc
  simp [readPiece, hblank, hslash, hdigit, hc]

theorem readPiece_character (cs : List Char) {byte : UInt8} {count : Nat} (h : Literal.charLiteral cs = .ok (byte, count)) :
    readPiece '\'' cs = .ok (.lexeme .number (some byte.toNat), count) := by
  show (Literal.charLiteral cs >>= fun p => .ok (Piece.lexeme .number (some p.1.toNat), p.2)) = _
  rw [h]
  rfl

theorem readPiece_string (cs : List Char) {bytes : List UInt8} {count : Nat}
    (h : Literal.stringLiteral cs = .ok (bytes, count)) : readPiece '"' cs = .ok (.lexeme .string none, count) := by
  show (Literal.stringLiteral cs >>= fun p => .ok (Piece.lexeme .string none, p.2)) = _
  rw [h]
  rfl

/-! ## Punctuators -/

theorem mem_of_punctuator? {cs : List Char} {op : String} (h : punctuator? cs = some op) :
    op ∈ punctuators ∧ op.toList <+: cs := by
  have hprefix := List.find?_some h
  exact ⟨List.mem_of_find?_eq_some h, List.isPrefixOf_iff_prefix.1 hprefix⟩

/-- Before a space every punctuator is itself. -/
theorem readPiece_punctuator {op : String} (hop : op ∈ punctuators) {rest : List Char} (hrest : Separated rest) :
    ∃ c more, op.toList = c :: more ∧ readPiece c (more ++ rest) = .ok (.lexeme .punctuator none, more.length) := by
  unfold punctuators at hop
  obtain rfl | ⟨rest, rfl⟩ := hrest
  · fin_cases hop <;> exact ⟨_, _, rfl, rfl⟩
  · fin_cases hop <;> exact ⟨_, _, rfl, rfl⟩

/-! ## Lexemes read again -/

theorem take_takeWhile (p : Char → Bool) (cs : List Char) : cs.take (cs.takeWhile p).length = cs.takeWhile p :=
  (List.prefix_iff_eq_take.1 (List.takeWhile_prefix p)).symm

/-- A lexeme, cut out and read again before a space, is the same lexeme. -/
theorem Cut.standalone {c : Char} {cs : List Char} {kind : TokenKind} {value : Option Int} {extra : Nat}
    (h : Cut c cs kind value extra) : (cs.take extra).length = extra ∧
      ∀ rest, Separated rest → readPiece c (cs.take extra ++ rest) = .ok (.lexeme kind value, extra) := by
  cases h with
  | number hdigit hlimit =>
    rw [take_takeWhile]
    refine ⟨rfl, fun rest hrest => ?_⟩
    rw [readPiece_digit hdigit, readNumber, takeWhile_separated (by decide) hrest]
    exact if_pos hlimit
  | word hdigit hword =>
    rw [take_takeWhile]
    refine ⟨rfl, fun rest hrest => ?_⟩
    rw [readPiece_word hdigit hword, readWord, takeWhile_separated (by decide) hrest]
  | character hquote hliteral =>
    subst hquote
    refine ⟨(Literal.charLiteral_append hliteral []).2, fun rest _ => ?_⟩
    exact readPiece_character _ (Literal.charLiteral_append hliteral rest).1
  | string hquote hliteral =>
    subst hquote
    refine ⟨(Literal.stringLiteral_append hliteral []).2, fun rest _ => ?_⟩
    exact readPiece_string _ (Literal.stringLiteral_append hliteral rest).1
  | @punctuator op hop =>
    obtain ⟨hmem, hprefix⟩ := mem_of_punctuator? hop
    -- the text that was cut out is the punctuator itself
    have hcut : ∀ {c' : Char} {more : List Char}, op.toList = c' :: more → c' = c ∧ cs.take (op.length - 1) = more := by
      intro c' more hchars
      have hlength : op.length - 1 = more.length := by rw [← String.length_toList, hchars]; rfl
      rw [hchars] at hprefix
      obtain ⟨rfl, hmore⟩ := List.cons_prefix_cons.1 hprefix
      exact ⟨rfl, by rw [hlength]; exact (List.prefix_iff_eq_take.1 hmore).symm⟩
    constructor
    · obtain ⟨c', more, hchars, -⟩ := readPiece_punctuator hmem (.inl rfl : Separated [])
      rw [(hcut hchars).2, ← String.length_toList, hchars]
      rfl
    · intro rest hrest
      obtain ⟨c', more, hchars, hpiece⟩ := readPiece_punctuator hmem hrest
      obtain ⟨rfl, hmore⟩ := hcut hchars
      rw [hmore, hpiece, ← String.length_toList, hchars]
      rfl

end Lexer

/-- The text of a token, read again, is the token. -/
theorem Lexed.standalone {t : Token} (h : Lexed t) : ∃ c more, t.text = String.ofList (c :: more) ∧
    ∀ rest, Separated rest → Lexer.readPiece c (more ++ rest) = .ok (.lexeme t.kind t.value, more.length) := by
  obtain ⟨c, cs, extra, hpiece, htext⟩ := h
  obtain ⟨hlength, hread⟩ := (Lexer.cut_of_readPiece hpiece).standalone
  refine ⟨c, cs.take extra, htext, fun rest hrest => ?_⟩
  rw [hread rest hrest, hlength]

/-- The text of a token decides its kind and its value. -/
theorem Lexed.eq_of_text {t t' : Token} (h : Lexed t) (h' : Lexed t') (htext : t.text = t'.text) :
    t.kind = t'.kind ∧ t.value = t'.value := by
  obtain ⟨c, more, hchars, hread⟩ := h.standalone
  obtain ⟨c', more', hchars', hread'⟩ := h'.standalone
  rw [hchars, hchars'] at htext
  obtain ⟨rfl, rfl⟩ := List.cons.inj (String.ofList_injective htext)
  have hpiece := (hread [] (.inl rfl)).symm.trans (hread' [] (.inl rfl))
  injection hpiece with hpiece
  injection hpiece with hpiece
  injection hpiece with hkind hvalue
  exact ⟨hkind, hvalue⟩

/-! ## Texts with spaces between them -/

namespace Lexer

theorem scan_space (start line : Nat) (cs : List Char) : scan start line (' ' :: cs) = scan (start + 1) line cs := by
  rw [scan]
  rfl

theorem scan_lexeme {c : Char} {more rest : List Char} {kind : TokenKind} {value : Option Int} (start line : Nat)
    (h : readPiece c (more ++ rest) = .ok (.lexeme kind value, more.length)) :
    ∃ start' line', scan start line (c :: (more ++ rest)) =
      (scan start' line' rest).map (⟨kind, String.ofList (c :: more), value, start, line⟩ :: ·) := by
  rw [scan, h]
  simp only [List.take_left, List.drop_left]
  exact ⟨_, _, rfl⟩

/-- The texts of tokens with single spaces between them, and perhaps one more at the end, are cut into these tokens. -/
theorem scan_spaced {tail : List Char} (htail : tail = [] ∨ tail = [' ']) :
    ∀ (ts : List Token), (∀ t ∈ ts, Lexed t) → ∀ start line, ∃ body last,
      scan start line ([' '].intercalate (ts.map (·.text.toList)) ++ tail) = .ok (body ++ [last]) ∧ IsEnd last ∧
      body.map (fun t => (t.kind, t.text, t.value)) = ts.map (fun t => (t.kind, t.text, t.value)) := by
  have hend : ∀ start line, ∃ start' line', scan start line tail = .ok [Token.eof start' line'] := by
    intro start line
    obtain rfl | rfl := htail
    · exact ⟨start, line, by rw [scan]⟩
    · exact ⟨start + 1, line, by rw [scan_space, scan]⟩
  intro ts
  induction ts with
  | nil =>
    intro _ start line
    obtain ⟨start', line', hscan⟩ := hend start line
    exact ⟨[], _, hscan, ⟨rfl, rfl, rfl⟩, rfl⟩
  | cons t ts ih =>
    intro hlexed start line
    obtain ⟨c, more, htext, hread⟩ := (hlexed t List.mem_cons_self).standalone
    have hchars : t.text.toList = c :: more := by rw [htext, String.toList_ofList]
    cases ts with
    | nil =>
      have hsep : Separated tail := htail.imp_right fun h => ⟨[], h⟩
      obtain ⟨start', line', hscan⟩ := scan_lexeme start line (hread tail hsep)
      obtain ⟨start'', line'', hlast⟩ := hend start' line'
      refine ⟨[⟨t.kind, String.ofList (c :: more), t.value, start, line⟩], Token.eof start'' line'', ?_, ⟨rfl, rfl, rfl⟩, ?_⟩
      · rw [List.map_cons, List.map_nil, List.intercalate_singleton, hchars, List.cons_append, hscan, hlast]
        rfl
      · simp [htext]
    | cons t' ts =>
      obtain ⟨start', line', hscan⟩ := scan_lexeme start line
        (hread (' ' :: ([' '].intercalate ((t' :: ts).map (·.text.toList)) ++ tail)) (.inr ⟨_, rfl⟩))
      obtain ⟨body, last, hrest, hlast, hbody⟩ := ih (fun u hu => hlexed u (List.mem_cons_of_mem _ hu)) (start' + 1) line'
      refine ⟨⟨t.kind, String.ofList (c :: more), t.value, start, line⟩ :: body, last, ?_, hlast, ?_⟩
      · have hjoined : [' '].intercalate ((t :: t' :: ts).map (·.text.toList)) ++ tail =
            c :: (more ++ ' ' :: ([' '].intercalate ((t' :: ts).map (·.text.toList)) ++ tail)) := by
          rw [List.map_cons, List.map_cons, List.intercalate_cons_cons, hchars]
          simp
        rw [hjoined, hscan, scan_space, hrest]
        rfl
      · rw [List.map_cons, hbody, List.map_cons (l := t' :: ts), htext]

end Lexer

/-- The texts of tokens with single spaces between them. -/
def spaced (tokens : List Token) : String := " ".intercalate (tokens.map (·.text))

/-- An empty text at the end adds one space, unless it stands alone. -/
theorem intercalate_concat_nil : ∀ texts : List (List Char), ∃ tail, (tail = [] ∨ tail = [' ']) ∧
    [' '].intercalate (texts ++ [[]]) = [' '].intercalate texts ++ tail
  | [] => ⟨[], .inl rfl, rfl⟩
  | [text] => ⟨[' '], .inr rfl, by simp [List.intercalate_cons_cons]⟩
  | text :: text' :: texts => by
    obtain ⟨tail, htail, ih⟩ := intercalate_concat_nil (text' :: texts)
    refine ⟨tail, htail, ?_⟩
    rw [List.cons_append, List.cons_append, List.intercalate_cons_cons, ← List.cons_append, ih, List.intercalate_cons_cons]
    simp

/-- **Texts with spaces.** The texts of the tokens of a source, with the empty one of the end mark or without it, are cut
into tokens of the same kinds, texts and values. -/
theorem tokenize_spaced {source : String} {tokens ts : List Token} (h : tokenize source = .ok tokens)
    (hts : ts = tokens ∨ ts = tokens.dropLast) : ∃ tokens', tokenize (spaced ts) = .ok tokens' ∧
      tokens'.map (fun t => (t.kind, t.text, t.value)) = tokens.map (fun t => (t.kind, t.text, t.value)) := by
  obtain ⟨body, last, rfl, hlast, hlexed⟩ := tokenize_lexed h
  have hchars : ∃ tail, (tail = [] ∨ tail = [' ']) ∧
      (spaced ts).toList = [' '].intercalate (body.map (·.text.toList)) ++ tail := by
    unfold spaced
    rw [String.toList_intercalate, List.map_map]
    rcases hts with rfl | rfl
    · obtain ⟨tail, htail, hconcat⟩ := intercalate_concat_nil (body.map (·.text.toList))
      refine ⟨tail, htail, ?_⟩
      rw [← hconcat, List.map_append, List.map_singleton]
      show _ = [' '].intercalate (_ ++ ["".toList])
      rw [← hlast.text]
      rfl
    · refine ⟨[], .inl rfl, ?_⟩
      rw [List.dropLast_concat, List.append_nil]
      rfl
  obtain ⟨tail, htail, hchars⟩ := hchars
  obtain ⟨body', last', hscan, hlast', hbody⟩ := Lexer.scan_spaced htail body hlexed 0 1
  refine ⟨body' ++ [last'], ?_, ?_⟩
  · rw [tokenize, hchars, hscan]
  · simp [hbody, hlast.kind, hlast.text, hlast.value, hlast'.kind, hlast'.text, hlast'.value]

end MiniC
