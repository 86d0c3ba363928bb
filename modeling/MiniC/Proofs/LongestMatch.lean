import MiniC.Proofs.LexicalGrammar
import MiniC.Proofs.Respacing

/-!
# Longest match

The lexer implements its lexical grammar (`tokenize_longest_match`): one piece of a source is read as a piece that starts
there, or a fault is reported where none does (`readPiece_starts`, `readPiece_flaw` and their converses), and the pieces
one after another are the split of the whole source (`Splits.scan`).
-/

namespace MiniC

namespace Lexical

open Lexer Literal

/-! ## Runs -/

theorem Run.takeWhile {p : Char → Bool} {text rest : List Char} (h : Run p text rest) :
    (text ++ rest).takeWhile p = text := by
  rw [List.takeWhile_append_of_pos h.inside]
  cases rest with
  | nil => simp
  | cons c rest => rw [List.takeWhile_cons_of_neg (by simp [h.outside c rfl]), List.append_nil]

theorem run_takeWhile (p : Char → Bool) (cs : List Char) :
    Run p (cs.takeWhile p) (cs.drop (cs.takeWhile p).length) := by
  constructor
  · intro c hc
    exact List.mem_takeWhile_imp hc
  · intro c hc
    have hdrop : cs.drop (cs.takeWhile p).length = cs.dropWhile p := by
      conv_lhs => rw [← List.takeWhile_append_dropWhile (p := p) (l := cs), List.drop_append]
      simp
    rw [hdrop, ← List.find?_not_eq_head?_dropWhile] at hc
    simpa using List.find?_some hc

theorem takeWhile_append_drop (p : Char → Bool) (cs : List Char) :
    cs.takeWhile p ++ cs.drop (cs.takeWhile p).length = cs := by
  have hsplit := List.take_append_drop (cs.takeWhile p).length cs
  rwa [take_takeWhile] at hsplit

/-! ## Comments -/

/-- Where the first `*/` ends. -/
theorem commentEnd?_append : ∀ (body rest : List Char), ¬ ['*', '/'] <:+: body ++ ['*'] →
    commentEnd? (body ++ '*' :: '/' :: rest) = some (body.length + 2)
  | [], _, _ => rfl
  | c :: body, rest, h => by
    rw [List.cons_append, List.infix_cons_iff, not_or] at h
    have hopen : ∀ tail, c = '*' → body ++ '*' :: '/' :: rest ≠ '/' :: tail := by
      rintro tail rfl hbody
      cases body with
      | nil => cases hbody
      | cons d body =>
        cases hbody
        exact h.1 ⟨body ++ ['*'], rfl⟩
    rw [List.cons_append, commentEnd?.eq_3 _ _ hopen, commentEnd?_append body rest h.2]
    rfl

/-- Text before the first `*/` with the star: the comment is closed no earlier. -/
theorem comment_of_commentEnd? (cs : List Char) : ∀ {count : Nat}, commentEnd? cs = some count →
    ∃ body, cs = body ++ '*' :: '/' :: cs.drop count ∧ count = body.length + 2 ∧ ¬ ['*', '/'] <:+: body ++ ['*'] := by
  induction cs using commentEnd?.induct with
  | case1 =>
    intro count h
    cases h
  | case2 rest =>
    intro count h
    cases h
    exact ⟨[], rfl, rfl, by decide⟩
  | case3 c cs hopen ih =>
    intro count h
    rw [commentEnd?.eq_3 _ _ hopen, Option.map_eq_some_iff] at h
    obtain ⟨count, hcount, rfl⟩ := h
    obtain ⟨body, hcs, rfl, hbody⟩ := ih hcount
    refine ⟨c :: body, ?_, rfl, ?_⟩
    · rw [List.drop_succ_cons, List.cons_append, ← hcs]
    · rw [List.cons_append, List.infix_cons_iff, not_or]
      refine ⟨?_, hbody⟩
      intro hbegins
      obtain ⟨rfl, hslash⟩ := List.cons_prefix_cons.1 hbegins
      cases body with
      | nil => cases (List.cons_prefix_cons.1 hslash).1
      | cons d body =>
        cases (List.cons_prefix_cons.1 hslash).1
        exact hopen _ rfl hcs

theorem commentEnd?_eq_none (cs : List Char) : commentEnd? cs = none ↔ ¬ ['*', '/'] <:+: cs := by
  induction cs using commentEnd?.induct with
  | case1 => exact iff_of_true rfl (by decide)
  | case2 rest => exact iff_of_false (by rw [commentEnd?]; simp) (not_not_intro ⟨[], rest, rfl⟩)
  | case3 c cs hopen ih =>
    have hbegins : ¬ ['*', '/'] <+: c :: cs := by
      rintro ⟨rest, hrest⟩
      cases hrest
      exact hopen rest rfl rfl
    rw [commentEnd?.eq_3 _ _ hopen, Option.map_eq_none_iff, ih, List.infix_cons_iff, not_or]
    exact ⟨fun h => ⟨hbegins, h⟩, And.right⟩

/-! ## Literals -/

theorem bytesOf_narrow {c : Char} (h : c.toNat < 128) : bytesOf c = [UInt8.ofNat c.toNat] := by
  unfold bytesOf String.utf8EncodeChar
  exact if_pos (Nat.le_of_lt_succ h)

theorem leadByte_narrow {c : Char} (h : c.toNat < 128) : (leadByte c).toNat = c.toNat := by
  rw [leadByte, bytesOf_narrow h, List.headD_cons, UInt8.toNat_ofNat', Nat.mod_eq_of_lt (by omega)]

theorem leadByte_wide {c : Char} (h : 128 ≤ c.toNat) : 128 ≤ (leadByte c).toNat := by
  obtain ⟨hlt, -⟩ | ⟨hne, hlarge⟩ := bytesOf_cases c
  · omega
  · obtain ⟨byte, more, hbytes⟩ := List.exists_cons_of_ne_nil hne
    rw [leadByte, hbytes]
    exact hlarge byte (by rw [hbytes]; exact List.mem_cons_self)

theorem bytesOf_wide {c : Char} (h : 128 ≤ c.toNat) (byte : UInt8) : bytesOf c ≠ [byte] := by
  intro hone
  have hsize : c.utf8Size = 1 := by
    rw [← String.length_utf8EncodeChar]
    exact congrArg List.length hone
  rw [Char.utf8Size_eq_one_iff] at hsize
  exact absurd hsize (Nat.not_le_of_lt h)

theorem escape?_wide {c : Char} (h : 128 ≤ c.toNat) : escape? c = none := by
  unfold escape?
  split <;> first | rfl | exact absurd h (by decide)

/-- Only a character of one byte is an escape, so its first byte tells. -/
theorem escape?_shown (c : Char) : escape? (shown c) = escape? c := by
  by_cases h : c.toNat < 128
  · rw [shown, leadByte_narrow h, Char.ofNat_toNat]
  · have hwide : 128 ≤ c.toNat := Nat.le_of_not_lt h
    rw [escape?_wide hwide, shown]
    exact escape_none ⟨_, (leadByte c).toNat_lt⟩ (leadByte_wide hwide)

theorem escaped_of_some {c : Char} {byte : UInt8} (h : escape? c = some byte) : escaped (leadByte c) = .ok byte := by
  have hshown : escape? (Char.ofNat (leadByte c).toNat) = some byte := (escape?_shown c).trans h
  simp only [escaped, hshown]

theorem escaped_of_none {c : Char} (h : escape? c = none) : escaped (leadByte c) = .error (.unknownEscape (shown c)) := by
  have hshown : escape? (Char.ofNat (leadByte c).toNat) = none := (escape?_shown c).trans h
  simp only [escaped, hshown]
  rfl

theorem charLiteral_escape {c : Char} {byte : UInt8} (h : escape? c = some byte) (rest : List Char) :
    charLiteral ('\\' :: c :: '\'' :: rest) = .ok (byte, 3) := by
  rw [charLiteral, escaped_of_some h]
  rfl

theorem charLiteral_plain {c : Char} {byte : UInt8} (hnewline : c ≠ '\n') (hbackslash : c ≠ '\\')
    (hbytes : bytesOf c = [byte]) (rest : List Char) : charLiteral (c :: '\'' :: rest) = .ok (byte, 2) :=
  charLiteral.eq_5 c byte rest hnewline hbytes (fun hc _ => hbackslash hc) (fun _ _ hc _ => hbackslash hc)

theorem CharacterLiteral.reads {text : List Char} {byte : UInt8} (h : CharacterLiteral text byte) (rest : List Char) :
    ∃ body, text = '\'' :: body ∧ charLiteral (body ++ rest) = .ok (byte, body.length) := by
  cases h with
  | @plain c hnarrow hnewline hbackslash =>
    exact ⟨[c, '\''], rfl, charLiteral_plain hnewline hbackslash (bytesOf_narrow hnarrow) rest⟩
  | @escape c byte hescape => exact ⟨['\\', c, '\''], rfl, charLiteral_escape hescape rest⟩

theorem BadCharacter.error {cs : List Char} {cause : LexicalFault} (h : BadCharacter cs cause) :
    charLiteral cs = .error cause := by
  have hother : ∀ {c : Char} {cs : List Char}, c ≠ '\n' → c ≠ '\\' →
      (∀ byte tail, bytesOf c = [byte] → cs = '\'' :: tail → False) →
      charLiteral (c :: cs) = .error .unclosedCharacter := fun hnewline hbackslash hunclosed =>
    charLiteral.eq_6 _ _ hnewline hunclosed (fun hc _ => hbackslash hc) (fun _ _ hc _ => hbackslash hc)
  cases h with
  | nothing => rfl
  | newline => rfl
  | backslash => rfl
  | unknown hescape => rw [charLiteral, escaped_of_none hescape]; rfl
  | @escape c cs byte hescape hquote =>
    rw [charLiteral, escaped_of_some hescape]
    cases cs with
    | nil => rfl
    | cons d cs =>
      have hd : d ≠ '\'' := fun hd => hquote (congrArg some hd)
      simp [bind, Except.bind, hd]
  | @wide c cs hwide =>
    refine hother ?_ ?_ fun byte _ hbytes _ => bytesOf_wide hwide byte hbytes
    · rintro rfl
      exact absurd hwide (by decide)
    · rintro rfl
      exact absurd hwide (by decide)
  | plain _ hnewline hbackslash hquote =>
    refine hother hnewline hbackslash fun _ _ _ hcs => hquote ?_
    rw [hcs]
    rfl

/-- What follows an opening quote is read as a character literal, or is none. -/
theorem charLiteral_spec (cs : List Char) : (∃ byte count, charLiteral cs = .ok (byte, count) ∧
    CharacterLiteral ('\'' :: cs.take count) byte) ∨ ∃ cause, charLiteral cs = .error cause ∧ BadCharacter cs cause := by
  fun_cases charLiteral cs with
  | case1 => exact .inr ⟨_, rfl, .nothing⟩
  | case2 => exact .inr ⟨_, rfl, .newline⟩
  | case3 => exact .inr ⟨_, rfl, .backslash⟩
  | case4 c rest =>
    cases hescape : escape? c with
    | none =>
      have hbad : BadCharacter ('\\' :: c :: rest) _ := .unknown hescape
      exact .inr ⟨_, hbad.error, hbad⟩
    | some byte =>
      by_cases hquote : rest.head? = some '\''
      · obtain ⟨tail, rfl⟩ := List.head?_eq_some_iff.1 hquote
        exact .inl ⟨byte, 3, charLiteral_escape hescape tail, .escape hescape⟩
      · have hbad : BadCharacter ('\\' :: c :: rest) _ := .escape hescape hquote
        exact .inr ⟨_, hbad.error, hbad⟩
  | case5 c hnewline byte tail hbytes _ hescape =>
    have hbackslash : c ≠ '\\' := fun hc => hescape _ _ hc rfl
    have hnarrow : c.toNat < 128 := Nat.lt_of_not_le fun hwide => bytesOf_wide hwide byte hbytes
    have hbyte : byte = UInt8.ofNat c.toNat := (List.cons.inj (hbytes.symm.trans (bytesOf_narrow hnarrow))).1
    refine .inl ⟨byte, 2, rfl, ?_⟩
    rw [hbyte]
    exact .plain hnarrow hnewline hbackslash
  | case6 c rest hnewline hlast hescape hunclosed =>
    have hbackslash : c ≠ '\\' := by
      intro hc
      cases rest with
      | nil => exact hlast hc rfl
      | cons c' rest => exact hescape c' rest hc rfl
    refine .inr ⟨_, rfl, ?_⟩
    by_cases hnarrow : c.toNat < 128
    · refine .plain hnarrow hnewline hbackslash fun hquote => ?_
      obtain ⟨tail, rfl⟩ := List.head?_eq_some_iff.1 hquote
      exact hunclosed _ tail (bytesOf_narrow hnarrow) rfl
    · exact .wide (Nat.le_of_not_lt hnarrow)

theorem BadString.error {cs : List Char} {cause : LexicalFault} (h : BadString cs cause) :
    stringLiteral cs = .error cause := by
  induction h with
  | nothing => rfl
  | newline => rfl
  | backslash => rfl
  | unknown hescape => rw [stringLiteral, escaped_of_none hescape]; rfl
  | escape hescape _ ih => rw [stringLiteral, escaped_of_some hescape, ih]; rfl
  | plain hnewline hquote hbackslash _ ih => rw [stringLiteral_plain hnewline hquote hbackslash, ih]; rfl

/-- What follows an opening quote and is not read as a string literal is none. -/
theorem badString_of_stringLiteral (cs : List Char) : ∀ {cause : LexicalFault},
    stringLiteral cs = .error cause → BadString cs cause := by
  induction cs using stringLiteral.induct with
  | case1 => intro cause h; cases h; exact .nothing
  | case2 rest => intro cause h; cases h; exact .newline
  | case3 rest => intro cause h; cases h
  | case4 => intro cause h; cases h; exact .backslash
  | case5 c rest ih =>
    intro cause h
    rw [stringLiteral] at h
    cases hescape : escape? c with
    | none =>
      rw [escaped_of_none hescape] at h
      cases h
      exact .unknown hescape
    | some byte =>
      rw [escaped_of_some hescape] at h
      cases hrest : stringLiteral rest with
      | error cause =>
        rw [hrest] at h
        cases h
        exact .escape hescape (ih hrest)
      | ok p => rw [hrest] at h; cases h
  | case6 c rest hnewline hquote hlast hescape ih =>
    intro cause h
    have hbackslash : c ≠ '\\' := by
      intro hc
      cases rest with
      | nil => exact hlast hc rfl
      | cons c' rest => exact hescape c' rest hc rfl
    rw [stringLiteral_plain hnewline hquote hbackslash] at h
    cases hrest : stringLiteral rest with
    | error cause =>
      rw [hrest] at h
      cases h
      exact .plain hnewline hquote hbackslash (ih hrest)
    | ok p => rw [hrest] at h; cases h

/-! ## Punctuators -/

/-- The longer punctuators are tried before the shorter. -/
theorem punctuators_sorted : punctuators.Pairwise fun a b => b.length ≤ a.length := by decide

/-- The first punctuator that fits is the longest. -/
theorem longest_of_punctuator? {cs : List Char} {op : String} (h : punctuator? cs = some op) {longer : String}
    (hmem : longer ∈ punctuators) (hbegins : longer.toList <+: cs) : longer.length ≤ op.length := by
  obtain ⟨-, before, after, hsplit, hbefore⟩ := List.find?_eq_some_iff_append.1 h
  have hsorted := punctuators_sorted
  rw [hsplit] at hmem hsorted
  obtain ⟨-, hop, -⟩ := List.pairwise_append.1 hsorted
  rcases List.mem_append.1 hmem with hmem | hmem
  · have hfits := hbefore longer hmem
    simp [List.isPrefixOf_iff_prefix.2 hbegins] at hfits
  · rcases List.mem_cons.1 hmem with rfl | hmem
    · exact Nat.le_refl _
    · exact (List.pairwise_cons.1 hop).1 longer hmem

/-- A longest punctuator that fits is the one that is found. -/
theorem punctuator?_of_longest {cs : List Char} {op : String} (hmem : op ∈ punctuators) (hbegins : op.toList <+: cs)
    (hlongest : ∀ longer ∈ punctuators, longer.toList <+: cs → longer.length ≤ op.length) : punctuator? cs = some op := by
  cases hfound : punctuator? cs with
  | none => exact absurd (List.isPrefixOf_iff_prefix.2 hbegins) (List.find?_eq_none.1 hfound op hmem)
  | some found =>
    obtain ⟨hmem', hbegins'⟩ := mem_of_punctuator? hfound
    have hle := hlongest found hmem' hbegins'
    rw [← String.length_toList, ← String.length_toList] at hle
    have hge := longest_of_punctuator? hfound hmem hbegins
    rw [← String.length_toList, ← String.length_toList] at hge
    have hsame := (List.prefix_of_prefix_length_le hbegins' hbegins hle).eq_of_length (Nat.le_antisymm hle hge)
    rw [String.toList_injective hsame]

theorem punctuator?_eq_none {cs : List Char} : punctuator? cs = none ↔ ∀ op ∈ punctuators, ¬ op.toList <+: cs := by
  rw [punctuator?, List.find?_eq_none]
  simp only [List.isPrefixOf_iff_prefix]

/-! ## One piece -/

theorem isDigit_of_isWordStart {c : Char} (h : isWordStart c = true) : c.isDigit = false := by
  -- letters are the codes from 65 to 90 and from 97 to 122
  have halpha : c.isAlpha = (decide (c.val ≥ 65 ∧ c.val ≤ 90) || decide (c.val ≥ 97) && decide (c.val ≤ 122)) := rfl
  rw [isWordStart, halpha] at h
  simp only [Bool.or_eq_true, Bool.and_eq_true, decide_eq_true_eq, beq_iff_eq, ge_iff_le, UInt32.le_iff_toNat_le] at h
  rw [Bool.eq_false_iff, ne_eq, Char.isDigit_iff_toNat]
  rintro ⟨-, hnine⟩
  rcases h with (⟨hle, -⟩ | ⟨hle, -⟩) | rfl
  · exact absurd (Nat.le_trans hle hnine) (by decide)
  · exact absurd (Nat.le_trans hle hnine) (by decide)
  · exact absurd hnine (by decide)

/-- No comment, number, word or literal starts here, and no blank. -/
structure Plain (c : Char) (cs : List Char) : Prop where
  blank : isBlank c = false
  comment : ¬ OpensComment (c :: cs)
  digit : c.isDigit = false
  word : isWordStart c = false
  character : c ≠ '\''
  string : c ≠ '"'

theorem Plain.readPiece {c : Char} {cs : List Char} (h : Plain c cs) : readPiece c cs =
    match punctuator? (c :: cs) with
    | some op => .ok (.lexeme .punctuator none, op.length - 1)
    | none => .error (.unrecognised c) := by
  have hline : ¬ (c = '/' ∧ cs.head? = some '/') := by
    rintro ⟨rfl, hcs⟩
    obtain ⟨rest, rfl⟩ := List.head?_eq_some_iff.1 hcs
    exact h.comment (.inl ⟨rest, rfl⟩)
  have hblock : ¬ (c = '/' ∧ cs.head? = some '*') := by
    rintro ⟨rfl, hcs⟩
    obtain ⟨rest, rfl⟩ := List.head?_eq_some_iff.1 hcs
    exact h.comment (.inr ⟨rest, rfl⟩)
  cases hfound : punctuator? (c :: cs) <;>
    simp only [Lexer.readPiece, h.blank, hline, hblock, h.digit, h.word, h.character, h.string, hfound,
      Bool.false_eq_true, if_false]

theorem readPiece_block (cs : List Char) : readPiece '/' ('*' :: cs) =
    match commentEnd? cs with
    | some count => .ok (.gap, count + 1)
    | none => .error .unclosedComment := rfl

/-- First characters of punctuators start nothing else than a comment. -/
theorem punctuator_head : ∀ op ∈ punctuators, ∃ c more, op.toList = c :: more ∧ isBlank c = false ∧ c.isDigit = false ∧
    isWordStart c = false ∧ c ≠ '\'' ∧ c ≠ '"' := by
  have hall : ∀ op ∈ punctuators, op.toList.head?.any (fun c => !isBlank c && !c.isDigit && !isWordStart c && c != '\'' &&
      c != '"') = true := by decide
  intro op hop
  have hop := hall op hop
  cases hchars : op.toList with
  | nil => rw [hchars] at hop; cases hop
  | cons c more =>
    rw [hchars] at hop
    simp only [List.head?_cons, Option.any_some, Bool.and_eq_true, Bool.not_eq_true', bne_iff_ne] at hop
    obtain ⟨⟨⟨⟨hblank, hdigit⟩, hword⟩, hcharacter⟩, hstring⟩ := hop
    exact ⟨c, more, rfl, hblank, hdigit, hword, hcharacter, hstring⟩

theorem Run.tail {p : Char → Bool} {c : Char} {text rest : List Char} (h : Run p (c :: text) rest) : Run p text rest :=
  ⟨fun d hd => h.inside d (List.mem_cons_of_mem _ hd), h.outside⟩

theorem Run.readNumber {c : Char} {more rest : List Char} (h : Run Char.isDigit (c :: more) rest) :
    readPiece c (more ++ rest) =
      if decimal (c :: more) < 2 ^ 63 then .ok (.lexeme .number (some (decimal (c :: more))), more.length)
      else .error (.numberTooLarge (String.ofList (c :: more))) := by
  rw [readPiece_digit (h.inside c List.mem_cons_self), Lexer.readNumber, h.tail.takeWhile]
  rfl

/-- A piece that starts a source is read from it. -/
theorem Starts.reads {text rest : List Char} {piece : Piece} (h : Starts text piece rest) :
    ∃ c more, text = c :: more ∧ readPiece c (more ++ rest) = .ok (piece, more.length) := by
  cases h with
  | @blank c _ hblank => exact ⟨c, [], rfl, if_pos hblank⟩
  | @lineComment body _ hbody =>
    refine ⟨'/', '/' :: body, rfl, ?_⟩
    show Except.ok (Piece.gap, (('/' :: (body ++ rest)).takeWhile (· ≠ '\n')).length) = _
    rw [List.takeWhile_cons_of_pos (by decide), hbody.takeWhile]
  | @blockComment body _ hbody =>
    refine ⟨'/', '*' :: (body ++ ['*', '/']), rfl, ?_⟩
    have hsplit : '*' :: (body ++ ['*', '/']) ++ rest = '*' :: (body ++ '*' :: '/' :: rest) := by simp
    rw [hsplit, readPiece_block, commentEnd?_append _ _ hbody]
    simp
  | number hne hrun hlimit =>
    obtain ⟨c, more, rfl⟩ := List.exists_cons_of_ne_nil hne
    refine ⟨c, more, rfl, ?_⟩
    rw [hrun.readNumber, if_pos hlimit]
  | @word c more _ hword hrun =>
    refine ⟨c, more, rfl, ?_⟩
    rw [readPiece_word (isDigit_of_isWordStart hword) hword, readWord, hrun.takeWhile]
  | character hliteral =>
    obtain ⟨body, rfl, hread⟩ := hliteral.reads rest
    exact ⟨'\'', body, rfl, readPiece_character _ hread⟩
  | @string body _ _ hquoted =>
    exact ⟨'"', body, rfl, readPiece_string _ (hquoted.stringLiteral_append rest)⟩
  | @punctuator op _ hop hcomment hlongest =>
    obtain ⟨c, more, hchars, hblank, hdigit, hword, hcharacter, hstring⟩ := punctuator_head op hop
    refine ⟨c, more, hchars, ?_⟩
    have hfound := punctuator?_of_longest hop (List.prefix_append op.toList rest) hlongest
    rw [hchars, List.cons_append] at hcomment hfound
    rw [Plain.readPiece ⟨hblank, hcomment, hdigit, hword, hcharacter, hstring⟩, hfound]
    show Except.ok (Piece.lexeme TokenKind.punctuator none, op.length - 1) = _
    rw [← String.length_toList, hchars]
    rfl

/-- Where no piece starts, a fault is reported. -/
theorem Flaw.error {cs : List Char} {cause : LexicalFault} (h : Flaw cs cause) :
    ∃ c more, cs = c :: more ∧ readPiece c more = .error cause := by
  cases h with
  | @number digits rest hne hrun hlimit =>
    obtain ⟨c, more, rfl⟩ := List.exists_cons_of_ne_nil hne
    refine ⟨c, more ++ rest, rfl, ?_⟩
    rw [hrun.readNumber, if_neg (Nat.not_lt_of_le hlimit)]
  | comment hbody =>
    refine ⟨_, _, rfl, ?_⟩
    rw [readPiece_block, (commentEnd?_eq_none _).2 hbody]
  | @character cs _ hbad =>
    refine ⟨_, _, rfl, ?_⟩
    show (charLiteral cs >>= fun p => .ok (Piece.lexeme .number (some p.1.toNat), p.2)) = _
    rw [hbad.error]
    rfl
  | @string cs _ hbad =>
    refine ⟨_, _, rfl, ?_⟩
    show (stringLiteral cs >>= fun p => .ok (Piece.lexeme .string none, p.2)) = _
    rw [hbad.error]
    rfl
  | @unrecognised c cs hblank hdigit hword hcharacter hstring hnone =>
    refine ⟨c, cs, rfl, ?_⟩
    have hcomment : ¬ OpensComment (c :: cs) := by
      -- a slash is a punctuator
      rintro (⟨rest, hrest⟩ | ⟨rest, hrest⟩) <;> cases hrest <;> exact hnone "/" (by decide) ⟨_, rfl⟩
    rw [Plain.readPiece ⟨hblank, hcomment, hdigit, hword, hcharacter, hstring⟩, punctuator?_eq_none.2 hnone]

/-- A source starts with a piece unless it is flawed. -/
theorem starts_or_flaw (c : Char) (cs : List Char) :
    (∃ text piece rest, Starts text piece rest ∧ c :: cs = text ++ rest) ∨ ∃ cause, Flaw (c :: cs) cause := by
  by_cases hblank : isBlank c = true
  · exact .inl ⟨[c], .gap, cs, .blank hblank, rfl⟩
  by_cases hcomment : OpensComment (c :: cs)
  · rcases hcomment with ⟨rest, hrest⟩ | ⟨rest, hrest⟩
    · cases hrest
      refine .inl ⟨_, .gap, _, .lineComment (run_takeWhile _ rest), ?_⟩
      rw [List.cons_append, List.cons_append, takeWhile_append_drop]
      rfl
    · cases hrest
      cases hend : commentEnd? rest with
      | none => exact .inr ⟨_, .comment ((commentEnd?_eq_none _).1 hend)⟩
      | some count =>
        obtain ⟨body, hbody, -, hfirst⟩ := comment_of_commentEnd? rest hend
        refine .inl ⟨_, .gap, rest.drop count, .blockComment hfirst, ?_⟩
        rw [List.cons_append, List.cons_append, List.append_assoc]
        exact congrArg (fun cs => '/' :: '*' :: cs) hbody
  by_cases hdigit : c.isDigit = true
  · have hrun := run_takeWhile Char.isDigit (c :: cs)
    have hne : (c :: cs).takeWhile Char.isDigit ≠ [] := by simp [hdigit]
    have hsplit := takeWhile_append_drop Char.isDigit (c :: cs)
    rcases Nat.lt_or_ge (decimal ((c :: cs).takeWhile Char.isDigit)) (2 ^ 63) with hlimit | hlimit
    · exact .inl ⟨_, _, _, .number hne hrun hlimit, hsplit.symm⟩
    · rw [← hsplit]
      exact .inr ⟨_, .number hne hrun hlimit⟩
  by_cases hword : isWordStart c = true
  · refine .inl ⟨_, _, _, .word hword (run_takeWhile isWordChar cs), ?_⟩
    rw [List.cons_append, takeWhile_append_drop]
  by_cases hcharacter : c = '\''
  · subst hcharacter
    obtain ⟨byte, count, -, hliteral⟩ | ⟨cause, -, hbad⟩ := charLiteral_spec cs
    · refine .inl ⟨_, _, cs.drop count, .character hliteral, ?_⟩
      rw [List.cons_append, List.take_append_drop]
    · exact .inr ⟨_, .character hbad⟩
  by_cases hstring : c = '"'
  · subst hstring
    cases hread : stringLiteral cs with
    | error cause => exact .inr ⟨_, .string (badString_of_stringLiteral cs hread)⟩
    | ok p =>
      refine .inl ⟨_, _, cs.drop p.2, .string (quoted_of_stringLiteral cs hread), ?_⟩
      rw [List.cons_append, List.take_append_drop]
  cases hfound : punctuator? (c :: cs) with
  | none =>
    refine .inr ⟨_, .unrecognised ?_ ?_ ?_ hcharacter hstring (punctuator?_eq_none.1 hfound)⟩
    · exact Bool.eq_false_iff.2 hblank
    · exact Bool.eq_false_iff.2 hdigit
    · exact Bool.eq_false_iff.2 hword
  | some op =>
    obtain ⟨hop, rest, hrest⟩ := mem_of_punctuator? hfound
    refine .inl ⟨_, _, rest, .punctuator hop (by rwa [hrest]) fun longer hmem hbegins => ?_, hrest.symm⟩
    rw [hrest] at hbegins
    exact longest_of_punctuator? hfound hmem hbegins

/-! ## Splits -/

theorem size_append (a b : List Char) : size (a ++ b) = size a + size b := by
  rw [size, String.ofList_append, String.utf8ByteSize_append]
  rfl

theorem byteCount_eq_size : ∀ text : List Char, byteCount text = size text
  | [] => rfl
  | c :: text => by
    have hone : size [c] = c.utf8Size := by simp [size]
    rw [byteCount, List.foldr_cons]
    show c.utf8Size + byteCount text = size ([c] ++ text)
    rw [size_append, hone, byteCount_eq_size text]

theorem Pieces.text_cons (p : List Char × Piece) (pieces : Pieces) : Pieces.text (p :: pieces) = p.1 ++ pieces.text :=
  List.flatMap_cons

theorem placed_cons (before text : List Char) (piece : Piece) (pieces : Pieces) :
    placed before ((text, piece) :: pieces) = placed before [(text, piece)] ++ placed (before ++ text) pieces := by
  cases piece <;> rfl

/-- The lexer goes on after a piece where the piece ends. -/
theorem Starts.scan {text rest : List Char} {piece : Piece} (h : Starts text piece rest) (before : List Char) :
    scan (size before) (1 + before.count '\n') (text ++ rest) =
      (scan (size (before ++ text)) (1 + (before ++ text).count '\n') rest).map (placed before [(text, piece)] ++ ·) := by
  obtain ⟨c, more, rfl, hread⟩ := h.reads
  rw [List.cons_append, Lexer.scan, hread]
  simp only [List.take_left, List.drop_left, byteCount_eq_size, ← size_append, Nat.add_assoc, ← List.count_append]
  cases piece with
  | gap => exact (congrFun Except.map_id _).symm
  | lexeme kind value => rfl

/-- So it does after the pieces of a split. -/
theorem Splits.scan {cs left : List Char} {pieces : Pieces} (h : Splits cs pieces left) : ∀ before : List Char,
    scan (size before) (1 + before.count '\n') cs =
      (scan (size (before ++ pieces.text)) (1 + (before ++ pieces.text).count '\n') left).map (placed before pieces ++ ·) := by
  induction h with
  | stop =>
    intro before
    rw [Pieces.text, List.flatMap_nil, List.append_nil]
    exact (congrFun Except.map_id _).symm
  | @piece text rest left piece pieces hstarts _ ih =>
    intro before
    rw [hstarts.scan, ih, placed_cons before text piece pieces, Pieces.text_cons, List.append_assoc]
    cases Lexer.scan _ _ left with
    | error fault => rfl
    | ok tokens => exact congrArg Except.ok (List.append_assoc ..).symm

/-- Every source splits into pieces up to its end or up to a flaw. -/
theorem exists_splits : ∀ (n : Nat) (cs : List Char), cs.length = n →
    ∃ pieces left, Splits cs pieces left ∧ (left = [] ∨ ∃ cause, Flaw left cause) := by
  intro n
  induction n using Nat.strongRecOn with
  | ind n ih =>
    rintro (_ | ⟨c, cs⟩) hlength
    · exact ⟨[], [], .stop, .inl rfl⟩
    obtain ⟨text, piece, rest, hstarts, hsplit⟩ | hflaw := starts_or_flaw c cs
    · obtain ⟨d, more, rfl, -⟩ := hstarts.reads
      have hshorter : rest.length < n := by
        rw [← hlength, hsplit, List.length_append]
        exact Nat.lt_add_of_pos_left (Nat.succ_pos _)
      obtain ⟨pieces, left, hsplits, hleft⟩ := ih _ hshorter rest rfl
      rw [hsplit]
      exact ⟨_, left, .piece hstarts hsplits, hleft⟩
    · exact ⟨[], c :: cs, .stop, .inr hflaw⟩

/-! ## Places -/

/-- A placed token is a lexeme among the pieces, with the text before it. -/
theorem mem_placed {t : Token} : ∀ {pieces : Pieces} {before : List Char}, t ∈ placed before pieces →
    ∃ (earlier : Pieces) (text : List Char) (later : Pieces) (kind : TokenKind) (value : Option Int),
      pieces = earlier ++ (text, .lexeme kind value) :: later ∧
      t = ⟨kind, String.ofList text, value, size (before ++ earlier.text), 1 + (before ++ earlier.text).count '\n'⟩
  | [], _, h => by cases h
  | (text, piece) :: pieces, before, h => by
    rw [placed_cons, List.mem_append] at h
    rcases h with h | h
    · cases piece with
      | gap => cases h
      | lexeme kind value =>
        refine ⟨[], text, pieces, kind, value, rfl, ?_⟩
        rw [Pieces.text, List.flatMap_nil, List.append_nil]
        exact List.mem_singleton.1 h
    · obtain ⟨earlier, text', later, kind, value, rfl, rfl⟩ := mem_placed h
      refine ⟨(text, piece) :: earlier, text', later, kind, value, rfl, ?_⟩
      rw [Pieces.text_cons, List.append_assoc]

theorem Splits.starts {text : List Char} {piece : Piece} {later : Pieces} {left : List Char} :
    ∀ {earlier : Pieces} {cs : List Char}, Splits cs (earlier ++ (text, piece) :: later) left →
    Starts text piece (later.text ++ left)
  | [], _, h => by
    cases h with
    | piece hstarts hsplits => rwa [← hsplits.text_append]
  | _ :: _, _, h => by
    cases h with
    | piece _ hsplits => exact hsplits.starts

/-- What comes later stands behind. -/
theorem placed_start {pieces : Pieces} {before : List Char} {t : Token} (h : t ∈ placed before pieces) :
    size before ≤ t.start := by
  obtain ⟨earlier, text, later, kind, value, -, rfl⟩ := mem_placed h
  rw [size_append]
  exact Nat.le_add_right ..

theorem placed_disjoint : ∀ (pieces : Pieces) (before : List Char),
    (placed before pieces).Pairwise fun t u => t.start + t.length ≤ u.start
  | [], _ => .nil
  | (_, .gap) :: pieces, before => placed_disjoint pieces _
  | (text, .lexeme kind value) :: pieces, before => by
    refine .cons (fun u hu => ?_) (placed_disjoint pieces _)
    show size before + size text ≤ u.start
    rw [← size_append]
    exact placed_start hu

/-- Keywords start like words, and no other lexeme does. -/
theorem Starts.keyword {text rest : List Char} {kind : TokenKind} {value : Option Int}
    (h : Starts text (.lexeme kind value) rest) : kind = .keyword ↔ String.ofList text ∈ keywords := by
  have hall : ∀ word ∈ keywords, word.toList.head?.all isWordStart = true := by decide
  have hother : ∀ {c : Char}, isWordStart c = false → ∀ more, String.ofList (c :: more) ∉ keywords := by
    intro c hc more hmem
    have hword := hall _ hmem
    rw [String.toList_ofList, List.head?_cons, Option.all_some, hc] at hword
    cases hword
  cases h with
  | number hne hrun =>
    obtain ⟨c, more, rfl⟩ := List.exists_cons_of_ne_nil hne
    have hc : isWordStart c = false := by
      refine Bool.eq_false_iff.2 fun hword => ?_
      have hdigit := hrun.inside c List.mem_cons_self
      rw [isDigit_of_isWordStart hword] at hdigit
      cases hdigit
    exact iff_of_false (by decide) (hother hc more)
  | word =>
    split
    · next hmem => exact iff_of_true rfl hmem
    · next hmem => exact iff_of_false (by decide) hmem
  | character hliteral =>
    obtain ⟨body, rfl, -⟩ := hliteral.reads []
    exact iff_of_false (by decide) (hother (by decide) body)
  | @string body => exact iff_of_false (by decide) (hother (by decide) body)
  | @punctuator op _ hop =>
    obtain ⟨c, more, hchars, -, -, hword, -⟩ := punctuator_head op hop
    rw [hchars]
    exact iff_of_false (by decide) (hother hword more)

/-- A lexeme of a split, with the source around it. -/
theorem Splits.lexeme {cs left : List Char} {pieces : Pieces} (h : Splits cs pieces left) {t : Token}
    (ht : t ∈ placed [] pieces) : ∃ before after, cs = before ++ (t.text.toList ++ after) ∧
      Starts t.text.toList (.lexeme t.kind t.value) after ∧ t.start = size before ∧ t.line = 1 + before.count '\n' := by
  obtain ⟨earlier, text, later, kind, value, rfl, rfl⟩ := mem_placed ht
  refine ⟨earlier.text, later.text ++ left, ?_, ?_, rfl, rfl⟩
  · rw [h.text_append, Pieces.text, List.flatMap_append, List.flatMap_cons, String.toList_ofList]
    simp [Pieces.text]
  · rw [String.toList_ofList]
    exact h.starts

/-- The lexemes of a split are laid out in the source. -/
theorem Splits.laid {source : String} {pieces : Pieces} {left : List Char} (h : Splits source.toList pieces left) :
    Laid source (placed [] pieces) := by
  refine ⟨placed_disjoint pieces [], fun t ht => ?_, fun t ht => ?_⟩
  · obtain ⟨before, after, hsource, hstarts, hstart, -⟩ := h.lexeme ht
    refine ⟨?_, before, after, by rw [hsource, List.append_assoc], hstart.symm⟩
    obtain ⟨c, more, htext, -⟩ := hstarts.reads
    have hsize : t.length = byteCount (c :: more) := by
      rw [byteCount_eq_size, ← htext, size, String.ofList_toList]
      rfl
    rw [hsize]
    exact Nat.add_pos_left c.utf8Size_pos _
  · obtain ⟨before, after, -, hstarts, -⟩ := h.lexeme ht
    simpa using hstarts.keyword

/-! ## The whole source -/

theorem tokenize_of_splits {source : String} {pieces : Pieces} (h : Splits source.toList pieces []) :
    tokenize source = .ok (placed [] pieces ++ [Token.eof source.utf8ByteSize (1 + source.toList.count '\n')]) := by
  have hscan := h.scan []
  have htext := h.text_append
  rw [List.append_nil] at htext
  rw [List.nil_append, ← htext, Lexer.scan] at hscan
  rw [tokenize]
  refine hscan.trans ?_
  simp [Except.map, size]

theorem tokenize_of_flaw {source : String} {pieces : Pieces} {left : List Char} {cause : LexicalFault}
    (h : Splits source.toList pieces left) (hflaw : Flaw left cause) :
    tokenize source = .error (.lexical (1 + pieces.text.count '\n') cause) := by
  obtain ⟨c, more, rfl, herror⟩ := hflaw.error
  have hscan := h.scan []
  rw [Lexer.scan, herror] at hscan
  exact hscan

/-- A source splits whole, or up to a flaw; the lexer finds out which. -/
theorem splits_of_tokenize (source : String) :
    (∃ pieces, Splits source.toList pieces [] ∧ tokenize source =
      .ok (placed [] pieces ++ [Token.eof source.utf8ByteSize (1 + source.toList.count '\n')])) ∨
    ∃ pieces left cause, Splits source.toList pieces left ∧ Flaw left cause ∧
      tokenize source = .error (.lexical (1 + pieces.text.count '\n') cause) := by
  obtain ⟨pieces, left, hsplits, rfl | ⟨cause, hflaw⟩⟩ := exists_splits _ source.toList rfl
  · exact .inl ⟨pieces, hsplits, tokenize_of_splits hsplits⟩
  · exact .inr ⟨pieces, left, cause, hsplits, hflaw, tokenize_of_flaw hsplits hflaw⟩

/-- **Longest match.** A source has tokens if and only if it splits, from left to right, into gaps and lexemes of the
lexical grammar; the tokens are these lexemes in their places, and the end mark. Otherwise it splits up to a flaw, which is
reported on its line. -/
theorem tokenize_longest_match (source : String) :
    (∀ tokens, tokenize source = .ok tokens ↔ ∃ pieces, Splits source.toList pieces [] ∧
      tokens = placed [] pieces ++ [Token.eof source.utf8ByteSize (1 + source.toList.count '\n')]) ∧
    (∀ fault, tokenize source = .error fault ↔ ∃ pieces left cause, Splits source.toList pieces left ∧ Flaw left cause ∧
      fault = .lexical (1 + pieces.text.count '\n') cause) ∧
    ∀ pieces left, Splits source.toList pieces left → Laid source (placed [] pieces) := by
  have hfound := splits_of_tokenize source
  refine ⟨fun tokens => ⟨fun h => ?_, ?_⟩, fun fault => ⟨fun h => ?_, ?_⟩, fun _ _ h => h.laid⟩
  · obtain ⟨pieces, hsplits, htokens⟩ | ⟨_, _, _, _, _, herror⟩ := hfound
    · exact ⟨pieces, hsplits, Except.ok.inj (h.symm.trans htokens)⟩
    · cases h.symm.trans herror
  · rintro ⟨pieces, hsplits, rfl⟩
    exact tokenize_of_splits hsplits
  · obtain ⟨_, _, htokens⟩ | ⟨pieces, left, cause, hsplits, hflaw, herror⟩ := hfound
    · cases h.symm.trans htokens
    · exact ⟨pieces, left, cause, hsplits, hflaw, Except.error.inj (h.symm.trans herror)⟩
  · rintro ⟨pieces, left, cause, hsplits, hflaw, rfl⟩
    exact tokenize_of_flaw hsplits hflaw

/-- A quote after a backslash, a comment that `/*/` opens, and punctuators in a row. -/
def crowded : String := "\"a\\\"\"/*/\n*/x1<<=07"

theorem crowded_tokens : ∃ pieces, Splits crowded.toList pieces [] ∧ Laid crowded (placed [] pieces) ∧
    placed [] pieces ++ [Token.eof 18 2] =
      [⟨.string, "\"a\\\"\"", none, 0, 1⟩, ⟨.ident, "x1", none, 11, 2⟩, ⟨.punctuator, "<<", none, 13, 2⟩,
        ⟨.punctuator, "=", none, 15, 2⟩, ⟨.number, "07", some 7, 16, 2⟩, Token.eof 18 2] := by
  have hread : tokenize crowded = .ok
      [⟨.string, "\"a\\\"\"", none, 0, 1⟩, ⟨.ident, "x1", none, 11, 2⟩, ⟨.punctuator, "<<", none, 13, 2⟩,
        ⟨.punctuator, "=", none, 15, 2⟩, ⟨.number, "07", some 7, 16, 2⟩, Token.eof 18 2] := by decide +kernel
  obtain ⟨pieces, hsplits, htokens⟩ := ((tokenize_longest_match crowded).1 _).1 hread
  exact ⟨pieces, hsplits, (tokenize_longest_match crowded).2.2 pieces [] hsplits, htokens.symm⟩

end Lexical

end MiniC
