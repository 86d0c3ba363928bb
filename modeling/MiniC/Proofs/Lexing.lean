import MiniC.Token.Lexer

/-!
# What tokens of a source look like

Every token of a source but the last was cut out by `Lexer.readPiece` (`tokenize_lexed`); the last one is the end mark.
A string literal that was scanned as characters can be decoded as bytes (`stringBytes_of_lexed`): bytes of a character of
several bytes are neither quotes nor backslashes, and only a character of one byte can follow a backslash.
-/

namespace MiniC

/-- The token is a lexeme that the lexer cuts out somewhere. -/
def Lexed (t : Token) : Prop :=
  ∃ c cs extra, Lexer.readPiece c cs = .ok (.lexeme t.kind t.value, extra) ∧ t.text = String.ofList (c :: cs.take extra)

/-- The token ends a source. -/
structure IsEnd (t : Token) : Prop where
  kind : t.kind = .eof
  text : t.text = ""
  value : t.value = none

theorem map_eq_ok {ε α β : Type} {f : α → β} {x : Except ε α} {b : β} (h : x.map f = .ok b) : ∃ a, x = .ok a ∧ b = f a := by
  cases x with
  | error fault => cases h
  | ok a => cases h; exact ⟨a, rfl, rfl⟩

namespace Lexer

theorem scan_lexed (start line : Nat) (cs : List Char) : ∀ {tokens : List Token}, scan start line cs = .ok tokens →
    ∃ body last, tokens = body ++ [last] ∧ IsEnd last ∧ ∀ t ∈ body, Lexed t := by
  induction start, line, cs using scan.induct with
  | case1 start line =>
    intro tokens h
    rw [scan] at h
    cases h
    exact ⟨[], _, rfl, ⟨rfl, rfl, rfl⟩, by simp⟩
  | case2 start line c cs cause hpiece =>
    intro tokens h
    rw [scan, hpiece] at h
    cases h
  | case3 start line c cs extra text start' line' hpiece =>
    rename_i ih
    intro tokens h
    rw [scan, hpiece] at h
    exact ih h
  | case4 start line c cs extra text start' line' kind value hpiece =>
    rename_i ih
    intro tokens h
    rw [scan, hpiece] at h
    obtain ⟨rest, hrest, rfl⟩ := map_eq_ok h
    obtain ⟨body, last, rfl, hlast, hbody⟩ := ih hrest
    refine ⟨_ :: body, last, rfl, hlast, fun t ht => ?_⟩
    rcases List.mem_cons.1 ht with rfl | ht
    · exact ⟨c, cs, extra, hpiece, rfl⟩
    · exact hbody t ht

/-- A lexeme of the given kind and value, `extra` characters long beyond its first. -/
inductive Cut (c : Char) (cs : List Char) : TokenKind → Option Int → Nat → Prop
  | number : c.isDigit = true → decimal (c :: cs.takeWhile Char.isDigit) < wordLimit →
      Cut c cs .number (some (decimal (c :: cs.takeWhile Char.isDigit))) (cs.takeWhile Char.isDigit).length
  | word : c.isDigit = false → isWordStart c = true →
      Cut c cs (if String.ofList (c :: cs.takeWhile isWordChar) ∈ keywords then .keyword else .ident) none
        (cs.takeWhile isWordChar).length
  | character {byte : UInt8} {extra : Nat} : c = '\'' → Literal.charLiteral cs = .ok (byte, extra) →
      Cut c cs .number (some byte.toNat) extra
  | string {bytes : List UInt8} {extra : Nat} : c = '"' → Literal.stringLiteral cs = .ok (bytes, extra) →
      Cut c cs .string none extra
  | punctuator {op : String} : punctuator? (c :: cs) = some op → Cut c cs .punctuator none (op.length - 1)

/-- The first character decides what a lexeme is. -/
theorem cut_of_readPiece {c : Char} {cs : List Char} {kind : TokenKind} {value : Option Int} {extra : Nat}
    (h : readPiece c cs = .ok (.lexeme kind value, extra)) : Cut c cs kind value extra := by
  unfold readPiece at h
  split at h
  · cases h
  split at h
  · cases h
  split at h
  · split at h <;> cases h
  split at h
  · next hdigit =>
    unfold readNumber at h
    simp only at h
    split at h
    · next hlimit => cases h; exact .number hdigit hlimit
    · cases h
  split at h
  · next hdigit hword => cases h; exact .word (by simpa using hdigit) hword
  split at h
  · next hquote =>
    cases hlit : Literal.charLiteral cs with
    | error cause => rw [hlit] at h; cases h
    | ok p => rw [hlit] at h; cases h; exact .character hquote hlit
  split at h
  · next hquote =>
    cases hlit : Literal.stringLiteral cs with
    | error cause => rw [hlit] at h; cases h
    | ok p => rw [hlit] at h; cases h; exact .string hquote hlit
  split at h
  · next hop => cases h; exact .punctuator hop
  · cases h

end Lexer

theorem tokenize_lexed {source : String} {tokens : List Token} (h : tokenize source = .ok tokens) :
    ∃ body last, tokens = body ++ [last] ∧ IsEnd last ∧ ∀ t ∈ body, Lexed t := Lexer.scan_lexed 0 1 _ h

theorem Lexer.Cut.kind_ne_eof {c : Char} {cs : List Char} {kind : TokenKind} {value : Option Int} {extra : Nat}
    (h : Cut c cs kind value extra) : kind ≠ .eof := by
  cases h with
  | word => split <;> decide
  | _ => decide

theorem Lexed.kind_ne_eof {t : Token} (h : Lexed t) : t.kind ≠ .eof := by
  obtain ⟨c, cs, extra, hpiece, -⟩ := h
  exact (Lexer.cut_of_readPiece hpiece).kind_ne_eof

/-! ## String literals as bytes -/

theorem loop_eq_drop (bytes : ByteArray) : ∀ (left i : Nat) (acc : List UInt8), bytes.size - i = left →
    ByteArray.toList.loop bytes i acc = acc.reverse ++ bytes.data.toList.drop i := by
  intro left
  induction left with
  | zero =>
    intro i acc hleft
    rw [ByteArray.toList.loop, if_neg (by omega), List.drop_eq_nil_of_le (by simp; show bytes.size ≤ i; omega)]
    simp
  | succ left ih =>
    intro i acc hleft
    have hi : i < bytes.data.toList.length := by
      rw [Array.length_toList]
      show i < bytes.size
      omega
    rw [ByteArray.toList.loop, if_pos (by omega), ih (i + 1) _ (by omega), List.drop_eq_getElem_cons hi]
    have hget : bytes.get! i = bytes.data.toList[i] := by
      rw [ByteArray.get!, getElem!_pos bytes.data i (by simpa using hi)]
      rfl
    simp [hget]

theorem toList_eq_data (bytes : ByteArray) : bytes.toList = bytes.data.toList := by
  rw [ByteArray.toList, loop_eq_drop bytes _ 0 [] rfl]
  rfl

namespace Literal

theorem bytes_ofList (cs : List Char) : (String.ofList cs).toUTF8.toList = cs.flatMap bytesOf := by
  rw [toList_eq_data]
  exact List.toList_data_toByteArray

theorem bytes_eq (text : String) : text.toUTF8.toList = text.toList.flatMap bytesOf := by
  rw [← bytes_ofList, String.ofList_toList]

/-- A character is one byte of the same number, or bytes that are no characters of their own. -/
theorem bytesOf_cases (c : Char) :
    (c.toNat < 128 ∧ bytesOf c = [UInt8.ofNat c.toNat]) ∨
      (bytesOf c ≠ [] ∧ ∀ byte ∈ bytesOf c, 128 ≤ byte.toNat) := by
  unfold bytesOf String.utf8EncodeChar
  simp only
  split
  · next h => exact .inl ⟨Nat.lt_succ_of_le h, rfl⟩
  · refine .inr ?_
    split
    · refine ⟨by simp, ?_⟩
      intro byte hbyte
      simp only [List.mem_cons, List.not_mem_nil, or_false] at hbyte
      rcases hbyte with rfl | rfl <;> simp only [UInt8.toNat_ofNat'] <;> omega
    · split
      · refine ⟨by simp, ?_⟩
        intro byte hbyte
        simp only [List.mem_cons, List.not_mem_nil, or_false] at hbyte
        rcases hbyte with rfl | rfl | rfl <;> simp only [UInt8.toNat_ofNat'] <;> omega
      · refine ⟨by simp, ?_⟩
        intro byte hbyte
        simp only [List.mem_cons, List.not_mem_nil, or_false] at hbyte
        rcases hbyte with rfl | rfl | rfl | rfl <;> simp only [UInt8.toNat_ofNat'] <;> omega

/-- Only bytes below 128 can follow a backslash. -/
theorem escape_none : ∀ n : Fin 256, 128 ≤ n.val → escape? (Char.ofNat n.val) = none := by decide +kernel

theorem escaped_lt {byte value : UInt8} (h : escaped byte = .ok value) : byte.toNat < 128 := by
  refine Nat.lt_of_not_le fun hle => ?_
  unfold escaped at h
  simp only [escape_none ⟨byte.toNat, byte.toNat_lt⟩ hle] at h
  cases h

/-- The decoder, with the bytes at which it stops. -/
def decodeLeft : List UInt8 → Except LexicalFault (List UInt8 × List UInt8)
  | [] => .ok ([], [])
  | [last] => .ok ([], [last])
  | first :: second :: rest =>
    if first = 10 then .error .endOfLiteral
    else if first = 92 then do
      let byte ← escaped second
      let (bytes, left) ← decodeLeft rest
      .ok (byte :: bytes, left)
    else do
      let (bytes, left) ← decodeLeft (second :: rest)
      .ok (first :: bytes, left)

theorem decodeBody_eq_decodeLeft (bytes : List UInt8) : decodeBody bytes = (decodeLeft bytes).map (·.1) := by
  induction bytes using decodeLeft.induct with
  | case1 => rfl
  | case2 => rfl
  | case3 => rfl
  | case4 second rest _ ih =>
    rw [decodeBody, decodeLeft, if_neg (by decide), if_pos rfl, if_neg (by decide), if_pos rfl, ih]
    cases escaped second with
    | error cause => rfl
    | ok byte => cases decodeLeft rest <;> rfl
  | case5 first second rest hnewline hbackslash ih =>
    rw [decodeBody, decodeLeft, if_neg hnewline, if_neg hbackslash, if_neg hnewline, if_neg hbackslash, ih]
    cases decodeLeft (second :: rest) <;> rfl

/-- Bytes that are neither a newline nor a backslash stand for themselves, as long as a byte comes after them. -/
theorem decodeLeft_append : ∀ {plain rest bytes left : List UInt8}, (∀ byte ∈ plain, byte ≠ 10 ∧ byte ≠ 92) → rest ≠ [] →
    decodeLeft rest = .ok (bytes, left) → decodeLeft (plain ++ rest) = .ok (plain ++ bytes, left)
  | [], _, _, _, _, _, h => h
  | byte :: plain, rest, bytes, left, hplain, hne, h => by
    have ih := decodeLeft_append (fun b hb => hplain b (List.mem_cons_of_mem _ hb)) hne h
    obtain ⟨hnewline, hbackslash⟩ := hplain byte List.mem_cons_self
    obtain ⟨next, more, hmore⟩ := List.exists_cons_of_ne_nil (List.append_ne_nil_of_right_ne_nil plain hne)
    rw [hmore] at ih
    rw [List.cons_append, hmore, decodeLeft, if_neg hnewline, if_neg hbackslash, ih]
    rfl

theorem leadByte_of_lt {c : Char} (h : (leadByte c).toNat < 128) : bytesOf c = [leadByte c] := by
  obtain ⟨-, hone⟩ | ⟨hne, hlarge⟩ := bytesOf_cases c
  · rw [leadByte, hone]
    rfl
  · obtain ⟨byte, more, hbytes⟩ := List.exists_cons_of_ne_nil hne
    have hlead : leadByte c = byte := by rw [leadByte, hbytes]; rfl
    have hle := hlarge byte (by rw [hbytes]; exact List.mem_cons_self)
    rw [hlead] at h
    omega

/-! ### What is scanned as characters is decoded as bytes -/

theorem stringLiteral_plain {c : Char} {rest : List Char} (hnewline : c ≠ '\n') (hquote : c ≠ '"') (hbackslash : c ≠ '\\') :
    stringLiteral (c :: rest) = (stringLiteral rest).map fun p => (bytesOf c ++ p.1, p.2 + 1) := by
  rw [stringLiteral.eq_6 c rest hnewline hquote (fun h _ => hbackslash h) (fun _ _ h _ => hbackslash h)]
  cases stringLiteral rest <;> rfl

/-- The body of a string literal with its closing quote, and the bytes it stands for. -/
inductive Quoted : List Char → List UInt8 → Prop
  | close : Quoted ['"'] []
  | escape {c : Char} {cs : List Char} {byte : UInt8} {bytes : List UInt8} :
      escaped (leadByte c) = .ok byte → Quoted cs bytes → Quoted ('\\' :: c :: cs) (byte :: bytes)
  | plain {c : Char} {cs : List Char} {bytes : List UInt8} :
      c ≠ '\n' → c ≠ '"' → c ≠ '\\' → Quoted cs bytes → Quoted (c :: cs) (bytesOf c ++ bytes)

theorem quoted_of_stringLiteral (cs : List Char) : ∀ {bytes : List UInt8} {count : Nat},
    stringLiteral cs = .ok (bytes, count) → Quoted (cs.take count) bytes := by
  induction cs using stringLiteral.induct with
  | case1 => intro bytes count h; cases h
  | case2 rest => intro bytes count h; cases h
  | case3 rest => intro bytes count h; cases h; exact .close
  | case4 => intro bytes count h; cases h
  | case5 c rest ih =>
    intro bytes count h
    rw [stringLiteral] at h
    cases hbyte : escaped (leadByte c) with
    | error cause => rw [hbyte] at h; cases h
    | ok byte =>
      cases hrest : stringLiteral rest with
      | error cause => rw [hbyte, hrest] at h; cases h
      | ok p => rw [hbyte, hrest] at h; cases h; exact .escape hbyte (ih hrest)
  | case6 c rest hnewline hquote hlast hescape ih =>
    intro bytes count h
    have hbackslash : c ≠ '\\' := by
      intro hc
      cases rest with
      | nil => exact hlast hc rfl
      | cons c' rest => exact hescape c' rest hc rfl
    rw [stringLiteral_plain hnewline hquote hbackslash] at h
    obtain ⟨⟨bytes, count⟩, hrest, hp⟩ := map_eq_ok h
    cases hp
    exact .plain hnewline hquote hbackslash (ih hrest)

theorem Quoted.ne_nil {cs : List Char} {bytes : List UInt8} (h : Quoted cs bytes) : cs.flatMap bytesOf ≠ [] := by
  induction h with
  | close => decide
  | escape => simp [bytesOf]
  | plain _ _ _ _ ih => exact List.append_ne_nil_of_right_ne_nil _ ih

/-- The bytes of a character other than a newline and a backslash are neither. -/
theorem bytesOf_plain {c : Char} (hnewline : c ≠ '\n') (hbackslash : c ≠ '\\') :
    ∀ byte ∈ bytesOf c, byte ≠ 10 ∧ byte ≠ 92 := by
  intro byte hbyte
  obtain ⟨hlt, hone⟩ | ⟨-, hlarge⟩ := bytesOf_cases c
  · rw [hone, List.mem_singleton] at hbyte
    have hnat : byte.toNat = c.toNat := by rw [hbyte, UInt8.toNat_ofNat', Nat.mod_eq_of_lt (by omega)]
    refine ⟨fun h => hnewline ?_, fun h => hbackslash ?_⟩
    · exact Char.toNat_inj.1 (hnat.symm.trans (by rw [h]; rfl))
    · exact Char.toNat_inj.1 (hnat.symm.trans (by rw [h]; rfl))
  · have hle := hlarge byte hbyte
    refine ⟨fun h => ?_, fun h => ?_⟩ <;> rw [h] at hle <;> exact absurd hle (by decide)

/-- The decoder stops at the closing quote, with the bytes that were scanned. -/
theorem Quoted.decodesLeft {cs : List Char} {bytes : List UInt8} (h : Quoted cs bytes) :
    decodeLeft (cs.flatMap bytesOf) = .ok (bytes, [34]) := by
  induction h with
  | close => rfl
  | @escape c cs byte bytes hbyte _ ih =>
    have hbytes : ('\\' :: c :: cs).flatMap bytesOf = 92 :: leadByte c :: cs.flatMap bytesOf := by
      rw [List.flatMap_cons, List.flatMap_cons, leadByte_of_lt (escaped_lt hbyte)]
      rfl
    rw [hbytes, decodeLeft, if_neg (by decide), if_pos rfl, hbyte, ih]
    rfl
  | plain hnewline _ hbackslash hcs ih => exact decodeLeft_append (bytesOf_plain hnewline hbackslash) hcs.ne_nil ih

theorem Quoted.decodes {cs : List Char} {bytes : List UInt8} (h : Quoted cs bytes) :
    decodeBody (cs.flatMap bytesOf) = .ok bytes := by
  rw [decodeBody_eq_decodeLeft, h.decodesLeft]
  rfl

end Literal

/-- A string literal of a source is something between quotes. -/
theorem Lexed.quoted {t : Token} (h : Lexed t) (hkind : t.kind = .string) :
    ∃ body bytes, t.text = String.ofList ('"' :: body) ∧ Literal.Quoted body bytes := by
  obtain ⟨c, cs, extra, hpiece, htext⟩ := h
  rw [hkind] at hpiece
  generalize t.value = value at hpiece
  generalize hk : TokenKind.string = kind at hpiece
  cases Lexer.cut_of_readPiece hpiece with
  | word => split at hk <;> cases hk
  | string hc hlit => exact ⟨_, _, by rw [htext, hc], Literal.quoted_of_stringLiteral cs hlit⟩
  | _ => cases hk

/-- Every string literal of a source has bytes. -/
theorem Lexed.stringBytes {t : Token} (h : Lexed t) (hkind : t.kind = .string) :
    ∃ bytes, Literal.stringBytes t.text = .ok bytes := by
  obtain ⟨body, bytes, htext, hquoted⟩ := h.quoted hkind
  exact ⟨bytes, by rw [Literal.stringBytes, htext, Literal.bytes_ofList]; exact hquoted.decodes⟩

end MiniC
