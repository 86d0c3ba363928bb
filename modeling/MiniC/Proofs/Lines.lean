import MiniC.Proofs.Layout
import MiniC.Proofs.LongestMatch
import MiniC.Proofs.ProgramCode

/-!
# Lines

Tokens and lexical faults stand where they start: on one line more than there are newlines before them (`tokenize_lines`,
`tokenize_fault`). Everything later takes its lines from tokens, since parsing and lowering move their lines as those of
the tokens are moved: a line that no token has could be moved alone (`parse_lines`, `fault_line`). A grammatical fault
stands on the line of the token it is met at (`parse_fault`).
-/

namespace MiniC

/-! ## Lines of a source -/

/-- The line of the byte at `start`: one more than there are newline bytes before it. -/
def lineAt (source : String) (start : Nat) : Nat := 1 + (source.toUTF8.toList.take start).count 10

namespace Lexical

theorem count_bytesOf (c : Char) : (Literal.bytesOf c).count 10 = [c].count '\n' := by
  rw [List.count_singleton]
  rcases Literal.bytesOf_cases c with ⟨hnarrow, hbytes⟩ | ⟨hne, hwide⟩
  · rw [hbytes, List.count_singleton]
    have hsame : UInt8.ofNat c.toNat = 10 ↔ c = '\n' := by
      rw [← UInt8.toNat_inj, UInt8.toNat_ofNat', Nat.mod_eq_of_lt (by omega), ← Char.toNat_inj]
      rfl
    simp only [beq_iff_eq, hsame]
  · have hnone : (10 : UInt8) ∉ Literal.bytesOf c := fun hmem => absurd (hwide 10 hmem) (by decide)
    have hother : c ≠ '\n' := by
      rintro rfl
      exact hnone (by decide)
    simp [List.count_eq_zero.2 hnone, hother]

/-- The newline bytes of a text are its newlines. -/
theorem count_bytes : ∀ text : List Char, (text.flatMap Literal.bytesOf).count 10 = text.count '\n'
  | [] => rfl
  | c :: text => by
    rw [List.flatMap_cons, List.count_append, count_bytesOf, count_bytes text, ← List.count_append, List.singleton_append]

theorem length_bytes (text : List Char) : (text.flatMap Literal.bytesOf).length = size text := by
  rw [← Literal.bytes_ofList, toList_eq_data, Array.length_toList]
  rfl

/-- The line of what comes after a text. -/
theorem lineAt_size {source : String} {before after : List Char} (h : source.toList = before ++ after) :
    lineAt source (size before) = 1 + before.count '\n' := by
  rw [lineAt, Literal.bytes_eq, h, List.flatMap_append, ← length_bytes, List.take_left, count_bytes]

end Lexical

theorem tokenize_lines {source : String} {tokens : List Token} (h : tokenize source = .ok tokens) :
    ∀ t ∈ tokens, t.line = lineAt source t.start := by
  intro t ht
  obtain ⟨pieces, hsplits, htokens⟩ | ⟨_, _, _, _, _, herror⟩ := Lexical.splits_of_tokenize source
  · cases h.symm.trans htokens
    rcases List.mem_append.1 ht with ht | ht
    · obtain ⟨before, after, hsource, -, hstart, hline⟩ := hsplits.lexeme ht
      rw [hstart, hline, Lexical.lineAt_size hsource]
    · rw [List.mem_singleton.1 ht]
      have hwhole : source.toList = source.toList ++ [] := (List.append_nil _).symm
      have hend := Lexical.lineAt_size hwhole
      rw [Lexical.size, String.ofList_toList] at hend
      exact hend.symm
  · cases h.symm.trans herror

theorem tokenize_fault {source : String} {fault : Fault} (h : tokenize source = .error fault) :
    ∃ pieces left cause, Lexical.Splits source.toList pieces left ∧ Lexical.Flaw left cause ∧
      fault = .lexical (lineAt source (Lexical.size pieces.text)) cause := by
  obtain ⟨_, _, htokens⟩ | ⟨pieces, left, cause, hsplits, hflaw, herror⟩ := Lexical.splits_of_tokenize source
  · cases h.symm.trans htokens
  · cases h.symm.trans herror
    exact ⟨pieces, left, cause, hsplits, hflaw, by rw [Lexical.lineAt_size hsplits.text_append]⟩

/-! ## Lines of a tree -/

mutual

/-- The lines in a tree. -/
def Expr.lines : Expr → List Nat
  | .ident info _ _ | .number info _ | .string info _ _ => [info.line]
  | .unary info _ operand | .convert info _ operand => info.line :: operand.lines
  | .binary info _ left right => info.line :: (left.lines ++ right.lines)
  | .ifElse info cond yes no => info.line :: (cond.lines ++ (yes.lines ++ optionalStmtLines no))
  | .whileLoop info cond body => info.line :: (cond.lines ++ body.lines)
  | .forLoop info init cond post body =>
    info.line :: (optionalLines init ++ (optionalLines cond ++ (optionalLines post ++ body.lines)))
  | .call info _ args => info.line :: exprLines args

def Stmt.lines : Stmt → List Nat
  | .ret value => optionalLines value
  | .expr e => e.lines
  | .block stmts => stmtLines stmts
  | .function _ body => body.lines
  | .varDecl _ | .globalDecl _ | .prototype _ => []

def optionalLines : Option Expr → List Nat
  | none => []
  | some e => e.lines

def optionalStmtLines : Option Stmt → List Nat
  | none => []
  | some stmt => stmt.lines

def exprLines : List Expr → List Nat
  | [] => []
  | e :: es => e.lines ++ exprLines es

def stmtLines : List Stmt → List Nat
  | [] => []
  | stmt :: stmts => stmt.lines ++ stmtLines stmts

end

section Marked

variable {ℓ κ : Nat → Nat}

mutual

theorem Expr.lines_marked : ∀ e : Expr, (e.marked ℓ κ).lines = e.lines.map ℓ
  | .ident .. | .number .. | .string .. => by simp [Expr.marked, Expr.lines, Info.relined]
  | .unary _ _ operand | .convert _ _ operand => by
    simp [Expr.marked, Expr.lines, Info.relined, Expr.lines_marked operand]
  | .binary _ _ left right => by
    simp [Expr.marked, Expr.lines, Info.relined, Expr.lines_marked left, Expr.lines_marked right]
  | .ifElse _ cond yes no => by
    simp [Expr.marked, Expr.lines, Info.relined, Expr.lines_marked cond, Stmt.lines_marked yes, optionalStmtLines_marked no]
  | .whileLoop _ cond body => by
    simp [Expr.marked, Expr.lines, Info.relined, Expr.lines_marked cond, Stmt.lines_marked body]
  | .forLoop _ init cond post body => by
    simp [Expr.marked, Expr.lines, Info.relined, optionalLines_marked init, optionalLines_marked cond,
      optionalLines_marked post, Stmt.lines_marked body]
  | .call _ _ args => by
    have ih := exprLines_marked args
    rw [Expr.markedAll_eq_map] at ih
    simp [Expr.marked, Expr.lines, Info.relined, ih]

theorem Stmt.lines_marked : ∀ stmt : Stmt, (stmt.marked ℓ κ).lines = stmt.lines.map ℓ
  | .ret value => by simp [Stmt.marked, Stmt.lines, optionalLines_marked value]
  | .expr e => by simp [Stmt.marked, Stmt.lines, Expr.lines_marked e]
  | .block stmts => by simp [Stmt.marked, Stmt.lines, stmtLines_marked stmts]
  | .function _ body => by simp [Stmt.marked, Stmt.lines, Stmt.lines_marked body]
  | .varDecl _ | .globalDecl _ | .prototype _ => by simp [Stmt.marked, Stmt.lines]

theorem optionalLines_marked : ∀ e? : Option Expr, optionalLines (Expr.marked? ℓ κ e?) = (optionalLines e?).map ℓ
  | none => by simp [Expr.marked?, optionalLines]
  | some e => by simp [Expr.marked?, optionalLines, Expr.lines_marked e]

theorem optionalStmtLines_marked : ∀ stmt? : Option Stmt,
    optionalStmtLines (Stmt.marked? ℓ κ stmt?) = (optionalStmtLines stmt?).map ℓ
  | none => by simp [Stmt.marked?, optionalStmtLines]
  | some stmt => by simp [Stmt.marked?, optionalStmtLines, Stmt.lines_marked stmt]

theorem exprLines_marked : ∀ es : List Expr, exprLines (Expr.markedAll ℓ κ es) = (exprLines es).map ℓ
  | [] => by simp [exprLines]
  | e :: es => by
    have ih := exprLines_marked es
    rw [Expr.markedAll_eq_map] at ih
    simp [exprLines, Expr.lines_marked e, ih]

theorem stmtLines_marked : ∀ stmts : List Stmt, stmtLines (Stmt.markedAll ℓ κ stmts) = (stmtLines stmts).map ℓ
  | [] => by simp [Stmt.markedAll, stmtLines]
  | stmt :: stmts => by simp [Stmt.markedAll, stmtLines, Stmt.lines_marked stmt, stmtLines_marked stmts]

end

end Marked

/-! ## Where lines come from -/

section Origin

variable {tokens : List Token} {c c' : Context}

/-- Something can move all lines but those of the tokens. -/
theorem exists_moving (tokens : List Token) : ∃ ℓ : Nat → Nat, (∀ line, ℓ line = line → line ∈ tokens.map (·.line)) ∧
    tokens.map (Token.relined ℓ) = tokens.map (Token.relined id) := by
  refine ⟨fun line => if line ∈ tokens.map (·.line) then line else line + 1, fun line h => ?_, ?_⟩
  · by_contra hother
    dsimp only at h
    rw [if_neg hother] at h
    exact absurd h (Nat.succ_ne_self line)
  · refine List.map_congr_left fun t ht => ?_
    have hline : t.line ∈ tokens.map (·.line) := List.mem_map.2 ⟨t, ht, rfl⟩
    simp only [Token.relined, if_pos hline]
    rfl

/-- Every line of a tree is that of a token. -/
theorem parse_lines {program : Program} (h : parse tokens c = .ok program c') :
    ∀ line ∈ stmtLines program, line ∈ tokens.map (·.line) := by
  obtain ⟨ℓ, hmoving, hsame⟩ := exists_moving tokens
  have hparse : ∀ μ, parse (tokens.map (Token.relined μ)) c = .ok (Stmt.markedAll μ id program) c' := by
    intro μ
    rw [parse_relined]
    show EStateM.map _ (relining μ (parse tokens)) c = _
    unfold EStateM.map relining
    rw [h]
  have hprogram : Stmt.markedAll ℓ id program = Stmt.markedAll id id program := by
    have hboth := hparse ℓ
    rw [hsame, hparse id] at hboth
    exact (EStateM.Result.ok.inj hboth).1.symm
  have hlines := congrArg stmtLines hprogram
  rw [stmtLines_marked, stmtLines_marked] at hlines
  exact fun line hline => hmoving line (List.map_inj_left.1 hlines line hline)

/-- Every fault with a line is on that of a token. -/
theorem fault_line {fault : Fault} (h : (parse tokens >>= generate) c = .error fault c') :
    ∀ line, fault.line? = some line → line ∈ tokens.map (·.line) := by
  intro line hline
  obtain ⟨ℓ, hmoving, hsame⟩ := exists_moving tokens
  have hcompile : ∀ μ, (parse (tokens.map (Token.relined μ)) >>= generate) c = .error (fault.relined μ) c' := by
    intro μ
    rw [← compile_relined]
    unfold relining
    rw [h]
  have hfault : fault.relined ℓ = fault.relined id := by
    have hboth := hcompile ℓ
    rw [hsame, hcompile id] at hboth
    exact (EStateM.Result.error.inj hboth).1.symm
  have hlines := congrArg Fault.line? hfault
  rw [Fault.line?_relined, Fault.line?_relined, hline] at hlines
  exact hmoving line (Option.some.inj hlines)

end Origin

/-! ## Faults of a source with tokens -/

section Faults

variable {source : String} {tokens : List Token} {c c' : Context} {fault : Fault}

/-- The parser meets the fault at `cursor`, the first token it has not read, and reports it on that token's line. -/
def MetAt (tokens : List Token) (c : Context) (fault : Fault) (cursor : Token) : Prop :=
  ∃ last consumed rest, Parse.items (.start tokens c) = .fail fault last ∧ last.tokens = cursor :: rest ∧
    tokens = consumed ++ cursor :: rest ∧ fault.line? = some cursor.line

/-- Parsing fails on what a program means, or on a token that stands where no program goes on with it. -/
theorem parse_fault (htokens : tokenize source = .ok tokens) (h : parse tokens c = .error fault c') :
    (∃ line cause, fault = .semantic line cause) ∨ ∃ line cause, fault = .grammar line cause ∧ ∃ cursor, MetAt tokens c fault cursor := by
  obtain ⟨body, mark, rfl, hmark, hlexed⟩ := tokenize_lexed htokens
  have hmarked : Parse.Marked body mark := ⟨hmark.kind, hlexed⟩
  have hreads := Parse.reads_items (.start (body ++ [mark]) c)
  unfold parse at h
  cases hitems : Parse.items (.start (body ++ [mark]) c) with
  | ok program last hlast => rw [hitems] at h; cases h
  | fail fault' last =>
    rw [hitems] at h hreads
    cases h
    obtain ⟨w, hc, hblamed⟩ := hreads
    cases fault with
    | semantic line cause => exact .inl ⟨line, cause, rfl⟩
    | grammar line cause =>
      obtain ⟨t, rest, hrest⟩ := hmarked.cursor hc
      have hline : line = last.line := Parse.items_blames hitems
      refine .inr ⟨line, cause, rfl, t, last, w, rest, hitems, hrest, by rw [← hrest]; exact hc.split, ?_⟩
      rw [hline, Parse.State.line, hrest]
      rfl
    | lexical line cause =>
      obtain ⟨t, ht, hkind, hno⟩ := hblamed
      obtain ⟨bytes, hbytes⟩ := hmarked.decodes hc ht hkind
      exact absurd hbytes (hno bytes)
    | outOfRegisters line => exact hblamed.elim
    | internal cause => exact hblamed.elim

/-- Compiling a source with tokens fails in parsing, or because the registers run out. -/
theorem compile_fault (htokens : tokenize source = .ok tokens) (h : compile source = .error fault) :
    (∃ c', (parse tokens >>= generate) {} = .error fault c') ∧
      ((∃ c', parse tokens {} = .error fault c') ∨ ∃ line, fault = .outOfRegisters line) := by
  rw [compile_of_tokens htokens] at h
  have hread := parseSource_read source .empty
  have hparse : parseSource source = parse tokens := by
    unfold parseSource
    rw [htokens]
  rw [hparse] at hread
  cases hcompiled : (parse tokens >>= generate) {} with
  | ok listing c' => rw [hcompiled] at h; cases h
  | error fault' c' =>
    rw [hcompiled] at h
    cases h
    refine ⟨⟨c', rfl⟩, ?_⟩
    change EStateM.bind (parse tokens) generate {} = _ at hcompiled
    unfold EStateM.bind at hcompiled
    cases hp : parse tokens {} with
    | error fault' c'' => rw [hp] at hcompiled; cases hcompiled; exact .inl ⟨c', rfl⟩
    | ok program c'' =>
      rw [hp] at hcompiled
      have hprogram := ends_of_ok hread hp
      exact .inr (ends_of_error (generate_emits hprogram.sound hprogram.typed) hcompiled).1

/-- So the fault has a line, that of a token. -/
theorem compile_fault_line (htokens : tokenize source = .ok tokens) (h : compile source = .error fault) :
    ∃ t ∈ tokens, fault.line? = some t.line := by
  obtain ⟨⟨c', hcompiled⟩, hcause⟩ := compile_fault htokens h
  have hline : ∃ line, fault.line? = some line := by
    rcases hcause with ⟨c', hparse⟩ | ⟨line, rfl⟩
    · rcases parse_fault htokens hparse with ⟨line, cause, rfl⟩ | ⟨line, cause, rfl, -⟩ <;> exact ⟨line, rfl⟩
    · exact ⟨line, rfl⟩
  obtain ⟨line, hline⟩ := hline
  obtain ⟨t, ht, rfl⟩ := List.mem_map.1 (fault_line hcompiled line hline)
  exact ⟨t, ht, hline⟩

end Faults

/-! ## The theorem -/

/-- **Lines are exact.** Every token, the end mark among them, stands on one line more than there are newlines before it,
and a lexical fault on the line where the flaw starts, whatever comes before. So every fault of a compilation has a line;
if there are tokens, it is the line of one of them, as is every line in the tree; and a grammatical fault is on the line
of the first token that has not been read. -/
theorem lines_exact (source : String) :
    (∀ tokens, tokenize source = .ok tokens → ∀ t ∈ tokens, t.line = lineAt source t.start) ∧
    (∀ fault, tokenize source = .error fault → ∃ pieces left cause, Lexical.Splits source.toList pieces left ∧
      Lexical.Flaw left cause ∧ fault = .lexical (lineAt source (Lexical.size pieces.text)) cause) ∧
    (∀ fault, compile source = .error fault → (∃ line, fault.line? = some line) ∧
      ∀ line cause, fault = .lexical line cause → tokenize source = .error fault) ∧
    ∀ tokens, tokenize source = .ok tokens →
      (∀ c program c', parse tokens c = .ok program c' → ∀ line ∈ stmtLines program, ∃ t ∈ tokens, t.line = line) ∧
      (∀ fault, compile source = .error fault → ∃ t ∈ tokens, fault.line? = some t.line) ∧
      ∀ line cause, compile source = .error (.grammar line cause) →
        ∃ cursor, MetAt tokens {} (.grammar line cause) cursor := by
  refine ⟨fun tokens => tokenize_lines, fun fault => tokenize_fault, fun fault h => ?_, fun tokens htokens => ⟨?_, ?_, ?_⟩⟩
  · cases htokens : tokenize source with
    | error fault' =>
      have hfault : compile source = .error fault' := by
        unfold compile parseSource
        rw [htokens]
        rfl
      cases h.symm.trans hfault
      obtain ⟨pieces, left, cause, -, -, rfl⟩ := tokenize_fault htokens
      exact ⟨⟨_, rfl⟩, fun _ _ _ => rfl⟩
    | ok tokens =>
      obtain ⟨t, -, hline⟩ := compile_fault_line htokens h
      refine ⟨⟨t.line, hline⟩, ?_⟩
      rintro line cause rfl
      obtain ⟨-, ⟨c', hparse⟩ | ⟨_, hcause⟩⟩ := compile_fault htokens h
      · obtain ⟨_, _, hcause⟩ | ⟨_, _, hcause, -⟩ := parse_fault htokens hparse <;> cases hcause
      · cases hcause
  · exact fun c program c' h line hline => List.mem_map.1 (parse_lines h line hline)
  · exact fun fault => compile_fault_line htokens
  · intro line cause h
    obtain ⟨-, ⟨c', hparse⟩ | ⟨_, hcause⟩⟩ := compile_fault htokens h
    · obtain ⟨_, _, hcause⟩ | ⟨_, _, -, hmet⟩ := parse_fault htokens hparse
      · cases hcause
      · exact hmet
    · cases hcause

/-- A statement without its semicolon, behind comments of both kinds and newlines that are written as escapes. -/
def unfinished : String :=
  "func f() -> int \x7b // f\n /* a\n\n b */ return '\\n' + *\"// \\n\"\n/* \n*/ \x7d\n"

theorem unfinished_lines : ∃ tokens cursor, tokenize unfinished = .ok tokens ∧
    tokens.map (·.line) = [1, 1, 1, 1, 1, 1, 1, 4, 4, 4, 4, 4, 6, 7] ∧
    (∀ t ∈ tokens, t.line = lineAt unfinished t.start) ∧ MetAt tokens {} (.grammar 6 (.expected ";" "\x7d")) cursor := by
  have hlines : (tokenize unfinished).toOption.map (List.map (·.line)) = some [1, 1, 1, 1, 1, 1, 1, 4, 4, 4, 4, 4, 6, 7] := by
    decide +kernel
  have hcompiled : compile unfinished = .error (.grammar 6 (.expected ";" "\x7d")) := by decide +kernel
  obtain ⟨htokens, -, -, hall⟩ := lines_exact unfinished
  cases hread : tokenize unfinished with
  | error fault => rw [hread] at hlines; cases hlines
  | ok tokens =>
    rw [hread] at hlines
    obtain ⟨cursor, hmet⟩ := (hall tokens hread).2.2 _ _ hcompiled
    exact ⟨tokens, cursor, rfl, Option.some.inj hlines, htokens tokens hread, hmet⟩

end MiniC
