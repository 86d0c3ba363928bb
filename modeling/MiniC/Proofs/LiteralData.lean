import MiniC.Proofs.LowerFrame
import MiniC.Proofs.ProgramCode
import MiniC.Proofs.StringLiterals

/-!
# The data of string literals

Lowering a tree notes every string literal in it (`Lower.collects_trees`): code that fails notes nothing, and what was noted stays
so to the end, by the frame of lowering. So the bytes of each literal stand in the listing under its label
(`generate_literal`), and a text written as a literal can be followed from its spelling to these lines.
-/

namespace MiniC

/-! ## Literals of trees -/

mutual

/-- The labels and bytes of the string literals, in the order of the tree. -/
def Expr.strings : Expr → List (Nat × List UInt8)
  | .ident .. | .number .. => []
  | .string _ label bytes => [(label, bytes)]
  | .unary _ _ operand | .convert _ _ operand => operand.strings
  | .binary _ _ left right => left.strings ++ right.strings
  | .ifElse _ cond yes no => cond.strings ++ (yes.strings ++ optionalStmtStrings no)
  | .whileLoop _ cond body => cond.strings ++ body.strings
  | .forLoop _ init cond post body =>
    optionalStrings init ++ (optionalStrings cond ++ (optionalStrings post ++ body.strings))
  | .call _ _ args => exprStrings args

def Stmt.strings : Stmt → List (Nat × List UInt8)
  | .ret value => optionalStrings value
  | .expr e => e.strings
  | .block stmts => stmtStrings stmts
  | .function _ body => body.strings
  | .varDecl _ | .globalDecl _ | .prototype _ => []

def optionalStrings : Option Expr → List (Nat × List UInt8)
  | none => []
  | some e => e.strings

def optionalStmtStrings : Option Stmt → List (Nat × List UInt8)
  | none => []
  | some stmt => stmt.strings

def exprStrings : List Expr → List (Nat × List UInt8)
  | [] => []
  | e :: es => e.strings ++ exprStrings es

def stmtStrings : List Stmt → List (Nat × List UInt8)
  | [] => []
  | stmt :: stmts => stmt.strings ++ stmtStrings stmts

end

namespace Lower

/-! ## Literals that are noted -/

section Collects

variable {α β : Type} {p : Nat × List UInt8} {ls rs : List (Nat × List UInt8)}

/-- The literal `p` is noted, and stays so. -/
theorem noted_stable (p : Nat × List UInt8) : Stable (fun st => p ∈ st.strings) fun _ => True where
  fails _ := trivial
  lines _ h := h
  pad _ _ h := h
  inside _ _ h := h
  layout _ h := h
  draw h := h
  literal _ _ _ h := Array.mem_push.2 (.inl h)
  literalFails _ _ _ := trivial

/-- `x` takes no note of the literal `p` away. -/
abbrev Keeps (p : Nat × List UInt8) (x : LowerM α) : Prop := Maintains (fun st => p ∈ st.strings) (fun _ => True) x

/-- If `x` succeeds, the literal `p` is noted after it where it was before, and also where it is one of `ls`. -/
def Collects (p : Nat × List UInt8) (ls : List (Nat × List UInt8)) (x : LowerM α) : Prop :=
  ∀ st, Ends x st (fun _ st' => p ∈ st.strings ∨ p ∈ ls → p ∈ st'.strings) fun _ _ => True

theorem collects_throw (fault : Fault) : Collects p ls (throw fault : LowerM α) := fun _ => trivial

theorem Collects.of_mem {x : LowerM α} (hx : Collects p ls x) (hmem : p ∈ rs → p ∈ ls) : Collects p rs x :=
  fun st => ends_mono (hx st) (fun _ _ h hp => h (hp.imp_right hmem)) fun _ _ h => h

theorem collects_nil {x : LowerM α} (hx : Keeps p x) : Collects p [] x := by
  intro st
  by_cases hp : p ∈ st.strings
  · exact ends_mono (hx st hp) (fun _ _ h _ => h) fun _ _ h => h
  · unfold Ends
    cases x st with
    | ok => exact fun h => absurd h (by simp [hp])
    | error => trivial

theorem collects_bind {x : LowerM α} {k : α → LowerM β} (hx : Collects p ls x) (hk : ∀ a, Collects p rs (k a)) :
    Collects p (ls ++ rs) (x >>= k) := by
  refine fun st => ends_bind (hx st) fun a st₁ h₁ => ends_mono (hk a st₁) (fun _ _ h₂ hp => h₂ ?_) fun _ _ h => h
  rw [List.mem_append] at hp
  rcases hp with hp | hp | hp
  · exact .inl (h₁ (.inl hp))
  · exact .inl (h₁ (.inr hp))
  · exact .inr hp

/-- What comes after does not take a literal away. -/
theorem collects_left {x : LowerM α} {k : α → LowerM β} (hx : Collects p ls x) (hk : ∀ a, Keeps p (k a)) :
    Collects p ls (x >>= k) :=
  (collects_bind hx fun a => collects_nil (hk a)).of_mem (by simp)

/-- Nor does what comes before. -/
theorem collects_right {x : LowerM α} {k : α → LowerM β} (hx : Keeps p x) (hk : ∀ a, Collects p rs (k a)) :
    Collects p rs (x >>= k) := collects_bind (collects_nil hx) hk

theorem collects_get {k : State → LowerM β} (hk : ∀ st, Collects p ls (k st)) : Collects p ls (get >>= k) :=
  fun st => hk st st

theorem collects_map {x : LowerM α} {g : α → β} (hx : Collects p ls x) : Collects p ls (g <$> x) :=
  fun st => ends_map (hx st)

theorem collects_value {line : Nat} {code : LowerM (Option Scratch)} (hcode : Collects p ls code) :
    Collects p ls (value line code) := by
  refine collects_left hcode fun r => ?_
  cases r with
  | some r => exact maintains_pure r
  | none => exact (noted_stable p).throw _

theorem collects_stringCode (info : Info) (label : Nat) (bytes : List UInt8) :
    Collects p [(label, bytes)] (stringCode info label bytes) := by
  have h := noted_stable p
  refine collects_left (fun st => ?_) fun _ => maintains_bind (h.alloc _) fun r => ?_
  · refine ends_modify fun hp => Array.mem_push.2 (hp.imp_right ?_)
    exact List.mem_singleton.1
  · exact maintains_bind (fun _ hst => hst) fun _ => maintains_pure r

/-- Operators that do not compute the value of their operand take names, in which there are no literals. -/
theorem collects_unaryCode {info : Info} {op : UnaryOp} {operand : Expr} {code : LowerM Scratch}
    (hcode : Collects p operand.strings code) : Collects p operand.strings (unaryCode info op operand code) := by
  have h := noted_stable p
  cases op with
  | addressOf =>
    cases operand with
    | ident i name scope =>
      rw [Expr.strings]
      exact collects_nil (h.addressCode info (.ident i name scope))
    | _ => exact collects_throw _
  | step moment direction =>
    cases operand with
    | ident i name scope =>
      rw [Expr.strings]
      exact collects_nil (h.stepCode info moment direction (.ident i name scope))
    | _ => exact collects_throw _
  | deref | negate => exact collects_left hcode fun r => maintains_bind (h.emit rfl) fun _ => maintains_pure _
  | not =>
    exact collects_left hcode fun r => maintains_bind (h.emit rfl) fun _ =>
      maintains_bind (maintains_bind (h.emit rfl) fun _ => h.emit rfl) fun _ => maintains_pure _

theorem collects_changeCode {change : Change} {code : LowerM Scratch} (hcode : Collects p ls code) :
    Collects p ls (changeCode change code) := by
  refine collects_left hcode fun r => ?_
  cases change with
  | widen => exact maintains_pure r
  | scale factor => exact maintains_bind ((noted_stable p).scaleCode factor r) fun _ => maintains_pure r

theorem collects_callCode {info : Info} {name : String} {count : Nat} {args : LowerM Unit} (hargs : Collects p ls args) :
    Collects p ls (callCode info name count args) := by
  have h := noted_stable p
  exact collects_get fun st => collects_right (maintains_forM fun r _ => h.push r.reg) fun _ =>
    collects_left hargs fun _ => h.afterArguments info name count st.pool.live

theorem collects_branchCode {parts : Option (Cond × LowerM Scratch × LowerM Scratch)} {whole : LowerM Scratch}
    {target : Nat} (hparts : ∀ cond left right, parts = some (cond, left, right) →
      ∃ rs rs', ls = rs ++ rs' ∧ Collects p rs left ∧ Collects p rs' right)
    (hwhole : Collects p ls whole) : Collects p ls (branchCode parts whole target) := by
  have h := noted_stable p
  unfold branchCode
  split
  · next cond left right =>
    obtain ⟨rs, rs', rfl, hleft, hright⟩ := hparts cond left right rfl
    exact collects_bind hleft fun l => collects_left hright fun r =>
      maintains_bind (h.emit rfl) fun _ => maintains_bind (h.emit rfl) fun _ => h.freeAll
  · exact collects_left hwhole fun r =>
      maintains_bind (h.emit rfl) fun _ => maintains_bind (h.emit rfl) fun _ => h.freeAll

theorem collects_returnCode {code : LowerM Scratch} (hcode : Collects p ls code) :
    Collects p ls (returnCode (some code)) := by
  have h := noted_stable p
  refine collects_get fun st => ?_
  split
  · exact collects_throw _
  · refine collects_right (h.epilogueOf _) fun q => collects_left hcode fun r => maintains_bind (h.emit ?_) fun _ =>
      maintains_bind (h.emit rfl) fun _ => h.freeAll
    cases q.1.width <;> rfl

theorem keeps_openFunction (name : String) (symbols : SymbolTable) : Keeps p (openFunction name symbols) :=
  maintains_bind (fun _ hst => hst) fun _ => (noted_stable p).heading name

theorem collects_functionCode {name : String} {body : LowerM Unit} (hbody : Collects p ls body) :
    Collects p ls (functionCode name body) := by
  have h := noted_stable p
  refine collects_right (h.epilogueOf name) fun q => collects_get fun st => ?_
  exact collects_right (keeps_openFunction name _) fun _ => collects_right (h.prologue _) fun _ =>
    collects_right (h.storeParams _ _) fun _ => collects_left hbody fun _ => h.afterBody q.2

/-! ### Trees -/

/-- The code of an `if`, in which the literals of all parts are collected. -/
theorem collects_ifElse {info : Info} {cond : Expr} {yes : Stmt} {no : Option Stmt}
    (hcond : ∀ target, Collects p cond.strings (branchCode (comparison cond) (value cond.line (expr cond)) target))
    (hyes : Collects p yes.strings (stmt yes)) (hno : ∀ no', no = some no' → Collects p no'.strings (stmt no')) :
    Collects p (Expr.ifElse info cond yes no).strings (expr (.ifElse info cond yes no)) := by
  have h := noted_stable p
  rw [Expr.strings, expr]
  refine collects_right h.drawLabel fun n => ?_
  cases no with
  | none =>
    rw [optionalStmtStrings]
    exact collects_bind (hcond n) fun _ => collects_bind hyes fun _ => collects_nil
      (maintains_bind (h.label _) fun _ => maintains_pure _)
  | some no =>
    rw [optionalStmtStrings]
    exact collects_right h.drawLabel fun m => collects_bind (hcond n) fun _ => collects_bind hyes fun _ =>
      collects_right (h.emit rfl) fun _ => collects_right (h.label _) fun _ =>
        collects_left (hno no rfl) fun _ => maintains_bind (h.label _) fun _ => maintains_pure _

/-- The code of a `for`, which goes through the body before the last clause. -/
theorem collects_forLoop {info : Info} {init cond post : Option Expr} {body : Stmt}
    (hinit : Collects p (optionalStrings init) (discarded init))
    (hcond : ∀ cond', cond = some cond' → ∀ target,
      Collects p cond'.strings (branchCode (comparison cond') (value cond'.line (expr cond')) target))
    (hbody : Collects p body.strings (stmt body)) (hpost : Collects p (optionalStrings post) (discarded post)) :
    Collects p (Expr.forLoop info init cond post body).strings (expr (.forLoop info init cond post body)) := by
  have h := noted_stable p
  have hrest : ∀ n m, Collects p (optionalStrings post ++ body.strings) (do
      stmt body; discarded post; emit (.jump n); label m; pure none : LowerM (Option Scratch)) := by
    intro n m
    refine (collects_bind hbody fun _ => collects_left hpost fun _ => ?_).of_mem ?_
    · exact maintains_bind (h.emit rfl) fun _ => maintains_bind (h.label _) fun _ => maintains_pure _
    · exact fun hp => List.mem_append.2 (List.mem_append.1 hp).symm
  rw [Expr.strings, expr]
  refine collects_right h.drawLabel fun n => collects_right h.drawLabel fun m => collects_bind hinit fun _ =>
    collects_right (h.label _) fun _ => ?_
  cases cond with
  | none => exact hrest n m
  | some cond => exact collects_bind (hcond cond rfl m) fun _ => hrest n m

/-- **Literals.** Code of a tree notes every literal in the tree. -/
theorem collects_trees (p : Nat × List UInt8) :
    (∀ e, Collects p e.strings (expr e)) ∧ (∀ e, Collects p (optionalStrings e) (discarded e)) ∧
    (∀ s, Collects p s.strings (stmt s)) ∧ (∀ ss, Collects p (stmtStrings ss) (stmtList ss)) ∧
    (∀ e cond left right, comparison e = some (cond, left, right) →
      ∃ ls rs, e.strings = ls ++ rs ∧ Collects p ls left ∧ Collects p rs right) ∧
    (∀ es, Collects p (exprStrings es) (arguments es)) ∧ (∀ e r, Collects p e.strings (store e r)) := by
  have h := noted_stable p
  refine expr.mutual_induct _ _ _ _ _ _ _
    ?number ?string ?ident ?unary ?assignRead ?assign ?binary ?convert ?call ?ifElse ?whileLoop ?forLoop ?comparison
    ?noComparison ?storeName ?storeAt ?storeOther ?retNone ?ret ?stmtExpr ?varDecl ?globalDecl ?block ?prototype ?function
    ?noneDiscarded ?discarded ?noArguments ?arguments ?noStmts ?stmts
  case number =>
    intro info value
    rw [Expr.strings, expr]
    exact collects_nil (maintains_map (h.numberCode info value))
  case string =>
    intro info label bytes
    rw [Expr.strings, expr]
    exact collects_map (collects_stringCode info label bytes)
  case ident =>
    intro info name scope
    rw [Expr.strings, expr]
    exact collects_nil (maintains_map (h.nameCode info name scope))
  case unary =>
    intro info op operand ih
    rw [Expr.strings, expr]
    exact collects_map (collects_unaryCode (collects_value ih))
  case assignRead =>
    intro info left right hread _ _
    rw [expr, if_pos hread]
    exact fun _ => trivial
  case assign =>
    intro info left right hread ihRight ihStore
    rw [Expr.strings, expr, if_neg hread]
    refine (collects_bind (collects_value ihRight) fun r => collects_left (ihStore r) fun _ => maintains_pure _).of_mem ?_
    exact fun hp => List.mem_append.2 (List.mem_append.1 hp).symm
  case binary =>
    intro info op left right hop ihLeft ihRight
    rw [Expr.strings, expr]
    · exact collects_bind (collects_value ihLeft) fun l => collects_left (collects_value ihRight) fun r =>
        maintains_map (h.arithmetic op l r)
    · exact hop
  case convert =>
    intro info change operand ih
    rw [Expr.strings, expr]
    exact collects_map (collects_changeCode (collects_value ih))
  case call =>
    intro info name args ih
    rw [Expr.strings, expr]
    exact collects_callCode ih
  case ifElse =>
    intro info cond yes no ih
    cases no with
    | none =>
      obtain ⟨ihParts, ihCond, ihYes⟩ := ih
      exact collects_ifElse (fun _ => collects_branchCode ihParts (collects_value ihCond)) ihYes (by rintro _ ⟨⟩)
    | some no =>
      obtain ⟨ihParts, ihCond, ihYes, ihNo⟩ := ih
      refine collects_ifElse (fun _ => collects_branchCode ihParts (collects_value ihCond)) ihYes ?_
      rintro _ ⟨⟩
      exact ihNo
  case whileLoop =>
    intro info cond body ihParts ihCond ihBody
    rw [Expr.strings, expr]
    exact collects_right h.drawLabel fun n => collects_right h.drawLabel fun m => collects_right (h.label _) fun _ =>
      collects_bind (collects_branchCode ihParts (collects_value ihCond)) fun _ => collects_left ihBody fun _ =>
        maintains_bind (h.emit rfl) fun _ => maintains_bind (h.label _) fun _ => maintains_pure _
  case forLoop =>
    intro info init cond post body ihInit ihBody ihPost ihCond
    refine collects_forLoop ihInit ?_ ihBody ihPost
    rintro cond rfl _
    exact collects_branchCode ihCond.1 (collects_value ihCond.2)
  case comparison =>
    intro info op left right ihLeft ihRight cond l r hparts
    rw [comparison] at hparts
    obtain ⟨_, -, heq⟩ := Option.map_eq_some_iff.1 hparts
    cases heq
    exact ⟨left.strings, right.strings, by rw [Expr.strings], collects_value ihLeft, collects_value ihRight⟩
  case noComparison =>
    intro e hother cond l r hparts
    rw [comparison] at hparts
    · cases hparts
    · exact hother
  case storeName =>
    intro info name scope r
    rw [Expr.strings, store]
    exact collects_nil (h.location fun place hplace => h.emit hplace)
  case storeAt =>
    intro info address r ih
    rw [Expr.strings, store]
    exact collects_left (collects_value ih) fun q => maintains_bind (h.emit rfl) fun _ => h.free q
  case storeOther =>
    intro e r hname hderef
    rw [store]
    · exact collects_throw _
    · exact hname
    · exact hderef
  case retNone =>
    rw [Stmt.strings, optionalStrings, stmt]
    exact collects_nil (h.returnCode (by rintro _ ⟨⟩))
  case ret =>
    intro e ih
    rw [Stmt.strings, optionalStrings, stmt]
    exact collects_returnCode (collects_value ih)
  case stmtExpr =>
    intro e ih
    rw [Stmt.strings, stmt]
    exact collects_left ih fun _ => h.freeAll
  case varDecl =>
    intro name
    rw [Stmt.strings, stmt]
    exact collects_nil (maintains_pure _)
  case globalDecl =>
    intro name
    rw [Stmt.strings, stmt]
    exact collects_nil (h.globalCode name)
  case block =>
    intro stmts ih
    rw [Stmt.strings, stmt]
    exact ih
  case prototype =>
    intro name
    rw [Stmt.strings, stmt]
    exact collects_nil (maintains_pure _)
  case function =>
    intro name body ih
    rw [Stmt.strings, stmt]
    exact collects_functionCode ih
  case noneDiscarded =>
    rw [optionalStrings, discarded]
    exact collects_nil (maintains_pure _)
  case discarded =>
    intro e ih
    rw [optionalStrings, discarded]
    exact collects_left ih fun _ => h.freeAll
  case noArguments =>
    rw [exprStrings, arguments]
    exact collects_nil (maintains_pure _)
  case arguments =>
    intro arg args ihArg ihArgs
    rw [exprStrings, arguments]
    exact collects_bind (collects_value ihArg) fun r => collects_right (h.push _) fun _ =>
      collects_right (h.free r) fun _ => ihArgs
  case noStmts =>
    rw [stmtStrings, stmtList]
    exact collects_nil (maintains_pure _)
  case stmts =>
    intro s rest ih ihRest
    rw [stmtStrings, stmtList]
    exact collects_bind ih fun _ => ihRest

end Collects

end Lower

/-! ## Literals in listings -/

/-- The lines of a string literal: its label, its bytes and a zero. -/
def literalLines (label : Nat) (bytes : List UInt8) : List Line :=
  .label label :: (bytes ++ [0]).map fun byte => .directive (.byte byte)

theorem literalLines_infix {p : Nat × List UInt8} {strings : List (Nat × List UInt8)} (hp : p ∈ strings) :
    literalLines p.1 p.2 <:+: stringLines strings := by
  have hne : strings.isEmpty = false := List.isEmpty_eq_false_iff.2 (List.ne_nil_of_mem hp)
  rw [stringLines, hne, List.flatMap_def]
  exact List.infix_cons (List.infix_of_mem_flatten (List.mem_map.2 ⟨p, hp, rfl⟩))

/-- Every literal of a program stands in its listing. -/
theorem generate_literal {program : Program} {c c' : Context} {listing : Listing}
    (h : generate program c = .ok listing c') {p : Nat × List UInt8} (hp : p ∈ stmtStrings program) :
    literalLines p.1 p.2 <:+: listing.toList := by
  have hends : Ends (Lower.program program) { context := c } (fun _ st => literalLines p.1 p.2 <:+: st.lines.toList)
      fun _ _ => True := by
    unfold Lower.program
    refine ends_bind ((Lower.collects_trees p).2.2.2.1 program _) fun _ st hst => ?_
    refine ends_bind (Lower.strings_ends st) ?_
    rintro _ _ rfl
    obtain ⟨before, after, hlines⟩ := literalLines_infix (Array.mem_toList_iff.2 (hst (.inr hp)))
    refine ends_modify ⟨st.lines.toList ++ before, after ++ [.directive .stackNote], ?_⟩
    simp [← hlines]
  unfold Ends at hends
  unfold generate at h
  cases hrun : Lower.program program { context := c } with
  | ok u st =>
    rw [hrun] at h hends
    cases h
    exact hends
  | error fault st => rw [hrun] at h; cases h

namespace Parse

/-- A string literal is parsed to its bytes at the label of the moment. -/
theorem primary_string {f : String} {s : State} {t : Token} {rest : List Token} {bytes : List UInt8}
    (htokens : s.tokens = t :: rest) (hkind : t.kind = .string) (hbytes : Literal.stringBytes t.text = .ok bytes) :
    ∃ next shorter, primary f s =
      .ok (.string { ty := .pointer .char, line := t.line } s.context.nextLabel bytes) next shorter ∧
      next.tokens = rest ∧ next.lastLine = s.lastLine ∧ next.context = s.context.drawLabel.2 := by
  obtain ⟨tokens, lastLine, context⟩ := s
  cases htokens
  have hparens : State.accept? ⟨t :: rest, lastLine, context⟩ (.punct "(") = none := by
    simp [State.accept?, State.take?, Token.is, hkind]
  have hseen : State.kind? ⟨t :: rest, lastLine, context⟩ = some .string := by
    simp [State.kind?, hkind]
  rw [primary, hparens, hseen]
  unfold stringLiteral State.need State.take? string?
  simp only [hkind, hbytes, if_true, Option.map_some, Result.bind]
  exact ⟨⟨rest, lastLine, context.drawLabel.2⟩, Nat.lt_succ_self rest.length, rfl, rfl, rfl, rfl⟩

end Parse

/-- A literal of a source, with the bytes that were scanned and where the decoder stops. -/
theorem literal_of_tokenize {source : String} {tokens : List Token} (h : tokenize source = .ok tokens) {t : Token}
    (ht : t ∈ tokens) (hkind : t.kind = .string) : ∃ before after bytes count,
      source.toList = before ++ '"' :: after ∧ Lexical.size before = t.start ∧
      Literal.stringLiteral after = .ok (bytes, count) ∧ t.text = String.ofList ('"' :: after.take count) ∧
      Literal.decodeLeft (t.text.toUTF8.toList.drop 1) = .ok (bytes, [34]) ∧ Literal.stringBytes t.text = .ok bytes := by
  obtain ⟨pieces, hsplits, hpieces⟩ | ⟨_, _, _, _, _, herror⟩ := Lexical.splits_of_tokenize source
  · cases h.symm.trans hpieces
    rcases List.mem_append.1 ht with ht | ht
    · obtain ⟨before, after, hsource, hstarts, hstart, -⟩ := hsplits.lexeme ht
      rw [hkind] at hstarts
      obtain ⟨-, body, bytes, hbody, hquoted⟩ := hstarts.string_inv
      have htext : t.text = String.ofList ('"' :: body) := by rw [← hbody, String.ofList_toList]
      have hleft : Literal.decodeLeft (t.text.toUTF8.toList.drop 1) = .ok (bytes, [34]) := by
        rw [htext, Literal.bytes_ofList]
        exact hquoted.decodesLeft
      refine ⟨before, body ++ after, bytes, body.length, ?_, hstart.symm, hquoted.stringLiteral_append after, ?_, hleft, ?_⟩
      · rw [hsource, hbody]
        rfl
      · rw [htext, List.take_left]
      · rw [Literal.stringBytes, Literal.decodeBody_eq_decodeLeft, hleft]
        rfl
    · rw [List.mem_singleton.1 ht] at hkind
      cases hkind
  · cases h.symm.trans herror

/-- **String literals.** The decoder gives the bytes that the scanner read, and stops at the closing quote. A text that is
written as a literal is one token, whose bytes are those of the text; it is parsed to them. And every literal of a program
stands in the listing under its label, byte by byte, with a zero after it. -/
theorem string_literals_round_trip :
    (∀ (source : String) (tokens : List Token), tokenize source = .ok tokens → ∀ t ∈ tokens, t.kind = .string →
      ∃ before after bytes count, source.toList = before ++ '"' :: after ∧ Lexical.size before = t.start ∧
        Literal.stringLiteral after = .ok (bytes, count) ∧ t.text = String.ofList ('"' :: after.take count) ∧
        Literal.decodeLeft (t.text.toUTF8.toList.drop 1) = .ok (bytes, [34]) ∧ Literal.stringBytes t.text = .ok bytes) ∧
    (∀ (text : String) (body : List Char), Literal.Spelled text.toList body →
      ∃ t, t.text = String.ofList ('"' :: (body ++ ['"'])) ∧ t.kind = .string ∧
        tokenize t.text = .ok [t, Token.eof t.text.utf8ByteSize 1] ∧
        Literal.stringBytes t.text = .ok text.toUTF8.toList ∧
        ∀ (f : String) (s : Parse.State) (t' : Token) (rest : List Token), s.tokens = t' :: rest → t'.kind = .string →
          t'.text = t.text → ∃ next shorter, Parse.primary f s = .ok (.string { ty := .pointer .char, line := t'.line }
            s.context.nextLabel text.toUTF8.toList) next shorter ∧ next.tokens = rest) ∧
    ∀ (program : Program) (c c' : Context) (listing : Listing), generate program c = .ok listing c' →
      ∀ p ∈ stmtStrings program, literalLines p.1 p.2 <:+: listing.toList := by
  refine ⟨fun source tokens h t ht hkind => literal_of_tokenize h ht hkind, fun text body hbody => ?_,
    fun program c c' listing h p hp => generate_literal h hp⟩
  have hquoted := hbody.quoted
  have hbytes : Literal.stringBytes (String.ofList ('"' :: (body ++ ['"']))) = .ok text.toUTF8.toList := by
    have htext : text.toUTF8.toList = text.toList.flatMap Literal.bytesOf := by
      rw [← Literal.bytes_ofList, String.ofList_toList]
    rw [Literal.stringBytes, Literal.bytes_ofList, htext]
    exact hquoted.decodes
  refine ⟨⟨.string, String.ofList ('"' :: (body ++ ['"'])), none, 0, 1⟩, rfl, rfl, Lexical.tokenize_quoted hquoted, hbytes,
    fun f s t' rest htokens hkind htext => ?_⟩
  have hread : Literal.stringBytes t'.text = .ok text.toUTF8.toList := by
    rw [htext]
    exact hbytes
  obtain ⟨next, shorter, hprimary, hnext, -⟩ := Parse.primary_string (f := f) htokens hkind hread
  exact ⟨next, shorter, hprimary, hnext⟩

/-- A literal with a tab as it is, a tab and a quote as escapes, and a character of two bytes. -/
def quotingSource : String := "func f() -> char* \x7b return \"\t\\t\\\"é\"; \x7d"

/-- Whether a program has a listing, and just one literal, of the given bytes at label one. -/
def hasLiteral (bytes : List UInt8) : EStateM.Result Fault Context Program → Bool
  | .ok program c => stmtStrings program == [(1, bytes)] && (ended (generate program c)).isSome
  | .error .. => false

/-- The bytes of that literal, and the lines that they have in the listing. -/
theorem quotingSource_literal :
    (∃ tokens, tokenize quotingSource = .ok tokens ∧ ∃ t ∈ tokens, t.kind = .string ∧
      Literal.decodeLeft (t.text.toUTF8.toList.drop 1) = .ok ([9, 9, 34, 195, 169], [34])) ∧
    (∃ t, t.text = "\"\t\\t\\\"é\"" ∧ tokenize t.text = .ok [t, Token.eof 9 1] ∧
      Literal.stringBytes t.text = .ok "\t\t\"é".toUTF8.toList) ∧
    ∃ program c listing c', parseSource quotingSource {} = .ok program c ∧ generate program c = .ok listing c' ∧
      literalLines 1 [9, 9, 34, 195, 169] <:+: listing.toList := by
  refine ⟨?_, ?_, ?_⟩
  · have hread : ((tokenize quotingSource).toOption.any fun tokens => tokens.any fun t => t.kind == .string &&
        (Literal.stringBytes t.text).toOption == some [9, 9, 34, 195, 169]) = true := by decide +kernel
    cases htokens : tokenize quotingSource with
    | error fault => rw [htokens] at hread; cases hread
    | ok tokens =>
      rw [htokens] at hread
      obtain ⟨t, ht, hmatch⟩ := List.any_eq_true.1 hread
      simp only [Bool.and_eq_true, beq_iff_eq] at hmatch
      obtain ⟨_, _, bytes, _, _, _, _, _, hleft, hbytes⟩ :=
        string_literals_round_trip.1 quotingSource tokens htokens t ht hmatch.1
      rw [hbytes] at hmatch
      cases Option.some.inj hmatch.2
      exact ⟨tokens, rfl, t, ht, hmatch.1, hleft⟩
  · have hspelled : Literal.Spelled "\t\t\"é".toList ['\t', '\\', 't', '\\', '"', 'é'] :=
      .raw rfl (.escape rfl (.escape rfl (.raw rfl .nil)))
    obtain ⟨t, htext, -, htokens, hbytes, -⟩ := string_literals_round_trip.2.1 "\t\t\"é" _ hspelled
    have hsize : t.text.utf8ByteSize = 9 := by rw [htext]; rfl
    rw [hsize] at htokens
    exact ⟨t, htext, htokens, hbytes⟩
  · have hchecked : hasLiteral [9, 9, 34, 195, 169] (parseSource quotingSource {}) = true := by decide +kernel
    cases hparse : parseSource quotingSource {} with
    | error fault c => rw [hparse] at hchecked; cases hchecked
    | ok program c =>
      rw [hparse] at hchecked
      simp only [hasLiteral, Bool.and_eq_true, beq_iff_eq] at hchecked
      obtain ⟨listing, c', hgenerate⟩ := exists_of_ended hchecked.2
      have hmem : (1, [9, 9, 34, 195, 169]) ∈ stmtStrings program := by rw [hchecked.1]; exact List.mem_singleton_self _
      exact ⟨program, c, listing, c', rfl, hgenerate,
        string_literals_round_trip.2.2 program c c' listing hgenerate _ hmem⟩

end MiniC
