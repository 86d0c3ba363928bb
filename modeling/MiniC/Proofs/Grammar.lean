import MiniC.Token.Literal
import MiniC.Token
import MiniC.Tree

/-!
# The surface grammar

What the tokens of a source have to look like, and what they denote: `Program w phrases` is read "the tokens `w` derive
a program that denotes `phrases`", and likewise for every other nonterminal. A `Phrase` is a tree without types, lines
and implicit conversions; `Stmt.phrase` forgets these in a typed tree.

Expressions are stratified: `Level operand n` holds the expressions whose outermost operators bind at level `n` or
tighter, with operands (`Operand`) at the innermost level. Left-grouping operators take their own level on the left and
the next one on the right, assignment the other way round. The same language is an operand followed by operators and
their right sides, none looser than the floor and none out of order (`level_eq_tail`); that is the form in which a
parser without backtracking meets it.
-/

namespace MiniC

/-! ## What phrases denote -/

/-- A construct of the language, as the grammar sees it. -/
inductive Phrase where
  | name (text : String)
  | number (value : Int)
  | string (bytes : List UInt8)
  | unary (op : UnaryOp) (operand : Phrase)
  | binary (op : BinaryOp) (left right : Phrase)
  | call (function : String) (args : List Phrase)
  | ret (value : Option Phrase)
  | varDecl (name : String)
  | globalDecl (name : String)
  | block (stmts : List Phrase)
  | ifElse (cond yes : Phrase) (no : Option Phrase)
  | whileLoop (cond body : Phrase)
  | forLoop (init cond post : Option Phrase) (body : Phrase)
  | prototype (name : String)
  | function (name : String) (body : Phrase)

namespace Phrase

/-- `name[i]` is `*(name + i)`. -/
def index (name : String) (i : Phrase) : Phrase := .unary .deref (.binary .add (.name name) i)

mutual

/-- Whether an `else` after the phrase would belong to an `if` inside it. -/
def dangling : Phrase → Bool
  | ifElse _ _ no => optionalDangling no
  | whileLoop _ body => body.dangling
  | forLoop _ _ _ body => body.dangling
  | _ => false

def optionalDangling : Option Phrase → Bool
  | none => true
  | some no => no.dangling

end

end Phrase

mutual

/-- The expression without types, lines and conversions. -/
def Expr.phrase : Expr → Phrase
  | .ident _ name _ => .name name
  | .number _ value => .number value
  | .string _ _ bytes => .string bytes
  | .unary _ op operand => .unary op operand.phrase
  | .binary _ op left right => .binary op left.phrase right.phrase
  | .ifElse _ cond yes no => .ifElse cond.phrase yes.phrase (optionalStmtPhrase no)
  | .whileLoop _ cond body => .whileLoop cond.phrase body.phrase
  | .forLoop _ init cond post body =>
    .forLoop (optionalPhrase init) (optionalPhrase cond) (optionalPhrase post) body.phrase
  | .call _ name args => .call name (exprPhrases args)
  | .convert _ _ operand => operand.phrase

def Stmt.phrase : Stmt → Phrase
  | .ret value => .ret (optionalPhrase value)
  | .expr e => e.phrase
  | .varDecl name => .varDecl name
  | .globalDecl name => .globalDecl name
  | .block stmts => .block (stmtPhrases stmts)
  | .prototype name => .prototype name
  | .function name body => .function name body.phrase

def optionalPhrase : Option Expr → Option Phrase
  | none => none
  | some e => some e.phrase

def optionalStmtPhrase : Option Stmt → Option Phrase
  | none => none
  | some stmt => some stmt.phrase

def exprPhrases : List Expr → List Phrase
  | [] => []
  | e :: es => e.phrase :: exprPhrases es

def stmtPhrases : List Stmt → List Phrase
  | [] => []
  | stmt :: stmts => stmt.phrase :: stmtPhrases stmts

end

/-! ## Levels of operators -/

namespace BinaryOp

/-- The level at which the operator binds, from the loosest. -/
def level : BinaryOp → Nat
  | assign => 0
  | eq | ne => 1
  | lt | le | gt | ge => 2
  | shl | shr | bitAnd | bitOr | bitXor => 3
  | add | sub => 4
  | mul | div | mod => 5

/-- The level of the left operand. -/
def leftLevel : BinaryOp → Nat
  | assign => 1
  | op => op.level

/-- The level of the right operand. -/
def rightLevel : BinaryOp → Nat
  | assign => 0
  | op => op.level + 1

theorem level_le_leftLevel (op : BinaryOp) : op.level ≤ op.leftLevel := by cases op <;> decide

theorem level_le_rightLevel (op : BinaryOp) : op.level ≤ op.rightLevel := by cases op <;> decide

theorem leftLevel_le (op : BinaryOp) : op.leftLevel ≤ 6 := by cases op <;> decide

theorem rightLevel_le (op : BinaryOp) : op.rightLevel ≤ 6 := by cases op <;> decide

/-- What stands to the right of `op` ends before exactly those operators that take `op` and its operands as their left
side. -/
theorem level_lt_rightLevel_iff (op next : BinaryOp) : next.level < op.rightLevel ↔ next.leftLevel ≤ op.level := by
  cases op <;> cases next <;> decide

end BinaryOp

/-! ## Derivations -/

/-- Words of tokens, each with what it denotes. -/
abbrev Language (T : Type) := List Token → T → Prop

namespace Grammar

/-- The operators that stand in front of an operand. -/
def frontOperators : List (String × UnaryOp) :=
  [("-", .negate), ("!", .not), ("&", .addressOf), ("*", .deref), ("++", .step .before .up), ("--", .step .before .down)]

/-- The operators that stand after a name. -/
def trailingOperators : List (String × Direction) := [("++", .up), ("--", .down)]

/-- One item or more, separated by commas, up to and with a closing parenthesis. -/
inductive Series {T : Type} (item : Language T) : Language (List T)
  | last {w : List Token} {close : Token} {x : T} :
      item w x → close.is (.punct ")") → Series item (w ++ [close]) [x]
  | more {w u : List Token} {comma : Token} {x : T} {xs : List T} :
      item w x → comma.is (.punct ",") → Series item u xs → Series item (w ++ comma :: u) (x :: xs)

/-- Any number of items, separated by commas, up to and with a closing parenthesis. -/
inductive Enclosed {T : Type} (item : Language T) : Language (List T)
  | empty {close : Token} : close.is (.punct ")") → Enclosed item [close] []
  | series {w : List Token} {xs : List T} : Series item w xs → Enclosed item w xs

/-- Expressions whose outermost operators bind at the given level or tighter. -/
inductive Level (operand : Language Phrase) : Nat → Language Phrase
  | innermost {w : List Token} {x : Phrase} : operand w x → Level operand 6 w x
  | tighter {n : Nat} {w : List Token} {x : Phrase} : Level operand (n + 1) w x → Level operand n w x
  | binary {n : Nat} {op : BinaryOp} {symbol : Token} {u v : List Token} {x y : Phrase} :
      n = op.level → Level operand op.leftLevel u x → symbol.is (.punct op.symbol) →
      Level operand op.rightLevel v y → Level operand n (u ++ symbol :: v) (.binary op x y)

/-- What can follow a name: nothing, the arguments of a call, an index or a step. It denotes what becomes of the name. -/
inductive Suffix (expression : Language Phrase) : Language (String → Phrase)
  | plain : Suffix expression [] .name
  | call {opening : Token} {w : List Token} {args : List Phrase} :
      opening.is (.punct "(") → Enclosed expression w args → Suffix expression (opening :: w) (.call · args)
  | index {opening close : Token} {w : List Token} {x : Phrase} :
      opening.is (.punct "[") → expression w x → close.is (.punct "]") →
      Suffix expression (opening :: (w ++ [close])) (.index · x)
  | step {text : String} {direction : Direction} {symbol : Token} :
      (text, direction) ∈ trailingOperators → symbol.is (.punct text) →
      Suffix expression [symbol] (fun name => .unary (.step .after direction) (.name name))

/-- What operators combine: any number of operators in front of a literal, a name or parentheses. -/
inductive Operand : Language Phrase
  | unary {text : String} {op : UnaryOp} {symbol : Token} {w : List Token} {x : Phrase} :
      (text, op) ∈ frontOperators → symbol.is (.punct text) → Operand w x → Operand (symbol :: w) (.unary op x)
  | parens {opening close : Token} {w : List Token} {x : Phrase} :
      opening.is (.punct "(") → Level Operand 0 w x → close.is (.punct ")") → Operand (opening :: (w ++ [close])) x
  | number {t : Token} {value : Int} : t.kind = .number → t.value = some value → Operand [t] (.number value)
  | string {t : Token} {bytes : List UInt8} :
      t.kind = .string → Literal.stringBytes t.text = .ok bytes → Operand [t] (.string bytes)
  | name {t : Token} {w : List Token} {suffix : String → Phrase} :
      t.kind = .ident → Suffix (Level Operand 0) w suffix → Operand (t :: w) (suffix t.text)

/-- Expressions of any shape. -/
abbrev Expression : Language Phrase := Level Operand 0

/-- A base type, or a pointer to one. -/
inductive TypeName : Language Ty
  | plain {t : Token} {base : Base} : t.is (.keyword base.name) → TypeName [t] (.plain base)
  | pointer {t star : Token} {base : Base} :
      t.is (.keyword base.name) → star.is (.punct "*") → TypeName [t, star] (.pointer base)

/-- The number of elements between brackets, if there are any. -/
inductive Bound : Language (Option Int)
  | absent : Bound [] none
  | present {opening t close : Token} {count : Int} :
      opening.is (.punct "[") → t.kind = .number → t.value = some count → close.is (.punct "]") →
      Bound [opening, t, close] (some count)

/-- A declaration after its keyword; it denotes the declared name. -/
inductive Declaration : Language String
  | mk {w b : List Token} {ty : Ty} {t close : Token} {size : Option Int} :
      TypeName w ty → t.kind = .ident → Bound b size → close.is (.punct ";") →
      Declaration (w ++ t :: (b ++ [close])) t.text

/-- A condition between parentheses. -/
inductive Condition : Language Phrase
  | mk {opening close : Token} {w : List Token} {x : Phrase} :
      opening.is (.punct "(") → Expression w x → close.is (.punct ")") → Condition (opening :: (w ++ [close])) x

/-- An expression that may be left out, up to and with what closes it. -/
inductive Clause (closing : Terminal) : Language (Option Phrase)
  | empty {close : Token} : close.is closing → Clause closing [close] none
  | given {close : Token} {w : List Token} {x : Phrase} :
      Expression w x → close.is closing → Clause closing (w ++ [close]) (some x)

/-- The three clauses of a `for`, between parentheses. -/
inductive Clauses : Language (Option Phrase × Option Phrase × Option Phrase)
  | mk {opening : Token} {u v w : List Token} {init cond post : Option Phrase} :
      opening.is (.punct "(") → Clause (.punct ";") u init → Clause (.punct ";") v cond → Clause (.punct ")") w post →
      Clauses (opening :: (u ++ (v ++ w))) (init, cond, post)

mutual

/-- Statements. An `else` belongs to the nearest `if`: what stands before it leaves no `if` open. -/
inductive Statement : Language Phrase
  | ret {t : Token} {w : List Token} {value : Option Phrase} :
      t.is (.keyword "return") → Clause (.punct ";") w value → Statement (t :: w) (.ret value)
  | globalDecl {t : Token} {w : List Token} {name : String} :
      t.is (.keyword "global") → Declaration w name → Statement (t :: w) (.globalDecl name)
  | varDecl {t : Token} {w : List Token} {name : String} :
      t.is (.keyword "var") → Declaration w name → Statement (t :: w) (.varDecl name)
  | ifThen {t : Token} {w u : List Token} {cond yes : Phrase} :
      t.is (.keyword "if") → Condition w cond → Statement u yes → Statement (t :: (w ++ u)) (.ifElse cond yes none)
  | ifElse {t other : Token} {w u v : List Token} {cond yes no : Phrase} :
      t.is (.keyword "if") → Condition w cond → Statement u yes → yes.dangling = false →
      other.is (.keyword "else") → Statement v no →
      Statement (t :: (w ++ (u ++ other :: v))) (.ifElse cond yes (some no))
  | whileLoop {t : Token} {w u : List Token} {cond body : Phrase} :
      t.is (.keyword "while") → Condition w cond → Statement u body → Statement (t :: (w ++ u)) (.whileLoop cond body)
  | forLoop {t : Token} {w u : List Token} {init cond post : Option Phrase} {body : Phrase} :
      t.is (.keyword "for") → Clauses w (init, cond, post) → Statement u body →
      Statement (t :: (w ++ u)) (.forLoop init cond post body)
  | block {opening : Token} {w : List Token} {stmts : List Phrase} :
      opening.is (.punct "\x7b") → Body w stmts → Statement (opening :: w) (.block stmts)
  | expr {close : Token} {w : List Token} {x : Phrase} :
      Expression w x → close.is (.punct ";") → Statement (w ++ [close]) x

/-- Any number of statements, up to and with a closing brace. -/
inductive Body : Language (List Phrase)
  | empty {close : Token} : close.is (.punct "\x7d") → Body [close] []
  | cons {w u : List Token} {stmt : Phrase} {stmts : List Phrase} :
      Statement w stmt → Body u stmts → Body (w ++ u) (stmt :: stmts)

end

/-- A parameter; it denotes its type. -/
inductive Parameter : Language Ty
  | mk {w : List Token} {ty : Ty} {t : Token} : TypeName w ty → t.kind = .ident → Parameter (w ++ [t]) ty

/-- What the head of a function says of it. -/
structure Signature where
  name : String
  params : List Ty
  ret : Ty

/-- The head of a function after `func`. -/
inductive Heading : Language Signature
  | mk {t opening arrow : Token} {w u : List Token} {params : List Ty} {ret : Ty} :
      t.kind = .ident → opening.is (.punct "(") → Enclosed Parameter w params → arrow.is (.punct "->") →
      TypeName u ret → Heading (t :: opening :: (w ++ arrow :: u)) ⟨t.text, params, ret⟩

/-- Functions and globals at the outermost level. -/
inductive Item : Language Phrase
  | prototype {t close : Token} {w : List Token} {head : Signature} :
      t.is (.keyword "func") → Heading w head → close.is (.punct ";") →
      Item (t :: (w ++ [close])) (.prototype head.name)
  | function {t opening : Token} {w u : List Token} {head : Signature} {stmts : List Phrase} :
      t.is (.keyword "func") → Heading w head → opening.is (.punct "\x7b") → Body u stmts →
      Item (t :: (w ++ opening :: u)) (.function head.name (.block stmts))
  | globalDecl {t : Token} {w : List Token} {name : String} :
      t.is (.keyword "global") ∨ t.is (.keyword "var") → Declaration w name → Item (t :: w) (.globalDecl name)

/-- Any number of items. -/
inductive Program : Language (List Phrase)
  | empty : Program [] []
  | cons {w u : List Token} {item : Phrase} {items : List Phrase} :
      Item w item → Program u items → Program (w ++ u) (item :: items)

/-! ## Operators after an operand -/

section Tail

variable {P : Language Phrase} {n m d : Nat} {x y z : Phrase} {u v w : List Token}

/-- The operators and right sides that make `z` out of `x`: none looser than `n`, and each one takes what stands before
it, which is bound at level `d`, as its left side. -/
inductive Tail (P : Language Phrase) (n : Nat) : Nat → Phrase → Language Phrase
  | nil {d : Nat} {x : Phrase} : Tail P n d x [] x
  | operator {d : Nat} {op : BinaryOp} {symbol : Token} {v w : List Token} {x y z : Phrase} :
      n ≤ op.level → op.leftLevel ≤ d → symbol.is (.punct op.symbol) → Level P op.rightLevel v y →
      Tail P n op.level (.binary op x y) w z → Tail P n d x (symbol :: (v ++ w)) z

theorem Level.looser (h : Level P n w x) (hm : m ≤ n) : Level P m w x := by
  induction hm with
  | refl => exact h
  | step _ ih => exact ih h.tighter

theorem Tail.looser (h : Tail P n d x w z) (hm : m ≤ n) : Tail P m d x w z := by
  induction h with
  | nil => exact .nil
  | operator hlevel hleft hsymbol hright _ ih => exact .operator (Nat.le_trans hm hlevel) hleft hsymbol hright ih

/-- One more operator at the end of a tail whose operators bind at least as tight as its left side. -/
theorem Tail.snoc {op : BinaryOp} {symbol : Token} (h : Tail P n d x w y) (hn : op.leftLevel ≤ n)
    (hd : op.leftLevel ≤ d) (hsymbol : symbol.is (.punct op.symbol)) (hright : Level P op.rightLevel v z) :
    Tail P op.level d x (w ++ symbol :: v) (.binary op y z) := by
  induction h with
  | @nil d x =>
    have hnil : Tail P op.level d x (symbol :: (v ++ [])) (.binary op x z) :=
      .operator (Nat.le_refl _) hd hsymbol hright .nil
    simpa using hnil
  | operator hlevel hleft hsymbol' hright' _ ih =>
    have hop := op.level_le_leftLevel
    have hrest := ih (Nat.le_trans hn hlevel)
    have hcons := Tail.operator (by omega) hleft hsymbol' hright' hrest
    simpa using hcons

/-- A phrase with a tail after it is a phrase of the level at which the tail starts. -/
theorem Tail.join (h : Tail P n d x w z) (hx : Level P d u x) (hn : n ≤ d) : Level P n (u ++ w) z := by
  induction h generalizing u with
  | nil => simpa using hx.looser hn
  | @operator d op symbol v w x y z hlevel hleft hsymbol hright _ ih =>
    have hnode : Level P op.level (u ++ symbol :: v) (.binary op x y) :=
      .binary rfl (hx.looser hleft) hsymbol hright
    simpa using ih hnode hlevel

theorem Level.split (h : Level P n w z) : ∃ u v x, w = u ++ v ∧ P u x ∧ Tail P n 6 x v z := by
  induction h with
  | innermost h => exact ⟨_, [], _, by simp, h, .nil⟩
  | tighter _ ih =>
    obtain ⟨u, v, x, hw, hx, ht⟩ := ih
    exact ⟨u, v, x, hw, hx, ht.looser (Nat.le_succ _)⟩
  | @binary n op symbol u' v' x' y' hn _ hsymbol hright ih _ =>
    obtain ⟨u, v, x, rfl, hx, ht⟩ := ih
    refine ⟨u, v ++ symbol :: v', x, by simp, hx, ?_⟩
    rw [hn]
    exact ht.snoc (Nat.le_refl _) op.leftLevel_le hsymbol hright

/-- **Climbing.** An expression of level `n` is an operand with a tail whose operators are not looser than `n`. -/
theorem level_eq_tail (hn : n ≤ 6) : Level P n w z ↔ ∃ u v x, w = u ++ v ∧ P u x ∧ Tail P n 6 x v z := by
  constructor
  · exact Level.split
  · rintro ⟨u, v, x, rfl, hx, ht⟩
    exact ht.join (.innermost hx) hn

end Tail

end Grammar

end MiniC
