import MiniC.Proofs.Calls
import MiniC.Proofs.KeptTables

/-!
# What a program defines

A program gives storage to global variables, also to those that statements in bodies declare, and code to functions with
a body (`Program.definitions`). `Declares` says what reading the program does to the table: a name is given storage or
code once, and every global of the table was declared by the program or before it (`parseSource_declares`).
-/

namespace MiniC

/-! ## Definitions in trees -/

/-- What a name at the outermost level stands for. -/
inductive Global where
  | variable (name : String)
  | function (name : String)
  deriving DecidableEq

def Global.name : Global → String
  | .variable name | .function name => name

mutual

/-- What the statements in an expression define. -/
def Expr.definitions : Expr → List Global
  | .ident .. | .number .. | .string .. => []
  | .unary _ _ operand | .convert _ _ operand => operand.definitions
  | .binary _ _ left right => left.definitions ++ right.definitions
  | .ifElse _ cond yes no => cond.definitions ++ (yes.definitions ++ optionalStmtDefinitions no)
  | .whileLoop _ cond body => cond.definitions ++ body.definitions
  | .forLoop _ init cond post body =>
    optionalDefinitions init ++ (optionalDefinitions cond ++ (optionalDefinitions post ++ body.definitions))
  | .call _ _ args => exprDefinitions args

/-- What a statement defines: global variables, also inside bodies, and functions with a body. -/
def Stmt.definitions : Stmt → List Global
  | .ret value => optionalDefinitions value
  | .expr e => e.definitions
  | .globalDecl name => [.variable name]
  | .block stmts => stmtDefinitions stmts
  | .function name body => .function name :: body.definitions
  | .varDecl _ | .prototype _ => []

def optionalDefinitions : Option Expr → List Global
  | none => []
  | some e => e.definitions

def optionalStmtDefinitions : Option Stmt → List Global
  | none => []
  | some stmt => stmt.definitions

def exprDefinitions : List Expr → List Global
  | [] => []
  | e :: es => e.definitions ++ exprDefinitions es

def stmtDefinitions : List Stmt → List Global
  | [] => []
  | stmt :: stmts => stmt.definitions ++ stmtDefinitions stmts

end

/-- What a program defines, in order. -/
def Program.definitions (program : Program) : List Global := stmtDefinitions program

theorem exprDefinitions_eq (es : List Expr) : exprDefinitions es = (es.map Expr.definitions).flatten := by
  induction es with
  | nil => rw [exprDefinitions]; rfl
  | cons e es ih => rw [exprDefinitions, ih]; rfl

/-- Adapting an expression to its place defines nothing. -/
theorem blind_definitions : Blind Expr.definitions := by
  rintro e _ (_ | _ | _)
  · rfl
  · rw [Expr.definitions]
  · cases e <;> simp only [Expr.asTarget, Expr.definitions]

/-- The name of a function that an item declares, with a body or without. -/
def Stmt.declares? : Stmt → Option String
  | .prototype name | .function name _ => some name
  | _ => none

/-! ## Declarations -/

namespace SymbolTable

variable {t t' : SymbolTable} {name : String}

def IsVariable (t : SymbolTable) (name : String) : Prop := ∃ s, t.global? name = some s ∧ s.kind ≠ .function

/-- The name stands for a variable, or for a function that has a body. -/
def Settled (t : SymbolTable) (name : String) : Prop :=
  ∃ s, t.global? name = some s ∧ (s.kind = .function → s.defined = true)

/-- Only arrays have more or fewer elements than one. -/
def Counted (t : SymbolTable) : Prop := ∀ name s, t.global? name = some s → s.kind = .variable → s.count = 1

theorem KeepsGlobals.isVariable (h : t.KeepsGlobals t') (hv : t.IsVariable name) : t'.IsVariable name := by
  obtain ⟨s, hs, hk⟩ := hv
  obtain ⟨s', hs', hc, -⟩ := h name s hs
  exact ⟨s', hs', Symbol.kind_of_core hc ▸ hk⟩

theorem KeepsGlobals.settled (h : t.KeepsGlobals t') (hs : t.Settled name) : t'.Settled name := by
  obtain ⟨s, hs, hd⟩ := hs
  obtain ⟨s', hs', hc, hd'⟩ := h name s hs
  exact ⟨s', hs', fun hk => hd' (hd ((Symbol.kind_of_core hc).symm.trans hk))⟩

end SymbolTable

/-- Between `t` and `t'` the definitions `ds` were made, each under a name that was not settled before, and the functions
`fs` declared; nothing else was declared. -/
structure Declares (t : SymbolTable) (ds : List Global) (fs : List String) (t' : SymbolTable) : Prop where
  keeps : t.KeepsGlobals t'
  once : (ds.map Global.name).Nodup
  fresh : ∀ d ∈ ds, ¬ t.Settled d.name
  settled : ∀ d ∈ ds, t'.Settled d.name
  made : ∀ name, .variable name ∈ ds → t'.IsVariable name
  newVariables : ∀ name, t'.IsVariable name → t.IsVariable name ∨ .variable name ∈ ds
  newFunctions : ∀ name, t'.IsFunction name → t.IsFunction name ∨ name ∈ fs
  counted : t.Counted → t'.Counted

namespace Declares

variable {t t₁ t' : SymbolTable} {ds ds' : List Global} {fs fs' : List String}

/-- Nothing was declared. -/
theorem of_globals (h : t'.globals = t.globals) : Declares t [] [] t' := by
  have hglobal := SymbolTable.global?_congr h
  refine ⟨.of_globals h, .nil, by simp, by simp, by simp, fun name => ?_, fun name => ?_, fun hc name => ?_⟩
  · rintro ⟨s, hs, hk⟩
    exact .inl ⟨s, (hglobal name).symm.trans hs, hk⟩
  · rintro ⟨s, hs, hk⟩
    exact .inl ⟨s, (hglobal name).symm.trans hs, hk⟩
  · rw [hglobal]
    exact hc name

theorem append (h : Declares t ds fs t₁) (h' : Declares t₁ ds' fs' t') : Declares t (ds ++ ds') (fs ++ fs') t' where
  keeps := h.keeps.trans h'.keeps
  once := by
    rw [List.map_append, List.nodup_append]
    refine ⟨h.once, h'.once, ?_⟩
    -- What was settled first is not fresh for what comes after it.
    rintro _ ha _ hb rfl
    obtain ⟨d, hd, hname⟩ := List.mem_map.1 ha
    obtain ⟨d', hd', hname'⟩ := List.mem_map.1 hb
    exact h'.fresh d' hd' (hname' ▸ hname ▸ h.settled d hd)
  fresh := by
    rw [List.forall_mem_append]
    exact ⟨h.fresh, fun d hd hs => h'.fresh d hd (h.keeps.settled hs)⟩
  settled := by
    rw [List.forall_mem_append]
    exact ⟨fun d hd => h'.keeps.settled (h.settled d hd), h'.settled⟩
  made name hname := by
    rcases List.mem_append.1 hname with hname | hname
    · exact h'.keeps.isVariable (h.made name hname)
    · exact h'.made name hname
  newVariables name hv := by
    rw [List.mem_append, ← or_assoc]
    exact (h'.newVariables name hv).imp_left (h.newVariables name)
  newFunctions name hf := by
    rw [List.mem_append, ← or_assoc]
    exact (h'.newFunctions name hf).imp_left (h.newFunctions name)
  counted := h'.counted ∘ h.counted

/-- It does no harm to count a function that was known. -/
theorem known {name : String} (h : Declares t ds fs t') : Declares t ds (name :: fs) t' :=
  { h with newFunctions := fun g hg => (h.newFunctions g hg).imp_right (List.mem_cons_of_mem _) }

end Declares

theorem SymbolTable.global?_none_of_declareGlobal {t t' : SymbolTable} {name : String} {kind : SymbolKind} {ty : Ty}
    {label : Option Nat} {count : Int} (h : t.declareGlobal name kind ty label count = .ok t') : t.global? name = none := by
  unfold SymbolTable.declareGlobal at h
  split at h
  · cases h
  · assumption

/-- The other globals are as before. -/
theorem SymbolTable.global?_declareGlobal_of_ne {t t' : SymbolTable} {name g : String} {kind : SymbolKind} {ty : Ty}
    {label : Option Nat} {count : Int} (h : t.declareGlobal name kind ty label count = .ok t') (hg : g ≠ name) :
    t'.global? g = t.global? g := by
  have hnew := global?_none_of_declareGlobal h
  unfold SymbolTable.declareGlobal at h
  rw [hnew] at h
  cases h
  rw [global?_append (by exact hnew), if_neg hg]

/-- A variable is declared under a name that stood for nothing. -/
theorem declares_variable {t t' : SymbolTable} {name : String} {kind : SymbolKind} {ty : Ty} {count : Int}
    (hkind : kind ≠ .function) (hcount : kind = .variable → count = 1)
    (h : t.declareGlobal name kind ty none count = .ok t') : Declares t [.variable name] [] t' := by
  have hnew := SymbolTable.global?_none_of_declareGlobal h
  have hfound := SymbolTable.global?_declareGlobal h
  have hothers : ∀ g, g ≠ name → t'.global? g = t.global? g := fun g => SymbolTable.global?_declareGlobal_of_ne h
  refine ⟨(SymbolTable.later_declareGlobal h).globals, by simp, ?_, ?_, ?_, fun g => ?_, fun g => ?_,
    fun hc g s hs hk => ?_⟩
  · simp [Global.name, SymbolTable.Settled, hnew]
  · simp [Global.name, SymbolTable.Settled, hfound, hkind]
  · simp [SymbolTable.IsVariable, hfound, hkind]
  · rintro ⟨s, hs, hk⟩
    by_cases hg : g = name
    · exact .inr (by simp [hg])
    · exact .inl ⟨s, (hothers g hg).symm.trans hs, hk⟩
  · exact fun hf => .inl (((SymbolTable.isFunction_declareGlobal h g).1 hf).resolve_left fun hg => hkind hg.2)
  · by_cases hg : g = name
    · subst hg
      cases hfound.symm.trans hs
      exact hcount hk
    · exact hc g s ((hothers g hg).symm.trans hs) hk

section Building

variable {c c' : Context} {f : String}

theorem drawing_declares : Parse.Drawing fun c c' => Declares c.symbols [] [] c'.symbols where
  refl _ := .of_globals rfl
  trans h h' := h.append h'
  draw _ := .of_globals rfl

theorem count_of_declared {name : String} {ty ty' : Ty} {size : Option Int} {count : Int}
    (h : Typing.declared name ty size = .ok (.variable, ty', count)) : count = 1 := by
  unfold Typing.declared at h
  split at h
  · cases h
    rfl
  · split at h
    · cases h
    · split at h <;> cases h

theorem BuildsDecl.declares {owner : Option String} {stmt : Stmt} (h : BuildsDecl owner c stmt c') :
    Declares c.symbols stmt.definitions [] c'.symbols := by
  cases h with
  | varDecl rule typed entered =>
    obtain ⟨_, -, -, rfl⟩ := SymbolTable.addMember_cases entered
    exact .of_globals rfl
  | globalDecl rule typed entered =>
    refine declares_variable ?_ ?_ entered
    · rcases declared_cases rule with ⟨rfl, -⟩ | ⟨rfl, -⟩ <;> decide
    · rintro rfl
      exact count_of_declared rule

mutual

/-- No rule for expressions builds a definition. -/
theorem Builds.definitions : ∀ {c c' : Context} {e : Expr}, Builds f c e c' → e.definitions = []
  | _, _, _, .number .. => by rw [Expr.ofInt, Expr.definitions]
  | _, _, _, .string .. => by rw [Expr.definitions]
  | _, _, _, .name rule => by
    obtain ⟨_, _, rfl⟩ := name_node rule
    rw [Expr.definitions]
  | _, _, _, .index named inner rule => by
    obtain ⟨_, _, rfl⟩ := name_node named
    obtain ⟨_, offset, _, hadapted, rfl⟩ := index_node rule
    rw [Expr.ofUnary, Expr.definitions, Expr.definitions, Expr.definitions, blind_definitions _ _ hadapted]
    exact inner.definitions
  | _, _, _, .call _ inner rule => by
    obtain ⟨args', rfl, -, hblind⟩ := call_node rule
    rw [Expr.definitions, exprDefinitions_eq, hblind blind_definitions, ← exprDefinitions_eq]
    exact inner.definitions
  | _, _, _, .unary inner rule => by
    obtain ⟨_, rfl⟩ := unary_node rule
    rw [Expr.ofUnary, Expr.definitions]
    exact inner.definitions
  | _, _, _, .binary first second rule => by
    obtain ⟨_, _, _, rfl, hleft, hright⟩ := binary_node rule
    rw [Expr.definitions, blind_definitions _ _ hleft, blind_definitions _ _ hright, first.definitions,
      second.definitions, List.nil_append]

theorem BuildsAll.definitions : ∀ {c c' : Context} {es : List Expr}, BuildsAll f c es c' → exprDefinitions es = []
  | _, _, _, .nil => by rw [exprDefinitions]
  | _, _, _, .cons first rest => by rw [exprDefinitions, first.definitions, rest.definitions, List.nil_append]

end

theorem Builds.declares {e : Expr} (h : Builds f c e c') : Declares c.symbols e.definitions [] c'.symbols := by
  rw [h.definitions]
  exact h.within drawing_declares

theorem Optionally.declares {B : Context → Expr → Context → Prop} {e : Option Expr} (h : Optionally B c e c')
    (hB : ∀ c e c', B c e c' → Builds f c e c') : Declares c.symbols (optionalDefinitions e) [] c'.symbols := by
  cases h with
  | none =>
    rw [optionalDefinitions]
    exact .of_globals rfl
  | some built =>
    rw [optionalDefinitions]
    exact (hB _ _ _ built).declares

mutual

theorem BuildsStmt.declares : ∀ {c c' : Context} {stmt : Stmt}, BuildsStmt f c stmt c' →
    Declares c.symbols stmt.definitions [] c'.symbols
  | _, _, _, .retNone _ rule => by
    obtain rfl := returnNothing_node rule
    rw [Stmt.definitions, optionalDefinitions]
    exact .of_globals rfl
  | _, _, _, .ret _ inner rule => by
    obtain ⟨_, rfl, hadapted⟩ := returnValue_node rule
    rw [Stmt.definitions, optionalDefinitions, blind_definitions _ _ hadapted]
    exact inner.declares
  | _, _, _, .expr inner => by
    rw [Stmt.definitions]
    exact inner.declares
  | _, _, _, .declaration _ entered => entered.declares
  | _, _, _, .block inner => by
    rw [Stmt.definitions]
    exact inner.declares
  | _, _, _, .ifThen test first => by
    rw [Stmt.definitions, Expr.definitions, optionalStmtDefinitions, List.append_nil]
    exact test.built.declares.append first.declares
  | _, _, _, .ifElse test first second => by
    rw [Stmt.definitions, Expr.definitions, optionalStmtDefinitions]
    exact test.built.declares.append (first.declares.append second.declares)
  | _, _, _, .whileLoop test inner => by
    rw [Stmt.definitions, Expr.definitions]
    exact test.built.declares.append inner.declares
  | _, _, _, .forLoop start test next inner => by
    rw [Stmt.definitions, Expr.definitions]
    exact (start.declares fun _ _ _ h => h).append ((test.declares fun _ _ _ h => h.built).append
      ((next.declares fun _ _ _ h => h).append inner.declares))

theorem BuildsStmts.declares : ∀ {c c' : Context} {stmts : List Stmt}, BuildsStmts f c stmts c' →
    Declares c.symbols (stmtDefinitions stmts) [] c'.symbols
  | _, _, _, .nil => by
    rw [stmtDefinitions]
    exact .of_globals rfl
  | _, _, _, .cons first rest => by
    rw [stmtDefinitions]
    exact first.declares.append rest.declares

end

/-- A new function has no body yet. -/
theorem declares_function {t t' : SymbolTable} {name : String} {ty : Ty} {label : Option Nat} {count : Int}
    (h : t.declareGlobal name .function ty label count = .ok t') :
    Declares t [] [name] t' ∧ t'.IsFunction name ∧ ¬ t'.Settled name := by
  have hfound := SymbolTable.global?_declareGlobal h
  refine ⟨⟨(SymbolTable.later_declareGlobal h).globals, .nil, by simp, by simp, by simp, fun g => ?_, fun g => ?_,
    fun hc g s hs hk => ?_⟩, ⟨_, hfound, rfl⟩, ?_⟩
  · rintro ⟨s, hs, hk⟩
    refine .inl ⟨s, (SymbolTable.global?_declareGlobal_of_ne h ?_).symm.trans hs, hk⟩
    rintro rfl
    cases hfound.symm.trans hs
    exact hk rfl
  · intro hf
    rw [List.mem_singleton]
    exact (((SymbolTable.isFunction_declareGlobal h g).1 hf).imp_left (·.1)).symm
  · refine hc g s ((SymbolTable.global?_declareGlobal_of_ne h ?_).symm.trans hs) hk
    rintro rfl
    cases hfound.symm.trans hs
    cases hk
  · simp [SymbolTable.Settled, hfound]

/-- A function is given a body. -/
theorem declares_body {t : SymbolTable} {name : String} (hf : t.IsFunction name) (hnew : ¬ t.Settled name) :
    Declares t [.function name] [] (t.define name) := by
  -- Only the mark of a body tells the globals apart.
  have hback : ∀ g s, (t.define name).global? g = some s → ∃ s', t.global? g = some s' ∧ s'.core = s.core := by
    intro g s hs
    rw [SymbolTable.global?_define] at hs
    obtain ⟨s', hs', rfl⟩ := Option.map_eq_some_iff.1 hs
    refine ⟨s', hs', ?_⟩
    split <;> rfl
  refine ⟨(t.later_define name).globals, by simp, ?_, ?_, by simp, fun g => ?_, fun g => ?_, fun hc g s hs hk => ?_⟩
  · simpa [Global.name] using hnew
  · obtain ⟨s, hs, hd⟩ := SymbolTable.isDefined_define hf
    have hsettled : (t.define name).Settled name := ⟨s, hs, fun _ => hd⟩
    simpa [Global.name] using hsettled
  · rintro ⟨s, hs, hk⟩
    obtain ⟨s', hs', hcore⟩ := hback g s hs
    exact .inl ⟨s', hs', Symbol.kind_of_core hcore ▸ hk⟩
  · rintro ⟨s, hs, hk⟩
    obtain ⟨s', hs', hcore⟩ := hback g s hs
    exact .inl ⟨s', hs', (Symbol.kind_of_core hcore).trans hk⟩
  · obtain ⟨s', hs', hcore⟩ := hback g s hs
    exact (Symbol.count_of_core hcore).symm.trans (hc g s' hs' ((Symbol.kind_of_core hcore).trans hk))

/-- A head declares its function, and defines it if it has a body. -/
theorem declare_declares (head : Head) (hasBody : Bool) (c : Context) :
    Ends (head.declare hasBody) c
      (fun _ c' => Declares c.symbols (if hasBody then [.function head.name] else []) [head.name] c'.symbols)
      (fun _ _ => True) := by
  -- What holds until the function is marked as defined.
  let Entered (c' : Context) : Prop := Declares c.symbols [] [head.name] c'.symbols ∧ c'.symbols.IsFunction head.name ∧
    (hasBody = true → ¬ c'.symbols.Settled head.name)
  refine ends_declareHead (P := fun _ => Entered) (R := Entered) ?_ ?_ (fun _ _ h _ => h) ?_
  · refine ends_mono enter_ends ?_ fun _ _ _ => trivial
    rintro isNew c₁ (⟨-, rfl, earlier, hearlier, hagree⟩ | ⟨-, t, ht, rfl⟩)
    · obtain ⟨hkind, -, hundefined⟩ := agreement_cases hagree
      refine ⟨(Declares.of_globals rfl).known, ⟨earlier, hearlier, hkind⟩, ?_⟩
      rintro hbody ⟨s, hs, hd⟩
      cases hearlier.symm.trans hs
      exact hundefined ⟨hd hkind, hbody⟩
    · obtain ⟨hdeclares, hfunction, hnew⟩ := declares_function ht
      exact ⟨hdeclares, hfunction, fun _ => hnew⟩
  · rintro isNew c₁ ⟨h₁, hfunction, hnew⟩ -
    refine ends_mono (params_filled head.name head.params c₁) (fun _ c₂ h₂ => ?_) fun _ _ _ => trivial
    have hglobal := SymbolTable.global?_congr h₂.globals
    refine ⟨h₁.append (.of_globals h₂.globals), ?_, ?_⟩
    · unfold SymbolTable.IsFunction
      rwa [hglobal]
    · unfold SymbolTable.Settled
      rwa [hglobal]
  · rintro c₂ ⟨h₂, hfunction, hnew⟩
    cases hasBody with
    | false => exact h₂
    | true => exact h₂.append (declares_body hfunction (hnew rfl))

variable {H : Head → Prop}

theorem BuildsItem.declares {item : Stmt} (h : BuildsItem H c item c') :
    Declares c.symbols item.definitions item.declares?.toList c'.symbols := by
  cases h with
  | declaration entered =>
    have hdeclares := entered.declares
    cases entered
    exact hdeclares
  | prototype _ entered =>
    have hdeclares := ends_of_ok (declare_declares _ false c) entered
    rw [Stmt.definitions]
    exact hdeclares
  | function _ entered inner =>
    have hdeclares := ends_of_ok (declare_declares _ true c) entered
    rw [Stmt.definitions]
    exact hdeclares.append inner.declares

theorem BuildsItems.declares {items : List Stmt} (h : BuildsItems H c items c') :
    Declares c.symbols (stmtDefinitions items) (items.flatMap (·.declares?.toList)) c'.symbols := by
  induction h with
  | nil =>
    rw [stmtDefinitions]
    exact .of_globals rfl
  | cons first rest ih =>
    rw [stmtDefinitions, List.flatMap_cons]
    exact first.declares.append ih

end Building

/-- **Definitions.** Reading a source makes the definitions of its program and declares its functions. -/
theorem parseSource_declares {source : String} {c c' : Context} {program : Program}
    (h : parseSource source c = .ok program c') :
    Declares c.symbols program.definitions (program.flatMap (·.declares?.toList)) c'.symbols := by
  obtain ⟨tokens, -, hparsed⟩ := parseSource_cases h
  have hitems := Parse.items_build (.start tokens c) (List.suffix_refl tokens)
  unfold parse at hparsed
  cases hres : Parse.items (.start tokens c) with
  | fail fault last => rw [hres] at hparsed; cases hparsed
  | ok items last _ =>
    rw [hres] at hparsed hitems
    cases hparsed
    exact BuildsItems.declares hitems

end MiniC
