import MiniC.Proofs.ListingNames
import MiniC.Proofs.LiteralData
import MiniC.Proofs.StackDiscipline

/-!
# Sections of listings

Read from the top, a line of a listing stands in the section that was opened last (`placed`). Every line has a section
where it belongs (`Line.home`). Lowering switches to the data section and back wherever a global variable is declared, in
bodies too, and the literals come after all code, so that every line is at home.

* `StmtCode.inPlace`, `FunctionCode.inPlace`, `ItemsCode.inPlace`: the lines of statements and items are where they
  belong, and the section after a statement is that of code again.
* `FunctionCode.sealed`: what stands in the text section between the name of a function and its return is code of that
  function alone.
* `compiled_sections`: all of it for a source that is compiled.
-/

namespace MiniC

/-! ## Places -/

inductive Section where
  | text
  | data
  | rodata
  | note
  deriving DecidableEq

/-- The section that a line opens. -/
def Line.opens? : Line → Option Section
  | .directive .text => some .text
  | .directive .data => some .data
  | .directive .rodata => some .rodata
  | .directive .stackNote => some .note
  | _ => none

/-- Lines with the sections that they stand in; what opens a section is left out. -/
def placed : Option Section → List Line → List (Option Section × Line)
  | _, [] => []
  | current, line :: lines =>
    match line.opens? with
    | some opened => placed (some opened) lines
    | none => (current, line) :: placed current lines

/-- The section after some lines. -/
def sectionAfter : Option Section → List Line → Option Section
  | current, [] => current
  | current, line :: lines => sectionAfter (line.opens?.or current) lines

/-- What stands in a section. -/
def contents (which : Section) (places : List (Option Section × Line)) : List Line :=
  (places.filter (·.1 = some which)).map (·.2)

/-- The section where a line belongs in the listing of a program: code, and the names of functions, in the text section,
variables and their zeros in the data section, literals in the read-only section. -/
def Line.home (program : Program) : Line → Section
  | .instr _ | .directive .text | .directive (.function _) => .text
  | .name v | .directive (.globl v) => if .function v ∈ program.definitions then .text else .data
  | .directive .data | .directive (.align _) | .directive (.zero _) => .data
  | .label n => if n ∈ stmtLiterals program then .rodata else .text
  | .directive .rodata | .directive (.byte _) => .rodata
  | .directive .stackNote => .note

section Places

variable {current : Option Section} {lines lines' : List Line}

theorem placed_append (current : Option Section) (lines lines' : List Line) :
    placed current (lines ++ lines') = placed current lines ++ placed (sectionAfter current lines) lines' := by
  induction lines generalizing current with
  | nil => rfl
  | cons line lines ih =>
    rw [List.cons_append, placed, placed, sectionAfter]
    cases line.opens? with
    | some opened => exact ih (some opened)
    | none => exact congrArg ((current, line) :: ·) (ih current)

theorem sectionAfter_append (current : Option Section) (lines lines' : List Line) :
    sectionAfter current (lines ++ lines') = sectionAfter (sectionAfter current lines) lines' := by
  induction lines generalizing current with
  | nil => rfl
  | cons line lines ih => exact ih _

/-- Lines that open no section stand where the first of them stands. -/
theorem placed_of_plain (h : ∀ line ∈ lines, line.opens? = none) (current : Option Section) :
    placed current lines = lines.map (current, ·) ∧ sectionAfter current lines = current := by
  induction lines with
  | nil => exact ⟨rfl, rfl⟩
  | cons line lines ih =>
    obtain ⟨hplaced, hafter⟩ := ih fun l hl => h l (List.mem_cons_of_mem _ hl)
    rw [placed, sectionAfter, h line List.mem_cons_self, hplaced]
    exact ⟨rfl, hafter⟩

/-- The text section is what is placed in it. -/
theorem contents_text (current : Option Section) (lines : List Line) :
    contents .text (placed current lines) = textLines (current = some .text) lines := by
  induction lines generalizing current with
  | nil => rfl
  | cons line lines ih =>
    have hopens : line.switches? = line.opens?.map fun opened => decide (opened = .text) := by
      cases line with
      | directive d => cases d <;> rfl
      | _ => rfl
    rw [placed, textLines, hopens]
    cases line.opens? with
    | some opened => simpa using ih (some opened)
    | none =>
      by_cases htext : current = some .text
      · simpa [contents, htext] using ih (some .text)
      · simpa [contents, htext] using ih current

end Places

/-! ## Lines where they belong -/

/-- Every line stands where it belongs, and what comes next stands in the section `after`. -/
structure InPlace (program : Program) (current : Option Section) (lines : List Line) (after : Option Section) : Prop where
  home : ∀ place ∈ placed current lines, place.1 = some (place.2.home program)
  after : sectionAfter current lines = after

section InPlace

variable {program : Program} {current middle after : Option Section} {lines lines' : List Line}

theorem InPlace.nil : InPlace program current [] current := ⟨by simp [placed], rfl⟩

theorem InPlace.append (h : InPlace program current lines middle) (h' : InPlace program middle lines' after) :
    InPlace program current (lines ++ lines') after := by
  constructor
  · rw [placed_append, h.after]
    exact List.forall_mem_append.2 ⟨h.home, h'.home⟩
  · rw [sectionAfter_append, h.after, h'.after]

theorem InPlace.cons {line : Line} (h : InPlace program current [line] middle) (h' : InPlace program middle lines after) :
    InPlace program current (line :: lines) after := h.append h'

theorem inPlace_opens {line : Line} {opened : Section} (h : line.opens? = some opened) :
    InPlace program current [line] (some opened) := by
  constructor
  · simp [placed, h]
  · simp [sectionAfter, h]

theorem inPlace_plain {which : Section} (hplain : ∀ line ∈ lines, line.opens? = none)
    (hhome : ∀ line ∈ lines, line.home program = which) : InPlace program (some which) lines (some which) := by
  obtain ⟨hplaced, hafter⟩ := placed_of_plain hplain (some which)
  refine ⟨?_, hafter⟩
  rw [hplaced, List.forall_mem_map]
  exact fun line hline => congrArg some (hhome line hline).symm

theorem inPlace_code (code : List Instr) : InPlace program (some .text) (instrLines code) (some .text) := by
  apply inPlace_plain <;> simp [instrLines, Line.opens?, Line.home]

theorem inPlace_instr (i : Instr) : InPlace program (some .text) [.instr i] (some .text) := inPlace_code [i]

theorem inPlace_label {n : Nat} (h : n ∉ stmtLiterals program) :
    InPlace program (some .text) [.label n] (some .text) := by
  apply inPlace_plain <;> simp [Line.opens?, Line.home, h]

/-- A jump over a label. -/
theorem inPlace_jump (target : Nat) {n : Nat} (h : n ∉ stmtLiterals program) :
    InPlace program (some .text) [.instr (.jump target), .label n] (some .text) := (inPlace_instr _).cons (inPlace_label h)

theorem opens?_zeros (name : String) (s : Symbol) : ∀ line ∈ Lower.zeros name s, line.opens? = none := by
  intro line hline
  rcases List.mem_append.1 hline with hhead | hzero
  · simp only [List.mem_cons, List.not_mem_nil, or_false] at hhead
    rcases hhead with rfl | rfl | rfl <;> rfl
  · cases List.eq_of_mem_replicate hzero
    rfl

theorem inPlace_zeros {name : String} (s : Symbol) (h : .function name ∉ program.definitions) :
    InPlace program (some .data) (Lower.zeros name s) (some .data) := by
  refine inPlace_plain (opens?_zeros name s) fun line hline => ?_
  rcases List.mem_append.1 hline with hhead | hzero
  · simp only [List.mem_cons, List.not_mem_nil, or_false] at hhead
    rcases hhead with rfl | rfl | rfl <;> simp [Line.home, h]
  · cases List.eq_of_mem_replicate hzero
    rfl

theorem inPlace_head {f : String} (h : .function f ∈ program.definitions) :
    InPlace program (some .text) (headLines f) (some .text) := by
  apply inPlace_plain <;> simp [headLines, Line.opens?, Line.home, h]

/-- The section that a segment is. -/
def Segment.asSection : Segment → Section
  | .text => .text
  | .data => .data

theorem inPlace_switching (segment : Option Segment) (target : Segment) :
    InPlace program (segment.map (·.asSection)) (Lower.switching segment target) (some target.asSection) := by
  unfold Lower.switching
  split
  · next h => rw [h]; exact .nil
  · exact inPlace_opens (by cases target <;> rfl)

/-- The literals of a program, if there are any, are opened by their section and have labels and bytes only. -/
theorem stringLines_split (strings : List (Nat × List UInt8)) : stringLines strings = [] ∨
    ∃ data, stringLines strings = .directive .rodata :: data ∧
      ∀ line ∈ data, (∃ p ∈ strings, line = .label p.1) ∨ ∃ byte, line = .directive (.byte byte) := by
  unfold stringLines
  split
  · exact .inl rfl
  · refine .inr ⟨_, rfl, fun line hline => ?_⟩
    obtain ⟨p, hp, hline⟩ := List.mem_flatMap.1 hline
    rcases List.mem_cons.1 hline with rfl | hbyte
    · exact .inl ⟨p, hp, rfl⟩
    · obtain ⟨byte, -, rfl⟩ := List.mem_map.1 hbyte
      exact .inr ⟨byte, rfl⟩

theorem inPlace_strings {strings : List (Nat × List UInt8)} (h : ∀ p ∈ strings, p.1 ∈ stmtLiterals program) :
    InPlace program current (stringLines strings ++ [.directive .stackNote]) (some .note) := by
  rcases stringLines_split strings with hnone | ⟨data, hsome, hdata⟩
  · rw [hnone]
    exact inPlace_opens rfl
  · rw [hsome]
    have hplain : InPlace program (some .rodata) data (some .rodata) := by
      apply inPlace_plain <;> intro line hline <;> obtain ⟨p, hp, rfl⟩ | ⟨byte, rfl⟩ := hdata line hline
      · rfl
      · rfl
      · exact if_pos (h p hp)
      · rfl
    exact ((inPlace_opens rfl).append hplain).append (inPlace_opens rfl)

/-- Lines that follow each other and open no section stand in the same one, where any of them belongs. -/
theorem InPlace.together (h : InPlace program current lines after) {part : List Line} {line : Line}
    (hplain : ∀ line ∈ part, line.opens? = none) (hpart : part <:+: lines) (hline : line ∈ part) :
    part.map (some (line.home program), ·) <:+: placed current lines := by
  obtain ⟨before, rest, rfl⟩ := hpart
  obtain ⟨hpart, -⟩ := placed_of_plain hplain (sectionAfter current before)
  have hplaced := placed_append current (before ++ part) rest
  rw [placed_append current before part, hpart] at hplaced
  have hhome := h.home (sectionAfter current before, line) (by rw [hplaced]; simp [hline])
  rw [← hhome]
  exact ⟨_, _, hplaced.symm⟩

end InPlace

/-! ## Code of statements and items -/

/-- The labels are not those of literals, and the names not those of functions. -/
structure Clear (program : Program) (lines : List Line) : Prop where
  labels : ∀ k ∈ labels lines, k ∉ stmtLiterals program
  names : ∀ v ∈ names lines, .function v ∉ program.definitions

section Statements

variable {program : Program} {t : SymbolTable} {f : String} {ret : Ty} {exit n n' : Nat} {stmt : Stmt}
  {lines lines' : List Line}

theorem clear_append : Clear program (lines ++ lines') ↔ Clear program lines ∧ Clear program lines' := by
  constructor
  · rintro ⟨hlabels, hnames⟩
    rw [labels_append, List.forall_mem_append] at hlabels
    rw [names_append, List.forall_mem_append] at hnames
    exact ⟨⟨hlabels.1, hnames.1⟩, ⟨hlabels.2, hnames.2⟩⟩
  · rintro ⟨h, h'⟩
    constructor
    · rw [labels_append, List.forall_mem_append]
      exact ⟨h.labels, h'.labels⟩
    · rw [names_append, List.forall_mem_append]
      exact ⟨h.names, h'.names⟩

theorem clear_cons {line : Line} : Clear program (line :: lines) ↔ Clear program [line] ∧ Clear program lines :=
  show Clear program ([line] ++ lines) ↔ _ from clear_append

theorem clear_pair {line line' : Line} : Clear program [line, line'] ↔ Clear program [line] ∧ Clear program [line'] :=
  clear_cons

theorem Clear.label {k : Nat} (h : Clear program [.label k]) : k ∉ stmtLiterals program :=
  h.labels k (List.mem_singleton_self k)

/-- **Statements.** Whatever is declared in a statement, its lines are where they belong, and what follows it is code
again. -/
theorem StmtCode.inPlace (h : StmtCode t f ret exit n stmt lines n') (hclear : Clear program lines) :
    InPlace program (some .text) lines (some .text) := by
  have hcode := @inPlace_code program
  have hinstr := @inPlace_instr program
  induction h with
  | retNone => exact hinstr _
  | retValue | expr => exact hcode _
  | varDecl | blockNil => exact .nil
  | @globalDecl n name s found =>
    have hname : .function name ∉ program.definitions := hclear.names name (by simp)
    exact (inPlace_opens rfl).cons ((inPlace_zeros s hname).append (inPlace_opens rfl))
  | blockCons _ _ ih ih' =>
    rw [clear_append] at hclear
    exact (ih hclear.1).append (ih' hclear.2)
  | ifThen _ _ ih =>
    simp only [clear_append] at hclear
    obtain ⟨-, hbody, hend⟩ := hclear
    exact (hcode _).append ((ih hbody).append (inPlace_label hend.label))
  | ifElse _ _ _ ih ih' =>
    simp only [clear_append, clear_pair] at hclear
    obtain ⟨-, hbody, ⟨-, helse⟩, hother, hend⟩ := hclear
    have hrest := (ih' hother).append (inPlace_label hend.label)
    exact (hcode _).append ((ih hbody).append ((inPlace_jump _ helse.label).append hrest))
  | whileLoop _ _ ih =>
    rw [clear_cons] at hclear
    simp only [clear_append, clear_pair] at hclear
    obtain ⟨hstart, -, hbody, -, hend⟩ := hclear
    exact (inPlace_label hstart.label).cons ((hcode _).append ((ih hbody).append (inPlace_jump _ hend.label)))
  | forLoop _ _ _ _ ih =>
    rw [clear_append, clear_cons] at hclear
    simp only [clear_append, clear_pair] at hclear
    obtain ⟨-, hstart, -, hbody, -, -, hend⟩ := hclear
    exact (hcode _).append ((inPlace_label hstart.label).cons ((hcode _).append ((ih hbody).append
      ((hcode _).append (inPlace_jump _ hend.label)))))

/-- Statements define variables only. -/
theorem StmtCode.defines_variables (h : StmtCode t f ret exit n stmt lines n') :
    ∀ v ∈ names lines, .variable v ∈ stmt.definitions := by
  induction h with
  | retNone | retValue | expr | varDecl | blockNil => simp
  | globalDecl => simp [Stmt.definitions]
  | blockCons _ _ ih ih' =>
    simp only [Stmt.definitions] at ih'
    simp only [names_append, Stmt.definitions, stmtDefinitions, List.mem_append]
    grind
  | ifThen _ _ ih | whileLoop _ _ ih | forLoop _ _ _ _ ih =>
    simp only [names_append, names_instrLines, names_label, names_instr, names_nil, List.nil_append, List.append_nil,
      Stmt.definitions, Expr.definitions, optionalStmtDefinitions, List.mem_append]
    grind
  | ifElse _ _ _ ih ih' =>
    simp only [names_append, names_instrLines, names_label, names_instr, names_nil, List.nil_append, List.append_nil,
      Stmt.definitions, Expr.definitions, optionalStmtDefinitions, List.mem_append]
    grind

/-- The lines of a function that the program defines are where they belong. -/
theorem FunctionCode.inPlace {size : Int} {body : Stmt} (h : FunctionCode t f ret exit size n body lines n')
    (hf : .function f ∈ program.definitions) (hlabels : ∀ k ∈ labels lines, k ∉ stmtLiterals program)
    (hvariables : ∀ v, .variable v ∈ body.definitions → .function v ∉ program.definitions) :
    InPlace program (some .text) lines (some .text) := by
  cases h with
  | @mk _ _ inner code =>
    simp only [labels_append, labels_label, List.mem_append, List.mem_cons] at hlabels
    have hclear : Clear program inner := by
      refine ⟨fun k hk => hlabels k (by simp [hk]), fun v hv => hvariables v (code.defines_variables v hv)⟩
    have hexit : exit ∉ stmtLiterals program := hlabels exit (by simp)
    exact (inPlace_head hf).append ((inPlace_code _).append ((code.inPlace hclear).append
      ((inPlace_label hexit).append (inPlace_code _))))

/-- **Items.** The lines of the items of a program are where they belong. -/
theorem ItemsCode.inPlace {t' : SymbolTable} {segment segment' : Option Segment} {items : Program}
    (h : ItemsCode t segment n items lines t' segment' n') (hlabels : ∀ k ∈ labels lines, k ∉ stmtLiterals program)
    (hfunctions : ∀ f, .function f ∈ items.definitions → .function f ∈ program.definitions)
    (hvariables : ∀ v, .variable v ∈ items.definitions → .function v ∉ program.definitions) :
    InPlace program (segment.map (·.asSection)) lines (segment'.map (·.asSection)) := by
  change ∀ f, .function f ∈ stmtDefinitions items → _ at hfunctions
  change ∀ v, .variable v ∈ stmtDefinitions items → _ at hvariables
  induction h with
  | nil => exact .nil
  | @globalDecl _ _ _ _ _ _ name s _ _ _ _ ih =>
    simp only [labels_append, labels_switching, labels_zeros, List.nil_append] at hlabels
    simp only [stmtDefinitions, Stmt.definitions, List.mem_append, List.mem_singleton] at hfunctions hvariables
    exact (inPlace_switching _ .data).append ((inPlace_zeros s (hvariables name (.inl rfl))).append
      (ih hlabels (fun g hg => hfunctions g (.inr hg)) fun v hv => hvariables v (.inr hv)))
  | prototype _ ih =>
    simp only [stmtDefinitions, Stmt.definitions, List.nil_append] at hfunctions hvariables
    exact ih hlabels hfunctions hvariables
  | @function _ _ _ _ _ _ _ f _ _ _ _ _ _ _ code _ ih =>
    simp only [labels_append, labels_switching, List.nil_append, List.mem_append] at hlabels
    simp only [stmtDefinitions, Stmt.definitions, List.mem_append, List.mem_cons, reduceCtorEq, false_or]
      at hfunctions hvariables
    have hcode := code.inPlace (hfunctions f (.inl (.inl rfl))) (fun k hk => hlabels k (.inl hk)) fun v hv =>
      hvariables v (.inl hv)
    exact (inPlace_switching _ .text).append (hcode.append
      (ih (fun k hk => hlabels k (.inr hk)) (fun g hg => hfunctions g (.inr hg)) fun v hv => hvariables v (.inr hv)))

end Statements

/-! ## Functions in the text section -/

def Line.isCode : Line → Bool
  | .instr _ | .label _ => true
  | _ => false

/-- Code that does not return by itself: instructions and labels only, with all jumps to labels among them. -/
structure Sealed (lines : List Line) : Prop where
  code : ∀ line ∈ lines, line.isCode
  noReturn : .instr .ret ∉ lines
  jumps : JumpsTo (labels lines) lines

section Sealed

variable {t t' : SymbolTable} {f : String} {ret : Ty} {exit n n' : Nat} {stmt body : Stmt} {lines : List Line}

theorem isCode_instrLines (code : List Instr) : ∀ line ∈ instrLines code, line.isCode := by
  intro line hline
  obtain ⟨i, -, rfl⟩ := List.mem_map.1 hline
  rfl

/-- No directive of a statement stands in the text section. -/
theorem StmtCode.text_code (h : StmtCode t f ret exit n stmt lines n') :
    ∀ line ∈ textLines true lines, line.isCode := by
  have hinstr := isCode_instrLines
  induction h with
  | retNone => exact hinstr [_]
  | varDecl | blockNil => exact List.forall_mem_nil _
  | retValue | expr =>
    rw [(textLines_of_plain switches?_instrLines true).1]
    exact hinstr _
  | globalDecl =>
    rw [textLines_globalDecl]
    exact List.forall_mem_nil _
  | blockCons first others ih ih' =>
    rw [first.text_append, List.forall_mem_append]
    exact ⟨ih, ih'⟩
  | ifThen test body ih =>
    rw [textLines_instrLines, body.text_append]
    simp only [textLines_label, textLines_nil, List.forall_mem_append, List.forall_mem_cons]
    exact ⟨hinstr _, ih, rfl, List.forall_mem_nil _⟩
  | ifElse test body other ih ih' =>
    rw [textLines_ifElse body.ends_in_text other.ends_in_text]
    simp only [List.forall_mem_append, List.forall_mem_cons]
    exact ⟨hinstr _, ih, rfl, rfl, ih', rfl, List.forall_mem_nil _⟩
  | whileLoop test rounds ih =>
    rw [textLines_label, textLines_instrLines, rounds.text_append]
    simp only [textLines_label, textLines_instr, textLines_nil, List.forall_mem_append, List.forall_mem_cons]
    exact ⟨rfl, hinstr _, ih, rfl, rfl, List.forall_mem_nil _⟩
  | forLoop start test rounds next ih =>
    rw [textLines_instrLines, textLines_label, textLines_instrLines, rounds.text_append, textLines_instrLines]
    simp only [textLines_label, textLines_instr, textLines_nil, List.forall_mem_append, List.forall_mem_cons]
    exact ⟨hinstr _, rfl, hinstr _, ih, hinstr _, rfl, rfl, List.forall_mem_nil _⟩

/-- **Functions.** Between the name of a function and its return there is only its code. -/
theorem FunctionCode.sealed {size : Int} (h : FunctionCode t f ret exit size n body lines n') :
    ∃ inner, Sealed inner ∧ ∀ more,
      textLines true (lines ++ more) = headLines f ++ (inner ++ .instr .ret :: textLines true more) := by
  obtain ⟨-, stmts, hstmts, htext⟩ := h.text_append
  let entry := Lower.prologue size ++ paramStores (t.params f) Reg.arguments
  have hentry : ∀ i ∈ entry, i.Inert := inert_entry size (t.params f) Reg.arguments
  have hstraight : ∀ {code : List Instr}, (∀ i ∈ code, i.Inert) → ∀ i ∈ code, i.Straight :=
    fun h i hi => ⟨(h i hi).1, (h i hi).2.2⟩
  have hreturn : ∀ {code : List Instr}, (∀ i ∈ code, i.Inert) → .instr .ret ∉ instrLines code := by
    intro code hcode hin
    obtain ⟨i, hi, hret⟩ := List.mem_map.1 hin
    exact (hcode i hi).2.2 (Line.instr.inj hret)
  have hstmtsReturn : .instr .ret ∉ textLines true stmts := fun hin =>
    (hstmts.inner _ ((sublist_textLines true stmts).subset hin)).1 rfl
  refine ⟨instrLines entry ++ (textLines true stmts ++ .label exit :: instrLines closing), ⟨?_, ?_, ?_⟩, fun more => ?_⟩
  · simp only [List.forall_mem_append, List.forall_mem_cons]
    exact ⟨isCode_instrLines entry, hstmts.text_code, rfl, isCode_instrLines closing⟩
  · simp [hreturn hentry, hstmtsReturn, hreturn inert_closing]
  · simp only [jumpsTo_append, jumpsTo_label, labels_append, labels_label, labels_instrLines, List.nil_append,
      hstmts.labels_text]
    refine ⟨jumpsTo_straight (hstraight hentry), fun i hi k hk => ?_, jumpsTo_straight (hstraight inert_closing)⟩
    have hjump := hstmts.jumps i ((sublist_textLines true stmts).subset hi) k hk
    simpa [or_comm] using hjump
  · rw [htext]
    simp [entry, closing, Lower.epilogue, instrLines]

end Sealed

/-! ## Listings -/

/-- In the listing of a program, whose variables are those of `t`, code and data are kept apart. -/
structure Sectioned (program : Program) (t : SymbolTable) (lines : List Line) : Prop where
  /-- Every line stands where it belongs. -/
  home : ∀ place ∈ placed none lines, place.1 = some (place.2.home program)
  /-- In the text section the name of a function is followed by its code alone, up to its return. -/
  functions : ∀ f body, .function f body ∈ program → ∃ before inner after, Sealed inner ∧
    contents .text (placed none lines) = before ++ .name f :: (inner ++ .instr .ret :: after)
  storage : ∀ v, .variable v ∈ program.definitions → ∃ s, t.global? v = some s ∧
    (Lower.zeros v s).map (some .data, ·) <:+: placed none lines
  literals : ∀ p ∈ stmtStrings program, (literalLines p.1 p.2).map (some .rodata, ·) <:+: placed none lines
  /-- No code follows the literals. -/
  last : ∀ before after, lines = before ++ .directive .rodata :: after → ∀ line ∈ after,
    (∃ k ∈ stmtLiterals program, line = .label k) ∨ (∃ byte, line = .directive (.byte byte)) ∨
      line = .directive .stackNote

section Listings

variable {t t' : SymbolTable} {segment segment' : Option Segment} {n n' : Nat} {program : Program} {lines : List Line}

/-- No name is both that of a variable and that of a function. -/
theorem not_both_of_once (honce : (program.definitions.map Global.name).Nodup) (v : String)
    (h : .variable v ∈ program.definitions) : .function v ∉ program.definitions := by
  intro hfunction
  cases List.inj_on_of_nodup_map honce h hfunction rfl

/-- The functions of a program in the text section of its listing. -/
theorem ItemsCode.sealed {f : String} {body : Stmt} (h : ItemsCode t none n program lines t' segment' n')
    (hf : .function f body ∈ program) (more : List Line) : ∃ before inner after, Sealed inner ∧
      textLines false (lines ++ more) = before ++ .name f :: (inner ++ .instr .ret :: after) := by
  obtain ⟨earlier, later, rfl⟩ := List.append_of_mem hf
  obtain ⟨lines₁, segment₁, n₁, symbol, exit, code, n₂, lines₂, rfl, hitems, -, -, hcode⟩ := h.split
  obtain ⟨inner, hsealed, htext⟩ := hcode.sealed
  have hstart : Segment.Inside none false := ⟨nofun, nofun⟩
  obtain ⟨hin, -⟩ := hitems.names_defined hstart
  refine ⟨textLines false lines₁ ++ [.directive (.globl f), .directive (.function f)], inner,
    textLines true (lines₂ ++ more), hsealed, ?_⟩
  simp only [List.append_assoc]
  rw [textLines_append, (textLines_switching hin .text _).1]
  exact congrArg (textLines false lines₁ ++ ·) (htext (lines₂ ++ more))

/-- No item has literals among its lines. -/
theorem ItemsCode.rodata_not_mem {items : Program} (h : ItemsCode t segment n items lines t' segment' n') :
    .directive .rodata ∉ lines := by
  have hinstr : ∀ code, .directive .rodata ∉ instrLines code := by simp [instrLines]
  have hzeros : ∀ name s, .directive .rodata ∉ Lower.zeros name s := fun name s hin => by
    cases opens?_zeros name s _ hin
  have hswitching : ∀ segment target, .directive .rodata ∉ Lower.switching segment target := by
    intro segment target
    rcases switching_cases segment target with h | h <;> rw [h]
    · exact List.not_mem_nil
    · cases target <;> simp [Segment.directive]
  have hstmt : ∀ {t f ret exit n stmt lines n'}, StmtCode t f ret exit n stmt lines n' → .directive .rodata ∉ lines := by
    intro t f ret exit n stmt lines n' h
    induction h <;> simp_all
  induction h with
  | nil => exact List.not_mem_nil
  | globalDecl _ _ ih => simp [hswitching, hzeros, ih]
  | prototype _ ih => exact ih
  | function _ code _ ih =>
    cases code with
    | mk code => simp [hswitching, headLines, hinstr, hstmt code, ih]

/-- What follows the start of the literals in a listing. -/
theorem mem_after_rodata {strings : List (Nat × List UInt8)} (hcode : .directive .rodata ∉ lines)
    {before after : List Line} (h : lines ++ (stringLines strings ++ [.directive .stackNote]) =
      before ++ .directive .rodata :: after) {line : Line} (hline : line ∈ after) :
    (∃ p ∈ strings, line = .label p.1) ∨ (∃ byte, line = .directive (.byte byte)) ∨ line = .directive .stackNote := by
  rcases stringLines_split strings with hnone | ⟨data, hsome, hdata⟩
  · have hmem : .directive .rodata ∈ lines ++ (stringLines strings ++ [.directive .stackNote]) := by simp [h]
    simp [hnone, hcode] at hmem
  · have hlast : .directive .rodata ∉ data ++ [.directive .stackNote] := by
      rw [List.mem_append]
      rintro (hin | hin)
      · rcases hdata _ hin with ⟨_, -, heq⟩ | ⟨_, heq⟩ <;> cases heq
      · simp at hin
    rw [hsome, List.cons_append, List.append_cons_inj_of_notMem hcode hlast] at h
    obtain ⟨-, -, rfl⟩ := h
    rcases List.mem_append.1 hline with hin | hin
    · exact (hdata line hin).imp_right .inl
    · exact .inr (.inr (List.mem_singleton.1 hin))

/-- **Code and data never mix.** In the assembly of a source every instruction, the name of every function and every label
other than those of literals stand in the text section, global variables and their zeros in the data section, wherever
they are declared, and literals in the read-only section after all code. Execution that enters a function stays in its
code until it returns. -/
theorem compiled_sections {source text : String} (h : compile source = .ok text) :
    ∃ program context listing context', parseSource source {} = .ok program context ∧
      generate program context = .ok listing context' ∧ text = listing.render ∧
      Sectioned program context.symbols listing.toList := by
  obtain ⟨program, context, listing, context', hparse, hgenerate, htext⟩ := compile_ok_iff.1 h
  refine ⟨program, context, listing, context', hparse, hgenerate, htext, ?_⟩
  have hparsed := ends_of_ok (parseSource_labels source .empty) hparse
  have honce := (parseSource_declares hparse).once
  obtain ⟨-, lines, segment, strings, hcode, hlines, htied⟩ :=
    ends_of_ok (generate_tied hparsed.read.sound hparsed.read.typed) hgenerate
  -- the labels of literals are those that the code refers to
  have hliterals : ∀ k, k ∈ stmtLiterals program ↔ k ∈ strings.map (·.1) := fun k => by
    rw [← htied, hcode.literals.mem_iff]
  have hlabels : ∀ k ∈ labels lines, k ∉ stmtLiterals program := by
    have hnodup := nodup_listing hparsed hgenerate
    rw [hlines, labels_append, labels_append, (stringLines_cases strings).1] at hnodup
    intro k hk hin
    exact (List.nodup_append.1 hnodup).2.2 k hk k (List.mem_append_left _ ((hliterals k).1 hin)) rfl
  have hstrings : ∀ p ∈ strings, p.1 ∈ stmtLiterals program := fun p hp =>
    (hliterals p.1).2 (List.mem_map_of_mem hp)
  have hplace : InPlace program none listing.toList (some .note) := by
    rw [hlines]
    exact (hcode.inPlace hlabels (fun _ => id) (not_both_of_once honce)).append (inPlace_strings hstrings)
  refine ⟨hplace.home, fun f body hf => ?_, fun v hv => ?_, fun p hp => ?_, fun before after hafter line hline => ?_⟩
  · rw [contents_text, hlines]
    exact hcode.sealed hf _
  · obtain ⟨s, hs, before, after, rfl, -⟩ := hcode.reserves hv
    have hpart : Lower.zeros v s <:+: listing.toList := by
      rw [hlines]
      exact List.infix_append_of_infix_left (List.infix_append' before (Lower.zeros v s) after)
    have hname : .name v ∈ Lower.zeros v s := by simp [Lower.zeros]
    have htogether := hplace.together (opens?_zeros v s) hpart hname
    rw [Line.home, if_neg (not_both_of_once honce v hv)] at htogether
    exact ⟨s, hs, htogether⟩
  · have hpart := generate_literal hgenerate hp
    have hplain : ∀ line ∈ literalLines p.1 p.2, line.opens? = none := by
      unfold literalLines
      simp only [List.forall_mem_cons, List.forall_mem_map]
      exact ⟨rfl, fun _ _ => rfl⟩
    have hzero : .directive (.byte 0) ∈ literalLines p.1 p.2 := by simp [literalLines]
    exact hplace.together hplain hpart hzero
  · rw [hlines] at hafter
    rcases mem_after_rodata hcode.rodata_not_mem hafter hline with ⟨p, hp, rfl⟩ | hother
    · exact .inl ⟨p.1, hstrings p hp, rfl⟩
    · exact .inr hother

/-- A variable between the statements of a loop in a branch, a literal, and code after both. -/
def sectionedSource : String :=
  "func put(char *s) -> void; func f(int n) -> int \x7b if (n) while (n) \x7b n--; global long t[2]; put(\"a\"); \x7d return n; \x7d"

/-- Where the variable, the literal and the places that the function jumps to stand in the listing of that source. -/
theorem compiled_sections_mixed :
    ∃ text program context listing context', compile sectionedSource = .ok text ∧
      parseSource sectionedSource {} = .ok program context ∧ generate program context = .ok listing context' ∧
      text = listing.render ∧ Sectioned program context.symbols listing.toList ∧
      labels (contents .text (placed none listing.toList)) = [4, 5, 3, 1] ∧
      contents .data (placed none listing.toList) =
        [.directive (.globl "t"), .directive (.align 8), .name "t", .directive (.zero .quad), .directive (.zero .quad)] ∧
      contents .rodata (placed none listing.toList) = [.label 2, .directive (.byte 97), .directive (.byte 0)] := by
  cases hcompile : compile sectionedSource with
  | error fault =>
    have hok : (compile sectionedSource).isOk = true := by decide +kernel
    rw [hcompile] at hok
    cases hok
  | ok text =>
    obtain ⟨program, context, listing, context', hparse, hgenerate, htext, hsections⟩ := compiled_sections hcompile
    have hcontents : (ended (parseSource sectionedSource {})).any (fun read => (ended (generate read.1 read.2)).any fun lowered =>
        labels (contents .text (placed none lowered.1.toList)) = [4, 5, 3, 1] ∧
        contents .data (placed none lowered.1.toList) = [.directive (.globl "t"), .directive (.align 8), .name "t",
          .directive (.zero .quad), .directive (.zero .quad)] ∧
        contents .rodata (placed none lowered.1.toList) = [.label 2, .directive (.byte 97), .directive (.byte 0)]) =
        true := by
      decide +kernel
    rw [hparse, ended, Option.any_some, hgenerate] at hcontents
    exact ⟨text, program, context, listing, context', rfl, hparse, hgenerate, htext, hsections, by
      simpa [ended] using hcontents⟩

end Listings

end MiniC
