import MiniC.Proofs.ProgramCode
import MiniC.Proofs.StatementCorrect

/-!
# Where labels lead

A label is drawn once and a function is defined once, so a jump in the listing of an accepted program leads to the one
place where its label stands, and a name to the one function that bears it.

* `StmtCode.labels_drawn`, `ItemsCode.labels_drawn`: which labels stand in the code of statements and items.
* `ItemsCode.names_defined`: which names stand in the text section of items.
* `function_placed`: the text section of a listing, seen from one of its functions.
-/

namespace MiniC

/-! ## Labels of lines -/

/-- The labels of lines. -/
def labels (lines : List Line) : List Nat :=
  lines.filterMap fun
    | .label n => some n
    | _ => none

@[simp] theorem labels_nil : labels [] = [] := rfl

@[simp] theorem labels_label (n : Nat) (lines : List Line) : labels (.label n :: lines) = n :: labels lines := rfl

@[simp] theorem labels_instr (i : Instr) (lines : List Line) : labels (.instr i :: lines) = labels lines := rfl

@[simp] theorem labels_directive (d : Directive) (lines : List Line) : labels (.directive d :: lines) = labels lines := rfl

@[simp] theorem labels_name (name : String) (lines : List Line) : labels (.name name :: lines) = labels lines := rfl

@[simp] theorem labels_append (lines lines' : List Line) : labels (lines ++ lines') = labels lines ++ labels lines' :=
  List.filterMap_append

@[simp] theorem labels_instrLines (code : List Instr) : labels (instrLines code) = [] := by
  induction code with
  | nil => rfl
  | cons i code ih => exact ih

theorem mem_labels {n : Nat} {lines : List Line} : n ∈ labels lines ↔ .label n ∈ lines := by
  unfold labels
  rw [List.mem_filterMap]
  constructor
  · rintro ⟨line, hline, hn⟩
    cases line with
    | label m =>
      cases hn
      exact hline
    | _ => cases hn
  · exact fun h => ⟨_, h, rfl⟩

@[simp] theorem labels_zeros (name : String) (s : Symbol) : labels (Lower.zeros name s) = [] := by
  refine List.eq_nil_iff_forall_not_mem.2 fun n hn => ?_
  rcases List.mem_append.1 (mem_labels.1 hn) with hhead | hzeros
  · simp at hhead
  · cases List.eq_of_mem_replicate hzeros

theorem sublist_textLines (inside : Bool) (lines : List Line) : (textLines inside lines).Sublist lines := by
  induction lines generalizing inside with
  | nil => exact List.Sublist.refl _
  | cons line lines ih =>
    rw [textLines]
    cases line.switches? with
    | some inside' => exact (ih inside').cons _
    | none =>
      cases inside with
      | true => exact (ih true).cons_cons _
      | false => exact (ih false).cons _

/-! ## Labels of statements -/

section Statements

variable {t : SymbolTable} {f : String} {ret : Ty} {exit n n' : Nat} {stmt : Stmt} {lines : List Line}

/-- The labels of a statement are those drawn for it, each one once. -/
theorem StmtCode.labels_drawn (h : StmtCode t f ret exit n stmt lines n') :
    (∀ k ∈ labels lines, n ≤ k ∧ k < n') ∧ (labels lines).Nodup := by
  induction h with
  | retNone | retValue | expr | varDecl | globalDecl | blockNil => simp
  | blockCons first others ih ih' =>
    have hle := first.le
    have hle' := others.le
    simp only [labels_append, List.mem_append, List.nodup_append]
    grind
  | ifThen test body ih =>
    have hle := body.le
    simp only [labels_append, labels_instrLines, labels_label, labels_nil, List.nil_append, List.mem_append,
      List.nodup_append, List.mem_singleton]
    grind
  | ifElse test body other ih ih' =>
    have hle := body.le
    have hle' := other.le
    simp only [labels_append, labels_instrLines, labels_label, labels_instr, labels_nil, List.nil_append, List.cons_append,
      List.mem_append, List.mem_cons, List.nodup_append, List.nodup_cons, List.not_mem_nil, or_false]
    grind
  | whileLoop test rounds ih | forLoop _ test rounds _ ih =>
    have hle := rounds.le
    simp only [labels_append, labels_instrLines, labels_label, labels_instr, labels_nil, List.nil_append, List.mem_append,
      List.mem_cons, List.nodup_append, List.nodup_cons, List.not_mem_nil, or_false]
    grind

/-- The labels of a statement lead to where they stand, if none of them stands before it. -/
theorem StmtCode.placed (h : StmtCode t f ret exit n stmt lines n') {before more : List Line}
    (hbefore : ∀ k ∈ labels before, k < n ∨ n' ≤ k) :
    Placed (before ++ (textLines true lines ++ more)) (textLines true lines) more := by
  intro k start rest hlines
  have hsub := sublist_textLines true lines
  have hmem : k ∈ labels lines := mem_labels.2 (hsub.subset (by rw [hlines]; simp))
  have hnodup : (labels (textLines true lines)).Nodup := h.labels_drawn.2.sublist (hsub.filterMap _)
  have hfresh : .label k ∉ before ++ start := by
    intro hin
    rcases List.mem_append.1 hin with hin | hin
    · have hk := h.labels_drawn.1 k hmem
      have hk' := hbefore k (mem_labels.2 hin)
      omega
    · rw [hlines, labels_append, labels_label] at hnodup
      exact (List.nodup_append.1 hnodup).2.2 k (mem_labels.2 hin) k List.mem_cons_self rfl
  rw [hlines, List.append_assoc, List.cons_append, ← List.append_assoc]
  exact linesFrom_append hfresh _

theorem name_not_mem_instrLines (name : String) (code : List Instr) : .name name ∉ instrLines code := by
  intro hin
  obtain ⟨i, -, hi⟩ := List.mem_map.1 hin
  cases hi

/-- There are no names in the text section of a statement. -/
theorem StmtCode.name_not_mem (h : StmtCode t f ret exit n stmt lines n') (name : String) :
    .name name ∉ textLines true lines := by
  have hinstr := name_not_mem_instrLines name
  induction h with
  | retNone => simp
  | varDecl | blockNil => exact List.not_mem_nil
  | retValue | expr =>
    rw [(textLines_of_plain switches?_instrLines true).1]
    exact hinstr _
  | globalDecl =>
    rw [textLines_globalDecl]
    exact List.not_mem_nil
  | blockCons first others ih ih' =>
    rw [first.text_append, List.mem_append, not_or]
    exact ⟨ih, ih'⟩
  | ifThen test body ih =>
    rw [textLines_instrLines, body.text_append]
    simp [ih, hinstr]
  | ifElse test body other ih ih' =>
    rw [textLines_ifElse body.ends_in_text other.ends_in_text]
    simp [ih, ih', hinstr]
  | whileLoop test rounds ih =>
    rw [textLines_label, textLines_instrLines, rounds.text_append]
    simp [ih, hinstr]
  | forLoop start test rounds next ih =>
    rw [textLines_instrLines, textLines_label, textLines_instrLines, rounds.text_append, textLines_instrLines]
    simp [ih, hinstr]

end Statements

/-! ## Labels and names of items -/

/-- The directives so far leave the assembler in `segment`; `inside` says whether that is the text section. -/
def Segment.Inside (segment : Option Segment) (inside : Bool) : Prop :=
  (segment = some .text → inside = true) ∧ (segment = some .data → inside = false)

section Items

variable {t t' : SymbolTable} {segment segment' : Option Segment} {n n' : Nat} {items : Program} {lines : List Line}
  {inside : Bool}

theorem textLines_switching (h : Segment.Inside segment inside) (target : Segment) (lines : List Line) :
    textLines inside (Lower.switching segment target ++ lines) = textLines (target == .text) lines ∧
      textAfter inside (Lower.switching segment target ++ lines) = textAfter (target == .text) lines := by
  unfold Lower.switching
  split
  · next heq =>
    cases target with
    | text => rw [h.1 heq]; exact ⟨rfl, rfl⟩
    | data => rw [h.2 heq]; exact ⟨rfl, rfl⟩
  · cases target <;> exact ⟨rfl, rfl⟩

/-- The labels of a function are that of its epilogue and those of its body. -/
theorem FunctionCode.labels_eq {f : String} {ret : Ty} {exit : Nat} {size : Int} {body : Stmt}
    (h : FunctionCode t f ret exit size n body lines n') :
    n ≤ n' ∧ ∀ k ∈ labels lines, (n ≤ k ∧ k < n') ∨ k = exit := by
  cases h with
  | mk code =>
    refine ⟨code.le, fun k hk => ?_⟩
    have hdrawn := code.labels_drawn.1 k
    simp only [headLines, labels_append, labels_instrLines, labels_label, labels_directive, labels_name, labels_nil,
      List.nil_append, List.mem_append, List.mem_singleton] at hk
    rcases hk with hk | hk
    · exact .inl (hdrawn hk)
    · exact .inr hk

/-- The labels of items are those drawn for their bodies and those of the functions they define. -/
theorem ItemsCode.labels_drawn (h : ItemsCode t segment n items lines t' segment' n') :
    n ≤ n' ∧ ∀ k ∈ labels lines, (n ≤ k ∧ k < n') ∨
      ∃ g ∈ items.filterMap Parse.defines?, ∃ s, t.global? g = some s ∧ s.label = some k := by
  have hswitching : ∀ segment target, labels (Lower.switching segment target) = [] := by
    intro segment target
    unfold Lower.switching
    split <;> rfl
  induction h with
  | nil => simp
  | globalDecl found rest ih =>
    simp only [labels_append, hswitching, labels_zeros, List.nil_append]
    exact ih
  | prototype rest ih => exact ih
  | @function t t' segment segment' n n₁ n' f ret exit body items lines lines' found code rest ih =>
    obtain ⟨hle, hcode⟩ := code.labels_eq
    obtain ⟨hle', hrest⟩ := ih
    refine ⟨by omega, fun k hk => ?_⟩
    simp only [labels_append, hswitching, List.nil_append, List.mem_append] at hk
    rcases hk with hk | hk
    · rcases hcode k hk with hk | rfl
      · exact .inl (by omega)
      · obtain ⟨s, hs, -, hlabel⟩ := found
        exact .inr ⟨f, List.mem_cons_self, s, hs, hlabel⟩
    · rcases hrest k hk with hk | ⟨g, hg, s, hs, hlabel⟩
      · exact .inl (by omega)
      · rw [Frame.global?_layout] at hs
        exact .inr ⟨g, List.mem_cons_of_mem _ hg, s, hs, hlabel⟩

/-- The text section of a function, with what follows it in the listing. -/
theorem FunctionCode.text_append {f : String} {ret : Ty} {exit : Nat} {size : Int} {body : Stmt}
    (h : FunctionCode t f ret exit size n body lines n') :
    textAfter true lines = true ∧ ∃ inner, StmtCode t f ret exit n body inner n' ∧ ∀ more,
      textLines true (lines ++ more) = headLines f ++
        (instrLines (Lower.prologue size ++ paramStores (t.params f) Reg.arguments) ++
          (textLines true inner ++ (.label exit :: (instrLines Lower.epilogue ++ textLines true more)))) := by
  cases h with
  | @mk inner _ _ code =>
    have hhead : ∀ line ∈ headLines f, line.switches? = none := by simp [headLines, Line.switches?]
    obtain ⟨htext, hafter⟩ := textLines_of_plain hhead true
    refine ⟨?_, _, code, fun more => ?_⟩
    · rw [textAfter_append, hafter, textAfter_append, textAfter_instrLines, textAfter_append, code.ends_in_text]
      exact textAfter_instrLines _
    · simp only [List.append_assoc, List.cons_append]
      rw [textLines_append, htext, hafter, textLines_instrLines, code.text_append, textLines_label, textLines_instrLines]
      rfl

/-- The names in the text section of items are those of the functions they define. -/
theorem ItemsCode.names_defined (h : ItemsCode t segment n items lines t' segment' n') :
    ∀ {inside : Bool}, Segment.Inside segment inside → Segment.Inside segment' (textAfter inside lines) ∧
      ∀ name, .name name ∈ textLines inside lines → name ∈ items.filterMap Parse.defines? := by
  induction h with
  | nil => exact fun hin => ⟨hin, by simp⟩
  | @globalDecl _ _ _ _ _ _ name s _ _ _ _ ih =>
    intro inside hin
    obtain ⟨htext, hafter⟩ := textLines_switching hin .data (Lower.zeros name s ++ _)
    have hplain : ∀ line ∈ Lower.zeros name s, line.switches? = none := switches?_zeros
    obtain ⟨hzeros, hzerosAfter⟩ := textLines_of_plain hplain false
    rw [htext, hafter, textLines_append, textAfter_append]
    show Segment.Inside _ (textAfter (textAfter false _) _) ∧ ∀ _, _ ∈ textLines false _ ++ textLines (textAfter false _) _ → _
    rw [hzeros, hzerosAfter]
    exact ih ⟨nofun, fun _ => rfl⟩
  | prototype _ ih => exact ih
  | @function t t' segment segment' n n₁ n' f ret exit body items lines lines' found code rest ih =>
    intro inside hin
    obtain ⟨htext, hafter⟩ := textLines_switching hin .text (lines ++ lines')
    obtain ⟨hcode, inner, hinner, hlines⟩ := code.text_append
    have hinText : Segment.Inside (some .text) true := ⟨fun _ => rfl, nofun⟩
    obtain ⟨hin', hnames⟩ := ih hinText
    rw [htext, hafter, textAfter_append]
    show Segment.Inside _ (textAfter (textAfter true _) _) ∧ ∀ _, _ ∈ textLines true _ → _
    rw [hcode, hlines]
    refine ⟨hin', fun name hname => ?_⟩
    have hinner' := hinner.name_not_mem name
    have hinstr := name_not_mem_instrLines name
    simp only [headLines, List.mem_append, List.mem_cons, List.not_mem_nil, or_false, hinstr, hinner', false_or,
      reduceCtorEq, Line.name.injEq] at hname
    rcases hname with rfl | hname
    · exact List.mem_cons_self
    · exact List.mem_cons_of_mem _ (hnames name hname)

/-- The code of a program, seen from one of its functions. -/
theorem ItemsCode.split {f : String} {body : Stmt} {rest before : Program} :
    ∀ {t : SymbolTable} {segment : Option Segment} {n : Nat} {lines : List Line},
    ItemsCode t segment n (before ++ .function f body :: rest) lines t' segment' n' →
    let t₁ := Frame.layouts t (before.filterMap Parse.defines?)
    ∃ lines₁ segment₁ n₁ symbol exit code n₂ lines₂, lines = lines₁ ++ (Lower.switching segment₁ .text ++ (code ++ lines₂)) ∧
      ItemsCode t segment n before lines₁ t₁ segment₁ n₁ ∧ t.global? f = some symbol ∧ symbol.label = some exit ∧
      FunctionCode (Frame.layout t₁ f).1 f symbol.ty exit (Frame.layout t₁ f).2 n₁ body code n₂ := by
  induction before with
  | nil =>
    intro t segment n lines h
    cases h with
    | function found code rest =>
      obtain ⟨s, hs, rfl, hlabel⟩ := found
      exact ⟨[], segment, n, s, _, _, _, _, rfl, .nil, hs, hlabel, code⟩
  | cons item before ih =>
    intro t segment n lines h
    cases h with
    | globalDecl found rest =>
      obtain ⟨lines₁, segment₁, n₁, symbol, exit, code, n₂, lines₂, rfl, hitems, hf, hlabel, hcode⟩ := ih rest
      refine ⟨_, segment₁, n₁, symbol, exit, code, n₂, lines₂, ?_, .globalDecl found hitems, hf, hlabel, hcode⟩
      simp only [List.append_assoc]
    | prototype rest =>
      obtain ⟨lines₁, segment₁, n₁, symbol, exit, code, n₂, lines₂, rfl, hitems, hf, hlabel, hcode⟩ := ih rest
      exact ⟨_, segment₁, n₁, symbol, exit, code, n₂, lines₂, rfl, .prototype hitems, hf, hlabel, hcode⟩
    | function found code rest =>
      obtain ⟨lines₁, segment₁, n₁, symbol, exit, code', n₂, lines₂, rfl, hitems, hf, hlabel, hcode⟩ := ih rest
      rw [Frame.global?_layout] at hf
      refine ⟨_, segment₁, n₁, symbol, exit, code', n₂, lines₂, ?_, .function found code hitems, hf, hlabel, hcode⟩
      simp only [List.append_assoc]

end Items

/-! ## The text section of a listing -/

/-- **Places.** In the text section of a listing the name of a function leads to its prologue, the label of its epilogue to
its epilogue, and the labels of its body to where they stand. -/
theorem function_placed {c c' : Context} {before rest : Program} {f : String} {body : Stmt} {new : List Line}
    {segment : Option Segment} (more : List Line) (hc : c.Sound)
    (honce : ((before ++ .function f body :: rest).filterMap Parse.defines?).Nodup)
    (h : ItemsCode c.symbols none c.nextLabel (before ++ .function f body :: rest) new c'.symbols segment c'.nextLabel) :
    let text := textLines true (new ++ more)
    let laid := Frame.layout (Frame.layouts c.symbols (before.filterMap Parse.defines?)) f
    ∃ symbol exit n n' lines exits after, c.symbols.global? f = some symbol ∧
      StmtCode laid.1 f symbol.ty exit n body lines n' ∧ exits = .label exit :: (instrLines Lower.epilogue ++ after) ∧
      linesFrom (.name f) text = some (.name f ::
        (instrLines (Lower.prologue laid.2 ++ paramStores (laid.1.params f) Reg.arguments) ++
          (textLines true lines ++ exits))) ∧
      linesFrom (.label exit) text = some exits ∧ Placed text (textLines true lines) exits := by
  intro text laid
  obtain ⟨lines₁, segment₁, n, symbol, exit, code, n', lines₂, hnew, hitems, hf, hlabel, hcode⟩ := h.split
  obtain ⟨hle, hlabels⟩ := hitems.labels_drawn
  have hstart : Segment.Inside none true := ⟨nofun, nofun⟩
  obtain ⟨hin, hnames⟩ := hitems.names_defined hstart
  obtain ⟨-, lines, hlines, hcodeText⟩ := hcode.text_append
  let first := textLines true lines₁
  let entry := instrLines (Lower.prologue laid.2 ++ paramStores (laid.1.params f) Reg.arguments)
  let exits := .label exit :: (instrLines Lower.epilogue ++ textLines true (lines₂ ++ more))
  have htext : text = first ++ (headLines f ++ (entry ++ (textLines true lines ++ exits))) := by
    simp only [text, hnew, List.append_assoc]
    rw [textLines_append, (textLines_switching hin .text _).1]
    exact congrArg (first ++ ·) (hcodeText _)
  have hdefined : f ∉ before.filterMap Parse.defines? := by
    rw [List.filterMap_append] at honce
    exact fun hmem => (List.nodup_append.1 honce).2.2 f hmem f List.mem_cons_self rfl
  have hexit : exit < c.nextLabel := (hc.globals f symbol hf).drawn exit hlabel
  -- A label before the function belongs to the body or to the epilogue of another one.
  have hbefore : ∀ k ∈ labels first, k < n ∧ k ≠ exit := by
    intro k hk
    rcases hlabels k (mem_labels.2 ((sublist_textLines true lines₁).subset (mem_labels.1 hk))) with hk | ⟨g, hg, s, hs, hk⟩
    · omega
    · have hdrawn := (hc.globals g s hs).drawn k hk
      refine ⟨by omega, ?_⟩
      rintro rfl
      exact hdefined (hc.labels f g symbol s k hf hs hlabel hk ▸ hg)
  have hhead : labels (first ++ (headLines f ++ entry)) = labels first := by simp [headLines, entry]
  refine ⟨symbol, exit, n, n', lines, exits, _, hf, hlines, rfl, ?_, ?_, ?_⟩
  · have hfresh : .name f ∉ first ++ [.directive (.globl f), .directive (.function f)] := by
      simp only [List.mem_append, List.mem_cons, reduceCtorEq, List.not_mem_nil, or_false]
      exact fun hmem => hdefined (hnames f hmem)
    have hfound := linesFrom_append hfresh (entry ++ (textLines true lines ++ exits))
    rw [htext]
    simpa only [headLines, List.append_assoc, List.cons_append, List.nil_append] using hfound
  · have hfresh : .label exit ∉ (first ++ (headLines f ++ entry)) ++ textLines true lines := by
      intro hmem
      rcases List.mem_append.1 hmem with hmem | hmem
      · exact (hbefore exit (hhead ▸ mem_labels.2 hmem)).2 rfl
      · have hdrawn := hlines.labels_drawn.1 exit (mem_labels.2 ((sublist_textLines true lines).subset hmem))
        omega
    have hfound := linesFrom_append hfresh (instrLines Lower.epilogue ++ textLines true (lines₂ ++ more))
    rw [htext]
    simpa only [List.append_assoc] using hfound
  · have hplaced : Placed ((first ++ (headLines f ++ entry)) ++ (textLines true lines ++ exits)) _ exits :=
      hlines.placed fun k hk => .inl (hbefore k (hhead ▸ hk)).1
    rw [htext]
    simpa only [List.append_assoc] using hplaced

end MiniC
