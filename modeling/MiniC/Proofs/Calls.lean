import MiniC.Proofs.Elaboration
import MiniC.Proofs.Expressions

/-!
# Calls and the heads of the functions they reach

The arguments of a call have the types of the parameters that the function has at that moment, and these are the
parameters of one of the heads under which the function is declared. The parameters in the finished table are those of
one of its heads too, so calls and table agree as far as the heads do (`call_types_from_heads`). The rule that compares
a head with an earlier one counts the parameters and does not look at their types, so heads of one function may differ,
and then a call may not agree with the definition it reaches (`mixed_heads_disagree`).
-/

namespace MiniC

open Grammar Parse

variable {f name : String} {c c' : Context} {info : Info} {args : List Expr}

/-! ## Calls in a tree -/

theorem part_of_adapted {e e' : Expr} (h : e.Adapted e') :
    (Expr.call info name args).Part e' ↔ (Expr.call info name args).Part e := by
  cases h with
  | same => exact Iff.rfl
  | converted =>
    refine ⟨fun hpart => ?_, .converted⟩
    cases hpart with
    | converted part => exact part
  | target =>
    cases e with
    | ident => constructor <;> (intro hpart; cases hpart)
    | unary =>
      refine ⟨fun hpart => ?_, fun hpart => ?_⟩ <;> cases hpart with
      | operand part => exact .operand part
    | _ => exact Iff.rfl

/-- Conversion of arguments leaves the calls inside them alone. -/
theorem blind_calls (info : Info) (name : String) (args : List Expr) :
    Blind fun e => (Expr.call info name args).Part e :=
  fun _ _ h => propext (part_of_adapted h)

theorem resolve_params {ret : Ty} {params : List Ty} (h : Typing.callee ⟨c.symbols, f⟩ name = .ok (ret, params)) :
    params = (c.symbols.params name).map (·.ty) := by
  unfold Typing.callee at h
  cases hs : (Names.mk c.symbols f).resolve name with
  | error cause => rw [hs] at h; cases h
  | ok symbol =>
    rw [hs] at h
    simp only [bind, Except.bind] at h
    split at h
    · cases h; rfl
    · cases h

/-- Reading an expression declares nothing. -/
theorem drawing_symbols : Drawing fun c c' => c'.symbols = c.symbols where
  refl _ := rfl
  trans h h' := h'.trans h
  draw _ := rfl

mutual

/-- The arguments of every call have the types of the parameters. -/
theorem Builds.calls : ∀ {c c' : Context} {e : Expr}, Builds f c e c' → (Expr.call info name args).Part e →
    args.map Expr.ty = (c.symbols.params name).map (·.ty)
  | _, _, _, .number .., hpart => by
    unfold Expr.ofInt at hpart
    cases hpart
  | _, _, _, .string .., hpart => by cases hpart
  | _, _, _, .name rule, hpart => by
    obtain ⟨_, _, rfl⟩ := name_node rule
    cases hpart
  | _, _, _, .index named inner rule, hpart => by
    obtain ⟨_, _, rfl⟩ := name_node named
    obtain ⟨_, offset, _, hadapted, rfl⟩ := index_node rule
    unfold Expr.ofUnary at hpart
    cases hpart with
    | operand part =>
      cases part with
      | left part => cases part
      | right part => exact inner.calls ((part_of_adapted hadapted).1 part)
  | _, _, _, .call callee inner rule, hpart => by
    obtain ⟨args', rfl, htypes, hblind⟩ := call_node rule
    cases hpart with
    | self => rw [htypes, resolve_params callee]
    | argument mem part =>
      have hmap := hblind (blind_calls info name args)
      have hany : True ∈ args'.map fun e => (Expr.call info name args).Part e :=
        List.mem_map.2 ⟨_, mem, eq_true part⟩
      rw [hmap] at hany
      obtain ⟨arg, hmem, harg⟩ := List.mem_map.1 hany
      exact inner.calls arg hmem (of_eq_true harg)
  | _, _, _, .unary inner rule, hpart => by
    obtain ⟨_, rfl⟩ := unary_node rule
    unfold Expr.ofUnary at hpart
    cases hpart with
    | operand part => exact inner.calls part
  | _, _, _, .binary first second rule, hpart => by
    obtain ⟨_, _, _, rfl, hleft, hright⟩ := binary_node rule
    cases hpart with
    | left part => exact first.calls ((part_of_adapted hleft).1 part)
    | right part =>
      rw [← first.within drawing_symbols]
      exact second.calls ((part_of_adapted hright).1 part)

theorem BuildsAll.calls : ∀ {c c' : Context} {es : List Expr}, BuildsAll f c es c' → ∀ e ∈ es,
    (Expr.call info name args).Part e → args.map Expr.ty = (c.symbols.params name).map (·.ty)
  | _, _, _, .nil, e, hmem, _ => by cases hmem
  | _, _, _, .cons first rest, e, hmem, hpart => by
    rcases List.mem_cons.1 hmem with heq | hmem
    · exact first.calls (heq ▸ hpart)
    · rw [← first.within drawing_symbols]
      exact rest.calls e hmem hpart

end

/-! ## Calls in statements -/

/-- Statements leave the parameters of all functions alone and declare no function. -/
structure Steady (c c' : Context) : Prop where
  params : ∀ g, c'.symbols.params g = c.symbols.params g
  functions : ∀ g, c'.symbols.IsFunction g → c.symbols.IsFunction g

theorem declaring_steady : Declaring Steady where
  refl _ := ⟨fun _ => rfl, fun _ => id⟩
  trans h h' := ⟨fun g => (h'.params g).trans (h.params g), fun g => h.functions g ∘ h'.functions g⟩
  draw _ := ⟨fun _ => rfl, fun _ => id⟩
  declareLocal := by
    intro c f name kind ty count t ht
    obtain ⟨symbols, hn, -, rfl⟩ := SymbolTable.addMember_cases ht
    refine ⟨fun g => ?_, fun _ => id⟩
    by_cases hg : g = f
    · subst hg
      simp [SymbolTable.params, SymbolTable.members, hn]
    · exact SymbolTable.params_congr (by simp [hg])
  declareGlobal := by
    intro c name kind ty count t hkind ht
    unfold SymbolTable.declareGlobal at ht
    split at ht
    · cases ht
    · next hnew =>
      cases ht
      refine ⟨fun _ => rfl, ?_⟩
      rintro g ⟨s, hs, hs'⟩
      rw [SymbolTable.global?_append (by exact hnew)] at hs
      split at hs
      · cases hs
        exact absurd hs' hkind
      · exact ⟨s, hs, hs'⟩

/-- The parameters of `name` in `c'` are the types of the arguments. -/
def Agree (name : String) (args : List Expr) (c : Context) : Prop :=
  args.map Expr.ty = (c.symbols.params name).map (·.ty)

theorem Agree.steady (h : Agree name args c) (hs : Steady c c') : Agree name args c' := by
  unfold Agree
  rw [hs.params]
  exact h

theorem Builds.steady {e : Expr} (h : Builds f c e c') : Steady c c' := h.within declaring_steady.toDrawing

theorem Optionally.steady {B : Context → Expr → Context → Prop} {e : Option Expr} (h : Optionally B c e c')
    (hB : ∀ c e c', B c e c' → Steady c c') : Steady c c' := h.within declaring_steady.toDrawing hB

theorem Builds.agree {e : Expr} (h : Builds f c e c') (hpart : (Expr.call info name args).Part e) :
    Agree name args c' := Agree.steady (h.calls hpart) h.steady

theorem BuildsTest.calls {e : Expr} (h : BuildsTest f c e c') (hpart : (Expr.call info name args).Part e) :
    Agree name args c' := h.built.agree hpart

/-- No rule for expressions builds a control structure. -/
theorem Builds.not_control {e : Expr} (h : Builds f c e c') : e.isControl = false := by
  cases h with
  | number => rfl
  | string => rfl
  | name rule => obtain ⟨_, _, rfl⟩ := name_node rule; rfl
  | index _ _ rule => obtain ⟨_, _, _, _, rfl⟩ := index_node rule; rfl
  | call _ _ rule => obtain ⟨_, rfl, -⟩ := call_node rule; rfl
  | unary _ rule => obtain ⟨_, rfl⟩ := unary_node rule; rfl
  | binary _ _ rule => obtain ⟨_, _, _, rfl, -⟩ := binary_node rule; rfl

theorem part_of_contains {e x : Expr} (hplain : e.isControl = false) (h : (Stmt.expr e).Contains x) : x.Part e := by
  cases h with
  | expr part => exact part
  | _ => cases hplain

mutual

theorem BuildsStmt.calls : ∀ {c c' : Context} {stmt : Stmt}, BuildsStmt f c stmt c' →
    stmt.Contains (.call info name args) → Agree name args c'
  | _, _, _, .retNone _ rule, hin => by
    obtain rfl := returnNothing_node rule
    cases hin
  | _, _, _, .ret _ inner rule, hin => by
    obtain ⟨_, rfl, hadapted⟩ := returnValue_node rule
    cases hin with
    | ret part => exact inner.agree ((part_of_adapted hadapted).1 part)
  | _, _, _, .expr inner, hin => by
    exact inner.agree (part_of_contains inner.not_control hin)
  | _, _, _, .declaration _ entered, hin => by
    cases entered <;> cases hin
  | _, _, _, .block inner, hin => by
    cases hin with
    | block mem inside => exact inner.calls _ mem inside
  | _, _, _, .ifThen test first, hin => by
    cases hin with
    | expr part => cases part.not_control
    | ifCond part => exact (test.calls part).steady (first.within declaring_steady)
    | ifYes inside => exact first.calls inside
  | _, _, _, .ifElse test first second, hin => by
    have hsecond := second.within declaring_steady
    cases hin with
    | expr part => cases part.not_control
    | ifCond part => exact ((test.calls part).steady (first.within declaring_steady)).steady hsecond
    | ifYes inside => exact (first.calls inside).steady hsecond
    | ifNo inside => exact second.calls inside
  | _, _, _, .whileLoop test inner, hin => by
    cases hin with
    | expr part => cases part.not_control
    | whileCond part => exact (test.calls part).steady (inner.within declaring_steady)
    | whileBody inside => exact inner.calls inside
  | _, _, _, .forLoop start test next inner, hin => by
    have hinner := inner.within declaring_steady
    have hnext := next.steady fun _ _ _ h => h.steady
    have htest := test.steady fun _ _ _ h => h.built.steady
    cases hin with
    | expr part => cases part.not_control
    | forInit part =>
      cases start with
      | some built => exact (((built.agree part).steady htest).steady hnext).steady hinner
    | forCond part =>
      cases test with
      | some built => exact ((built.calls part).steady hnext).steady hinner
    | forPost part =>
      cases next with
      | some built => exact (built.agree part).steady hinner
    | forBody inside => exact inner.calls inside

theorem BuildsStmts.calls : ∀ {c c' : Context} {stmts : List Stmt}, BuildsStmts f c stmts c' → ∀ stmt ∈ stmts,
    stmt.Contains (.call info name args) → Agree name args c'
  | _, _, _, .nil, _, hmem, _ => by cases hmem
  | _, _, _, .cons first rest, stmt, hmem, hin => by
    rcases List.mem_cons.1 hmem with heq | hmem
    · exact (first.calls (heq ▸ hin)).steady (rest.within declaring_steady)
    · exact rest.calls stmt hmem hin

end

/-! ## Heads -/

variable {H : Head → Prop}

/-- Every function has the parameters of one of the heads in `H`. -/
def Headed (H : Head → Prop) (c : Context) : Prop :=
  ∀ g, c.symbols.IsFunction g →
    ∃ head, H head ∧ head.name = g ∧ (c.symbols.params g).map (·.ty) = head.params.map (·.ty)

theorem Headed.steady (h : Headed H c) (hs : Steady c c') : Headed H c' := by
  intro g hg
  rw [hs.params]
  exact h g (hs.functions g hg)

theorem params_types (params : List Param) :
    ((params.map Param.symbol).filter (·.scope == .parameter)).map (·.ty) = params.map (·.ty) := by
  rw [List.filter_eq_self.2 (by simp [Param.symbol]), List.map_map]
  rfl

theorem Restarted.headed {head : Head} {c₁ : Context} (h : Headed H c) (hhead : H head)
    (hfunctions : ∀ g, g ≠ head.name → c₁.symbols.IsFunction g → c.symbols.IsFunction g)
    (hnamespaces : ∀ g, c₁.symbols.namespace? g = c.symbols.namespace? g)
    (hr : Restarted head.name c₁ (head.params.map Param.symbol) c') : Headed H c' := by
  rintro g ⟨s, hs, hkind⟩
  by_cases hg : g = head.name
  · refine ⟨head, hhead, hg.symm, ?_⟩
    unfold SymbolTable.params SymbolTable.members
    rw [hg, hr.own, Option.getD_some, params_types]
  · rw [SymbolTable.params_congr ((hr.others g hg).trans (hnamespaces g))]
    refine h g (hfunctions g hg ⟨s, ?_, hkind⟩)
    unfold SymbolTable.global? at hs ⊢
    rwa [hr.globals] at hs

theorem isFunction_define {t : SymbolTable} {name g : String} (h : (t.define name).IsFunction g) : t.IsFunction g := by
  obtain ⟨s, hs, hkind⟩ := h
  rw [SymbolTable.global?_define] at hs
  obtain ⟨s', hs', rfl⟩ := Option.map_eq_some_iff.1 hs
  refine ⟨s', hs', ?_⟩
  split at hkind <;> exact hkind

/-- A head that is declared gives its function its own parameters, or leaves those of an earlier head. -/
theorem headed_declare {head : Head} {hasBody : Bool} (h : Headed H c) (hhead : H head) :
    Ends (head.declare hasBody) c (fun _ c' => Headed H c') fun _ _ => True := by
  refine ends_declareHead (R := Headed H) (ends_mono enter_ends (fun _ _ h => h) fun _ _ _ => trivial) ?_ ?_ ?_
  · rintro isNew c₁ (⟨-, rfl, -⟩ | ⟨-, t, ht, rfl⟩) -
    · exact ends_mono (params_restarted head.name head.params _)
        (fun _ _ hr => hr.headed h hhead (fun _ _ => id) fun _ => rfl) fun _ _ _ => trivial
    · unfold SymbolTable.declareGlobal at ht
      split at ht
      · cases ht
      · next hnew =>
        cases ht
        refine ends_mono (params_restarted head.name head.params _) (fun _ _ hr => ?_) fun _ _ _ => trivial
        refine Restarted.headed h hhead ?_ ?_ hr
        · rintro g hg ⟨s, hs, hkind⟩
          rw [SymbolTable.global?_append (by exact hnew), if_neg hg] at hs
          exact ⟨s, hs, hkind⟩
        · exact fun _ => rfl
  · rintro isNew c₁ (⟨-, rfl, -⟩ | ⟨rfl, -⟩) hkeep
    · exact h
    · cases hkeep
  · intro c₂ h₂
    cases hasBody with
    | false => exact h₂
    | true => exact fun g hg => h₂ g (isFunction_define hg)

theorem BuildsItem.headed {item : Stmt} (hitem : BuildsItem H c item c') (h : Headed H c) : Headed H c' := by
  cases hitem with
  | declaration entered => exact h.steady (entered.within declaring_steady)
  | prototype allowed entered =>
    have hdeclared := ends_of_ok (headed_declare h allowed) entered
    exact hdeclared
  | function allowed entered inner =>
    have hdeclared := ends_of_ok (headed_declare h allowed) entered
    exact hdeclared.steady (inner.within declaring_steady)

/-! ## Calls in programs -/

/-- The arguments of every call in the item have the types of the parameters of one of the heads in `H`. -/
def CallsHeaded (H : Head → Prop) (item : Stmt) : Prop :=
  ∀ f body info name args, item = .function f body → body.Contains (.call info name args) →
    ∃ head, H head ∧ head.name = name ∧ args.map Expr.ty = head.params.map (·.ty)

theorem items_calls {tokens : List Token} (s : State) (htokens : s.tokens <:+ tokens) (hs : s.context.Sound)
    (h : Headed (fun head => HeadAt tokens head.signature) s.context) :
    (items s).Ends (fun program s' => Headed (fun head => HeadAt tokens head.signature) s'.context ∧
      ∀ item ∈ program, CallsHeaded (fun head => HeadAt tokens head.signature) item) fun _ _ => True := by
  induction s using items.induct with
  | case1 s hend =>
    rw [items, if_pos hend]
    exact ⟨h, by simp⟩
  | case2 s hend ih =>
    rw [items, if_neg hend]
    have hread := Result.ends_mono (item_typed hs) (fun _ _ h => h) (fun _ _ _ => trivial)
    refine Result.ends_andThen (Result.ends_and (Result.ends_and (item_builds htokens) (item_suffix s)) hread) ?_
    rintro item s₁ h₁ ⟨⟨hitem, hsuffix⟩, hread⟩
    have hheaded := hitem.headed h
    refine Result.ends_bind (ih s₁ h₁ (hsuffix.trans htokens) hread.grown.sound hheaded) fun rest s₂ _ hrest => ?_
    refine ⟨hrest.1, fun x hx => ?_⟩
    rcases List.mem_cons.1 hx with rfl | hx
    · rintro f body info name args rfl hin
      -- the function that is called has been declared, and the arguments have the types of its parameters
      have hfunction : s₁.context.symbols.IsFunction name := by
        cases hread.typed with
        | function _ _ typed =>
          cases typed.contained hin with
          | call found function => exact ⟨_, found, function⟩
      obtain ⟨head, hhead, hname, hparams⟩ := hheaded name hfunction
      cases hitem with
      | declaration entered => cases entered
      | function _ _ inner => exact ⟨head, hhead, hname, (inner.calls hin).trans hparams⟩
    · exact hrest.2 x hx

/-- **Calls and heads.** In a source that is accepted, the arguments of a call are as many as the function has parameters
in the finished table; their types are those of the parameters of a head under which the source declares the function,
and the types in the table are those of one of its heads as well. So where all heads of the function agree, the call
agrees with the table. -/
theorem call_types_from_heads {source : String} {tokens : List Token} {program : Program} {context : Context}
    {f name : String} {body : Stmt} {info : Info} {args : List Expr} (htokens : tokenize source = .ok tokens)
    (hparse : parseSource source {} = .ok program context) (hfunction : .function f body ∈ program)
    (hcall : body.Contains (.call info name args)) :
    args.length = (context.symbols.params name).length ∧
    (∃ head head', HeadAt tokens head ∧ head.name = name ∧ args.map Expr.ty = head.params ∧ HeadAt tokens head' ∧
      head'.name = name ∧ (context.symbols.params name).map (·.ty) = head'.params) ∧
    ((∀ head head', HeadAt tokens head → HeadAt tokens head' → head.name = name → head'.name = name →
      head.params = head'.params) → args.map Expr.ty = (context.symbols.params name).map (·.ty)) := by
  have hread := ends_of_ok (parseSource_read source .empty) hparse
  obtain ⟨hlength, hdeclared⟩ : args.length = (context.symbols.params name).length ∧ context.symbols.IsFunction name := by
    cases hread.typed _ hfunction with
    | function _ _ typed =>
      cases typed.contained hcall with
      | call found function _ arity => exact ⟨arity, _, found, function⟩
  obtain ⟨head, head', hhead, hname, hargs, hhead', hname', hparams⟩ : ∃ head head', HeadAt tokens head ∧
      head.name = name ∧ args.map Expr.ty = head.params ∧ HeadAt tokens head' ∧ head'.name = name ∧
      (context.symbols.params name).map (·.ty) = head'.params := by
    obtain ⟨tokens', htokens', hparsed⟩ := parseSource_cases hparse
    rw [htokens] at htokens'
    cases htokens'
    have hitems := items_calls (.start tokens {}) (List.suffix_refl tokens) .empty
      (fun g ⟨s, hs, _⟩ => by cases hs)
    unfold parse at hparsed
    cases hres : items (.start tokens {}) with
    | fail fault last => rw [hres] at hparsed; cases hparsed
    | ok items last _ =>
      rw [hres] at hparsed hitems
      cases hparsed
      obtain ⟨head, hhead, hname, hargs⟩ := hitems.2 _ hfunction f body info name args rfl hcall
      obtain ⟨head', hhead', hname', hparams⟩ := hitems.1 name hdeclared
      exact ⟨head.signature, head'.signature, hhead, hname, hargs, hhead', hname', hparams⟩
  refine ⟨hlength, ⟨head, head', hhead, hname, hargs, hhead', hname', hparams⟩, fun hagree => ?_⟩
  rw [hargs, hparams]
  exact hagree head head' hhead hhead' hname hname'

/-- A prototype, a call of it with an argument that is widened, and the definition. -/
def agreeingHeads : String :=
  "func f(long p) -> long; func main() -> long \x7b var int x; return f(x); \x7d func f(long q) -> long \x7b return q; \x7d"

/-- The definition takes a `char` where the prototype took a pointer. -/
def mixedHeads : String :=
  "func f(int* p) -> int; func main() -> int \x7b var int x; return f(&x); \x7d func f(char p) -> int \x7b return p; \x7d"

/-- The types of the arguments that `main` passes to `f`, and of the parameters of `f` in the finished table. -/
def passed : EStateM.Result Fault Context Program → Option (List Ty × List Ty)
  | .ok [.prototype _, .function "main" (.block [_, .ret (some (.call _ "f" args))]), _] context =>
    some (args.map Expr.ty, (context.symbols.params "f").map (·.ty))
  | _ => none

theorem passed_cases {result : EStateM.Result Fault Context Program} {given wanted : List Ty}
    (h : passed result = some (given, wanted)) :
    ∃ program context body info args, result = .ok program context ∧ .function "main" body ∈ program ∧
      body.Contains (.call info "f" args) ∧ args.map Expr.ty = given ∧
      (context.symbols.params "f").map (·.ty) = wanted := by
  unfold passed at h
  split at h
  · next info args item context =>
    cases h
    refine ⟨_, context, _, info, args, rfl, List.mem_cons_of_mem _ List.mem_cons_self, ?_, rfl, rfl⟩
    exact .block (List.mem_cons_of_mem _ List.mem_cons_self) (.ret (.self rfl))
  · cases h

theorem call_types_from_heads_widened :
    ∃ tokens program context body info args, tokenize agreeingHeads = .ok tokens ∧
      parseSource agreeingHeads {} = .ok program context ∧ .function "main" body ∈ program ∧
      body.Contains (.call info "f" args) ∧ args.map Expr.ty = [.long] ∧
      ∃ head, HeadAt tokens head ∧ head.name = "f" ∧ head.params = [.long] := by
  have hpassed : passed (parseSource agreeingHeads {}) = some ([.long], [.long]) := by decide +kernel
  obtain ⟨program, context, body, info, args, hparse, hmem, hcall, hgiven, -⟩ := passed_cases hpassed
  obtain ⟨tokens, htokens, -⟩ := parseSource_cases hparse
  obtain ⟨-, ⟨head, -, hhead, hname, hargs, -⟩, -⟩ := call_types_from_heads htokens hparse hmem hcall
  exact ⟨tokens, program, context, body, info, args, htokens, hparse, hmem, hcall, hgiven, head, hhead, hname,
    hargs.symm.trans hgiven⟩

/-- A call need not agree with the definition it reaches. -/
theorem mixed_heads_disagree :
    ∃ program context body info args, parseSource mixedHeads {} = .ok program context ∧
      .function "main" body ∈ program ∧ body.Contains (.call info "f" args) ∧
      args.map Expr.ty ≠ (context.symbols.params "f").map (·.ty) := by
  have hpassed : passed (parseSource mixedHeads {}) = some ([.pointer .int], [.char]) := by decide +kernel
  obtain ⟨program, context, body, info, args, hparse, hmem, hcall, hgiven, hwanted⟩ := passed_cases hpassed
  refine ⟨program, context, body, info, args, hparse, hmem, hcall, ?_⟩
  rw [hgiven, hwanted]
  decide

end MiniC
