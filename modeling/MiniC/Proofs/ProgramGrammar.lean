import MiniC.Proofs.Lexing
import MiniC.Proofs.ParseProgram
import MiniC.Proofs.StatementGrammar

/-!
# Programs are read by the grammar

The parser accepts what the grammar derives and nothing else (`parse_follows_grammar`): an accepted list of tokens is a
program and an end mark, and the tree is what the program denotes; where the parser fails for want of a token, the tokens
up to there and the one it met are no beginning of a program; and a program that the grammar derives is only ever refused
because it breaks a rule about names and types.
-/

namespace MiniC

open Grammar

/-- What a head says of its function. -/
def Head.signature (head : Head) : Signature := ⟨head.name, head.params.map (·.ty), head.ret⟩

namespace Parse

variable {s : State}

/-! ## Heads -/

theorem typeName_first {w : List Token} {ty : Ty} (h : TypeName w ty) :
    ∃ t v, w = t :: v ∧ t.kind = .keyword := by
  cases h with
  | plain ht => exact ⟨_, _, rfl, by simp_all [Token.is]⟩
  | pointer ht _ => exact ⟨_, _, rfl, by simp_all [Token.is]⟩

theorem reads_moreParams (s : State) :
    Reads (Series Parameter) anything (List.map Param.ty) s.tokens (moreParams s) := by
  induction s using moreParams.induct with
  | case1 s ih =>
    rw [moreParams]
    refine Reads.of (M := TypeName.seq fun ty => (Language.token identifier?).seq fun _ => SeriesRest Parameter ty)
      (reads_bind (reads_type s) (fun ty s₁ h₁ _ => reads_andThen (F := anything) (reads_identifier s₁)
        (fun p s₂ h₂ _ => reads_demand fun _ _ => ?_) fun _ _ _ _ _ _ => trivial) ?_) ?_ ?_
    · exact reads_seriesRest Param.ty ⟨p.1, ty, p.2⟩ fun t _ => ih s₁ h₁ s₂ h₂ t.next t.shorter
    · rintro ty u y v ⟨_, _, ⟨name, line⟩, rfl, ⟨t, rfl, ht⟩, -⟩ - t' ht'
      cases ht'
      simp [Token.is, (identifier?_eq_some.1 ht).1]
    · rintro w x ⟨u, _, ty, rfl, hty, _, v, ⟨name, line⟩, rfl, ⟨t, rfl, ht⟩, hrest⟩
      refine series_eq_seq.2 ⟨u ++ [t], v, ty, by simp, .mk hty (identifier?_eq_some.1 ht).1, hrest⟩
    · rintro u y v hu - -
      obtain ⟨_, v', ty, rfl, ⟨hty, hkind⟩, hrest⟩ := series_eq_seq.1 hu
      exact ⟨_, _, _, List.append_assoc .., hty, [_], v', (_, _), rfl,
        ⟨_, rfl, identifier?_eq_some.2 ⟨hkind, rfl, rfl⟩⟩, hrest⟩

theorem reads_params (s : State) : Reads (Enclosed Parameter) anything (List.map Param.ty) s.tokens (params s) := by
  unfold params
  cases hclose : s.accept? (.punct ")") with
  | some t =>
    obtain ⟨token, htokens, htoken⟩ := tokens_of_accept hclose
    refine Reads.of (M := .after token (.just []))
      (reads_taken htokens (kind_of_is htoken) (reads_done (List.map Param.ty) [] t.next)) ?_ ?_
    · rintro w x ⟨_, rfl, rfl, rfl⟩
      exact .empty htoken
    · rintro u y v hu - hmeets
      cases hu with
      | empty _ => cases hmeets.head htokens; exact ⟨[], rfl, rfl, rfl⟩
      | series h =>
        obtain ⟨_, w, ty, rfl, ⟨hty, -⟩, -⟩ := series_eq_seq.1 h
        obtain ⟨t', w', rfl, hkind⟩ := typeName_first hty
        cases hmeets.head htokens
        simp [Token.is, hkind] at htoken
  | none =>
    refine Reads.of (reads_moreParams s) (fun _ _ => .series) ?_
    rintro u y v hu - hmeets
    cases hu with
    | empty hempty => exact absurd hempty (hmeets.unaccepted hclose)
    | series h => exact h

theorem reads_head (s : State) : Reads Heading (unlike (.punct "*")) Head.signature s.tokens (head s) := by
  unfold head
  refine Reads.of (M := (Language.token identifier?).seq fun p => (Language.the (.punct "(")).seq fun _ =>
      (Enclosed Parameter).seq fun params => (Language.the (.punct "->")).seq fun _ =>
      TypeName.seq fun ret => .just ⟨p.1, params, ret⟩)
    (reads_bind (F := anything) (reads_identifier s) (fun (name, line) s₁ _ _ =>
      reads_andThen (F := anything) reads_expect (fun _ s₂ _ _ => reads_andThen (reads_params s₂) (fun params s₃ _ _ =>
        reads_demand fun _ _ => reads_andThen (F := anything) reads_expect (fun _ s₄ _ _ =>
          reads_andThen (reads_type s₄) (fun ret s₅ _ _ =>
            reads_done Head.signature ⟨name, line, params, ret⟩ s₅) ?_)
        fun _ _ _ _ _ _ => trivial) fun _ _ _ _ _ _ => trivial) fun _ _ _ _ _ _ => trivial)
      fun _ _ _ _ _ _ => trivial) ?_ ?_
  · rintro x u y v ⟨rfl, rfl⟩ hv
    exact hv
  · rintro w x ⟨_, _, ⟨name, line⟩, rfl, ⟨t, rfl, ht⟩, _, _, _, rfl, ⟨opening, rfl, hopening⟩, u, _, params, rfl, hparams,
      _, _, _, rfl, ⟨arrow, rfl, harrow⟩, v, _, ret, rfl, hret, rfl, rfl⟩
    obtain ⟨hkind, rfl, rfl⟩ := identifier?_eq_some.1 ht
    simpa using Heading.mk hkind hopening hparams harrow hret
  · rintro u y v ⟨hkind, hopening, hparams, harrow, hret⟩ - -
    exact ⟨[_], _, (_, _), rfl, ⟨_, rfl, identifier?_eq_some.2 ⟨hkind, rfl, rfl⟩⟩, [_], _, (), rfl, ⟨_, rfl, hopening⟩,
      _, _, _, rfl, hparams, [_], _, (), rfl, ⟨_, rfl, harrow⟩, _, [], _, by simp, hret, rfl, rfl⟩

/-! ## Items -/

theorem enter_semantic {head : Head} {hasBody : Bool} {c : Context} :
    Ends (head.enter hasBody) c (fun _ _ => True) (fun fault _ => ∃ line cause, fault = .semantic line cause) := by
  unfold Head.enter
  refine ends_get_bind ?_
  cases hg : c.symbols.global? head.name with
  | some earlier =>
    simp only [hg]
    cases hagree : Typing.agreement c.symbols earlier head.ret head.params.length hasBody with
    | ok u => exact trivial
    | error cause => exact ⟨head.line, cause, rfl⟩
  | none =>
    simp only [hg]
    refine ends_bind (x := CompileM.drawLabel) (P := fun _ _ => True) trivial fun label c' _ => ?_
    exact ends_bind declare_semantic fun _ _ _ => trivial

theorem head_declare_semantic {head : Head} {hasBody : Bool} {c : Context} :
    Ends (head.declare hasBody) c (fun _ _ => True) (fun fault _ => ∃ line cause, fault = .semantic line cause) :=
  ends_declareHead (R := fun _ => True) enter_semantic
    (fun _ _ _ _ => ends_forM (I := fun _ _ => True) (fun _ _ _ _ => declare_semantic) _ _ trivial)
    (fun _ _ _ _ => trivial) fun _ _ => trivial

theorem reads_block (f : String) (s : State) :
    Reads (fun w x => ∃ opening u stmts, opening.is (.punct "\x7b") ∧ Body u stmts ∧ w = opening :: u ∧ x = .block stmts)
      anything Stmt.phrase s.tokens (block f s) := by
  unfold block
  refine Reads.of (M := (Language.the (.punct "\x7b")).seq fun _ => Body.seq fun stmts => .just (.block stmts))
    (reads_bind (F := anything) reads_expect (fun _ s₁ _ _ => reads_andThen ((statements_read f).2 s₁)
      (fun stmts s₂ _ _ => reads_done Stmt.phrase (.block stmts) s₂) fun _ _ _ _ _ _ => trivial)
      fun _ _ _ _ _ _ => trivial) ?_ ?_
  · rintro w x ⟨_, _, _, rfl, ⟨opening, rfl, hopening⟩, u, _, stmts, rfl, hstmts, rfl, rfl⟩
    exact ⟨opening, u, stmts, hopening, hstmts, by simp, rfl⟩
  · rintro _ _ v ⟨opening, u, stmts, hopening, hstmts, rfl, rfl⟩ - -
    exact ⟨[opening], u, (), rfl, ⟨opening, rfl, hopening⟩, u, [], stmts, by simp, hstmts, rfl, rfl⟩

/-- What follows the head of a function: a semicolon after a prototype, a body after a definition. -/
inductive AfterHead (head : Signature) : Language Phrase
  | prototype {close : Token} : close.is (.punct ";") → AfterHead head [close] (.prototype head.name)
  | function {opening : Token} {u : List Token} {stmts : List Phrase} : opening.is (.punct "\x7b") → Body u stmts →
      AfterHead head (opening :: u) (.function head.name (.block stmts))

theorem reads_function (s : State) :
    Reads (Heading.seq AfterHead) anything Stmt.phrase s.tokens (function s) := by
  unfold function
  refine reads_bind (reads_head s) (fun head s₁ _ _ => ?_) ?_
  · cases hclose : s₁.accept? (.punct ";") with
    | some t =>
      obtain ⟨token, htokens, htoken⟩ := tokens_of_accept hclose
      refine Reads.of (M := .after token (.just (.prototype head.name)))
        (reads_relax (reads_taken htokens (kind_of_is htoken) (reads_perform head_declare_semantic
          fun _ s₃ _ hs₃ => ?_))) ?_ ?_
      · rw [← hs₃]
        exact reads_done Stmt.phrase (.prototype head.name) s₃
      · rintro w x ⟨_, rfl, rfl, rfl⟩
        exact .prototype htoken
      · rintro u y v hu - hmeets
        cases hu with
        | prototype _ => cases hmeets.head htokens; exact ⟨[], rfl, rfl, rfl⟩
        | function hopening _ => cases hmeets.head htokens; simp_all [Token.is]
    | none =>
      refine reads_perform head_declare_semantic fun _ s₂ _ hs₂ => ?_
      rw [← hs₂]
      refine Reads.of (reads_andThen (reads_block head.name s₂) (K := fun body => .just (.function head.name body))
        (fun body s₃ _ _ => reads_done Stmt.phrase (.function head.name body) s₃)
        fun _ _ _ _ _ _ => trivial) ?_ ?_
      · rintro w x ⟨_, _, _, rfl, ⟨opening, u, stmts, hopening, hstmts, rfl, rfl⟩, rfl, rfl⟩
        rw [List.append_nil]
        exact .function hopening hstmts
      · rintro u y v hu - hmeets
        cases hu with
        | prototype htoken => rw [hs₂] at hmeets; exact absurd htoken (hmeets.unaccepted hclose)
        | function hopening hstmts => exact ⟨_, [], _, by simp, ⟨_, _, _, hopening, hstmts, rfl, rfl⟩, rfl, rfl⟩
  · rintro head u y v hu - t ht
    cases hu with
    | prototype hclose => cases ht; simp_all [Token.is]
    | function hopening _ => cases ht; simp_all [Token.is]

theorem reads_item (s : State) : Reads Item anything Stmt.phrase s.tokens (item s) := by
  unfold item
  cases hfunc : s.accept? (.keyword "func") with
  | some t =>
    obtain ⟨token, htokens, htoken⟩ := tokens_of_accept hfunc
    refine Reads.of (M := .after token (Heading.seq AfterHead))
      (reads_taken htokens (kind_of_is htoken) (reads_relax (reads_function t.next))) ?_ ?_
    · rintro w x ⟨_, rfl, u, v, head, rfl, hhead, hafter⟩
      cases hafter with
      | prototype hclose => exact .prototype htoken hhead hclose
      | function hopening hstmts => exact .function htoken hhead hopening hstmts
    · rintro u y v hu - hmeets
      cases hu with
      | prototype _ hhead hclose => cases hmeets.head htokens; exact ⟨_, rfl, _, _, _, rfl, hhead, .prototype hclose⟩
      | function _ hhead hopening hstmts =>
        cases hmeets.head htokens
        exact ⟨_, rfl, _, _, _, rfl, hhead, .function hopening hstmts⟩
      | globalDecl ht _ =>
        cases hmeets.head htokens
        rcases ht with ht | ht <;> simp_all [Token.is]
  | none =>
    cases hkeyword : (s.accept? (.keyword "global")).or (s.accept? (.keyword "var")) with
    | some t =>
      have htaken : s.accept? (.keyword "global") = some t ∨ s.accept? (.keyword "var") = some t := by
        cases hglobal : s.accept? (.keyword "global") with
        | some t' => rw [hglobal] at hkeyword; exact .inl hkeyword
        | none => rw [hglobal] at hkeyword; exact .inr hkeyword
      obtain ⟨token, htokens, htoken⟩ : ∃ token, s.tokens = token :: t.next.tokens ∧
          (token.is (.keyword "global") ∨ token.is (.keyword "var")) := by
        rcases htaken with h | h
        · obtain ⟨token, htokens, htoken⟩ := tokens_of_accept h
          exact ⟨token, htokens, .inl htoken⟩
        · obtain ⟨token, htokens, htoken⟩ := tokens_of_accept h
          exact ⟨token, htokens, .inr htoken⟩
      refine Reads.of (M := .after token fun w x => ∃ name, Declaration w name ∧ x = declaredPhrase none name)
        (reads_taken htokens (htoken.elim kind_of_is kind_of_is) (reads_relax (reads_declaration none t.next))) ?_ ?_
      · rintro w x ⟨_, rfl, name, hname, rfl⟩
        exact .globalDecl htoken hname
      · rintro u y v hu - hmeets
        cases hu with
        | prototype ht _ _ => exact absurd ht (hmeets.unaccepted hfunc)
        | function ht _ _ _ => exact absurd ht (hmeets.unaccepted hfunc)
        | globalDecl _ hname => cases hmeets.head htokens; exact ⟨_, rfl, _, hname, rfl⟩
    | none =>
      obtain ⟨hglobal, hvar⟩ := Option.or_eq_none_iff.1 hkeyword
      refine reads_refused fun u y v hu _ hmeets => ?_
      cases hu with
      | prototype ht _ _ => exact hmeets.unaccepted hfunc ht
      | function ht _ _ _ => exact hmeets.unaccepted hfunc ht
      | globalDecl ht _ => exact ht.elim (hmeets.unaccepted hglobal) (hmeets.unaccepted hvar)

theorem item_first {w : List Token} {x : Phrase} (h : Item w x) : ∃ t v, w = t :: v ∧ t.kind ≠ .eof := by
  cases h with
  | prototype ht _ _ => exact ⟨_, _, rfl, kind_of_is ht⟩
  | function ht _ _ _ => exact ⟨_, _, rfl, kind_of_is ht⟩
  | globalDecl ht _ => exact ⟨_, _, rfl, ht.elim kind_of_is kind_of_is⟩

/-- What comes after a program. -/
def atEof : Follow (List Phrase) := fun _ v => ∃ t, v.head? = some t ∧ t.kind = .eof

theorem reads_items (s : State) : Reads Grammar.Program atEof stmtPhrases s.tokens (items s) := by
  induction s using items.induct with
  | case1 s hend =>
    rw [items, if_pos hend]
    refine Reads.of (M := .just []) (reads_done stmtPhrases [] s) ?_ ?_
    · rintro w x ⟨rfl, rfl⟩
      exact .empty
    · rintro u y v hu - hmeets
      cases hu with
      | empty => exact ⟨rfl, rfl⟩
      | cons hitem _ =>
        obtain ⟨t, w, rfl, hkind⟩ := item_first hitem
        exact absurd (kind_of_atEnd hend hmeets.head?) hkind
  | case2 s hend ih =>
    rw [items, if_neg hend]
    refine Reads.of (M := Item.seq fun x => Grammar.Program.seq fun xs => .just (x :: xs))
      (reads_andThen (reads_item s) (fun stmt s₁ h₁ _ => reads_bind (ih s₁ h₁) (fun stmts s₂ _ _ =>
        reads_done stmtPhrases (stmt :: stmts) s₂) ?_) fun _ _ _ _ _ _ => trivial) ?_ ?_
    · rintro xs u y v ⟨rfl, rfl⟩ hv
      exact hv
    · rintro w x ⟨u, _, y, rfl, hy, v, _, ys, rfl, hys, rfl, rfl⟩
      simpa using Program.cons hy hys
    · rintro u y v hu hv hmeets
      cases hu with
      | empty =>
        obtain ⟨t, ht, hkind⟩ := hv
        refine absurd ?_ hend
        obtain ⟨rest, hrest⟩ := List.head?_eq_some_iff.1 (hmeets.next.trans ht)
        simp [State.atEnd, hrest, hkind]
      | cons hitem hrest => exact ⟨_, _, _, rfl, hitem, _, [], _, by simp, hrest, rfl, rfl⟩

theorem items_atEnd (s : State) : (items s).Ends (fun _ s' => s'.atEnd = true) (fun _ _ => True) := by
  induction s using items.induct with
  | case1 s hend =>
    rw [items, if_pos hend]
    exact hend
  | case2 s hend ih =>
    rw [items, if_neg hend]
    exact Result.ends_andThen (ends_any _) fun stmt s₁ h₁ _ => Result.ends_bind (ih s₁ h₁) fun _ _ _ h => h

/-! ## Token lists of sources -/

/-- The tokens of a source: lexemes, then the end mark. -/
structure Marked (body : List Token) (mark : Token) : Prop where
  mark : mark.kind = .eof
  body : ∀ t ∈ body, Lexed t

namespace Marked

variable {body w rest : List Token} {mark : Token}

/-- The end mark is never read. -/
theorem cursor (h : Marked body mark) (hc : Consumed (body ++ [mark]) w rest) : ∃ t rest', rest = t :: rest' := by
  refine List.exists_cons_of_ne_nil fun hrest => ?_
  have hmem : mark ∈ w := by
    have hsplit := hc.split
    rw [hrest, List.append_nil] at hsplit
    rw [← hsplit]
    exact List.mem_append_right _ List.mem_cons_self
  exact hc.inside mark hmem h.mark

/-- Only the end mark ends a program. -/
theorem all_read {t : Token} {rest' : List Token} (h : Marked body mark) (hc : Consumed (body ++ [mark]) w (t :: rest'))
    (ht : t.kind = .eof) : w = body ∧ t = mark ∧ rest' = [] := by
  have hsplit := hc.split
  rcases List.eq_nil_or_concat rest' with rfl | ⟨init, last, rfl⟩
  · obtain ⟨rfl, hlast⟩ := List.append_inj' hsplit rfl
    exact ⟨rfl, (List.cons.inj hlast).1.symm, rfl⟩
  · have hbody : body = w ++ t :: init := by
      rw [List.concat_eq_append, ← List.cons_append, ← List.append_assoc] at hsplit
      exact (List.append_inj' hsplit rfl).1
    have hlexed := h.body t (by rw [hbody]; exact List.mem_append_right _ List.mem_cons_self)
    exact absurd ht hlexed.kind_ne_eof

/-- No literal of a source is at fault. -/
theorem decodes {t : Token} (h : Marked body mark) (hc : Consumed (body ++ [mark]) w rest) (ht : rest.head? = some t)
    (hkind : t.kind = .string) : ∃ bytes, Literal.stringBytes t.text = .ok bytes := by
  have hmem : t ∈ body ++ [mark] := by
    rw [hc.split]
    exact List.mem_append_right _ (List.mem_of_head? ht)
  rcases List.mem_append.1 hmem with hbody | hmark
  · exact (h.body t hbody).stringBytes hkind
  · rw [List.mem_singleton.1 hmark, h.mark] at hkind
    cases hkind

end Marked

end Parse

/-! ## The parser and the grammar -/

theorem parseSource_cases {source : String} {c c' : Context} {program : Program}
    (h : parseSource source c = .ok program c') : ∃ tokens, tokenize source = .ok tokens ∧ parse tokens c = .ok program c' := by
  unfold parseSource at h
  cases htokens : tokenize source with
  | error fault => rw [htokens] at h; cases h
  | ok tokens => rw [htokens] at h; exact ⟨tokens, rfl, h⟩

/-- **The parser reads the grammar and nothing else.** On the tokens of a source: an accepted list is a program of the
grammar and an end mark, and the tree is the only thing that the program denotes; a grammatical fault is met where what
was read and the token at hand begin no program with an end mark; and a program is refused for its meaning only. -/
theorem parse_follows_grammar {source : String} {tokens : List Token} (htokens : tokenize source = .ok tokens)
    (context : Context) :
    (∀ program context', parse tokens context = .ok program context' →
      ∃ w mark, tokens = w ++ [mark] ∧ mark.kind = .eof ∧ Grammar.Program w (stmtPhrases program) ∧
        ∀ phrases, Grammar.Program w phrases → phrases = stmtPhrases program) ∧
    (∀ line cause context', parse tokens context = .error (.grammar line cause) context' →
      ∃ last consumed cursor rest, Parse.items (.start tokens context) = .fail (.grammar line cause) last ∧
        last.tokens = cursor :: rest ∧ tokens = consumed ++ cursor :: rest ∧
        ∀ w phrases mark, Grammar.Program w phrases → mark.kind = .eof → ¬ consumed ++ [cursor] <+: w ++ [mark]) ∧
    (∀ w mark phrases fault context', tokens = w ++ [mark] → Grammar.Program w phrases →
      parse tokens context = .error fault context' → ∃ line cause, fault = .semantic line cause) := by
  obtain ⟨body, mark, rfl, hmark, hlexed⟩ := tokenize_lexed htokens
  have hmarked : Parse.Marked body mark := ⟨hmark.kind, hlexed⟩
  have hreads := Parse.reads_items (.start (body ++ [mark]) context)
  have hend := Parse.items_atEnd (.start (body ++ [mark]) context)
  unfold parse
  cases hitems : Parse.items (.start (body ++ [mark]) context) with
  | ok program last hlast =>
    rw [hitems] at hreads hend
    refine ⟨fun program' context' h => ?_, fun _ _ _ h => (by cases h), fun _ _ _ _ _ _ _ h => (by cases h)⟩
    cases h
    obtain ⟨w, hw⟩ := hreads
    obtain ⟨t, rest, hrest⟩ := hmarked.cursor hw.consumed
    have ht := Parse.kind_of_atEnd hend (by rw [hrest]; rfl)
    obtain ⟨rfl, rfl, rfl⟩ := hmarked.all_read (hrest ▸ hw.consumed) ht
    refine ⟨w, t, rfl, ht, hw.derived, fun phrases hphrases => ?_⟩
    exact (hw.only w phrases [t] hphrases ⟨t, rfl, ht⟩ ⟨t, [], by rw [hrest]; rfl, rfl⟩).2
  | fail fault last =>
    rw [hitems] at hreads
    obtain ⟨w, hc, hblamed⟩ := hreads
    obtain ⟨t, rest, hrest⟩ := hmarked.cursor hc
    have hdead : ∀ line cause, fault = .grammar line cause → ∀ u phrases mark, Grammar.Program u phrases →
        mark.kind = .eof → ¬ w ++ [t] <+: u ++ [mark] := by
      rintro line cause rfl u phrases mark' hu hmark' ⟨more, hmore⟩
      exact hblamed u phrases [mark'] hu ⟨mark', rfl, hmark'⟩ ⟨t, more, by rw [hrest]; rfl, by rw [← hmore]; simp⟩
    refine ⟨fun _ _ h => (by cases h), fun line cause context' h => ?_, fun u mark' phrases fault' context' hu hphrases h => ?_⟩
    · cases h
      exact ⟨last, w, t, rest, rfl, hrest, by rw [← hrest]; exact hc.split, hdead line cause rfl⟩
    · cases h
      cases fault with
      | semantic line cause => exact ⟨line, cause, rfl⟩
      | grammar line cause =>
        obtain ⟨rfl, hsame⟩ := List.append_inj' hu rfl
        cases hsame
        refine absurd ⟨rest, ?_⟩ (hdead line cause rfl body phrases mark hphrases hmark.kind)
        rw [List.append_assoc, List.singleton_append, ← hrest]
        exact hc.split.symm
      | lexical line cause =>
        obtain ⟨t', ht', hkind, hno⟩ := hblamed
        obtain ⟨bytes, hbytes⟩ := hmarked.decodes hc ht' hkind
        exact absurd hbytes (hno bytes)
      | outOfRegisters line => exact hblamed.elim
      | internal cause => exact hblamed.elim

/-- A prototype, a global, a definition, every kind of statement, an `else` for each of two nested `if`s, and operators
of all levels. -/
def nestedSource : String :=
  "func f(int n) -> int; global int t[4];
   func f(int n) -> int \x7b
     var int i;
     for (i = 0; i < n * 2 + 1;) if (i == 3) if (-n) t[i] = i = 7; else i++; else \x7b return f(i | 1); \x7d
     while (n) n--;
     return t[0];
   \x7d"

theorem parse_follows_grammar_nested : ∃ tokens program context,
    tokenize nestedSource = .ok tokens ∧ parse tokens {} = .ok program context ∧
      ∃ w mark, tokens = w ++ [mark] ∧ mark.kind = .eof ∧ Grammar.Program w (stmtPhrases program) ∧
        ∀ phrases, Grammar.Program w phrases → phrases = stmtPhrases program := by
  have hparsed : (ended (parseSource nestedSource {})).isSome = true := by decide +kernel
  obtain ⟨program, context, hparse⟩ := exists_of_ended hparsed
  obtain ⟨tokens, htokens, hparse⟩ := parseSource_cases hparse
  exact ⟨tokens, program, context, htokens, hparse, (parse_follows_grammar htokens {}).1 program context hparse⟩

end MiniC
