import MiniC.Compile
import MiniC.Proofs.LowerMarks
import MiniC.Proofs.ParseMarks
import MiniC.Proofs.Respacing

/-!
# Layout

What a source is compiled to depends on the kinds and texts of its tokens and on nothing else: not on blanks, comments or
line breaks. Lexing gives tokens whose values follow from their texts, parsing and lowering read no lines
(`parse_relined`, `generate_relined`), and lines show in nothing but the place of a fault.
-/

namespace MiniC

/-- Both give the same text, or both fail with the same kind of fault and the same message. -/
def CompiledAlike (result result' : Except Fault String) : Prop :=
  (∃ text, result = .ok text ∧ result' = .ok text) ∨
    ∃ fault fault', result = .error fault ∧ result' = .error fault' ∧ fault.unplaced = fault'.unplaced ∧
      fault.message = fault'.message

/-! ## Tokens -/

/-- The token without its place in the source. -/
def Token.unplaced (t : Token) : Token := { t with start := 0, line := 0 }

/-- Tokens of two sources are the same up to their places if their kinds and texts are. -/
theorem unplaced_eq_of_texts {source source' : String} {tokens tokens' : List Token} (h : tokenize source = .ok tokens)
    (h' : tokenize source' = .ok tokens')
    (hsame : tokens.map (fun t => (t.kind, t.text)) = tokens'.map (fun t => (t.kind, t.text))) :
    tokens.map Token.unplaced = tokens'.map Token.unplaced := by
  have hshape : ∀ {source : String} {tokens : List Token}, tokenize source = .ok tokens → ∀ t ∈ tokens, Lexed t ∨ IsEnd t := by
    intro source tokens h t ht
    obtain ⟨body, last, rfl, hlast, hlexed⟩ := tokenize_lexed h
    rcases List.mem_append.1 ht with ht | ht
    · exact .inl (hlexed t ht)
    · rw [List.mem_singleton.1 ht]
      exact .inr hlast
  have hvalue : ∀ {t t' : Token}, Lexed t ∨ IsEnd t → Lexed t' ∨ IsEnd t' → t.kind = t'.kind → t.text = t'.text →
      t.value = t'.value := by
    rintro t t' (ht | ht) (ht' | ht') hkind htext
    · exact (ht.eq_of_text ht' htext).2
    · exact absurd (hkind.trans ht'.kind) ht.kind_ne_eof
    · exact absurd (hkind.symm.trans ht.kind) ht'.kind_ne_eof
    · rw [ht.value, ht'.value]
  have hleft := hshape h
  have hright := hshape h'
  clear h h' hshape
  induction tokens generalizing tokens' with
  | nil =>
    cases tokens' with
    | nil => rfl
    | cons t' tokens' => cases hsame
  | cons t tokens ih =>
    cases tokens' with
    | nil => cases hsame
    | cons t' tokens' =>
      obtain ⟨hfirst, hrest⟩ := List.cons.inj hsame
      obtain ⟨hkind, htext⟩ := Prod.mk.inj hfirst
      have hvalue := hvalue (hleft t List.mem_cons_self) (hright t' List.mem_cons_self) hkind htext
      rw [List.map_cons, List.map_cons, ih hrest (fun u hu => hleft u (List.mem_cons_of_mem _ hu))
        fun u hu => hright u (List.mem_cons_of_mem _ hu)]
      unfold Token.unplaced
      rw [hkind, htext, hvalue]

/-! ## Compilation -/

/-- Compiling tokens, with the line of the fault moved, is compiling the tokens with their lines moved. -/
theorem compile_relined (ℓ : Nat → Nat) (tokens : List Token) :
    relining ℓ (parse tokens >>= generate) = parse (tokens.map (Token.relined ℓ)) >>= generate := by
  rw [relining_bind, parse_relined]
  simp only [← generate_relined, map_eq_pure_bind, bind_assoc, pure_bind]

/-- Compiling a source is compiling its tokens. -/
theorem compile_of_tokens {source : String} {tokens : List Token} (h : tokenize source = .ok tokens) :
    compile source = match (parse tokens >>= generate) {} with
      | .ok listing _ => .ok (Listing.render listing)
      | .error fault _ => .error fault := by
  have hparse : parseSource source = parse tokens := by
    unfold parseSource
    rw [h]
  rw [← hparse]
  rfl

theorem compile_alike {source source' : String} {tokens tokens' : List Token} (h : tokenize source = .ok tokens)
    (h' : tokenize source' = .ok tokens') (hsame : tokens.map Token.unplaced = tokens'.map Token.unplaced) :
    CompiledAlike (compile source) (compile source') := by
  have hwork : relining (fun _ => 0) (parse tokens >>= generate) = relining (fun _ => 0) (parse tokens' >>= generate) := by
    rw [compile_relined, compile_relined]
    exact congrArg (parse · >>= generate) hsame
  have hresult := congrFun hwork {}
  unfold relining at hresult
  rw [compile_of_tokens h, compile_of_tokens h']
  cases hleft : (parse tokens >>= generate) {} with
  | ok listing c =>
    cases hright : (parse tokens' >>= generate) {} with
    | ok listing' c' =>
      rw [hleft, hright] at hresult
      cases hresult
      exact .inl ⟨_, rfl, rfl⟩
    | error fault' c' => rw [hleft, hright] at hresult; cases hresult
  | error fault c =>
    cases hright : (parse tokens' >>= generate) {} with
    | ok listing' c' => rw [hleft, hright] at hresult; cases hresult
    | error fault' c' =>
      rw [hleft, hright] at hresult
      have hfault : fault.unplaced = fault'.unplaced := by
        rw [← fault.relined_zero, ← fault'.relined_zero]
        exact (EStateM.Result.error.inj hresult).1
      refine .inr ⟨fault, fault', rfl, rfl, hfault, ?_⟩
      rw [← fault.message_unplaced, hfault, fault'.message_unplaced]

/-- **Layout does not matter.** Two sources whose tokens have the same kinds and texts are compiled to the same text, or
both fail with the same fault but for its line. And the texts of the tokens of a source, written with single spaces
between them, make a source with tokens of the same kinds, texts and values, which is compiled alike. -/
theorem compile_ignores_layout {source : String} {tokens : List Token} (htokens : tokenize source = .ok tokens) :
    (∀ source' tokens', tokenize source' = .ok tokens' →
      tokens.map (fun t => (t.kind, t.text)) = tokens'.map (fun t => (t.kind, t.text)) →
      CompiledAlike (compile source) (compile source')) ∧
    ∀ ts, ts = tokens ∨ ts = tokens.dropLast → ∃ tokens', tokenize (spaced ts) = .ok tokens' ∧
      tokens'.map (fun t => (t.kind, t.text, t.value)) = tokens.map (fun t => (t.kind, t.text, t.value)) ∧
      CompiledAlike (compile source) (compile (spaced ts)) := by
  have halike : ∀ source' tokens', tokenize source' = .ok tokens' →
      tokens.map (fun t => (t.kind, t.text)) = tokens'.map (fun t => (t.kind, t.text)) →
      CompiledAlike (compile source) (compile source') := fun source' tokens' htokens' hsame =>
    compile_alike htokens htokens' (unplaced_eq_of_texts htokens htokens' hsame)
  refine ⟨halike, fun ts hts => ?_⟩
  obtain ⟨tokens', htokens', hsame⟩ := tokenize_spaced htokens hts
  refine ⟨tokens', htokens', hsame, halike _ tokens' htokens' ?_⟩
  have hpairs := congrArg (List.map fun p => (p.1, p.2.1)) hsame
  rw [List.map_map, List.map_map] at hpairs
  exact hpairs.symm

/-- A function with comments and line breaks. -/
def commented : String :=
  "func f(char *s) -> int \x7b\n\t// the first character,\n\treturn f(\" /* \") - -s[0] << 'x'; /* shifted\n\tfar */\n\x7d\n"

/-- The same function on one line. -/
def dense : String := "func f(char*s)->int\x7breturn f(\" /* \")- -s[0]<<'x';\x7d"

theorem compile_ignores_layout_commented :
    ∃ tokens tokens', tokenize commented = .ok tokens ∧ tokenize dense = .ok tokens' ∧
      tokens.map (fun t => (t.kind, t.text)) = tokens'.map (fun t => (t.kind, t.text)) ∧
      CompiledAlike (compile commented) (compile dense) ∧
      ∃ tokens'', tokenize (spaced tokens) = .ok tokens'' ∧
        tokens''.map (fun t => (t.kind, t.text, t.value)) = tokens.map (fun t => (t.kind, t.text, t.value)) ∧
        CompiledAlike (compile commented) (compile (spaced tokens)) := by
  have hsame : (tokenize commented).toOption.map (List.map fun t => (t.kind, t.text)) =
      (tokenize dense).toOption.map (List.map fun t => (t.kind, t.text)) := by decide +kernel
  have hread : (tokenize commented).toOption.isSome = true := by decide +kernel
  cases htokens : tokenize commented with
  | error fault => rw [htokens] at hread; cases hread
  | ok tokens =>
    cases htokens' : tokenize dense with
    | error fault => rw [htokens, htokens'] at hsame; cases hsame
    | ok tokens' =>
      rw [htokens, htokens'] at hsame
      have hsame := Option.some.inj hsame
      obtain ⟨halike, hspaced⟩ := compile_ignores_layout htokens
      exact ⟨tokens, tokens', rfl, rfl, hsame, halike dense tokens' htokens' hsame, hspaced tokens (.inl rfl)⟩

end MiniC
