import MiniC.Proofs.ParseTails

/-!
# Progress of the parser

On any list of tokens, with end marks anywhere or nowhere, the parser comes to an end: a cursor goes forward through the
list, strictly wherever a statement, an expression, an operand, a type or a block is read (`Advances`), and it does not
pass an end mark. So a program ends at the first one, and what follows that does not matter (`parser_progress`).
-/

namespace MiniC

namespace Parse

variable {α T : Type} {s : State}

/-- A success has read some of the tokens `ts`, and a failure is met after some or none of them; no end mark is read. -/
def Advances {n : Nat} (ts : List Token) (r : Result n α) : Prop :=
  r.Ends (fun _ next => ∃ w, w ≠ [] ∧ Consumed ts w next.tokens) (fun _ last => ∃ w, Consumed ts w last.tokens)

theorem Reads.advances {L : Language T} {follow : Follow T} {shows : α → T} {r : Result s.size α}
    (h : Reads L follow shows s.tokens r) : Advances s.tokens r := by
  unfold Advances
  cases r with
  | fail fault last =>
    obtain ⟨w, hw, -⟩ := h
    exact ⟨w, hw⟩
  | ok a next shorter =>
    obtain ⟨w, hw⟩ := h
    refine ⟨w, ?_, hw.consumed⟩
    rintro rfl
    have htokens : s.tokens = next.tokens := hw.consumed.split
    unfold State.size at shorter
    rw [htokens] at shorter
    exact absurd shorter (Nat.lt_irrefl _)

/-- The level of the loosest operators that extend an operand read at a floor. -/
def floorLevel (floor : Nat) : Nat :=
  if floor ≤ 10 then 0 else if floor < 50 then 1 else if floor < 60 then 2 else if floor < 70 then 3
  else if floor < 80 then 4 else if floor < 90 then 5 else 6

theorem floorLevel_le (floor : Nat) : floorLevel floor ≤ 6 := by
  unfold floorLevel
  repeat' split
  all_goals decide

theorem floor_floorLevel (floor : Nat) : Floor floor (floorLevel floor) := by
  intro op
  have hextends : op.extends? floor = true ↔ floor < op.strength ∨ op.strength = floor ∧ op.groupsRight = true := by
    simp [BinaryOp.extends?]
  rw [hextends]
  unfold floorLevel
  repeat' split
  all_goals
    cases op <;> simp only [BinaryOp.strength, BinaryOp.groupsRight, BinaryOp.level, Bool.false_eq_true, and_false,
      or_false, and_true] <;> omega

/-- A cursor that has read the tokens up to the first end mark, or all of them. -/
def Finished (ts rest : List Token) : Prop := (∃ w, Consumed ts w rest) ∧ ∀ t ∈ rest.head?, t.kind = .eof

/-- What follows an end mark is not read. -/
theorem items_marked (before after after' : List Token) {mark : Token} (hmark : mark.kind = .eof) (context : Context) :
    Tracks (mark :: after) (mark :: after') (items (.start (before ++ mark :: after) context))
      (items (.start (before ++ mark :: after') context)) :=
  items_track ⟨.mark hmark after after', List.cons_ne_nil _ _⟩ _ _ ⟨⟨before, rfl, rfl⟩, rfl⟩

end Parse

theorem parse_marked (before after after' : List Token) {mark : Token} (hmark : mark.kind = .eof) :
    parse (before ++ mark :: after) = parse (before ++ mark :: after') := by
  funext context
  have hitems := Parse.items_marked before after after' hmark context
  unfold parse
  cases hres : Parse.items (.start (before ++ mark :: after) context) with
  | ok program last shorter =>
    cases hres' : Parse.items (.start (before ++ mark :: after') context) with
    | ok program' last' shorter' =>
      rw [hres, hres'] at hitems
      obtain ⟨rfl, hlast⟩ := hitems
      exact congrArg (EStateM.Result.ok program') hlast.context.symm
    | fail fault' last' =>
      rw [hres, hres'] at hitems
      exact hitems.elim
  | fail fault last =>
    cases hres' : Parse.items (.start (before ++ mark :: after') context) with
    | ok program' last' shorter' =>
      rw [hres, hres'] at hitems
      cases hitems
    | fail fault' last' =>
      rw [hres, hres'] at hitems
      obtain ⟨rfl, hlast⟩ := hitems.resolve_left (List.cons_ne_nil _ _)
      exact congrArg (EStateM.Result.error fault') hlast.context.symm

/-- **The parser makes progress and stops.** Whatever the tokens are: a statement, an expression at any floor, an operand,
a type or a block that is read takes one token at least, and no parser moves its cursor back or past an end mark. A list
of tokens is accepted with the cursor at its first end mark, or at its end if there is none, or refused with the cursor
before that. What follows an end mark makes no difference, to the result, the context or the fault. -/
theorem parser_progress :
    (∀ (f : String) (s : Parse.State), Parse.Advances s.tokens (Parse.statement f s) ∧
      (∀ floor, Parse.Advances s.tokens (Parse.binary f floor s)) ∧ Parse.Advances s.tokens (Parse.unary f s) ∧
      Parse.Advances s.tokens (Parse.type s) ∧ Parse.Advances s.tokens (Parse.block f s)) ∧
    (∀ tokens context,
      (∃ program last shorter, Parse.items (.start tokens context) = .ok program last shorter ∧
        parse tokens context = .ok program last.context ∧ Parse.Finished tokens last.tokens) ∨
      (∃ fault last, Parse.items (.start tokens context) = .fail fault last ∧
        parse tokens context = .error fault last.context ∧ ∃ w, Parse.Consumed tokens w last.tokens)) ∧
    (∀ before mark after after', mark.kind = .eof → parse (before ++ mark :: after) = parse (before ++ mark :: after')) := by
  refine ⟨fun f s => ⟨?_, fun floor => ?_, ?_, ?_, ?_⟩, fun tokens context => ?_, fun before mark after after' hmark => ?_⟩
  · exact ((Parse.statements_read f).1 s).advances
  · exact ((Parse.grammar_reads f).1 floor s _ (Parse.floorLevel_le floor) (Parse.floor_floorLevel floor)).advances
  · exact ((Parse.grammar_reads f).2.2.1 s).advances
  · exact (Parse.reads_type s).advances
  · exact (Parse.reads_block f s).advances
  · have hreads := Parse.reads_items (.start tokens context)
    have hend := Parse.items_atEnd (.start tokens context)
    unfold parse
    cases hitems : Parse.items (.start tokens context) with
    | ok program last shorter =>
      rw [hitems] at hreads hend
      obtain ⟨w, hw⟩ := hreads
      exact .inl ⟨program, last, shorter, rfl, rfl, ⟨w, hw.consumed⟩, fun t => Parse.kind_of_atEnd hend⟩
    | fail fault last =>
      rw [hitems] at hreads
      obtain ⟨w, hw, -⟩ := hreads
      exact .inr ⟨fault, last, rfl, rfl, w, hw⟩
  · exact parse_marked before after after' hmark

/-- A declaration, an end mark, and a number without a value, another end mark and a brace after it. -/
theorem parser_progress_declaration :
    let declaration : List Token := [⟨.keyword, "global", none, 0, 1⟩, ⟨.keyword, "long", none, 7, 1⟩,
      ⟨.ident, "x", none, 12, 1⟩, ⟨.punctuator, ";", none, 13, 1⟩]
    let junk : List Token := [⟨.number, "7", none, 14, 2⟩, ⟨.eof, "", none, 15, 2⟩, ⟨.punctuator, "\x7d", none, 15, 3⟩]
    ∃ program context, parse (declaration ++ .eof 14 1 :: junk) {} = .ok program context ∧
      parse (declaration ++ [.eof 14 1]) {} = .ok program context := by
  intro declaration junk
  have hparsed : (ended (parse (declaration ++ [.eof 14 1]) {})).isSome = true := by decide +kernel
  obtain ⟨program, context, hparse⟩ := exists_of_ended hparsed
  refine ⟨program, context, ?_, hparse⟩
  rw [parser_progress.2.2 declaration (.eof 14 1) junk [] rfl]
  exact hparse

end MiniC
