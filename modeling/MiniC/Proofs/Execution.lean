import MiniC.Proofs.Evaluator

/-!
# What statements do

`Exec w s σ o σ'` says that the statement `s`, started in the store `σ`, ends in the store `σ'`, either in the normal way or
with a return. It is the meaning of the body of a function: sequence, choice, loops and returns, with the evaluator for
every expression. A loop that does not end has no derivation. `World.execute` finds the end of a statement within a number
of steps, if there is one (`execute_sound`).

Declarations do nothing here: locals have their slots, and globals have their storage, from the start.
-/

namespace MiniC

/-- How a statement ends. -/
inductive Ending where
  | normal
  /-- A return, with the value of its expression. -/
  | returned (value : Option Word)
  deriving DecidableEq

namespace World

variable {Ω : Type} (w : World Ω)

/-- Whether a condition holds, and the store after it. -/
def test (cond : Expr) (σ : Store Ω) : Option (Bool × Store Ω) := (w.eval cond σ).map fun (v, σ) => (v != 0, σ)

/-- Whether a condition holds; one that is missing does. -/
def testOption : Option Expr → Store Ω → Option (Bool × Store Ω)
  | none, σ => some (true, σ)
  | some cond, σ => w.test cond σ

/-- The store after an expression, if there is one, whose value is not used. -/
def aside : Option Expr → Store Ω → Option (Store Ω)
  | none, σ => some σ
  | some e, σ => (w.eval e σ).map (·.2)

end World

/-- A statement in the body of `w.function`, from one store to another. -/
inductive Exec {Ω : Type} (w : World Ω) : Stmt → Store Ω → Ending → Store Ω → Prop where
  | retNone {σ : Store Ω} : Exec w (.ret none) σ (.returned none) σ
  | retValue {e : Expr} {σ σ' : Store Ω} {v : Word} (value : w.eval e σ = some (v, σ')) :
      Exec w (.ret (some e)) σ (.returned (some v)) σ'
  | expr {e : Expr} {σ σ' : Store Ω} {v : Word} (value : w.eval e σ = some (v, σ')) : Exec w (.expr e) σ .normal σ'
  | varDecl {name : String} {σ : Store Ω} : Exec w (.varDecl name) σ .normal σ
  | globalDecl {name : String} {σ : Store Ω} : Exec w (.globalDecl name) σ .normal σ
  | blockNil {σ : Store Ω} : Exec w (.block []) σ .normal σ
  | blockCons {s : Stmt} {rest : List Stmt} {σ σ₁ σ' : Store Ω} {o : Ending} (first : Exec w s σ .normal σ₁)
      (others : Exec w (.block rest) σ₁ o σ') : Exec w (.block (s :: rest)) σ o σ'
  | blockReturn {s : Stmt} {rest : List Stmt} {σ σ' : Store Ω} {value : Option Word}
      (first : Exec w s σ (.returned value) σ') : Exec w (.block (s :: rest)) σ (.returned value) σ'
  | ifTrue {info : Info} {cond : Expr} {yes : Stmt} {no : Option Stmt} {σ σ₁ σ' : Store Ω} {o : Ending}
      (test : w.test cond σ = some (true, σ₁)) (branch : Exec w yes σ₁ o σ') :
      Exec w (.expr (.ifElse info cond yes no)) σ o σ'
  | ifFalse {info : Info} {cond : Expr} {yes : Stmt} {σ σ' : Store Ω} (test : w.test cond σ = some (false, σ')) :
      Exec w (.expr (.ifElse info cond yes none)) σ .normal σ'
  | ifElse {info : Info} {cond : Expr} {yes no : Stmt} {σ σ₁ σ' : Store Ω} {o : Ending}
      (test : w.test cond σ = some (false, σ₁)) (branch : Exec w no σ₁ o σ') :
      Exec w (.expr (.ifElse info cond yes (some no))) σ o σ'
  | whileDone {info : Info} {cond : Expr} {body : Stmt} {σ σ' : Store Ω} (test : w.test cond σ = some (false, σ')) :
      Exec w (.expr (.whileLoop info cond body)) σ .normal σ'
  | whileNext {info : Info} {cond : Expr} {body : Stmt} {σ σ₁ σ₂ σ' : Store Ω} {o : Ending}
      (test : w.test cond σ = some (true, σ₁)) (round : Exec w body σ₁ .normal σ₂)
      (again : Exec w (.expr (.whileLoop info cond body)) σ₂ o σ') : Exec w (.expr (.whileLoop info cond body)) σ o σ'
  | whileReturn {info : Info} {cond : Expr} {body : Stmt} {σ σ₁ σ' : Store Ω} {value : Option Word}
      (test : w.test cond σ = some (true, σ₁)) (round : Exec w body σ₁ (.returned value) σ') :
      Exec w (.expr (.whileLoop info cond body)) σ (.returned value) σ'
  /-- After its first expression a loop goes on as one that has none. -/
  | forInit {info : Info} {init : Expr} {cond post : Option Expr} {body : Stmt} {σ σ₁ σ' : Store Ω} {o : Ending}
      (start : w.aside (some init) σ = some σ₁) (rounds : Exec w (.expr (.forLoop info none cond post body)) σ₁ o σ') :
      Exec w (.expr (.forLoop info (some init) cond post body)) σ o σ'
  | forDone {info : Info} {cond post : Option Expr} {body : Stmt} {σ σ' : Store Ω}
      (test : w.testOption cond σ = some (false, σ')) : Exec w (.expr (.forLoop info none cond post body)) σ .normal σ'
  | forNext {info : Info} {cond post : Option Expr} {body : Stmt} {σ σ₁ σ₂ σ₃ σ' : Store Ω} {o : Ending}
      (test : w.testOption cond σ = some (true, σ₁)) (round : Exec w body σ₁ .normal σ₂)
      (next : w.aside post σ₂ = some σ₃) (again : Exec w (.expr (.forLoop info none cond post body)) σ₃ o σ') :
      Exec w (.expr (.forLoop info none cond post body)) σ o σ'
  | forReturn {info : Info} {cond post : Option Expr} {body : Stmt} {σ σ₁ σ' : Store Ω} {value : Option Word}
      (test : w.testOption cond σ = some (true, σ₁)) (round : Exec w body σ₁ (.returned value) σ') :
      Exec w (.expr (.forLoop info none cond post body)) σ (.returned value) σ'

/-! ## Running statements -/

section Runs

variable {Ω : Type} (w : World Ω)

/-- What comes after the normal end of a statement; a return is passed on. -/
def Ending.andThen (result : Option (Ending × Store Ω)) (next : Store Ω → Option (Ending × Store Ω)) :
    Option (Ending × Store Ω) :=
  result.bind fun
    | (.normal, σ) => next σ
    | (.returned value, σ) => some (.returned value, σ)

/-- The end of a statement, when no more than `fuel` statements are nested or follow each other. -/
def World.execute : Nat → Stmt → Store Ω → Option (Ending × Store Ω)
  | 0, _, _ => none
  | _ + 1, .ret none, σ => some (.returned none, σ)
  | _ + 1, .ret (some e), σ => (w.eval e σ).map fun (v, σ) => (.returned (some v), σ)
  | _ + 1, .varDecl _, σ => some (.normal, σ)
  | _ + 1, .globalDecl _, σ => some (.normal, σ)
  | _ + 1, .block [], σ => some (.normal, σ)
  | fuel + 1, .block (s :: rest), σ => Ending.andThen (execute fuel s σ) (execute fuel (.block rest))
  | fuel + 1, .expr (.ifElse _ cond yes no), σ => (w.test cond σ).bind fun
    | (true, σ) => execute fuel yes σ
    | (false, σ) => match no with
      | none => some (.normal, σ)
      | some no => execute fuel no σ
  | fuel + 1, .expr (.whileLoop info cond body), σ => (w.test cond σ).bind fun
    | (true, σ) => Ending.andThen (execute fuel body σ) (execute fuel (.expr (.whileLoop info cond body)))
    | (false, σ) => some (.normal, σ)
  | fuel + 1, .expr (.forLoop info (some init) cond post body), σ =>
    (w.aside (some init) σ).bind (execute fuel (.expr (.forLoop info none cond post body)))
  | fuel + 1, .expr (.forLoop info none cond post body), σ => (w.testOption cond σ).bind fun
    | (true, σ) => Ending.andThen (execute fuel body σ) fun σ =>
      (w.aside post σ).bind (execute fuel (.expr (.forLoop info none cond post body)))
    | (false, σ) => some (.normal, σ)
  | _ + 1, .expr e, σ => (w.eval e σ).map fun (_, σ) => (.normal, σ)
  | _ + 1, .prototype _, _ | _ + 1, .function _ _, _ => none

variable {w}

theorem Ending.andThen_eq_some {result : Option (Ending × Store Ω)} {next : Store Ω → Option (Ending × Store Ω)}
    {o : Ending} {σ' : Store Ω} (h : andThen result next = some (o, σ')) :
    (∃ σ, result = some (.normal, σ) ∧ next σ = some (o, σ')) ∨
    ∃ value, result = some (.returned value, σ') ∧ o = .returned value := by
  obtain ⟨⟨_ | value, σ⟩, hresult, h⟩ := Option.bind_eq_some_iff.1 h
  · exact .inl ⟨σ, hresult, h⟩
  · cases h
    exact .inr ⟨value, hresult, rfl⟩

/-- The ends that are found are ends. -/
theorem execute_sound : ∀ {fuel : Nat} {s : Stmt} {σ σ' : Store Ω} {o : Ending},
    w.execute fuel s σ = some (o, σ') → Exec w s σ o σ'
  | _ + 1, .ret none, σ, σ', o, h => by
    cases h
    exact .retNone
  | _ + 1, .ret (some e), σ, σ', o, h => by
    obtain ⟨⟨v, σ₁⟩, hvalue, h⟩ := Option.map_eq_some_iff.1 h
    cases h
    exact .retValue hvalue
  | _ + 1, .varDecl _, σ, σ', o, h => by
    cases h
    exact .varDecl
  | _ + 1, .globalDecl _, σ, σ', o, h => by
    cases h
    exact .globalDecl
  | _ + 1, .block [], σ, σ', o, h => by
    cases h
    exact .blockNil
  | fuel + 1, .block (s :: rest), σ, σ', o, h => by
    obtain ⟨σ₁, hfirst, hothers⟩ | ⟨value, hfirst, rfl⟩ := Ending.andThen_eq_some h
    · exact .blockCons (execute_sound hfirst) (execute_sound hothers)
    · exact .blockReturn (execute_sound hfirst)
  | fuel + 1, .expr (.ifElse _ cond yes no), σ, σ', o, h => by
    obtain ⟨⟨_ | _, σ₁⟩, htest, h⟩ := Option.bind_eq_some_iff.1 h
    · cases no with
      | none =>
        cases h
        exact .ifFalse htest
      | some no => exact .ifElse htest (execute_sound h)
    · exact .ifTrue htest (execute_sound h)
  | fuel + 1, .expr (.whileLoop info cond body), σ, σ', o, h => by
    obtain ⟨⟨_ | _, σ₁⟩, htest, h⟩ := Option.bind_eq_some_iff.1 h
    · cases h
      exact .whileDone htest
    · obtain ⟨σ₂, hround, hagain⟩ | ⟨value, hround, rfl⟩ := Ending.andThen_eq_some h
      · exact .whileNext htest (execute_sound hround) (execute_sound hagain)
      · exact .whileReturn htest (execute_sound hround)
  | fuel + 1, .expr (.forLoop info (some init) cond post body), σ, σ', o, h => by
    obtain ⟨σ₁, hstart, hrounds⟩ := Option.bind_eq_some_iff.1 h
    exact .forInit hstart (execute_sound hrounds)
  | fuel + 1, .expr (.forLoop info none cond post body), σ, σ', o, h => by
    obtain ⟨⟨_ | _, σ₁⟩, htest, h⟩ := Option.bind_eq_some_iff.1 h
    · cases h
      exact .forDone htest
    · obtain ⟨σ₂, hround, hnext⟩ | ⟨value, hround, rfl⟩ := Ending.andThen_eq_some h
      · obtain ⟨σ₃, hpost, hagain⟩ := Option.bind_eq_some_iff.1 hnext
        exact .forNext htest (execute_sound hround) hpost (execute_sound hagain)
      · exact .forReturn htest (execute_sound hround)
  | _ + 1, .expr (.ident ..), σ, σ', o, h | _ + 1, .expr (.number ..), σ, σ', o, h
  | _ + 1, .expr (.string ..), σ, σ', o, h | _ + 1, .expr (.unary ..), σ, σ', o, h
  | _ + 1, .expr (.binary ..), σ, σ', o, h | _ + 1, .expr (.call ..), σ, σ', o, h
  | _ + 1, .expr (.convert ..), σ, σ', o, h => by
    obtain ⟨⟨v, σ₁⟩, hvalue, h⟩ := Option.map_eq_some_iff.1 h
    cases h
    exact .expr hvalue

end Runs

end MiniC
