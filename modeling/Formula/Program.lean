import Formula.Builtin
/-!
# Programs

A program is a list of applications. An operand is a value or the value of an earlier step, and a step
can store its value in a variable for the steps after it. A step whose operands are not all there is
skipped.
-/
namespace Formula

/-- An operand of a step. -/
inductive Argument where
  | value (v : Value)
  /-- The value of the step with this number, from zero. -/
  | result (step : Nat)

structure Step where
  symbol : String
  arguments : List Argument
  /-- The variable that keeps the value. -/
  store : Option String

/-- What became of a step. -/
inductive Answer where
  | skipped
  | outcome (o : Outcome)

def Answer.value? : Answer → Option Value
  | .outcome (.ok (some v)) => some v
  | _ => none

def Argument.resolve (answers : List Answer) : Argument → Option Value
  | .value v => some v
  | .result i => answers[i]?.bind Answer.value?

def Step.answer (vars : Variables) (answers : List Answer) (s : Step) : Answer :=
  match s.arguments.mapM (Argument.resolve answers) with
  | some operands => .outcome (apply s.symbol operands vars)
  | none => .skipped

def Step.update (vars : Variables) (s : Step) (a : Answer) : Variables :=
  match s.store, a.value? with
  | some name, some v => vars.insert name v
  | _, _ => vars

/-- The answers of the steps, after the given ones. -/
def runFrom (vars : Variables) (answers : List Answer) : List Step → List Answer
  | [] => answers
  | s :: steps =>
    let a := s.answer vars answers
    runFrom (s.update vars a) (answers ++ [a]) steps

def run (vars : Variables) (steps : List Step) : List Answer := runFrom vars [] steps

end Formula
