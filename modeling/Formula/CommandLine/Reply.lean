import Formula.Builtin
import Formula.CommandLine.Request
import Formula.Json.Writer
import Formula.Reading
/-!
# What a command answers

A request applies one operator of the language: the assignments are read first, then the operands, and
the first fault ends it. The result is written as pretty JSON, an absent one as null. A listing
ignores everything else. How arguments make a request is left to a parser; `run` has the one of
`Formula.CommandLine.Request`.
-/
namespace Formula.CommandLine

/-- What a command leaves behind. -/
structure Reply where
  code : Nat
  output : String
  error : String
  deriving DecidableEq, Repr

/-- A text filled up with blanks to a number of characters. -/
def padded (width : Nat) (s : String) : String :=
  s ++ String.ofList (List.replicate (width - s.length) ' ')

def listingLine (s : Signature) : String :=
  padded 8 s.symbol ++ " arity=" ++ s.arity.repr ++ " " ++ padded 5 s.associativity.name ++
    " precedence=" ++ s.precedence.repr ++ "\n"

def catalogText (c : Catalog) : String :=
  String.join (c.listing.map fun op => listingLine op.signature)

/-- The variables after assignments, made from left to right. -/
def assignAll (vars : Variables) : List String → Except Fault Variables
  | [] => .ok vars
  | text :: texts => do
    let a ← Assignment.read text
    assignAll (vars.insert a.name a.value) texts

def Request.outcome (r : Request) : Outcome := do
  let vars ← assignAll .empty r.assignments
  let operands ← r.operands.mapM Value.read
  apply (r.symbol.getD "") operands vars

def resultJson : Option Value → Json
  | some v => .ofValue v
  | none => .null

def Request.reply (r : Request) : Reply :=
  if r.listing then ⟨0, catalogText builtins, ""⟩
  else
    match r.outcome with
    | .ok v => ⟨0, (resultJson v).pretty ++ "\n", ""⟩
    | .error fault => ⟨1, "", "error: " ++ fault.message ++ "\n"⟩

def usage : String := "usage: [--var NAME=JSON]... [--list] [-v] SYMBOL [OPERANDS]...\n"

/-- The answer to arguments that make no request. -/
def Ending.reply : Ending → Reply
  | .help => ⟨0, usage, ""⟩
  | .version => ⟨0, "expression-operators 0.1.0\n", ""⟩
  | .misuse => ⟨2, "", usage⟩

/-- The answer to arguments, as a parser takes them. -/
def answer (parse : List String → Except Ending Request) (args : List String) : Reply :=
  match parse args with
  | .ok r => r.reply
  | .error e => e.reply

def run (args : List String) : Reply := answer Request.ofArguments args

end Formula.CommandLine
