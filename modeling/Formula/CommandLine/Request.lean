/-!
# The arguments of a command

A command is `[options] SYMBOL [OPERANDS]`. Options are recognised until the first operand, before and
after the symbol; from the first operand on every argument is an operand as it stands. The options are
`--var ASSIGNMENT` or `--var=ASSIGNMENT`, any number of times, and the flags: `--list` and `-v` or
`--verbose`, once each, and `-h` or `--help` and `-V` or `--version`, which end the command at once.
Flags of one letter may share an argument. `--` ends the options. After the symbol, an argument with a
hyphen that is no option is an operand; before it, an error. A hyphen alone is an ordinary argument.
-/
namespace Formula.CommandLine

/-- An option without a value. -/
inductive Flag where
  | list
  | verbose
  | help
  | version
  deriving DecidableEq, Repr

def Flag.ofName? (name : String) : Option Flag :=
  match name with
  | "list" => some .list
  | "verbose" => some .verbose
  | "help" => some .help
  | "version" => some .version
  | _ => none

def Flag.ofLetter? (c : Char) : Option Flag :=
  match c with
  | 'v' => some .verbose
  | 'h' => some .help
  | 'V' => some .version
  | _ => none

/-- What an argument looks like where options are recognised. -/
inductive Word where
  /-- The end of the options. -/
  | stop
  /-- An assignment, whose text may be the next argument. -/
  | assign (text : Option String)
  /-- Flags, and none for a name or a letter that no flag has. -/
  | flags (fs : List (Option Flag))
  /-- A flag with a value. -/
  | malformed
  | plain
  deriving DecidableEq, Repr

/-- What an argument after two hyphens looks like. -/
def Word.ofLong (cs : List Char) : Word :=
  let name := String.ofList (cs.takeWhile (· ≠ '='))
  let attached := (cs.dropWhile (· ≠ '=')).tail?.map String.ofList
  if name = "var" then .assign attached
  else if (Flag.ofName? name).isSome && attached.isSome then .malformed
  else .flags [Flag.ofName? name]

def Word.ofArgument (a : String) : Word :=
  match a.toList with
  | ['-', '-'] => .stop
  | '-' :: '-' :: cs => ofLong cs
  | '-' :: c :: cs => .flags ((c :: cs).map Flag.ofLetter?)
  | _ => .plain

/-- Whether the argument is no option, in spite of its hyphens. -/
def Word.isForeign : Word → Bool
  | .flags fs => fs.contains none
  | _ => false

structure Request where
  listing : Bool
  verbose : Bool
  assignments : List String
  symbol : Option String
  operands : List String
  deriving DecidableEq, Repr

/-- Why arguments are no request. -/
inductive Ending where
  | help
  | version
  | misuse
  deriving DecidableEq, Repr

namespace Request

def empty : Request := ⟨false, false, [], none, []⟩

/-- Whether an argument can be the text of an assignment that stands before it. -/
def acceptsText (r : Request) (a : String) : Bool :=
  Word.ofArgument a = .plain || r.symbol.isSome && (Word.ofArgument a).isForeign

/-- The request after the end of the options: the rest are the symbol, unless it is there, and
operands. -/
def close (r : Request) : List String → Request
  | [] => r
  | a :: rest =>
    match r.symbol with
    | some _ => { r with operands := a :: rest }
    | none => { r with symbol := some a, operands := rest }

def assign (r : Request) (text : String) : Request :=
  { r with assignments := r.assignments ++ [text] }

/-- The request after flags, from left to right. -/
def raise (r : Request) : List (Option Flag) → Except Ending Request
  | [] => .ok r
  | some .list :: fs => if r.listing then .error .misuse else raise { r with listing := true } fs
  | some .verbose :: fs => if r.verbose then .error .misuse else raise { r with verbose := true } fs
  | some .help :: _ => .error .help
  | some .version :: _ => .error .version
  | none :: _ => .error .misuse

/-- The request after further arguments. -/
def scan (r : Request) : List String → Except Ending Request
  | [] => .ok r
  | a :: rest =>
    match Word.ofArgument a with
    | .stop => .ok (r.close rest)
    | .assign (some text) => scan (r.assign text) rest
    | .assign none =>
      match rest with
      | [] => .error .misuse
      | text :: rest => if r.acceptsText text then scan (r.assign text) rest else .error .misuse
    | .flags fs =>
      if r.symbol.isSome && fs.contains none then .ok { r with operands := a :: rest }
      else
        match r.raise fs with
        | .ok r => scan r rest
        | .error e => .error e
    | .malformed => .error .misuse
    | .plain =>
      if r.symbol.isSome then .ok { r with operands := a :: rest }
      else scan { r with symbol := some a } rest

/-- The request that the arguments make. Without a symbol only a listing can be asked for. -/
def ofArguments (args : List String) : Except Ending Request := do
  let r ← empty.scan args
  if r.symbol.isSome || r.listing then return r else throw .misuse

end Request

end Formula.CommandLine
