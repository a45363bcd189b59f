import Formula.Catalog
import Formula.Operator.Additive
import Formula.Operator.Element
import Formula.Operator.Equality
import Formula.Operator.Naming
import Formula.Operator.Numeric
import Formula.Operator.Truth
/-!
# The operators and constants of the language

`builtins` is the catalog of the language; `-` is in it twice, with one operand and with two. Most of
its operators are made for a symbol, and can be made for any other.

Results:
* `Operator.provided_of_mem`: the operators of the language are among those that can be made.
-/
namespace Formula

def builtinOperators : List Operator :=
  [.addition, .subtraction, .multiplication, .division, .modulo, .power, .negation,
    .equality "==", .equality "EQUALS", .inequality "!=", .inequalityKeyword "UNEQUAL",
    .ordering "<" fun x y => x < y, .ordering ">" fun x y => x > y,
    .ordering "<=" fun x y => x ≤ y, .ordering ">=" fun x y => x ≥ y,
    .logicalNot "!", .logicalNot "NOT",
    .connective "&" 2 and, .connective "AND" 2 and,
    .connective "|" 1 or, .connective "OR" 1 or, .connective "XOR" 2 xor,
    .needleFirst "IN", .haystackFirst "CONTAINS",
    .elementAccess "@", .elementAccess "AT",
    .resolve, .existence]

def builtins : Catalog := Catalog.ofList builtinOperators

/-- The operators that can be made: those of the language, and most of them under any symbol. -/
inductive Operator.Provided : Operator → Prop where
  | addition : Provided addition
  | subtraction : Provided subtraction
  | multiplication : Provided multiplication
  | division : Provided division
  | modulo : Provided modulo
  | power : Provided power
  | negation : Provided negation
  | equality (symbol : String) : Provided (equality symbol)
  | inequality (symbol : String) : Provided (inequality symbol)
  | inequalityKeyword (symbol : String) : Provided (inequalityKeyword symbol)
  | ordering (symbol : String) (f : Float → Float → Value) : Provided (ordering symbol f)
  | logicalNot (symbol : String) : Provided (logicalNot symbol)
  | connective (symbol : String) (precedence : Int) (f : Bool → Bool → Bool) :
    Provided (connective symbol precedence f)
  | needleFirst (symbol : String) : Provided (needleFirst symbol)
  | haystackFirst (symbol : String) : Provided (haystackFirst symbol)
  | elementAccess (symbol : String) : Provided (elementAccess symbol)
  | resolve : Provided resolve
  | existence : Provided existence

theorem Operator.provided_of_mem {op : Operator} (h : op ∈ builtinOperators) : op.Provided := by
  suffices all : ∀ op ∈ builtinOperators, op.Provided from all op h
  simp only [builtinOperators, List.forall_mem_cons, List.not_mem_nil, false_imp_iff,
    implies_true, and_true]
  exact ⟨.addition, .subtraction, .multiplication, .division, .modulo, .power, .negation,
    .equality _, .equality _, .inequality _, .inequalityKeyword _,
    .ordering _ _, .ordering _ _, .ordering _ _, .ordering _ _, .logicalNot _, .logicalNot _,
    .connective _ _ _, .connective _ _ _, .connective _ _ _, .connective _ _ _, .connective _ _ _,
    .needleFirst _, .haystackFirst _, .elementAccess _, .elementAccess _, .resolve, .existence⟩

def apply {σ : Type} [Scope σ] (symbol : String) (operands : List Value) (scope : σ) : Outcome :=
  builtins.apply symbol operands (Scope.lookup scope)

structure Constant where
  name : String
  description : String
  value : Value

def constants : List Constant :=
  [⟨"TRUE", "Boolean true", .boolean true⟩,
    ⟨"FALSE", "Boolean false", .boolean false⟩,
    ⟨"NEWLINE", "A line break", .text "\n"⟩,
    ⟨"E", "Euler's number", .number 2.718281828459045⟩,
    ⟨"PI", "The circle constant", .number 3.141592653589793⟩,
    ⟨"TAU", "Twice the circle constant", .number 6.283185307179586⟩,
    ⟨"INF", "Positive infinity", .number (Number.ofMagnitude false Number.infinity)⟩,
    ⟨"-INF", "Negative infinity", .number (Number.ofMagnitude true Number.infinity)⟩,
    ⟨"NAN", "Not a number", .number Number.undefined⟩]

def constant? (name : String) : Option Value :=
  (constants.find? fun c => c.name == name).map Constant.value

end Formula
