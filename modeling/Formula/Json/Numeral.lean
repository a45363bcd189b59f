import Formula.Json
import Formula.Number.Numeral
/-!
# Number literals in JSON

A literal has a digit before its point, no superfluous zero there, and digits after a point. An
integer of 64 bits is an integer; everything else is a double, computed in double arithmetic: as many
leading digits as fit into 64 bits are scaled by a power of ten, with one rounding for the digits, one
for the power and one for the scaling. What is too large for a double is no JSON number.
-/
namespace Formula.Json

open Number (Numeral)

/-- The numeral that a number literal spells, all of it. -/
def numeral? (cs : List Char) : Option Numeral := do
  let (negative, cs) :=
    match cs with
    | '-' :: cs => (true, cs)
    | cs => (false, cs)
  let (whole, cs) := Number.digitSpan cs
  guard (whole ≠ [] ∧ (whole.head? = some '0' → whole = ['0']))
  let (fraction, cs) ←
    match cs with
    | '.' :: cs =>
      let (fraction, cs) := Number.digitSpan cs
      if fraction = [] then none else some (fraction, cs)
    | cs => some ([], cs)
  let (exponent, cs) ← Number.exponentOf cs
  guard (cs = [])
  return { negative, whole, fraction, exponent }

/-- Appends digits to a significand while it stays below `2 ^ 64`; yields the digits left over. -/
def absorb (significand : Nat) : List Char → Nat × List Char
  | [] => (significand, [])
  | c :: cs =>
    let next := Nat.ofDigitChars 10 [c] significand
    if next < 2 ^ 64 then absorb next cs else (significand, c :: cs)

/-- The double nearest to `10 ^ k`. -/
def powerOfTen (k : Nat) : Float := Number.ofRatio false (10 ^ k) 1

/-- The greatest power of ten that is a double. -/
def greatestPower : Nat := 308

/-- `x / 10 ^ k` in at most two divisions; for `x` below `2 ^ 64`, nothing is left after a third. -/
def scaleDown (x : Float) (k : Nat) : Float :=
  if k ≤ greatestPower then x / powerOfTen k
  else if k ≤ 2 * greatestPower then x / powerOfTen greatestPower / powerOfTen (k - greatestPower)
  else 0

/-- The product `x · 10 ^ k`, unless it is too large. -/
def scaleUp? (x : Float) (k : Nat) : Option Float :=
  if k ≤ greatestPower then
    let y := x * powerOfTen k
    if Number.isFinite y then some y else none
  else if x == 0 then some x
  else none

/-- The double of a numeral. Digits of the whole part that the significand has no room for count as
powers of ten; such digits of the fraction are dropped. -/
def double? (n : Numeral) : Option Float :=
  let (significand, surplus) := absorb 0 n.whole
  let (significand, dropped) := absorb significand n.fraction
  let k := n.exponent.getD 0 + surplus.length - (n.fraction.length - dropped.length : Nat)
  let x := Number.ofRatio false significand 1
  let scaled := if 0 ≤ k then scaleUp? x k.toNat else some (scaleDown x k.natAbs)
  scaled.map fun y => if n.negative then -y else y

/-- Whether an integer has a 64-bit representation, without a sign or with one. -/
def isWord (n : Int) : Bool := -(2 ^ 63) ≤ n && n < 2 ^ 64

/-- The number that a literal spells. A negative zero is a double, as an integer has no such zero. -/
def number? (cs : List Char) : Option Json := do
  let n ← numeral? cs
  if n.fraction = [] ∧ n.exponent = none then
    let magnitude : Int := n.digits
    let value := if n.negative then -magnitude else magnitude
    if isWord value && !(n.negative && n.digits == 0) then return .integer value
  let x ← double? n
  return .real x

end Formula.Json
