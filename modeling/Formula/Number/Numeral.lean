import Formula.Number.Nearest
/-!
# Numerals

A numeral is what a decimal literal spells: a sign, digits before and after a point, and an exponent.
`Numeral.read?` reads the literals `[+-]?(D+[.]?D*|[.]D+)([eE][+-]?D+)?` with `D` an ASCII digit, and
`Numeral.toNumber` is the double nearest to what they denote.
-/
namespace Formula.Number

/-- The digits of a decimal literal, as written. -/
structure Numeral where
  negative : Bool
  whole : List Char
  fraction : List Char
  /-- Absent when the literal has no exponent part. -/
  exponent : Option Int
  deriving DecidableEq, Repr

/-- The leading digits, and what follows them. -/
def digitSpan (cs : List Char) : List Char × List Char :=
  (cs.takeWhile Char.isDigit, cs.dropWhile Char.isDigit)

/-- An optional sign: whether it is `-`, and what follows it. -/
def signOf : List Char → Bool × List Char
  | '-' :: cs => (true, cs)
  | '+' :: cs => (false, cs)
  | cs => (false, cs)

/-- The optional exponent part of a literal: nothing, or a mark, a sign and at least one digit.
Yields the exponent and what follows it; a mark without digits is an error. -/
def exponentOf (cs : List Char) : Option (Option Int × List Char) :=
  match cs with
  | [] => some (none, [])
  | c :: rest =>
    if c = 'e' ∨ c = 'E' then
      let (negative, rest) := signOf rest
      match digitSpan rest with
      | ([], _) => none
      | (ds, rest) =>
        let n : Int := Nat.ofDigitChars 10 ds 0
        some (some (if negative then -n else n), rest)
    else some (none, cs)

def Numeral.read? (cs : List Char) : Option Numeral := do
  let (negative, cs) := signOf cs
  let (whole, cs) := digitSpan cs
  let (fraction, cs) :=
    match cs with
    | '.' :: cs => digitSpan cs
    | cs => ([], cs)
  guard (whole ≠ [] ∨ fraction ≠ [])
  let (exponent, cs) ← exponentOf cs
  guard (cs = [])
  return { negative, whole, fraction, exponent }

def Numeral.digits (n : Numeral) : Nat := Nat.ofDigitChars 10 (n.whole ++ n.fraction) 0

/-- The weight of the last digit is ten to this. -/
def Numeral.scale (n : Numeral) : Int := n.exponent.getD 0 - n.fraction.length

/-- The double nearest to the numeral, ties to even; infinite on overflow, and signed always. -/
def Numeral.toNumber (n : Numeral) : Float := ofDecimal n.negative n.digits n.scale

end Formula.Number
