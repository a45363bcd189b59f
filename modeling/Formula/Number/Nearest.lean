import Formula.Number.Parts
/-!
# The nearest double

`nearest a b` is the magnitude of the double nearest to the fraction `a / b`, of two equally near
ones the one with an even significand, and `infinity` from half a unit above the greatest double on.
Integers, decimals and exact results of arithmetic become numbers through it.
-/
namespace Formula.Number

/-- The quotient `a / b`, to the nearest natural number, a half to the even one. -/
def roundHalfEven (a b : Nat) : Nat :=
  let q := a / b
  match compare (2 * (a % b)) b with
  | .lt => q
  | .eq => q + q % 2
  | .gt => q + 1

/-- The exponent `e` that leaves 53 binary digits before the point of `a / b / 2 ^ e`. -/
def binaryExponent (a b : Nat) : Int :=
  let e : Int := a.log2 - b.log2 - 53
  if b * 2 ^ (e + 53).toNat ≤ a * 2 ^ (-(e + 53)).toNat then e + 1 else e

/-- The magnitude of the double nearest to `a / b`. The significand is rounded at the exponent of
its binade, and a carry into the next binade carries over into the exponent field by itself. -/
def nearest (a b : Nat) : Nat :=
  if a = 0 then 0
  else
    let e := max (binaryExponent a b) leastExponent
    let significand := roundHalfEven (a * 2 ^ (-e).toNat) (b * 2 ^ e.toNat)
    min ((e - leastExponent).toNat * 2 ^ 52 + significand) infinity

/-- The magnitude of the double nearest to `d · 10 ^ k`. The first two bounds only keep the powers
small: beyond `10 ^ 309` every double is exceeded, and below `2 ^ -1081` the nearest one is zero. -/
def nearestDecimal (d : Nat) (k : Int) : Nat :=
  if d = 0 then 0
  else if 309 < k then infinity
  else if (d.log2 : Int) + 1082 < -3 * k then 0
  else nearest (d * 10 ^ k.toNat) (10 ^ (-k).toNat)

def ofRatio (negative : Bool) (a b : Nat) : Float := ofMagnitude negative (nearest a b)

def ofDecimal (negative : Bool) (d : Nat) (k : Int) : Float :=
  ofMagnitude negative (nearestDecimal d k)

/-- The number nearest to an integer; zero is positive. -/
def ofInt (n : Int) : Float := ofRatio (n < 0) n.natAbs 1

end Formula.Number
