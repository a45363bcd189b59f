/-!
# What a number denotes

A number is a `Float`. Its bit pattern is read as a sign and a magnitude, and the magnitude as
`significand · 2 ^ exponent`, so that whatever has to be exact (the integer part, the remainder of a
division, the digits of its text) is computed on natural numbers.

Magnitudes of finite doubles are ordered as the doubles are, and the next double above a magnitude
is its successor; `infinity` is the magnitude after the greatest finite one.
-/
namespace Formula.Number

/-- Powers are those of the numbers themselves, also in modules that know of monoids. -/
@[default_instance 20000]
instance (priority := 20000) power {α : Type} [NatPow α] : Pow α Nat := instPowNat

inductive Parts where
  /-- Not a number. -/
  | undefined
  | infinite (negative : Bool)
  /-- The value `± significand · 2 ^ exponent`. -/
  | finite (negative : Bool) (significand : Nat) (exponent : Int)
  deriving DecidableEq, Repr

/-- The exponent of the subnormal doubles, and the least one there is. -/
def leastExponent : Int := -1074

/-- The magnitude of the infinities. -/
def infinity : Nat := 2047 * 2 ^ 52

/-- The bit pattern without its sign. -/
def magnitude (x : Float) : Nat := x.toBits.toNat % 2 ^ 63

/-- The sign bit; set for `-0.0` too. -/
def isNegative (x : Float) : Bool := 2 ^ 63 ≤ x.toBits.toNat

def ofMagnitude (negative : Bool) (m : Nat) : Float :=
  Float.ofBits (UInt64.ofNat (if negative then m + 2 ^ 63 else m))

/-- Not a number; there is one such `Float`. -/
def undefined : Float := ofMagnitude false (infinity + 2 ^ 51)

/-- The denotation of the magnitude `m` under a sign. -/
def Parts.ofMagnitude (negative : Bool) (m : Nat) : Parts :=
  let field : Nat := m / 2 ^ 52
  let fraction := m % 2 ^ 52
  if field = 2047 then
    if fraction = 0 then .infinite negative else .undefined
  else if field = 0 then .finite negative fraction leastExponent
  else .finite negative (2 ^ 52 + fraction) ((field : Int) - 1 + leastExponent)

def parts (x : Float) : Parts := .ofMagnitude (isNegative x) (magnitude x)

/-- Neither infinite nor undefined. -/
def isFinite (x : Float) : Bool := magnitude x < infinity

def isInfinite (x : Float) : Bool := magnitude x == infinity

def isUndefined (x : Float) : Bool := infinity < magnitude x

end Formula.Number
