import Formula.Number.Nearest
/-!
# Integer parts and remainders

Both are exact: they are computed on the significands, aligned at a common exponent.
-/
namespace Formula.Number

/-- The greatest index; the least one is `-(indexLimit + 1)`. -/
def indexLimit : Int := 2 ^ 63 - 1

/-- `n`, or the nearest end of the range of 64-bit indices. -/
def clampIndex (n : Int) : Int := max (-(indexLimit + 1)) (min n indexLimit)

/-- The integer part, toward zero, kept within the 64-bit indices; zero where there is no number. -/
def toIndex (x : Float) : Int :=
  match parts x with
  | .undefined => 0
  | .infinite negative => clampIndex (if negative then -(indexLimit + 1) else indexLimit)
  | .finite negative m e =>
    let whole : Int := m * 2 ^ e.toNat / 2 ^ (-e).toNat
    clampIndex (if negative then -whole else whole)

/-- The remainder of the division of `x` by `y` whose quotient is cut off toward zero; it has the
sign of `x`. There is none for an infinite `x` or a zero `y`. -/
def remainder (x y : Float) : Float :=
  match parts x, parts y with
  | .finite negative m e, .finite _ n f =>
    if n = 0 then undefined
    else
      let g := min e f
      let r := (m * 2 ^ (e - g).toNat) % (n * 2 ^ (f - g).toNat)
      ofRatio negative (r * 2 ^ g.toNat) (2 ^ (-g).toNat)
  | .finite .., .infinite _ => x
  | _, _ => undefined

end Formula.Number
