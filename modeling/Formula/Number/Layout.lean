import Formula.Number.Shortest
/-!
# Layouts of number texts

A `Layout` says how the shortest digits of a number are spelled: between which bounds without an
exponent, and how the exponent is written outside them. Numbers that are not finite have names, the
same in every layout.
-/
namespace Formula.Number

/-- The choices in which number formats differ. -/
structure Layout where
  /-- Numbers at least this large are written without an exponent. -/
  least : Float
  /-- Numbers from here on have one again. Zero never has. -/
  limit : Float
  tie : Tie
  /-- What stands before the exponent. -/
  mark : Char
  /-- Whether an exponent that is not negative has a `+`. -/
  plus : Bool
  /-- Whether a point follows a single digit before the exponent. -/
  point : Bool

/-- Digits with the point before the digit of weight `10 ^ -1`, and a digit on either side. -/
def plainDigits (digits : List Char) (exponent : Int) : List Char :=
  let whole := (digits.length : Int) + exponent
  if 0 ≤ exponent then digits ++ List.replicate exponent.toNat '0' ++ ['.', '0']
  else if 0 < whole then digits.take whole.toNat ++ '.' :: digits.drop whole.toNat
  else '0' :: '.' :: (List.replicate (-whole).toNat '0' ++ digits)

/-- One digit before the point, and the exponent that makes up for it. -/
def Layout.scientificDigits (l : Layout) (digits : List Char) (exponent : Int) : List Char :=
  let e := (digits.length : Int) + exponent - 1
  let fraction :=
    match digits.drop 1 with
    | [] => if l.point then ['.', '0'] else []
    | ds => '.' :: ds
  let sign := if e < 0 then ['-'] else if l.plus then ['+'] else []
  digits.take 1 ++ fraction ++ l.mark :: (sign ++ Nat.toDigits 10 e.natAbs)

def Layout.isPlain (l : Layout) (x : Float) : Bool := l.least ≤ x.abs && x.abs < l.limit

def Layout.write (l : Layout) (x : Float) : List Char :=
  match parts x with
  | .undefined => "NaN".toList
  | .infinite negative => (if negative then "-Infinity" else "Infinity").toList
  | .finite negative m q =>
    let sign := if negative then ['-'] else []
    if m = 0 then sign ++ ['0', '.', '0']
    else
      let d := Decimal.shortest l.tie m q
      let digits := Nat.toDigits 10 d.digits
      sign ++ if l.isPlain x then plainDigits digits d.exponent
        else l.scientificDigits digits d.exponent

end Formula.Number
