import Formula.Number.Parts
/-!
# Shortest decimals

The decimal written for a double is one with the fewest digits that reads back as it, and of those
the nearest. The doubles around `m · 2 ^ q` leave it an interval of numbers that round to it, ends
included iff `m` is even. Grids `10 ^ k · ℕ` are tried from coarse to fine; the first grid with a
point in the interval has one next to the value.

Lengths are counted in quarters of `2 ^ q`, in which both ends of the interval are whole.
-/
namespace Formula.Number

/-- The value `digits · 10 ^ exponent`. -/
structure Decimal where
  digits : Nat
  exponent : Int
  deriving DecidableEq, Repr

/-- Which of two grid points equally far from the value is taken. -/
inductive Tie where
  | upward
  | toEven
  deriving DecidableEq, Repr

/-- The numbers that round to `m · 2 ^ q`, in quarters of `2 ^ q`. Below a power of two the doubles
lie twice as close. -/
structure Interval where
  low : Nat
  value : Nat
  high : Nat
  closed : Bool

def Interval.around (m : Nat) (q : Int) : Interval where
  low := if m = 2 ^ 52 ∧ leastExponent < q then 4 * m - 1 else 4 * m - 2
  value := 4 * m
  high := 4 * m + 2
  closed := m % 2 = 0

/-- Whether `n` grid steps lie in the interval, where `n * step` and `end * scale` measure alike. -/
def Interval.contains (i : Interval) (step scale n : Nat) : Bool :=
  if i.closed then i.low * scale ≤ n * step && n * step ≤ i.high * scale
  else i.low * scale < n * step && n * step < i.high * scale

/-- The point of the grid with this step that is in the interval and nearest to its value. -/
def Interval.gridPoint (i : Interval) (tie : Tie) (step scale : Nat) : Option Nat :=
  let below := i.value * scale / step
  let above := below + 1
  match i.contains step scale below, i.contains step scale above with
  | false, false => none
  | true, false => some below
  | false, true => some above
  | true, true =>
    match compare (i.value * scale - below * step) (above * step - i.value * scale) with
    | .lt => some below
    | .gt => some above
    | .eq =>
      match tie with
      | .upward => some above
      | .toEven => some (if below % 2 = 0 then below else above)

def Decimal.exact (m : Nat) (q : Int) : Decimal :=
  ⟨m * 2 ^ q.toNat * 5 ^ (-q).toNat, min q 0⟩

/-- The first hit on the `n` grids from `10 ^ k` downward, else the exact decimal. -/
def Decimal.search (tie : Tie) (m : Nat) (q : Int) : Nat → Int → Decimal
  | 0, _ => .exact m q
  | n + 1, k =>
    let step := 10 ^ k.toNat * 2 ^ (2 - q).toNat
    let scale := 2 ^ (q - 2).toNat * 10 ^ (-k).toNat
    match (Interval.around m q).gridPoint tie step scale with
    | some d => ⟨d, k⟩
    | none => search tie m q n (k - 1)

/-- A power of ten not below `2 ^ e`. -/
def decimalBound (e : Int) : Int := if 0 ≤ e then (e + 2) / 3 else -(-e / 4)

/-- The shortest decimal of the double `m · 2 ^ q`, for `0 < m`. The double is below `2 ^ e`, so no
grid coarser than `10 ^ decimalBound e` has a point near it, and it lies on the grid of its own
exponent. -/
def Decimal.shortest (tie : Tie) (m : Nat) (q : Int) : Decimal :=
  let k := decimalBound (m.log2 + 1 + q)
  search tie m q (k - min q 0).toNat k

end Formula.Number
