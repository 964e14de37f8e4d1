import ValueCheck.Number.Basic

/-! The decimal text of a number: the fewest digits that read back as that
number, of these the nearest, written without an exponent. -/

namespace ValueCheck

structure Decimal where
  digits : Nat
  exponent : Int

namespace Decimal

def powerOfTen (k : Int) : Rat :=
  if 0 ≤ k then (Nat.pow 10 k.toNat : Rat) else mkRat 1 (Nat.pow 10 (-k).toNat)

def value (d : Decimal) : Rat := (d.digits : Rat) * powerOfTen d.exponent

def magnitude (v : Rat) : Int :=
  if 1 ≤ v then ((Nat.toDigits 10 v.floor.toNat).length : Int) - 1
  else
    let d := (Nat.toDigits 10 (1 / v).floor.toNat).length
    if (1 / v) = Nat.pow 10 (d - 1) then 1 - (d : Int) else -(d : Int)

end Decimal

/-- The rationals that round to one number: those between its neighbours' midpoints. -/
structure Interval where
  low : Rat
  high : Rat
  closed : Bool

namespace Interval

def contains (i : Interval) (x : Rat) : Bool :=
  if i.closed then i.low ≤ x && x ≤ i.high else i.low < x && x < i.high

/-- `v > 0` is `m * 2 ^ q` with `m < 2 ^ 53` and `q` at least -1074. The gap
below a power of two is half the gap above it; the midpoints belong to the
interval when `m` is even. -/
def around (v : Rat) : Interval :=
  let q := max ((v.num.natAbs.log2 : Int) - v.den.log2 - 52) (-1074)
  let gap := Number.powerOfTwo q
  let m := (v / gap).floor.toNat
  let below := if m = 1 <<< 52 ∧ -1074 < q then gap / 2 else gap
  ⟨v - below / 2, v + gap / 2, m % 2 = 0⟩

end Interval

namespace Decimal

def onGrid (v : Rat) (i : Interval) (k : Int) : Option Decimal :=
  let grid := powerOfTen k
  let n := (v / grid).floor.toNat
  let down : Decimal := ⟨n, k⟩
  let up : Decimal := ⟨n + 1, k⟩
  match i.contains down.value, i.contains up.value with
  | true, true => if v - down.value < up.value - v then some down else some up
  | true, false => some down
  | false, true => some up
  | false, false => none

def firstOnGrids (v : Rat) (i : Interval) : Nat → Int → Decimal
  | 0, k => ⟨(v / powerOfTen k).floor.toNat, k⟩
  | n + 1, k => (onGrid v i k).getD (firstOnGrids v i n (k - 1))

def shortest (v : Rat) : Decimal := firstOnGrids v (Interval.around v) 17 (magnitude v)

def padded (width : Nat) (digits : List Char) : List Char :=
  List.replicate (width - digits.length) '0' ++ digits

def withoutTrailingZeros (digits : List Char) : List Char :=
  (digits.reverse.dropWhile (· == '0')).reverse

def text (d : Decimal) : String :=
  if 0 ≤ d.exponent then toString (d.digits * Nat.pow 10 d.exponent.toNat)
  else
    let places := (-d.exponent).toNat
    let fraction :=
      withoutTrailingZeros (padded places (Nat.toDigits 10 (d.digits % Nat.pow 10 places)))
    let whole := toString (d.digits / Nat.pow 10 places)
    if fraction.isEmpty then whole else whole ++ "." ++ String.ofList fraction

end Decimal

def Number.text : Number → String
  | .nan => "NaN"
  | .infinite negative => if negative then "-Infinity" else "Infinity"
  | .finite v =>
    if v = 0 then "0"
    else if v < 0 then "-" ++ (Decimal.shortest (-v)).text
    else (Decimal.shortest v).text

end ValueCheck
