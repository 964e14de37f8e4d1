import ValueCheck.Number.Basic

/-! Ranges of sizes; both ends belong to a range. -/

namespace ValueCheck.Grammar

inductive SizeRange where
  | exactly (n : Nat)
  | atLeast (n : Nat)
  | atMost (n : Nat)
  | between (low high : Nat)
  deriving DecidableEq

namespace SizeRange

def low : SizeRange → Option Nat
  | exactly n | atLeast n | between n _ => some n
  | atMost _ => none

def high : SizeRange → Option Nat
  | exactly n | atMost n | between _ n => some n
  | atLeast _ => none

def contains (r : SizeRange) (size : Number) : Bool :=
  r.low.all (fun n => (Number.ofNat n).le size) && r.high.all (fun n => size.le (Number.ofNat n))

def text : SizeRange → String
  | exactly n => "\x7b" ++ toString n ++ "\x7d"
  | atLeast n => "\x7b" ++ toString n ++ ",\x7d"
  | atMost n => "\x7b," ++ toString n ++ "\x7d"
  | between low high => "\x7b" ++ toString low ++ "," ++ toString high ++ "\x7d"

def phrase : SizeRange → String
  | exactly n => "with size " ++ toString n
  | atLeast n => "with minimum size " ++ toString n
  | atMost n => "with maximum size " ++ toString n
  | between low high => "with size between " ++ toString low ++ " and " ++ toString high

end SizeRange

end ValueCheck.Grammar
