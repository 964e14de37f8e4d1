/-! Numbers with binary64 precision: exact rationals, two infinities and one
value that is no number. The two zeros are one number. -/

namespace ValueCheck

inductive Number where
  | nan
  | infinite (negative : Bool)
  | finite (value : Rat)
  deriving DecidableEq

namespace Number

def powerOfTwo (k : Int) : Rat :=
  if 0 ≤ k then ((1 <<< k.toNat : Nat) : Rat) else mkRat 1 (1 <<< (-k).toNat)

def ofBits (bits : UInt64) : Number :=
  let b := bits.toNat
  let negative := b >>> 63 == 1
  let exponent : Nat := (b >>> 52) % (1 <<< 11)
  let fraction : Nat := b % (1 <<< 52)
  let sign : Rat := if negative then -1 else 1
  if exponent = 2047 then
    if fraction = 0 then .infinite negative else .nan
  else if exponent = 0 then
    .finite (sign * (fraction : Rat) * powerOfTwo (-1074))
  else
    .finite (sign * (((1 <<< 52) + fraction : Nat) : Rat) * powerOfTwo ((exponent : Int) - 1075))

/-- `n` rounded to 53 significant bits; a half goes to the even neighbour. -/
def roundedNat (n : Nat) : Nat :=
  if n < 1 <<< 53 then n
  else
    let unit := 1 <<< (n.log2 - 52)
    let below := n / unit
    let rest := n % unit
    if unit < 2 * rest ∨ (unit = 2 * rest ∧ below % 2 = 1) then (below + 1) * unit
    else below * unit

def ofNat (n : Nat) : Number :=
  let r := roundedNat n
  if r.log2 < 1024 then .finite r else .infinite false

def zero : Number := .finite 0

def isNaN : Number → Bool
  | nan => true
  | _ => false

def isFinite : Number → Bool
  | finite _ => true
  | _ => false

def equals : Number → Number → Bool
  | finite a, finite b => a == b
  | infinite a, infinite b => a == b
  | _, _ => false

def le : Number → Number → Bool
  | nan, _ => false
  | _, nan => false
  | infinite true, _ => true
  | _, infinite false => true
  | finite a, finite b => a ≤ b
  | infinite false, _ => false
  | _, infinite true => false

def lt (a b : Number) : Bool := le a b && !le b a

def maxSafeInteger : Nat := (1 <<< 53) - 1

def isInteger : Number → Bool
  | finite a => a.den = 1 && a.num.natAbs ≤ maxSafeInteger
  | _ => false

theorem equals_comm (a b : Number) : equals a b = equals b a := by
  cases a <;> cases b <;> simp [equals, Bool.beq_comm]

theorem equals_self (a : Number) : equals a a = !a.isNaN := by
  cases a <;> simp [equals, isNaN]

theorem eq_of_equals {a b : Number} (h : equals a b = true) : a = b := by
  cases a <;> cases b <;> simp_all [equals]

end Number

end ValueCheck
