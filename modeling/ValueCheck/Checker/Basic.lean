import ValueCheck.Failure.Basic

/-! Checkers: tests of values together with the words for what they accept. -/

namespace ValueCheck

/-- A checker is known by its key: the name it was made under, or the text of the
term it was made for. -/
structure Checker where
  key : String
  description : String
  accepts : World → Value → Bool
  derived : Bool := false
  needsWrapping : Bool := false
  factory : Option ErrorFactory := none

namespace Checker

def parenthesized (text : String) : String := "(" ++ text ++ ")"

def embeddedDescription (c : Checker) : String :=
  if c.needsWrapping then parenthesized c.description else c.description

def operandDescription (c : Checker) : String :=
  if c.derived then parenthesized c.description else c.description

def isSame (c d : Checker) : Bool := c.key == d.key

def escape (c : Char) : String :=
  if c = '"' then "\\\""
  else if c = '\\' then "\\\\"
  else if c = '\n' then "\\n"
  else if c = '\r' then "\\r"
  else if c = '\t' then "\\t"
  else if c = '\x00' then "\\0"
  else if Quoting.isControl c then
    "\\u\x7b" ++ String.ofList (Nat.toDigits 16 c.toNat) ++ "\x7d"
  else String.singleton c

def summary (c : Checker) : String :=
  "Checker \x7b description: \"" ++ String.join (c.description.toList.map escape)
    ++ "\", derived: " ++ toString c.derived
    ++ ", custom_error: " ++ toString c.factory.isSome ++ ", .. \x7d"

end Checker

end ValueCheck
