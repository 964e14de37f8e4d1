/-! Why a type string cannot be read, and which bytes of it are at fault. -/

namespace ValueCheck.Grammar

structure Span where
  start : Nat
  stop : Nat
  deriving DecidableEq

inductive Expected where
  | operand
  | operatorOrEnd
  | groupEnd
  | tupleEnd
  | objectEnd
  | bracketEnd
  deriving DecidableEq

def Expected.text : Expected → String
  | .operand => "a type"
  | .operatorOrEnd => "`&`, `|` or end of type"
  | .groupEnd => "`)`"
  | .tupleEnd => "`,` or `]`"
  | .objectEnd => "`:` or `\x7d`"
  | .bracketEnd => "`]`"

inductive Fault where
  | empty
  | invalidCharacter (found : Char)
  | unexpectedToken (found : String) (expected : Expected)
  | unexpectedEnd (expected : Expected)
  | nestedGroup
  | invalidSize (found : String)
  deriving DecidableEq

def quoted (text : String) : String := "`" ++ text ++ "`"

def Fault.text : Fault → String
  | .empty => "type string is empty"
  | .invalidCharacter found => "unexpected character " ++ quoted (String.singleton found)
  | .unexpectedToken found expected => "expected " ++ expected.text ++ ", found " ++ quoted found
  | .unexpectedEnd expected => "expected " ++ expected.text ++ ", found end of type"
  | .nestedGroup => "groups must not be nested"
  | .invalidSize found => "invalid size range " ++ quoted found

structure GrammarError where
  fault : Fault
  span : Span
  deriving DecidableEq

def GrammarError.message (e : GrammarError) : String :=
  e.fault.text ++ " at " ++ toString e.span.start ++ ".." ++ toString e.span.stop

end ValueCheck.Grammar
