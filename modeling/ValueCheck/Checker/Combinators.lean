import ValueCheck.Checker.Basic
import ValueCheck.Grammar.SizeRange

/-! Checkers made from checkers. Only the modifiers of a single checker keep its
error factory. -/

namespace ValueCheck.Checker

def allOf (key : String) (cs : List Checker) : Checker where
  key := key
  description := " and ".intercalate (cs.map operandDescription)
  accepts w v := cs.all fun c => c.accepts w v
  derived := true
  needsWrapping := true

def anyOf (key : String) (cs : List Checker) : Checker where
  key := key
  description := " or ".intercalate (cs.map operandDescription)
  accepts w v := cs.any fun c => c.accepts w v
  derived := true
  needsWrapping := true

def allAccept (w : World) : List Checker → List Value → Bool
  | [], [] => true
  | c :: cs, v :: vs => c.accepts w v && allAccept w cs vs
  | _, _ => false

def tuple (key : String) (cs : List Checker) : Checker where
  key := key
  description := "plain array tuple containing " ++ ", ".intercalate (cs.map (·.description))
  accepts w v := (v.items? w).any (allAccept w cs)
  derived := true

def arrayOf (key : String) (c : Checker) : Checker where
  key := key
  description := "plain array containing " ++ c.embeddedDescription
  accepts w v := (v.items? w).any fun items => items.all (c.accepts w)
  derived := true

def plainProperties? (w : World) (v : Value) : Option (Keyed Value) :=
  if v.isPlainObject w then v.properties? w else none

def objectOf (key : String) (value : Checker) : Checker where
  key := key
  description := "plain object containing " ++ value.embeddedDescription
  accepts w v := (plainProperties? w v).any fun ps => ps.entries.all fun p => value.accepts w p.2
  derived := true

def entriesOf (key : String) (name value : Checker) : Checker where
  key := key
  description := "plain object with " ++ name.embeddedDescription ++ " keys containing "
    ++ value.embeddedDescription
  accepts w v := (plainProperties? w v).any fun ps =>
    ps.entries.all fun p => name.accepts w (.str p.1) && value.accepts w p.2
  derived := true

def inverted (key : String) (c : Checker) : Checker where
  key := key
  description := "anything except " ++ c.embeddedDescription
  accepts w v := !c.accepts w v
  derived := true
  factory := c.factory

def nonEmpty (key : String) (c : Checker) : Checker where
  key := key
  description := "non-empty " ++ c.embeddedDescription
  accepts w v := c.accepts w v && !v.isEmpty w
  derived := true
  factory := c.factory

def optional (key : String) (c : Checker) : Checker where
  key := key
  description := c.embeddedDescription ++ " or empty"
  accepts w v := v.isUndefined || c.accepts w v
  derived := true
  needsWrapping := true
  factory := c.factory

def sized (key : String) (c : Checker) (range : Grammar.SizeRange) : Checker where
  key := key
  description := c.embeddedDescription ++ " " ++ range.phrase
  accepts w v := c.accepts w v && (v.size? w).any range.contains
  derived := true
  factory := c.factory

end ValueCheck.Checker
