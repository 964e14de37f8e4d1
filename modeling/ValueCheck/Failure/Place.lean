import ValueCheck.Value.Basic

/-! Places inside a value: the steps from the outermost value down, and their text. -/

namespace ValueCheck

inductive Step where
  | key (key : String)
  | index (index : Nat)
  /-- The key itself, as a string, not what it is bound to. -/
  | keyItself (key : String)
  deriving DecidableEq

namespace Step

def belowKey (place key : String) : String := if place = "" then key else place ++ "." ++ key

def below (place : String) : Step → String
  | key k => belowKey place k
  | index i => place ++ "[" ++ toString i ++ "]"
  | keyItself k => belowKey place k ++ ": Key"

def follow (w : World) (v : Value) : Step → Value
  | key k => v.property w k
  | index i => v.item w i
  | keyItself k => .str k

end Step

def placeBelow (place : String) (steps : List Step) : String := steps.foldl Step.below place

end ValueCheck
