import ValueCheck.Checker.Builtin

/-! Registries: checkers by name, and by the text of the terms they were made for.
An entry is never replaced. -/

namespace ValueCheck

structure Registry where
  checkers : Keyed Checker

abbrev Registering := ExceptT ConfigError (StateM Registry)

namespace Registry

def builtin : Registry :=
  ⟨.ofList (Builtin.all.flatMap fun b => (b.name :: b.aliases).map fun n => (n, b.checker))⟩

def get? (r : Registry) (key : String) : Option Checker := r.checkers.get? key

def contains (r : Registry) (key : String) : Bool := r.checkers.contains key

def size (r : Registry) : Nat := r.checkers.size

def names (r : Registry) : List String := r.checkers.keys.mergeSort (· ≤ ·)

def cache (key : String) (c : Checker) : StateM Registry Checker :=
  modifyGet fun r => ((r.get? key).getD c, ⟨r.checkers.insertIfNew key c⟩)

def isName (name : String) : Bool := Text.Case.kebab.accepts name.toList

def register (name : String) (accepts : World → Value → Bool) (description : Option String)
    (factory : Option ErrorFactory) : Registering Checker := do
  if !isName name then throw (.invalidName name)
  if (← get).contains name then throw (.duplicateChecker name)
  let words := (description.filter (· ≠ "")).getD name
  let c : Checker := ⟨name, words, accepts, false, false, factory⟩
  modify fun r => ⟨r.checkers.insertIfNew name c⟩
  return c

end Registry

end ValueCheck
