import ValueCheck.Checker.Combinators
import ValueCheck.Checker.Registry
import ValueCheck.Grammar.Parser

/-! The checkers of terms. Each term is looked up by its text first, so equal
subterms share one checker. -/

namespace ValueCheck.Registry

open Grammar (Term)

def named (name : String) : Registering Checker := do
  match (← get).get? name with
  | some c => return c
  | none => throw (.unknownChecker name)

def cached (t : Term) (make : String → Registering Checker) : Registering Checker := do
  let key := t.text
  match (← get).get? key with
  | some c => return c
  | none => cache key (← make key)

mutual

/-- Operands are compiled from left to right, but the value of an entry before its key. -/
def compile : Term → Registering Checker
  | .name n => named n
  | .group t => compile t
  | .allOf ts => cached (.allOf ts) fun key => return .allOf key (← compileAll ts)
  | .anyOf ts => cached (.anyOf ts) fun key => return .anyOf key (← compileAll ts)
  | .tuple ts => cached (.tuple ts) fun key => return .tuple key (← compileAll ts)
  | .array t => cached (.array t) fun key => return .arrayOf key (← compile t)
  | .object t => cached (.object t) fun key => return .objectOf key (← compile t)
  | .entries k t => cached (.entries k t) fun key => do
      let value ← compile t
      let name ← compile k
      return .entriesOf key name value
  | .inverted t => cached (.inverted t) fun key => return .inverted key (← compile t)
  | .nonEmpty t => cached (.nonEmpty t) fun key => return .nonEmpty key (← compile t)
  | .optional t => cached (.optional t) fun key => return .optional key (← compile t)
  | .sized t range => cached (.sized t range) fun key => return .sized key (← compile t) range

def compileAll : List Term → Registering (List Checker)
  | [] => return []
  | t :: ts => return (← compile t) :: (← compileAll ts)

end

def getOrCompile (source : String) : Registering Checker := do
  match (← get).get? source with
  | some c => return c
  | none =>
    match Grammar.parse source with
    | .ok t => cache source (← compile t)
    | .error e => throw (.malformed source e)

end ValueCheck.Registry
