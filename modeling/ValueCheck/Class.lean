/-! Classes of object instances. A class is known by its serial number; each has
at most one parent, so the ancestors of a class form a chain. -/

namespace ValueCheck

inductive Class where
  | root (serial : Nat) (name : Option String)
  | extending (serial : Nat) (name : String) (parent : Class)
  deriving DecidableEq

namespace Class

def serial : Class → Nat
  | root n _ | extending n _ _ => n

def name? : Class → Option String
  | root _ name => name
  | extending _ name _ => some name

def parent? : Class → Option Class
  | root _ _ => none
  | extending _ _ parent => some parent

def displayName (c : Class) : String := c.name?.getD "anonymous class"

def lineage : Class → List Class
  | root n name => [root n name]
  | extending n name parent => extending n name parent :: parent.lineage

def isSubclassOf (c ancestor : Class) : Bool := c.lineage.contains ancestor

theorem isSubclassOf_self (c : Class) : c.isSubclassOf c = true := by
  cases c <;> simp [isSubclassOf, lineage]

theorem isSubclassOf_iff (c d : Class) :
    c.isSubclassOf d = true ↔ c = d ∨ ∃ p, c.parent? = some p ∧ p.isSubclassOf d = true := by
  rw [eq_comm (a := c)]
  cases c <;> simp [isSubclassOf, lineage, parent?]

end Class

abbrev ClassSupply := Nat

namespace ClassSupply

def declare (name : Option String) : StateM ClassSupply Class :=
  modifyGet fun n => (.root n name, n + 1)

def extend (name : String) (parent : Class) : StateM ClassSupply Class :=
  modifyGet fun n => (.extending n name parent, n + 1)

end ClassSupply

end ValueCheck
