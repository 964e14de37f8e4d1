import ValueCheck.Class
import ValueCheck.Keyed
import ValueCheck.Number.Basic

/-! Values and the world they live in. Arrays, objects, maps and sets are cells
of the world: a value holds only the number of its cell, so values may share
cells and may contain themselves. -/

namespace ValueCheck

abbrev CellId := Nat

inductive Value where
  | undefined
  | null
  | bool (b : Bool)
  | number (n : Number)
  | str (s : String)
  | symbol (serial : Nat) (description : String)
  | function (name : Option String)
  | date (millis : Number)
  | regexp (serial : Nat) (source : String)
  | container (cell : CellId)
  deriving DecidableEq

inductive Cell where
  | array (items : List Value)
  | object (cls : Option Class) (properties : Keyed Value)
  | map (pairs : List (Value × Value))
  | set (items : List Value)

/-- The cells, how many symbols and regular expressions were made, and the
present moment in milliseconds. -/
structure World where
  cells : Array Cell := #[]
  issued : Nat := 0
  now : Number := .zero

namespace World

def cell (w : World) (id : CellId) : Cell := w.cells[id]?.getD (.array [])

def write (w : World) (id : CellId) (c : Cell) : World :=
  { w with cells := w.cells.setIfInBounds id c }

theorem cell_write_self (w : World) {id : CellId} (c : Cell) (h : id < w.cells.size) :
    (w.write id c).cell id = c := by
  simp [cell, write, h]

theorem cell_write_ne (w : World) {id other : CellId} (c : Cell) (h : id ≠ other) :
    (w.write id c).cell other = w.cell other := by
  simp [cell, write, h]

end World

namespace Cell

def children : Cell → List Value
  | array items | set items => items
  | object _ properties => properties.values
  | map pairs => pairs.flatMap fun p => [p.1, p.2]

def size : Cell → Nat
  | array items | set items => items.length
  | object _ properties => properties.size
  | map pairs => pairs.length

def kind : Cell → String
  | array _ => "array"
  | object _ _ => "object"
  | map _ => "map"
  | set _ => "set"

end Cell

namespace Value

def equals : Value → Value → Bool
  | number a, number b => a.equals b
  | date a, date b => a.equals b
  | a, b => a = b

def distinct (vs : List Value) : List Value :=
  vs.foldl (fun kept v => if kept.any (·.equals v) then kept else kept ++ [v]) []

def newCell (c : Cell) : StateM World Value :=
  modifyGet fun w => (container w.cells.size, { w with cells := w.cells.push c })

def newArray (items : List Value) : StateM World Value := newCell (.array items)

def newObject (properties : List (String × Value)) : StateM World Value :=
  newCell (.object none (.ofList properties))

def newInstance (c : Class) (properties : List (String × Value)) : StateM World Value :=
  newCell (.object (some c) (.ofList properties))

def newMap (pairs : List (Value × Value)) : StateM World Value := newCell (.map pairs)

def newSet (items : List Value) : StateM World Value := newCell (.set (distinct items))

def newSymbol (description : String) : StateM World Value :=
  modifyGet fun w => (symbol w.issued description, { w with issued := w.issued + 1 })

def newRegExp (source : String) : StateM World Value :=
  modifyGet fun w => (regexp w.issued source, { w with issued := w.issued + 1 })

def cell? (w : World) : Value → Option Cell
  | container id => some (w.cell id)
  | _ => none

def identity? : Value → Option CellId
  | container id => some id
  | _ => none

def asString? : Value → Option String
  | str s => some s
  | _ => none

def asNumber? : Value → Option Number
  | number n => some n
  | _ => none

def asBool? : Value → Option Bool
  | bool b => some b
  | _ => none

def asDate? : Value → Option Number
  | date millis => some millis
  | _ => none

def items? (w : World) (v : Value) : Option (List Value) :=
  match v.cell? w with
  | some (.array items) => some items
  | _ => none

def properties? (w : World) (v : Value) : Option (Keyed Value) :=
  match v.cell? w with
  | some (.object _ properties) => some properties
  | _ => none

def class? (w : World) (v : Value) : Option Class :=
  match v.cell? w with
  | some (.object cls _) => cls
  | _ => none

def property (w : World) (v : Value) (key : String) : Value :=
  ((v.properties? w).bind (·.get? key)).getD undefined

def item (w : World) (v : Value) (index : Nat) : Value :=
  ((v.items? w).bind (·[index]?)).getD undefined

def children (w : World) (v : Value) : List Value :=
  ((v.cell? w).map Cell.children).getD []

def isUndefined (v : Value) : Bool := v = undefined

def isNull (v : Value) : Bool := v = null

def isFiniteNumber (v : Value) : Bool := v.asNumber?.any (·.isFinite)

def isInteger (v : Value) : Bool := v.asNumber?.any (·.isInteger)

def isArray (w : World) (v : Value) : Bool := (v.items? w).isSome

def isPlainObject (w : World) (v : Value) : Bool :=
  (v.properties? w).isSome && (v.class? w).isNone

def isObjectlike : Value → Bool
  | container _ | date _ | regexp _ _ => true
  | _ => false

def instanceOf (w : World) (v : Value) (c : Class) : Bool :=
  (v.class? w).any (·.isSubclassOf c)

def isTruthy : Value → Bool
  | undefined | null => false
  | bool b => b
  | number n => !n.isNaN && !n.equals .zero
  | str s => s ≠ ""
  | _ => true

def isEmpty (w : World) (v : Value) : Bool :=
  match v.cell? w with
  | some c => c.size = 0
  | none => !v.isTruthy

def size? (w : World) : Value → Option Number
  | number n => some n
  | str s => some (.ofNat s.length)
  | v => (v.cell? w).map fun c => .ofNat c.size

def kind (w : World) : Value → String
  | undefined => "undefined"
  | null => "null"
  | bool _ => "boolean"
  | number _ => "number"
  | str _ => "string"
  | symbol _ _ => "symbol"
  | function _ => "function"
  | date _ => "date"
  | regexp _ _ => "regexp"
  | container id => (w.cell id).kind

theorem equals_comm (a b : Value) : a.equals b = b.equals a := by
  cases a <;> cases b <;> simp [equals, Number.equals_comm, eq_comm]

theorem eq_of_equals {a b : Value} (h : a.equals b = true) : a = b := by
  cases a <;> cases b <;> simp_all [equals]
  all_goals exact Number.eq_of_equals h

end Value

namespace World

def insert (w : World) (target : Value) (key : String) (v : Value) : Option World :=
  match target with
  | .container id =>
    match w.cell id with
    | .object cls properties => some (w.write id (.object cls (properties.insert key v)))
    | _ => none
  | _ => none

def push (w : World) (target : Value) (v : Value) : Option World :=
  match target with
  | .container id =>
    match w.cell id with
    | .array items => some (w.write id (.array (items ++ [v])))
    | _ => none
  | _ => none

def append (w : World) (target : Value) (v : Value) : World :=
  match target with
  | .container id =>
    match w.cell id with
    | .array items => w.write id (.array (items ++ [v]))
    | .set items => w.write id (.set (items ++ [v]))
    | _ => w
  | _ => w

def appendPair (w : World) (target key v : Value) : World :=
  match target with
  | .container id =>
    match w.cell id with
    | .map pairs => w.write id (.map (pairs ++ [(key, v)]))
    | _ => w
  | _ => w

end World

end ValueCheck
