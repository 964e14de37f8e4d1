import ValueCheck.Class
import ValueCheck.Keyed

/-! Schemas: what values are checked against. Lists and shapes are nodes of a
store, so schemas may share nodes and may contain themselves. -/

namespace ValueCheck

abbrev NodeId := Nat

inductive Literal where
  | isTrue
  | isFalse
  | isNull
  | isUndefined
  | boolean
  | number
  | string
  deriving DecidableEq

def Literal.checkerName : Literal → String
  | .isTrue => "true"
  | .isFalse => "false"
  | .isNull => "null"
  | .isUndefined => "undefined"
  | .boolean => "boolean"
  | .number => "number"
  | .string => "string"

inductive Schema where
  | typeString (source : String)
  | literal (l : Literal)
  | instanceOf (c : Class)
  | node (id : NodeId)
  deriving DecidableEq

structure Shape where
  fields : Keyed Schema := {}
  cls : Option Class := none
  keys : Option Schema := none
  values : Option Schema := none

namespace Shape

def declares (s : Shape) (key : String) : Bool := s.fields.contains key

def hasMarkers (s : Shape) : Bool := s.keys.isSome || s.values.isSome

end Shape

/-- A list of one schema describes arrays of any length, a longer one tuples. -/
inductive SchemaNode where
  | list (items : List Schema)
  | shape (shape : Shape)

structure SchemaStore where
  nodes : Array SchemaNode := #[]

namespace SchemaStore

def node (s : SchemaStore) (id : NodeId) : SchemaNode := s.nodes[id]?.getD (.list [])

def write (s : SchemaStore) (id : NodeId) (n : SchemaNode) : SchemaStore :=
  ⟨s.nodes.setIfInBounds id n⟩

theorem node_write_self (s : SchemaStore) {id : NodeId} (n : SchemaNode) (h : id < s.nodes.size) :
    (s.write id n).node id = n := by
  simp [node, write, h]

theorem node_write_ne (s : SchemaStore) {id other : NodeId} (n : SchemaNode) (h : id ≠ other) :
    (s.write id n).node other = s.node other := by
  simp [node, write, h]

def add (n : SchemaNode) : StateM SchemaStore NodeId :=
  modifyGet fun s => (s.nodes.size, ⟨s.nodes.push n⟩)

theorem node_add_self (s : SchemaStore) (n : SchemaNode) :
    (add n s).2.node (add n s).1 = n := by
  change (s.nodes.push n)[s.nodes.size]?.getD (.list []) = n
  simp

theorem node_add_of_ne (s : SchemaStore) {id : NodeId} (n : SchemaNode)
    (h : s.node id ≠ .list []) : (add n s).2.node id = s.node id := by
  have hid : id ≠ s.nodes.size := by
    rintro rfl
    exact h (by simp [node])
  change (s.nodes.push n)[id]?.getD (.list []) = s.nodes[id]?.getD (.list [])
  rw [Array.getElem?_push, if_neg hid]

def push (s : SchemaStore) (id : NodeId) (item : Schema) : SchemaStore :=
  match s.node id with
  | .list items => s.write id (.list (items ++ [item]))
  | .shape _ => s

def updateShape (s : SchemaStore) (id : NodeId) (change : Shape → Shape) : SchemaStore :=
  match s.node id with
  | .shape shape => s.write id (.shape (change shape))
  | .list _ => s

def insertField (s : SchemaStore) (id : NodeId) (key : String) (field : Schema) : SchemaStore :=
  s.updateShape id fun shape => { shape with fields := shape.fields.insert key field }

end SchemaStore

namespace Schema

def newList (items : List Schema) : StateM SchemaStore Schema :=
  return .node (← SchemaStore.add (.list items))

def newShape (shape : Shape) : StateM SchemaStore Schema :=
  return .node (← SchemaStore.add (.shape shape))

end Schema

end ValueCheck
