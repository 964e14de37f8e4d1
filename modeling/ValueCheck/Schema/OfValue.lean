import ValueCheck.Failure.Basic
import ValueCheck.Schema.Basic

/-! Schemas written as values: strings are type strings, booleans, `null` and
`undefined` literals, arrays lists and plain objects shapes. A container becomes
one node however often it is met, so sharing and cycles carry over. -/

namespace ValueCheck.Schema

structure Copying where
  store : SchemaStore
  copies : List (CellId × NodeId) := []

abbrev CopyM := StateT Copying (Except ConfigError)

def addCopy (cell : CellId) (n : SchemaNode) : CopyM NodeId :=
  modifyGet fun c =>
    let (id, store) := SchemaStore.add n c.store
    (id, ⟨store, (cell, id) :: c.copies⟩)

def fillCopy (id : NodeId) (n : SchemaNode) : CopyM Unit :=
  modify fun c => { c with store := c.store.write id n }

def inadmissible (w : World) (v : Value) : ConfigError := .invalidType (v.text w)

/-- As each container is entered once, a budget above their number never runs out. -/
def copy (w : World) : Nat → Value → CopyM Schema
  | _, .str source => return .typeString source
  | _, .bool b => return .literal (if b then .isTrue else .isFalse)
  | _, .null => return .literal .isNull
  | _, .undefined => return .literal .isUndefined
  | budget, .container cell => do
    match (← get).copies.lookup cell with
    | some id => return .node id
    | none =>
      match budget, w.cell cell with
      | n + 1, .array items => do
        let id ← addCopy cell (.list [])
        fillCopy id (.list (← items.mapM (copy w n)))
        return .node id
      | n + 1, .object none properties => do
        let id ← addCopy cell (.shape {})
        let fields ← properties.entries.mapM fun p => return (p.1, ← copy w n p.2)
        fillCopy id (.shape { fields := .ofList fields })
        return .node id
      | _, _ => throw (inadmissible w (.container cell))
  | _, v => throw (inadmissible w v)

def ofValue (w : World) (v : Value) (store : SchemaStore) :
    Except ConfigError (Schema × SchemaStore) := do
  let (schema, copying) ← (copy w (w.cells.size + 1) v).run ⟨store, []⟩
  return (schema, copying.store)

end ValueCheck.Schema
