import ValueCheck.Checker.Compile
import ValueCheck.Failure.Place
import ValueCheck.Schema.Basic

/-! Values against schemas. A list or shape met again below itself makes the schema circular; a
value met again below itself is accepted there. -/

namespace ValueCheck

structure Config where
  denyExcess : Bool := false
  maxDepth : Option Nat := none
  deriving DecidableEq

structure Mismatch where
  reason : Reason
  value : Value
  steps : List Step
  factory : Option ErrorFactory

inductive Halt where
  | config (error : ConfigError)
  | mismatch (m : Mismatch)

abbrev Matching := ExceptT Halt (StateM Registry)

structure Matcher where
  world : World
  schemas : SchemaStore
  config : Config

structure Visit where
  node : NodeId
  cell : CellId
  deriving DecidableEq

namespace Matching

def compiling (r : Registering Checker) : Matching Checker := r.adapt Halt.config

def refuse (reason : Reason) (v : Value) : Matching Unit := throw (.mismatch ⟨reason, v, [], none⟩)

def below (step : Step) (m : Matching Unit) : Matching Unit :=
  m.adapt fun
    | .mismatch m => .mismatch { m with steps := step :: m.steps }
    | .config e => .config e

end Matching

open Matching

namespace Matcher

variable (m : Matcher)

def require (c : Checker) (v : Value) : Matching Unit :=
  if c.accepts m.world v then return ()
  else throw (.mismatch ⟨.mustBe c.description, v, [], c.factory⟩)

def requireNamed (name : String) (v : Value) : Matching Unit := do
  m.require (← compiling (Registry.named name)) v

def requireInstance (c : Class) (v : Value) : Matching Unit :=
  if v.instanceOf m.world c then return () else refuse (.mustBeInstance c.displayName) v

def enter (path : List Visit) (visit : Visit) : Matching (Option (List Visit)) :=
  if path.any (·.node == visit.node) then throw (.config .circularType)
  else if path.any (·.cell == visit.cell) then return none
  else
    match m.config.maxDepth with
    | some limit =>
      if limit < path.length + 1 then throw (.config (.depthExceeded limit))
      else return some (visit :: path)
    | none => return some (visit :: path)

def matchTuple (inner : Schema → Value → Matching Unit) (schemas : List Schema)
    (items : List Value) : Matching Unit := do
  schemas.zipIdx.forM fun (s, i) => below (.index i) (inner s (items[i]?.getD .undefined))
  if schemas.length < items.length then
    refuse (.itemCount schemas.length) (.number (.ofNat items.length))

def matchItems (inner : Schema → Value → Matching Unit) (schema : Schema)
    (items : List Value) : Matching Unit :=
  items.zipIdx.forM fun (v, i) => below (.index i) (inner schema v)

def matchUndeclared (inner : Schema → Value → Matching Unit) (shape : Shape) (key : String)
    (v : Value) : Matching Unit := do
  if shape.hasMarkers then
    if let some s := shape.keys then below (.keyItself key) (inner s (.str key))
    if let some s := shape.values then below (.key key) (inner s v)
  else refuse .unexpectedKey (.str key)

def matchProperties (inner : Schema → Value → Matching Unit) (shape : Shape)
    (properties : Keyed Value) : Matching Unit := do
  shape.fields.entries.forM fun (key, s) =>
    below (.key key) (inner s ((properties.get? key).getD .undefined))
  if shape.hasMarkers || m.config.denyExcess then
    (properties.entries.filter fun p => !shape.declares p.1).forM fun (key, v) =>
      matchUndeclared inner shape key v

/-- As no node is entered twice on one path, a budget above their number never runs out. -/
def matchBelow : Nat → List Visit → Schema → Value → Matching Unit
  | _, _, .typeString source, v => do m.require (← compiling (Registry.getOrCompile source)) v
  | _, _, .literal l, v => m.requireNamed l.checkerName v
  | _, _, .instanceOf c, v => m.requireInstance c v
  | 0, _, .node _, _ => throw (.config .circularType)
  | budget + 1, path, .node id, v => do
    match m.schemas.node id with
    | .list [] => throw (.config (.invalidType "[]"))
    | .list schemas =>
      match v, v.items? m.world with
      | .container cell, some items =>
        if let some path ← m.enter path ⟨id, cell⟩ then
          match schemas with
          | [schema] => matchItems (matchBelow budget path) schema items
          | schemas => matchTuple (matchBelow budget path) schemas items
      | v, _ => m.requireNamed "array" v
    | .shape shape =>
      match shape.cls with
      | some c => m.requireInstance c v
      | none => m.requireNamed "object" v
      match v, v.properties? m.world with
      | .container cell, some properties =>
        if let some path ← m.enter path ⟨id, cell⟩ then
          m.matchProperties (matchBelow budget path) shape properties
      | v, _ => m.requireNamed "object" v

def matchSchema (s : Schema) (v : Value) : Matching Unit :=
  m.matchBelow (m.schemas.nodes.size + 1) [] s v

def matchArguments (schemas : List Schema) (vs : List Value) : Matching Unit := do
  schemas.zipIdx.forM fun (s, i) =>
    below (.index i) (m.matchSchema s (vs[i]?.getD .undefined))
  if schemas.length < vs.length then
    refuse (.argumentCount schemas.length) (.number (.ofNat vs.length))

end Matcher

end ValueCheck
