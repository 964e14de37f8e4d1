import ValueCheck.Matching

/-! Engines: a registry, the factory for the errors of failing values, and how
strictly to match. Every check returns the engine too, because type strings are
compiled on the way. -/

namespace ValueCheck

structure Engine where
  registry : Registry
  factory : ErrorFactory
  config : Config

abbrev Checking := ExceptT CheckError (StateM Engine)

namespace Engine

def fresh (config : Config := {}) : Engine := ⟨.builtin, defaultFactory, config⟩

def argumentsPlace : String := "arguments"

/-- The error of a halted matching. The checker that refused the value raises its
own error if it has one. -/
def raised (w : World) (factory : ErrorFactory) (place : String) : Halt → CheckError
  | .config e => .config e
  | .mismatch m =>
    .value ((m.factory.getD factory) w ⟨m.reason, some m.value, placeBelow place m.steps⟩)

def registering {α : Type} (r : Registering α) : ExceptT ConfigError (StateM Engine) α := fun e =>
  let (result, registry) := r e.registry
  (result, { e with registry := registry })

def matching (w : World) (factory : ErrorFactory) (place : String) (m : Matching Unit) :
    Checking Unit := fun e =>
  let (result, registry) := m e.registry
  (result.mapError (raised w factory place), { e with registry := registry })

def checkWith (w : World) (schemas : SchemaStore) (factory : ErrorFactory) (v : Value)
    (s : Schema) (place : String) : Checking Unit := do
  let m : Matcher := ⟨w, schemas, (← get).config⟩
  matching w factory place (m.matchSchema s v)

theorem checkWith_apply (w : World) (schemas : SchemaStore) (factory : ErrorFactory) (v : Value)
    (s : Schema) (place : String) (e : Engine) : checkWith w schemas factory v s place e =
      (((⟨w, schemas, e.config⟩ : Matcher).matchSchema s v e.registry).1.mapError
        (raised w factory place),
        { e with
          registry := ((⟨w, schemas, e.config⟩ : Matcher).matchSchema s v e.registry).2 }) :=
  rfl

def check (w : World) (schemas : SchemaStore) (v : Value) (s : Schema) (place : String) :
    Checking Unit := do
  checkWith w schemas (← get).factory v s place

def checkArguments (w : World) (schemas : SchemaStore) (vs : List Value) (ss : List Schema)
    (place : String := argumentsPlace) : Checking Unit := do
  let m : Matcher := ⟨w, schemas, (← get).config⟩
  matching w (← get).factory place (m.matchArguments ss vs)

def assert (w : World) (condition : Bool) (description place : String) : Checking Unit := do
  if condition then return ()
  throw (.value ((← get).factory w ⟨.assertion description, none, place⟩))

def add (name : String) (accepts : World → Value → Bool) (description : Option String)
    (factory : Option ErrorFactory) : ExceptT ConfigError (StateM Engine) Checker :=
  registering (Registry.register name accepts description factory)

def throws (factory : ErrorFactory) : StateM Engine Unit :=
  modify fun e => { e with factory := factory }

def checker (source : String) : ExceptT ConfigError (StateM Engine) Checker :=
  registering (Registry.getOrCompile source)

end Engine

end ValueCheck
