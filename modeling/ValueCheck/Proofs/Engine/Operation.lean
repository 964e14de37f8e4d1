import ValueCheck.Engine
import ValueCheck.Proofs.Checker.Coherence

/-! The operations of an engine, and the errors they raise for values: which factory
makes them, and what it is told. -/

namespace ValueCheck

structure Registration where
  name : String
  accepts : World → Value → Bool
  description : Option String
  factory : Option ErrorFactory

inductive Operation where
  | check (w : World) (schemas : SchemaStore) (v : Value) (s : Schema) (place : String)
  | checkWith (w : World) (schemas : SchemaStore) (factory : ErrorFactory) (v : Value)
      (s : Schema) (place : String)
  | checkArguments (w : World) (schemas : SchemaStore) (vs : List Value) (ss : List Schema)
      (place : String)
  | assert (w : World) (condition : Bool) (description place : String)
  | checker (source : String)
  | add (a : Registration)
  | throws (factory : ErrorFactory)

inductive Outcome where
  | checked (result : Except CheckError Unit)
  | compiled (result : Except ConfigError Checker)
  | replaced

/-- What the error of a failing value is made of: the chosen factory and all it is told. -/
structure Raise where
  factory : ErrorFactory
  world : World
  failure : ValueFailure

def Raise.error (x : Raise) : RaisedError := x.factory x.world x.failure

structure Attempt where
  world : World
  factory : ErrorFactory
  place : String
  matching : Matching Unit

def Attempt.raise? (a : Attempt) (r : Registry) : Option Raise :=
  match (a.matching r).1 with
  | .error (.mismatch m) =>
    some ⟨m.factory.getD a.factory, a.world, ⟨m.reason, some m.value, placeBelow a.place m.steps⟩⟩
  | _ => none

namespace Operation

def perform (e : Engine) : Operation → Outcome × Engine
  | check w schemas v s place => (Engine.check w schemas v s place e).map .checked id
  | checkWith w schemas factory v s place =>
    (Engine.checkWith w schemas factory v s place e).map .checked id
  | checkArguments w schemas vs ss place =>
    (Engine.checkArguments w schemas vs ss place e).map .checked id
  | assert w condition description place =>
    (Engine.assert w condition description place e).map .checked id
  | checker source => (Engine.checker source e).map .compiled id
  | add a => (Engine.add a.name a.accepts a.description a.factory e).map .compiled id
  | throws factory => (Engine.throws factory e).map (fun _ => .replaced) id

def attempt? (e : Engine) : Operation → Option Attempt
  | check w schemas v s place =>
    some ⟨w, e.factory, place, (⟨w, schemas, e.config⟩ : Matcher).matchSchema s v⟩
  | checkWith w schemas factory v s place =>
    some ⟨w, factory, place, (⟨w, schemas, e.config⟩ : Matcher).matchSchema s v⟩
  | checkArguments w schemas vs ss place =>
    some ⟨w, e.factory, place, (⟨w, schemas, e.config⟩ : Matcher).matchArguments ss vs⟩
  | _ => none

def raise? (e : Engine) : Operation → Option Raise
  | assert w condition description place =>
    if condition then none else some ⟨e.factory, w, ⟨.assertion description, none, place⟩⟩
  | op => (op.attempt? e).bind (·.raise? e.registry)

variable {e : Engine} {op : Operation} {a : Attempt}

theorem perform_attempt (h : op.attempt? e = some a) :
    op.perform e =
      (.checked ((a.matching e.registry).1.mapError (Engine.raised a.world a.factory a.place)),
        { e with registry := (a.matching e.registry).2 }) := by
  cases op with
  | check | checkWith | checkArguments =>
    cases h
    rfl
  | _ => cases h

theorem raise?_attempt (h : op.attempt? e = some a) : op.raise? e = a.raise? e.registry := by
  cases op with
  | check | checkWith | checkArguments =>
    cases h
    rfl
  | _ => cases h

theorem perform_assert (w : World) (condition : Bool) (description place : String) :
    (assert w condition description place).perform e =
      (.checked (if condition then .ok ()
        else .error (.value (e.factory w ⟨.assertion description, none, place⟩))), e) := by
  cases condition <;> rfl

theorem perform_eq_value {err : RaisedError} :
    (op.perform e).1 = .checked (.error (.value err)) ↔
      ∃ x, op.raise? e = some x ∧ err = x.error := by
  cases ha : op.attempt? e with
  | some a =>
    rw [perform_attempt ha, raise?_attempt ha, Attempt.raise?, Outcome.checked.injEq,
      Registry.mapError_eq_error]
    constructor
    · rintro ⟨c | m, hm, hraised⟩ <;> cases hraised
      rw [hm]
      exact ⟨_, rfl, rfl⟩
    · rintro ⟨x, hx, rfl⟩
      rcases hm : (a.matching e.registry).1 with (c | m) | u <;> rw [hm] at hx <;> cases hx
      exact ⟨_, rfl, rfl⟩
  | none =>
    cases op with
    | check | checkWith | checkArguments => cases ha
    | assert w condition description place =>
      rw [perform_assert]
      cases condition <;> simp [raise?, Raise.error, eq_comm]
    | checker | add | throws => simp [perform, raise?, attempt?]

end Operation

end ValueCheck
