import ValueCheck.Proofs.Matching.Location
import ValueCheck.Proofs.Matching.Raising

/-! Checks that differ in nothing but the place and the error factory they are given. One finding
explains all of them, and all of them leave the same registry. -/

namespace ValueCheck

open Matching
open Registry (adapt_apply)

/-- Accessors one after the other, and whether the last key itself is meant. -/
structure Route where
  accessors : List Accessor
  ofKey : Bool

namespace Route

def place (p : String) (route : Route) : String :=
  Accessor.place p route.accessors ++ if route.ofKey then ": Key" else ""

def Spells (route : Route) (steps : List Step) : Prop := ∀ p, placeBelow p steps = route.place p

theorem spells_nil : Spells ⟨[], false⟩ [] := fun _ => (String.append_empty).symm

theorem spells_keyItself (k : String) : Spells ⟨[.key k], true⟩ [.keyItself k] := fun _ => rfl

theorem Spells.cons {route : Route} {steps : List Step} (h : route.Spells steps) (a : Accessor) :
    Spells ⟨a :: route.accessors, route.ofKey⟩ (a.step :: steps) := by
  intro p
  have hp : placeBelow p (a.step :: steps) = placeBelow (a.extend p) steps := by cases a <;> rfl
  rw [hp, h]
  rfl

end Route

namespace Matcher

variable {m : Matcher} {s : Schema} {v : Value} {r r' : Registry} {mm : Mismatch}
  {alone : Schema → Value → Except Halt Unit → Prop}

theorem FirstFailure.exists_route (h : m.FirstFailure r alone s v mm) :
    ∃ route : Route, route.Spells mm.steps := by
  induction h with
  | own | refusal => exact ⟨_, Route.spells_nil⟩
  | part hds hb ha h ih =>
    obtain ⟨a, rfl, -⟩ | ⟨k, -, -, rfl, -, -, -, -, -, reason, factory, -, rfl⟩ := h.of_part hds
    · obtain ⟨route, hr⟩ := ih
      exact ⟨_, hr.cons a⟩
    · exact ⟨_, Route.spells_keyItself k⟩

theorem exists_route_matchSchema (h : (m.matchSchema s v r).1 = .error (.mismatch mm)) :
    ∃ route : Route, route.Spells mm.steps :=
  (firstFailure_matchBelow .refl h).exists_route

theorem exists_route_matchArguments {ss : List Schema} {vs : List Value}
    (h : (m.matchArguments ss vs r).1 = .error (.mismatch mm)) :
    ∃ route : Route, route.Spells mm.steps := by
  obtain rfl | ⟨i, s, r', mm', -, -, hmm, rfl⟩ := mismatch_matchArguments h
  · exact ⟨_, Route.spells_nil⟩
  · obtain ⟨route, hr⟩ := exists_route_matchSchema hmm
    exact ⟨_, hr.cons (.index i)⟩

end Matcher

/-- What a check finds, without what its caller brings: no place, and no factory but the one
that the refusing checker has of its own. -/
inductive Finding where
  | passes
  | config (e : ConfigError)
  | refusal (own : Option ErrorFactory) (reason : Reason) (received : Value) (route : Route)

def Finding.raised (w : World) (factory : ErrorFactory) (place : String) :
    Finding → Except CheckError Unit
  | passes => .ok ()
  | config e => .error (.config e)
  | refusal own reason received route =>
    .error (.value ((own.getD factory) w ⟨reason, some received, route.place place⟩))

/-- One finding explains the runs with all factories and from all places, and they all leave one
registry: no two of them differ in anything but how the finding is told. -/
def Parallel (w : World) (runs : ErrorFactory → String → Except CheckError Unit × Registry) :
    Prop :=
  ∃ (finding : Finding) (r' : Registry), ∀ factory place,
    runs factory place = (finding.raised w factory place, r')

theorem parallel_told (m : Matcher) {x : Matching Unit} {r : Registry}
    (hx : ∀ mm, (x r).1 = .error (.mismatch mm) → ∃ route : Route, route.Spells mm.steps) :
    Parallel m.world fun factory place => told (m.raising factory) place x r := by
  rcases hxr : x r with ⟨(e | mm) | u, r'⟩ <;> simp only [told, adapt_apply, hxr]
  · exact ⟨.config e, r', fun _ _ => rfl⟩
  · obtain ⟨route, hroute⟩ := hx mm (by rw [hxr])
    refine ⟨.refusal mm.factory mm.reason mm.value route, r', fun factory place => ?_⟩
    rw [Finding.raised, ← hroute place]
    rfl
  · exact ⟨.passes, r', fun _ _ => rfl⟩

namespace Engine

def running (x : Raising Unit) : Checking Unit := fun e =>
  let (result, registry) := x e.registry
  (result, { e with registry := registry })

variable (w : World) (schemas : SchemaStore) (place : String) (e : Engine)

theorem checkWith_eq_running (factory : ErrorFactory) (v : Value) (s : Schema) :
    checkWith w schemas factory v s place e =
      running ((Matcher.raising ⟨w, schemas, e.config⟩ factory).check s v place) e := by
  rw [RaisingMatcher.check_eq]
  rfl

theorem checkArguments_eq_running (vs : List Value) (ss : List Schema) :
    checkArguments w schemas vs ss place e =
      running ((Matcher.raising ⟨w, schemas, e.config⟩ e.factory).checkArguments ss vs place)
        e := by
  rw [RaisingMatcher.checkArguments_eq]
  rfl

end Engine

theorem raising_parallel (w : World) (schemas : SchemaStore) (config : Config) (v : Value)
    (s : Schema) (vs : List Value) (ss : List Schema) (r : Registry) :
    let m : Matcher := ⟨w, schemas, config⟩
    Parallel w (fun factory place => (m.raising factory).check s v place r) ∧
    Parallel w (fun factory place => (m.raising factory).checkArguments ss vs place r) ∧
    ∀ active factory place, let e : Engine := ⟨r, active, config⟩
      Engine.check w schemas v s place e = Engine.running ((m.raising active).check s v place) e ∧
      Engine.checkWith w schemas factory v s place e =
        Engine.running ((m.raising factory).check s v place) e ∧
      Engine.checkArguments w schemas vs ss place e =
        Engine.running ((m.raising active).checkArguments ss vs place) e := by
  intro m
  refine ⟨?_, ?_, fun active factory place => ⟨?_, ?_, ?_⟩⟩
  · simp only [RaisingMatcher.check_eq]
    exact parallel_told m fun _ => Matcher.exists_route_matchSchema
  · simp only [RaisingMatcher.checkArguments_eq]
    exact parallel_told m fun _ => Matcher.exists_route_matchArguments
  · exact Engine.checkWith_eq_running w schemas place _ active v s
  · exact Engine.checkWith_eq_running w schemas place _ factory v s
  · exact Engine.checkArguments_eq_running w schemas place _ vs ss

end ValueCheck
