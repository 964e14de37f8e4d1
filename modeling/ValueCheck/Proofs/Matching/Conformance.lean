import Mathlib.Logic.Relation
import ValueCheck.Matching
import ValueCheck.Proofs.Checker.Reachability
import ValueCheck.Proofs.Value.Graph

/-! Which values conform to which schemas. Conformance follows the schema only, so
no path and no budget occur in it. -/

namespace ValueCheck

open Relation

def SchemaNode.children : SchemaNode → List Schema
  | .list items => items
  | .shape s => s.fields.values ++ (s.keys.toList ++ s.values.toList)

namespace Schema

variable (store : SchemaStore)

def children : Schema → List Schema
  | node id => (store.node id).children
  | _ => []

def Child (s u : Schema) : Prop := u ∈ s.children store

/-- No schema below contains itself or is an empty list, and type strings compile. -/
structure WellFormed (r : Registry) (s : Schema) : Prop where
  acyclic {u : Schema} (h : ReflTransGen (Child store) s u) : ¬ TransGen (Child store) u u
  filled {id : NodeId} (h : ReflTransGen (Child store) s (.node id)) : store.node id ≠ .list []
  compiles {source : String} (h : ReflTransGen (Child store) s (.typeString source)) :
    ∃ c, (Registry.getOrCompile source r).1 = .ok c

variable {store}

theorem WellFormed.child {r : Registry} {s u : Schema} (h : WellFormed store r s)
    (hu : Child store s u) : WellFormed store r u where
  acyclic hx := h.acyclic (.head hu hx)
  filled hx := h.filled (.head hu hx)
  compiles hx := h.compiles (.head hu hx)

end Schema

def Shape.admits (w : World) (shape : Shape) (v : Value) : Bool :=
  match shape.cls with
  | some c => v.instanceOf w c
  | none => v.isPlainObject w

def Fulfils (denyExcess : Bool) (p : Schema → Value → Prop) (shape : Shape)
    (properties : Keyed Value) : Prop :=
  (∀ f ∈ shape.fields.entries, p f.2 ((properties.get? f.1).getD .undefined)) ∧
    ∀ e ∈ properties.entries, shape.declares e.1 = false →
      (denyExcess = true → shape.hasMarkers = true) ∧
        (∀ s ∈ shape.keys, p s (.str e.1)) ∧ ∀ s ∈ shape.values, p s e.2

namespace Matcher

variable (m : Matcher) (r : Registry)

inductive Conforms : Schema → Value → Prop where
  | typeString {source : String} {c : Checker} {v : Value}
      (hc : (Registry.getOrCompile source r).1 = .ok c) (h : c.accepts m.world v = true) :
      Conforms (.typeString source) v
  | literal {l : Literal} {c : Checker} {v : Value} (hc : r.get? l.checkerName = some c)
      (h : c.accepts m.world v = true) : Conforms (.literal l) v
  | instanceOf {c : Class} {v : Value} (h : v.instanceOf m.world c = true) :
      Conforms (.instanceOf c) v
  | array {id : NodeId} {s : Schema} {v : Value} {items : List Value}
      (hs : m.schemas.node id = .list [s]) (hv : v.items? m.world = some items)
      (h : ∀ item ∈ items, Conforms s item) : Conforms (.node id) v
  | tuple {id : NodeId} {ss : List Schema} {v : Value} {items : List Value}
      (hs : m.schemas.node id = .list ss) (h2 : 2 ≤ ss.length)
      (hv : v.items? m.world = some items) (hl : items.length ≤ ss.length)
      (h : ∀ (i : Nat) (s : Schema), ss[i]? = some s → Conforms s (v.item m.world i)) :
      Conforms (.node id) v
  | shape {id : NodeId} {shape : Shape} {v : Value} {properties : Keyed Value}
      (hs : m.schemas.node id = .shape shape) (ha : shape.admits m.world v = true)
      (hv : v.properties? m.world = some properties)
      (hf : ∀ p ∈ shape.fields.entries, Conforms p.2 (v.property m.world p.1))
      (hk : ∀ p ∈ properties.entries, shape.declares p.1 = false →
        ∀ s ∈ shape.keys, Conforms s (.str p.1))
      (hu : ∀ p ∈ properties.entries, shape.declares p.1 = false →
        ∀ s ∈ shape.values, Conforms s p.2)
      (hx : m.config.denyExcess = true → shape.hasMarkers = false →
        ∀ p ∈ properties.entries, shape.declares p.1 = true) : Conforms (.node id) v

variable {m r} {id : NodeId} {v : Value}

theorem conforms_array {s : Schema} (hs : m.schemas.node id = .list [s]) :
    m.Conforms r (.node id) v ↔
      ∃ items, v.items? m.world = some items ∧ ∀ item ∈ items, m.Conforms r s item := by
  constructor
  · intro h
    cases h with
    | array hs' hv h =>
      rw [hs] at hs'
      cases hs'
      exact ⟨_, hv, h⟩
    | tuple hs' h2 =>
      rw [hs] at hs'
      cases hs'
      simp at h2
    | shape hs' =>
      rw [hs] at hs'
      cases hs'
  · rintro ⟨items, hv, h⟩
    exact .array hs hv h

theorem conforms_tuple {ss : List Schema} (hs : m.schemas.node id = .list ss)
    (h2 : 2 ≤ ss.length) : m.Conforms r (.node id) v ↔ ∃ items, v.items? m.world = some items ∧
      (∀ (i : Nat) (s : Schema), ss[i]? = some s → m.Conforms r s (items[i]?.getD .undefined)) ∧
        items.length ≤ ss.length := by
  have hi {items : List Value} (hv : v.items? m.world = some items) (i : Nat) :
      v.item m.world i = items[i]?.getD .undefined := by
    rw [Value.item, hv, Option.bind_some]
  constructor
  · intro h
    cases h with
    | array hs' =>
      rw [hs] at hs'
      cases hs'
      simp at h2
    | tuple hs' _ hv hl h =>
      rw [hs] at hs'
      cases hs'
      refine ⟨_, hv, ?_, hl⟩
      intro i s hss
      rw [← hi hv]
      exact h i s hss
    | shape hs' =>
      rw [hs] at hs'
      cases hs'
  · rintro ⟨items, hv, h, hl⟩
    refine .tuple hs h2 hv hl ?_
    intro i s hss
    rw [hi hv]
    exact h i s hss

theorem conforms_shape {shape : Shape} (hs : m.schemas.node id = .shape shape) :
    m.Conforms r (.node id) v ↔ shape.admits m.world v = true ∧ ∃ properties,
      v.properties? m.world = some properties ∧
        Fulfils m.config.denyExcess (m.Conforms r) shape properties := by
  have hp {properties : Keyed Value} (hv : v.properties? m.world = some properties)
      (key : String) : v.property m.world key = (properties.get? key).getD .undefined := by
    rw [Value.property, hv, Option.bind_some]
  constructor
  · intro h
    cases h with
    | array hs' | tuple hs' =>
      rw [hs] at hs'
      cases hs'
    | shape hs' ha hv hf hk hu hx =>
      rw [hs] at hs'
      cases hs'
      refine ⟨ha, _, hv, ?_, ?_⟩
      · intro f hmem
        rw [← hp hv]
        exact hf f hmem
      · intro e he hd
        refine ⟨?_, hk e he hd, hu e he hd⟩
        intro hdeny
        by_contra hm
        have ht := hx hdeny (by simpa using hm) e he
        rw [hd] at ht
        cases ht
  · rintro ⟨ha, properties, hv, hf, hu⟩
    refine .shape hs ha hv ?_ (fun e he hd => (hu e he hd).2.1) (fun e he hd => (hu e he hd).2.2) ?_
    · intro f hmem
      rw [hp hv]
      exact hf f hmem
    · intro hdeny hm e he
      by_contra hd
      have ht := (hu e he (by simpa using hd)).1 hdeny
      rw [hm] at ht
      cases ht

end Matcher

end ValueCheck
