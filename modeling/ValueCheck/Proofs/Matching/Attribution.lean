import ValueCheck.Proofs.Checker.Inheritance
import ValueCheck.Proofs.Checker.Naming
import ValueCheck.Proofs.Matching.Location

/-! Which schema refuses a value, and whether a checker brings the factory of the error.
Only type strings do, and only those with a name at their core. -/

namespace ValueCheck

open Matching
open Registry (Coherent)

def SchemaNode.below : SchemaNode → Step → Option Schema
  | n, .key k => n.inner (.key k)
  | n, .index i => n.inner (.index i)
  | .shape s, .keyItself _ => s.keys
  | .list _, .keyItself _ => none

namespace Schema

variable (store : SchemaStore)

def next : Schema → Step → Option Schema
  | node id, step => (store.node id).below step
  | _, _ => none

def below (s : Schema) (steps : List Step) : Option Schema := steps.foldlM (next store) s

/-- The factory a type string hands on, where names were given the factories. -/
def ownFactory (given : String → Option ErrorFactory) : Schema → Option ErrorFactory
  | typeString source =>
    match Grammar.parse source with
    | .ok t => t.core.name?.bind given
    | .error _ => none
  | _ => none

variable {given : String → Option ErrorFactory}

theorem ownFactory_of_core {source : String} {t : Grammar.Term}
    (ht : Grammar.parse source = .ok t) (hn : ∀ n, t.core ≠ .name n) :
    (typeString source).ownFactory given = none := by
  rw [ownFactory, ht]
  cases hc : t.core with
  | name n => exact absurd hc (hn n)
  | _ => simp [hc, Grammar.Term.name?]

theorem ownFactory_of_ne {s : Schema} (hs : ∀ source, s ≠ typeString source) :
    s.ownFactory given = none := by
  cases s with
  | typeString source => exact absurd rfl (hs source)
  | _ => rfl

end Schema

def Mismatch.Attributed (mm : Mismatch) (store : SchemaStore) (given : String → Option ErrorFactory)
    (s : Schema) : Prop :=
  (∃ t, s.below store mm.steps = some t ∧ mm.factory = t.ownFactory given) ∧
    ((∀ words, mm.reason ≠ .mustBe words) → mm.factory = none)

theorem Mismatch.Attributed.below {mm : Mismatch} {store : SchemaStore}
    {given : String → Option ErrorFactory} {id : NodeId} {s : Schema} {step : Step}
    (h : mm.Attributed store given s) (hs : (store.node id).below step = some s) :
    Mismatch.Attributed { mm with steps := step :: mm.steps } store given (.node id) := by
  obtain ⟨⟨t, ht, hf⟩, hn⟩ := h
  refine ⟨⟨t, ?_, hf⟩, hn⟩
  rw [Schema.below, List.foldlM_cons, Schema.next, hs]
  exact ht

theorem Mismatch.attributed_of_none {mm : Mismatch} {store : SchemaStore}
    {given : String → Option ErrorFactory} {s : Schema} (hsteps : mm.steps = [])
    (hf : mm.factory = none) (hs : s.ownFactory given = none) : mm.Attributed store given s := by
  refine ⟨⟨s, ?_, by rw [hf, hs]⟩, fun _ => hf⟩
  rw [hsteps]
  rfl

namespace Matcher

variable {m : Matcher} {named : String → Option Checker} {s : Schema} {v : Value} {r : Registry}
  {mm : Mismatch}

theorem below_of_part {n : SchemaNode} {ds : List Demand} {step : Step} {u : Value}
    (h : m.demands n v = some ds) (hd : .part step s u ∈ ds) : n.below step = some s := by
  rcases inner_of_part h hd with ⟨a, rfl, hi⟩ | ⟨k, shape, -, rfl, rfl, hk, -⟩
  · cases a <;> exact hi
  · exact hk

section Builtin

variable (hr : Coherent named r) (hb : ∀ n c, Registry.builtin.get? n = some c → named n = some c)

include hr hb

theorem factory_of_gives {name : String} {c : Checker} (hn : name ∈ Registry.builtinNames)
    (hc : r.Gives (Registry.named name) c) : c.factory = none := by
  obtain ⟨r', hl, hc⟩ := hc
  obtain ⟨d, hd⟩ := Option.isSome_iff_exists.1 (Registry.isSome_builtin.2 hn)
  have hname := hr.isName (n := name) (by rw [hb _ _ hd]; rfl)
  rw [(Registry.computes_named hname r' (hl.coherent hr)).2, Grammar.Term.construct_eq_ok] at hc
  obtain rfl : c = d := Option.some.inj (hc.symm.trans (hb _ _ hd))
  exact Registry.factory_of_builtin hd

theorem attributed_own (h : m.Own r s v mm) :
    mm.Attributed m.schemas (fun n => (named n).bind Checker.factory) s := by
  obtain ⟨reason, factory, hrefuses, rfl⟩ := h
  cases hrefuses with
  | @typeString source _ c hc =>
    obtain ⟨r', hl, hc⟩ := hc
    obtain ⟨t, ht, hbuild⟩ := (hl.coherent hr).getOrCompile_eq_ok.1 hc
    refine ⟨⟨.typeString source, rfl, ?_⟩, fun hw => absurd rfl (hw _)⟩
    rw [Schema.ownFactory, ht]
    exact Grammar.Term.factory_build hbuild
  | @literal l _ c hc =>
    have hl : l.checkerName ∈ Registry.builtinNames := by
      cases l <;> decide +kernel
    exact Mismatch.attributed_of_none rfl (factory_of_gives hr hb hl hc) rfl
  | list _ _ _ hc =>
    exact Mismatch.attributed_of_none rfl (factory_of_gives hr hb (by decide +kernel) hc) rfl
  | shape _ _ hc =>
    exact Mismatch.attributed_of_none rfl (factory_of_gives hr hb (by decide +kernel) hc) rfl
  | instanceOf | shapeOf => exact Mismatch.attributed_of_none rfl rfl rfl

theorem FirstFailure.attributed {alone : Schema → Value → Except Halt Unit → Prop}
    (h : m.FirstFailure r alone s v mm) :
    mm.Attributed m.schemas (fun n => (named n).bind Checker.factory) s := by
  induction h with
  | own hrefuses => exact attributed_own hr hb ⟨_, _, hrefuses, rfl⟩
  | refusal => exact Mismatch.attributed_of_none rfl rfl rfl
  | part hds _ _ _ ih =>
    exact ih.below (below_of_part hds (List.mem_append_right _ List.mem_cons_self))

end Builtin

end Matcher

end ValueCheck
