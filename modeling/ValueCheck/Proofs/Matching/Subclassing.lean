import ValueCheck.Proofs.Class.Ancestry
import ValueCheck.Proofs.Matching.Following

/-! Classes in schemas. Where one is replaced by an ancestor, nothing changes for the values that
passed before. -/

namespace ValueCheck

open Matching

theorem Value.instanceOf_mono {c d : Class} {w : World} {v : Value} (h : c.isSubclassOf d = true)
    (hv : v.instanceOf w c = true) : v.instanceOf w d = true := by
  obtain ⟨own, hown, hc⟩ := (Option.any_eq_true ..).1 hv
  exact (Option.any_eq_true ..).2 ⟨own, hown, Class.isSubclassOf_trans hc h⟩

def Halt.IsWrongClass : Halt → Prop
  | .mismatch m => ∃ name, m.reason = .mustBeInstance name
  | .config _ => False

inductive SchemaNode.Widens : SchemaNode → SchemaNode → Prop where
  | same (n : SchemaNode) : Widens n n
  | ancestor {shape : Shape} {c d : Class} (hs : shape.cls = some c)
      (h : c.isSubclassOf d = true) : Widens (.shape shape) (.shape { shape with cls := some d })

namespace SchemaStore

structure Widens (schemas wider : SchemaStore) : Prop where
  size : schemas.nodes.size = wider.nodes.size
  node (id : NodeId) : (schemas.node id).Widens (wider.node id)

def marked (schemas : SchemaStore) (id : NodeId) (c : Class) : SchemaStore :=
  schemas.updateShape id fun shape => { shape with cls := some c }

theorem widens_marked {c d : Class} (h : c.isSubclassOf d = true) (schemas : SchemaStore)
    (id : NodeId) : (schemas.marked id c).Widens (schemas.marked id d) := by
  rw [marked, marked, updateShape, updateShape]
  cases hn : schemas.node id with
  | list ss => exact ⟨rfl, fun _ => .same _⟩
  | shape shape =>
    have hlt : id < schemas.nodes.size := by
      by_contra hge
      simp [node, hge] at hn
    refine ⟨by simp only [write, Array.size_setIfInBounds], fun other => ?_⟩
    by_cases ho : id = other
    · subst ho
      rw [node_write_self _ _ hlt, node_write_self _ _ hlt]
      exact .ancestor rfl h
    · rw [node_write_ne _ _ ho, node_write_ne _ _ ho]
      exact .same _

end SchemaStore

namespace Matcher

variable {m : Matcher} {c d : Class} {n n' : SchemaNode} {wider : SchemaStore} {s : Schema}
  {v : Value} {r : Registry}

def against (m : Matcher) (schemas : SchemaStore) : Matcher := { m with schemas := schemas }

theorem follows_requireInstance (h : c.isSubclassOf d = true) (v : Value) :
    Follows Halt.IsWrongClass (m.requireInstance c v) (m.requireInstance d v) := by
  rw [requireInstance, requireInstance]
  by_cases hv : v.instanceOf m.world c = true
  · rw [if_pos hv, if_pos (Value.instanceOf_mono h hv)]
    exact .refl _
  · rw [if_neg hv]
    exact fun r => .inr ⟨_, rfl, c.displayName, rfl⟩

theorem follows_requireFirst (h : n.Widens n') (v : Value) :
    Follows Halt.IsWrongClass (m.requireFirst n v) ((m.against wider).requireFirst n' v) := by
  cases h with
  | same n => exact .refl _
  | @ancestor shape c d hs h =>
    have hfirst : m.requireFirst (.shape shape) v = m.requireInstance c v := by
      rw [requireFirst, requireKind, hs]
    rw [hfirst]
    exact follows_requireInstance h v

theorem demands_of_widens (h : n.Widens n') (v : Value) :
    (m.against wider).demands n' v = m.demands n v := by
  cases h with
  | same n =>
    match n with
    | .list [] | .list [_] | .list (_ :: _ :: _) | .shape _ => rfl
  | ancestor hs h => rfl

theorem containerName_of_widens (h : n.Widens n') : n'.containerName = n.containerName := by
  cases h <;> rfl

theorem follows_against (h : m.schemas.Widens wider) (budget : Nat) (path : List Visit) (s : Schema)
    (v : Value) :
    Follows Halt.IsWrongClass (m.matchBelow budget path s v)
      ((m.against wider).matchBelow budget path s v) := by
  induction budget generalizing path s v with
  | zero => cases s <;> rw [matchBelow, matchBelow] <;> exact .refl _
  | succ budget ih =>
    cases s with
    | node id =>
      have hn : (m.schemas.node id).Widens ((m.against wider).schemas.node id) := h.node id
      rw [matchBelow_node, matchBelow_node, demands_of_widens hn, containerName_of_widens hn]
      apply (follows_requireFirst hn v).bind
      intro _
      cases hds : m.demands (m.schemas.node id) v with
      | none =>
        rw [inside_none, inside_none]
        exact .refl _
      | some ds =>
        obtain ⟨cell, rfl⟩ := container_of_demands hds
        apply (Follows.refl (m.enter path ⟨id, cell⟩)).bind
        rintro (_ | path)
        · exact .refl _
        · exact .forM fun d _ => .meet (fun _ _ hp => hp) (ih path) d
    | _ =>
      rw [matchBelow, matchBelow]
      exact .refl _

theorem matchSchema_against (h : m.schemas.Widens wider) (hs : (m.matchSchema s v r).1 = .ok ()) :
    (m.against wider).matchSchema s v r = m.matchSchema s v r := by
  have hbudget : (m.against wider).matchSchema s v = (m.against wider).matchBelow
      (m.schemas.nodes.size + 1) [] s v := by
    rw [matchSchema, h.size]
    rfl
  rw [hbudget]
  rcases follows_against h (m.schemas.nodes.size + 1) [] s v r with he | ⟨e, he, -⟩
  · exact he.symm
  · cases hs.symm.trans he

theorem matchSchema_instanceOf (h : c.isSubclassOf d = true)
    (hs : (m.matchSchema (.instanceOf c) v r).1 = .ok ()) :
    (m.matchSchema (.instanceOf d) v r).1 = .ok () := by
  rw [matchSchema, matchBelow] at hs ⊢
  rcases follows_requireInstance (m := m) h v r with he | ⟨e, he, -⟩
  · rwa [← he]
  · cases hs.symm.trans he

end Matcher

namespace ClassSupply

open Relation

theorem isSubclassOf_forest {n : ClassSupply} {made : List Class} (h : Made n made) :
    (∀ c ∈ made, ∀ d ∈ made, ∀ turns ≥ n,
      Class.climb d.serial turns (some c) = some (c.isSubclassOf d)) ∧
    (∀ c d : Class, c.isSubclassOf d = true ↔ ReflTransGen Class.Extends c d) ∧
    Class.IsForest (fun c d => c.isSubclassOf d = true) ∧
    (∀ c ∈ made, ∀ d ∈ made, c = d ↔ c.serial = d.serial) ∧
    (∀ d ∈ made, ∀ name, let new := (declare name n).1
      d.isSubclassOf new = false ∧ new.isSubclassOf d = false) ∧
    (∀ d ∈ made, ∀ parent ∈ made, ∀ name, let new := (extend name parent n).1
      d.isSubclassOf new = false ∧ new.isSubclassOf d = parent.isSubclassOf d) ∧
    (∀ c d : Class, c.isSubclassOf d = true → ∀ (m : Matcher) (v : Value) (r : Registry),
      (m.matchSchema (.instanceOf c) v r).1 = .ok () →
        (m.matchSchema (.instanceOf d) v r).1 = .ok ()) ∧
    ∀ c d : Class, c.isSubclassOf d = true → ∀ (m : Matcher) (id : NodeId) (s : Schema) (v : Value)
      (r : Registry), ((m.against (m.schemas.marked id c)).matchSchema s v r).1 = .ok () →
        ((m.against (m.schemas.marked id d)).matchSchema s v r).1 = .ok () := by
  refine ⟨?_, fun c d => Class.isSubclassOf_iff_reflTransGen, Class.isForest_isSubclassOf, ?_, ?_,
    ?_, ?_, ?_⟩
  · intro c hc d hd turns ht
    exact h.climb_eq hc hd ht
  · intro c hc d hd
    exact ⟨congrArg Class.serial, h.eq_of_serial hc hd⟩
  · intro d hd name
    exact ⟨h.not_isSubclassOf_new hd rfl, h.isSubclassOf_new hd rfl⟩
  · intro d hd parent _ name
    exact ⟨h.not_isSubclassOf_new hd rfl, h.isSubclassOf_new hd rfl⟩
  · intro c d hcd m v r
    exact Matcher.matchSchema_instanceOf hcd
  · intro c d hcd m id s v r hs
    have hw : (m.against (m.schemas.marked id c)).schemas.Widens (m.schemas.marked id d) :=
      SchemaStore.widens_marked hcd m.schemas id
    rw [← hs, ← Matcher.matchSchema_against hw hs]
    rfl

def animal : Class := .root 0 (some "Animal")

def dog : Class := .extending 1 "Dog" animal

def namesake : Class := .extending 2 "Animal" dog

theorem isSubclassOf_forest_namesake :
    Made 3 [namesake, dog, animal] ∧
    Class.climb animal.serial 3 (some namesake) = some (namesake.isSubclassOf animal) ∧
    Class.climb namesake.serial 3 (some animal) = some (animal.isSubclassOf namesake) ∧
    namesake.isSubclassOf animal = true ∧ animal.isSubclassOf namesake = false := by
  have hanimal : Made 1 [animal] := .declare .nothing (some "Animal")
  have hdog : Made 2 [dog, animal] := .extend hanimal "Dog" (by decide)
  have h : Made 3 [namesake, dog, animal] := .extend hdog "Animal" (by decide)
  have hclimb := (isSubclassOf_forest h).1
  refine ⟨h, ?_, ?_, by decide, by decide⟩
  · exact hclimb namesake (by decide) animal (by decide) 3 (Nat.le_refl 3)
  · exact hclimb animal (by decide) namesake (by decide) 3 (Nat.le_refl 3)

end ClassSupply

end ValueCheck
