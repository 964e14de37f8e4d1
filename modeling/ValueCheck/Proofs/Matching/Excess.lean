import ValueCheck.Proofs.Engine.Operation
import ValueCheck.Proofs.Matching.Following
import ValueCheck.Proofs.Matching.Location

/-! Undeclared keys. Denying them refuses some of what is let pass otherwise, and changes
nothing else. -/

namespace ValueCheck

open Matching

/-- The accessors lead to an object with this key, and to a shape without markers that does
not declare it. -/
def Unexpected (w : World) (schemas : SchemaStore) (s : Schema) (v : Value) (as : List Accessor)
    (key : String) : Prop :=
  ∃ id shape properties, s.reached schemas as = some (.node id) ∧
    schemas.node id = .shape shape ∧ shape.hasMarkers = false ∧ shape.declares key = false ∧
      (Accessor.navigate w v as).properties? w = some properties ∧ key ∈ properties.keys

def Halt.IsUnexpectedKey : Halt → Prop
  | .mismatch m => m.reason = .unexpectedKey
  | .config _ => False

theorem placeBelow_steps (place : String) (as : List Accessor) :
    placeBelow place (as.map Accessor.step) = Accessor.place place as := by
  rw [placeBelow, List.foldl_map, Accessor.place]
  congr 1
  funext place a
  cases a <;> rfl

theorem Demand.ofShape_true (shape : Shape) (properties : Keyed Value) : ∃ more,
    ofShape true shape properties = ofShape false shape properties ++ more ∧
      ∀ d ∈ more, d.Refuses Halt.IsUnexpectedKey := by
  by_cases hm : shape.hasMarkers = true
  · exact ⟨[], by simp [ofShape, hm]⟩
  · refine ⟨(properties.entries.filter fun p => !shape.declares p.1).flatMap fun p =>
      ofUndeclared shape p.1 p.2, by simp [ofShape, hm], ?_⟩
    intro d hd
    obtain ⟨e, -, hd⟩ := List.mem_flatMap.1 hd
    rw [ofUndeclared, if_neg hm, List.mem_singleton] at hd
    exact ⟨_, _, hd, rfl⟩

namespace Matcher

variable {m : Matcher} {s : Schema} {v : Value} {mm : Mismatch} {r : Registry}
  {alone : Schema → Value → Except Halt Unit → Prop}

theorem stricter_denyExcess (h : m.config.denyExcess = true) :
    m.Stricter { m.config with denyExcess := false } Halt.IsUnexpectedKey where
  enter path visit := .refl _
  demands n v := by
    cases n with
    | list ss =>
      refine ⟨[], ?_, by simp⟩
      simp only [List.append_nil, Option.map_id']
      exact demands_list_under.symm
    | shape shape =>
      cases hp : v.properties? m.world with
      | none => exact ⟨[], by simp [demands, under, hp]⟩
      | some properties =>
        obtain ⟨more, he, hmore⟩ := Demand.ofShape_true shape properties
        exact ⟨more, by simp [demands, under, hp, h, he], hmore⟩
  below h _ := h

theorem unexpected_of_demands {n : SchemaNode} {ds : List Demand} (h : m.demands n v = some ds)
    {u : Value} (hd : .refusal .unexpectedKey u ∈ ds) : ∃ shape properties key, n = .shape shape ∧
      shape.hasMarkers = false ∧ shape.declares key = false ∧
        v.properties? m.world = some properties ∧ key ∈ properties.keys ∧ u = .str key := by
  obtain ⟨ss, items, -, -, -, hr, -⟩ | ⟨shape, -, -, rfl, -⟩ := refusal_of_demands h hd
  · cases hr
  · obtain ⟨properties, hp, rfl⟩ := properties?_of_demands h
    obtain ⟨f, -, he⟩ | ⟨-, e, hmem, hu, hd⟩ := Demand.mem_ofShape.1 hd
    · cases he
    · obtain ⟨t, -, he⟩ | ⟨t, -, he⟩ | ⟨hm, he⟩ := Demand.mem_ofUndeclared.1 hd <;> cases he
      exact ⟨shape, properties, e.1, rfl, hm, hu, hp, List.mem_map_of_mem hmem, rfl⟩

theorem FirstFailure.unexpected (h : m.FirstFailure r alone s v mm)
    (hr : mm.reason = .unexpectedKey) : ∃ as key, Unexpected m.world m.schemas s v as key ∧
      mm = ⟨.unexpectedKey, .str key, as.map Accessor.step, none⟩ := by
  induction h with
  | own ho => cases ho <;> cases hr
  | @refusal id v u before after reason hds hb =>
    obtain rfl : reason = .unexpectedKey := hr
    have hmem : Demand.refusal .unexpectedKey u ∈ before ++ .refusal .unexpectedKey u :: after :=
      List.mem_append_right _ List.mem_cons_self
    obtain ⟨shape, properties, key, hn, hm, hu, hp, hk, rfl⟩ := unexpected_of_demands hds hmem
    exact ⟨[], key, ⟨id, shape, properties, rfl, hn, hm, hu, hp, hk⟩, rfl⟩
  | part hds hb ha h ih =>
    obtain ⟨a, rfl, hi, rfl⟩ |
      ⟨k, shape, properties, rfl, -, -, -, -, -, reason, factory, ho, rfl⟩ := h.of_part hds
    · obtain ⟨as, key, ⟨id', shape, properties, hs, hx⟩, rfl⟩ := ih hr
      refine ⟨a :: as, key, ⟨id', shape, properties, ?_, hx⟩, rfl⟩
      rw [Schema.reached, List.foldlM_cons, Schema.inner, hi]
      exact hs
    -- A key is refused itself for a reason of its own, and this is none.
    · cases ho <;> cases hr

theorem matchSchema_denyExcess (w : World) (schemas : SchemaStore) (limit : Option Nat)
    (s : Schema) (v : Value) (r : Registry) :
    (⟨w, schemas, ⟨true, limit⟩⟩ : Matcher).matchSchema s v r =
        (⟨w, schemas, ⟨false, limit⟩⟩ : Matcher).matchSchema s v r ∨
      ∃ as key, Unexpected w schemas s v as key ∧
        ((⟨w, schemas, ⟨true, limit⟩⟩ : Matcher).matchSchema s v r).1 =
          .error (.mismatch ⟨.unexpectedKey, .str key, as.map Accessor.step, none⟩) := by
  have hs : (⟨w, schemas, ⟨true, limit⟩⟩ : Matcher).Stricter ⟨false, limit⟩ Halt.IsUnexpectedKey :=
    stricter_denyExcess rfl
  rcases hs.matchSchema s v r with he | ⟨e | mm, he, hr⟩
  · exact .inl he
  · exact hr.elim
  · obtain ⟨as, key, hu, rfl⟩ := (firstFailure_matchBelow .refl he).unexpected hr
    exact .inr ⟨as, key, hu, he⟩

end Matcher

namespace Engine

def RefusesKey (w : World) (schemas : SchemaStore) (factory : ErrorFactory) (v : Value)
    (s : Schema) (place : String) (e : Engine) : Prop :=
  ∃ as key, Unexpected w schemas s v as key ∧
    let x : Raise := ⟨factory, w, ⟨.unexpectedKey, some (.str key), Accessor.place place as⟩⟩
    (checkWith w schemas factory v s place e).1 = .error (.value x.error) ∧
      (Operation.checkWith w schemas factory v s place).raise? e = some x

theorem checkWith_denyExcess (w : World) (schemas : SchemaStore) (factory : ErrorFactory)
    (v : Value) (s : Schema) (place : String) (e : Engine) (limit : Option Nat) :
    let lenient : Engine := { e with config := ⟨false, limit⟩ }
    let strict : Engine := { e with config := ⟨true, limit⟩ }
    let allowing := checkWith w schemas factory v s place lenient
    let denying := checkWith w schemas factory v s place strict
    let op : Operation := .checkWith w schemas factory v s place
    (denying.1 = .ok () → allowing.1 = .ok ()) ∧
    (allowing.1 = .ok () →
      denying.1 = .ok () ∨ RefusesKey w schemas factory v s place strict) ∧
    (allowing.1 ≠ denying.1 ∨ allowing.2.registry ≠ denying.2.registry ∨
      op.raise? lenient ≠ op.raise? strict → RefusesKey w schemas factory v s place strict) := by
  intro lenient strict allowing denying op
  have h : (denying.1 = allowing.1 ∧ denying.2.registry = allowing.2.registry ∧
      op.raise? strict = op.raise? lenient) ∨
      RefusesKey w schemas factory v s place strict := by
    have hraise (e : Engine) : op.raise? e =
        Attempt.raise? ⟨w, factory, place, (⟨w, schemas, e.config⟩ : Matcher).matchSchema s v⟩
          e.registry := rfl
    rw [hraise, hraise, Attempt.raise?, Attempt.raise?, RefusesKey]
    simp only [allowing, denying, checkWith_apply]
    rcases Matcher.matchSchema_denyExcess w schemas limit s v e.registry with he | ⟨as, key, hu, he⟩
    · exact .inl (by simp only [strict, lenient, he, and_self])
    · refine .inr ⟨as, key, hu, ?_⟩
      rw [hraise, Attempt.raise?]
      simp only [strict, he, ← placeBelow_steps]
      exact ⟨rfl, rfl⟩
  rcases h with ⟨hr, hreg, hraise⟩ | h
  · rw [hr, hreg, hraise]
    exact ⟨id, .inl, by simp⟩
  · refine ⟨fun hok => ?_, fun _ => .inr h, fun _ => h⟩
    obtain ⟨as, key, -, he, -⟩ := h
    cases he.symm.trans hok

def loose : SchemaStore :=
  ⟨#[.shape { fields := .ofList [("user", .node 1)] }, .shape { fields := .empty }]⟩

theorem checkWith_denyExcess_profile :
    (checkWith profile loose defaultFactory (.container 0) (.node 0) "me" (fresh {})).1 = .ok () ∧
      ∃ as key, Unexpected profile loose (.node 0) (.container 0) as key ∧
        (Operation.checkWith profile loose defaultFactory (.container 0) (.node 0) "me").raise?
          (fresh ⟨true, none⟩) = some ⟨defaultFactory, profile,
            ⟨.unexpectedKey, some (.str key), Accessor.place "me" as⟩⟩ := by
  have h : (checkWith profile loose defaultFactory (.container 0) (.node 0) "me" (fresh {})).1 =
      .ok () := rfl
  have hd : (checkWith profile loose defaultFactory (.container 0) (.node 0) "me"
      (fresh ⟨true, none⟩)).1 ≠ .ok () := nofun
  obtain ⟨as, key, hu, -, hx⟩ := ((checkWith_denyExcess profile loose defaultFactory
    (.container 0) (.node 0) "me" (fresh {}) none).2.1 h).resolve_left hd
  exact ⟨h, as, key, hu, hx⟩

end Engine

end ValueCheck
