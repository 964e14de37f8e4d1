import Mathlib.Data.List.Forall2
import Mathlib.Data.Set.Function
import Mathlib.Logic.Relation
import Mathlib.Order.Interval.Set.Defs
import ValueCheck.Schema.OfValue

/-! What a copy of a value graph is, and which value is the first that keeps a graph from
being copied. -/

namespace ValueCheck

namespace Cell

def parts : Cell → List Value
  | array items => items
  | object none properties => properties.values
  | _ => []

def Copyable : Cell → Prop
  | array _ | object none _ => True
  | _ => False

theorem copyable_iff {cell : Cell} : cell.Copyable ↔
    (∃ items, cell = array items) ∨ ∃ properties, cell = object none properties := by
  cases cell with
  | object cls properties => cases cls <;> simp [Copyable]
  | _ => simp [Copyable]

theorem copyable_of_mem_parts {cell : Cell} {v : Value} (h : v ∈ cell.parts) : cell.Copyable := by
  cases cell with
  | array items => trivial
  | object cls properties =>
    cases cls with
    | none => trivial
    | some => cases h
  | _ => cases h

end Cell

namespace Value

def parts (w : World) (v : Value) : List Value := ((v.cell? w).map Cell.parts).getD []

def Admissible (w : World) : Value → Prop
  | str _ | bool _ | null | undefined => True
  | container cell => (w.cell cell).Copyable
  | _ => False

def Reaches (w : World) : Value → Value → Prop :=
  Relation.ReflTransGen fun v u => u ∈ v.parts w

theorem exists_cell_of_mem_parts {w : World} {u v : Value} (h : u ∈ v.parts w) :
    ∃ cell, v = container cell ∧ u ∈ (w.cell cell).parts := by
  cases v with
  | container cell => exact ⟨cell, rfl, h⟩
  | _ => cases h

end Value

namespace Schema

section Images

/-- The schema of a value, where `R` says which nodes stand for which cells. -/
inductive IsImage (R : CellId → NodeId → Prop) : Value → Schema → Prop where
  | str (source : String) : IsImage R (.str source) (.typeString source)
  | isTrue : IsImage R (.bool true) (.literal .isTrue)
  | isFalse : IsImage R (.bool false) (.literal .isFalse)
  | isNull : IsImage R .null (.literal .isNull)
  | isUndefined : IsImage R .undefined (.literal .isUndefined)
  | container {cell : CellId} {id : NodeId} (h : R cell id) :
      IsImage R (.container cell) (.node id)

inductive IsNode (R : CellId → NodeId → Prop) : Cell → SchemaNode → Prop where
  | array {items : List Value} {schemas : List Schema}
      (h : List.Forall₂ (IsImage R) items schemas) : IsNode R (.array items) (.list schemas)
  | object {properties : Keyed Value} {fields : Keyed Schema}
      (h : List.Forall₂ (fun p q => p.1 = q.1 ∧ IsImage R p.2 q.2) properties.entries
        fields.entries) :
      IsNode R (.object none properties) (.shape { fields := fields })

variable {R R' : CellId → NodeId → Prop} {w : World} {v : Value} {s : Schema}

theorem IsImage.mono (h : IsImage R v s) (hr : ∀ cell id, R cell id → R' cell id) :
    IsImage R' v s := by
  cases h with
  | container h => exact .container (hr _ _ h)
  | _ => constructor

theorem IsNode.mono {cell : Cell} {n : SchemaNode} (h : IsNode R cell n)
    (hr : ∀ cell id, R cell id → R' cell id) : IsNode R' cell n := by
  cases h with
  | array h => exact .array (h.imp fun _ _ hi => hi.mono hr)
  | object h => exact .object (h.imp fun _ _ hi => ⟨hi.1, hi.2.mono hr⟩)

theorem IsImage.admissible (h : IsImage R v s)
    (hr : ∀ cell id, R cell id → (w.cell cell).Copyable) : v.Admissible w := by
  cases h with
  | container h => exact hr _ _ h
  | _ => trivial

theorem exists_of_forall₂ {α β : Type} {S : α → β → Prop} {as : List α} {bs : List β}
    (h : List.Forall₂ S as bs) {a : α} (ha : a ∈ as) : ∃ b, S a b := by
  induction h with
  | nil => cases ha
  | @cons x y _ _ hs _ ih =>
    rcases List.mem_cons.1 ha with rfl | ha
    · exact ⟨y, hs⟩
    · exact ih ha

theorem IsNode.exists_image {cell : Cell} {n : SchemaNode} (h : IsNode R cell n)
    (hv : v ∈ cell.parts) : ∃ s, IsImage R v s := by
  cases h with
  | array h => exact exists_of_forall₂ h hv
  | object h =>
    obtain ⟨p, hp, rfl⟩ := List.mem_map.1 hv
    obtain ⟨q, -, hq⟩ := exists_of_forall₂ h hp
    exact ⟨q.2, hq⟩

def nodeOf : Cell → List Schema → SchemaNode
  | .object _ properties, schemas => .shape { fields := .ofList (properties.keys.zip schemas) }
  | _, schemas => .list schemas

theorem forall₂_zip_keys {ps : List (String × Value)} {schemas : List Schema}
    (h : List.Forall₂ (IsImage R) (ps.map Prod.snd) schemas) :
    List.Forall₂ (fun p q => p.1 = q.1 ∧ IsImage R p.2 q.2) ps
      ((ps.map Prod.fst).zip schemas) := by
  induction ps generalizing schemas with
  | nil => exact .nil
  | cons p ps ih =>
    cases h with
    | cons hi h => exact .cons ⟨rfl, hi⟩ (ih h)

theorem isNode_nodeOf {cell : Cell} (hc : cell.Copyable) {schemas : List Schema}
    (h : List.Forall₂ (IsImage R) cell.parts schemas) : IsNode R cell (nodeOf cell schemas) := by
  rcases Cell.copyable_iff.1 hc with ⟨items, rfl⟩ | ⟨properties, rfl⟩
  · exact .array h
  · refine .object ?_
    have hl : properties.keys.length = schemas.length := by
      rw [← h.length_eq]
      simp [Keyed.keys, Cell.parts, Keyed.values]
    rw [Keyed.entries_ofList]
    · exact forall₂_zip_keys h
    · rw [List.map_fst_zip (Nat.le_of_eq hl)]
      exact properties.nodup

end Images

/-- One new node for each container that is reached, alike in content; other nodes are as before. -/
structure IsCopy (w : World) (v : Value) (store : SchemaStore) (made : CellId → NodeId)
    (schema : Schema) (store' : SchemaStore) : Prop where
  bijective : Set.BijOn made {cell | v.Reaches w (.container cell)}
    (Set.Ico store.nodes.size store'.nodes.size)
  root : IsImage (made · = ·) v schema
  node (cell : CellId) (h : v.Reaches w (.container cell)) :
    IsNode (made · = ·) (w.cell cell) (store'.node (made cell))
  kept (id : NodeId) (h : id < store.nodes.size) : store'.node id = store.node id

inductive Leads (w : World) : List CellId → Value → List Nat → Value → Prop where
  | here {avoided : List CellId} {v : Value} : Leads w avoided v [] v
  | part {avoided : List CellId} {cell : CellId} {i : Nat} {v u : Value} {steps : List Nat}
      (hc : cell ∉ avoided) (hp : (w.cell cell).parts[i]? = some v)
      (h : Leads w (cell :: avoided) v steps u) : Leads w avoided (.container cell) (i :: steps) u

/-- Compared position by position from the left, no way to an inadmissible value comes before
this one: none is met earlier depth first and from left to right. If ways passed containers
twice, there could always be one before. -/
structure IsFirst (w : World) (avoided : List CellId) (v : Value) (steps : List Nat)
    (bad : Value) : Prop where
  leads : Leads w avoided v steps bad
  inadmissible : ¬ bad.Admissible w
  first (steps' : List Nat) (bad' : Value) (h : Leads w avoided v steps' bad')
    (hb : ¬ bad'.Admissible w) : ¬ List.Lex (· < ·) steps' steps

variable {w : World} {avoided : List CellId} {v u : Value}

theorem Leads.reaches {steps : List Nat} (h : Leads w avoided v steps u) : v.Reaches w u := by
  induction h with
  | here => exact .refl
  | part _ hp _ ih => exact .head (List.mem_of_getElem? hp) ih

theorem Leads.snoc {cell : CellId} {steps : List Nat}
    (h : Leads w avoided v steps (.container cell)) (hc : cell ∉ avoided)
    (hu : u ∈ (w.cell cell).parts) : ∃ steps', Leads w avoided v steps' u := by
  obtain ⟨i, hi⟩ := List.mem_iff_getElem?.1 hu
  generalize hv : Value.container cell = target at h
  induction h with
  | here =>
    subst hv
    exact ⟨[i], .part hc hi .here⟩
  | @part avoided cell' j _ _ _ hc' hp _ ih =>
    by_cases he : cell = cell'
    · subst he
      exact ⟨[i], .part hc hi .here⟩
    · obtain ⟨steps', hl⟩ := ih (by simp [he, hc]) hv
      exact ⟨j :: steps', .part hc' hp hl⟩

theorem exists_leads_iff : (∃ steps, Leads w [] v steps u) ↔ v.Reaches w u := by
  constructor
  · rintro ⟨steps, h⟩
    exact h.reaches
  · intro h
    induction h with
    | refl => exact ⟨[], .here⟩
    | tail _ hp ih =>
      obtain ⟨cell, rfl, hp⟩ := Value.exists_cell_of_mem_parts hp
      obtain ⟨steps, hl⟩ := ih
      exact hl.snoc List.not_mem_nil hp

theorem isFirst_here (h : ¬ v.Admissible w) : IsFirst w avoided v [] v :=
  ⟨.here, h, fun _ _ _ _ hlex => nomatch hlex⟩

theorem IsFirst.part {cell : CellId} {i : Nat} {steps : List Nat} {bad : Value}
    (hc : cell ∉ avoided) (hp : (w.cell cell).parts[i]? = some v)
    (h : IsFirst w (cell :: avoided) v steps bad)
    (hbefore : ∀ j < i, ∀ x, (w.cell cell).parts[j]? = some x → ∀ steps' y,
      Leads w (cell :: avoided) x steps' y → y.Admissible w) :
    IsFirst w avoided (.container cell) (i :: steps) bad := by
  refine ⟨.part hc hp h.leads, h.inadmissible, ?_⟩
  intro steps' bad' hl hb hlex
  cases hlex with
  | nil =>
    cases hl
    exact hb (Cell.copyable_of_mem_parts (List.mem_of_getElem? hp))
  | rel hji =>
    cases hl with
    | part _ hx hl => exact hb (hbefore _ hji _ hx _ _ hl)
  | cons hlex =>
    cases hl with
    | part _ hx hl =>
      obtain rfl := Option.some.inj (hp.symm.trans hx)
      exact h.first _ _ hl hb hlex

end Schema

end ValueCheck
