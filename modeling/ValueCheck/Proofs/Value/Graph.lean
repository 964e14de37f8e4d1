import Mathlib.Logic.Relation
import ValueCheck.Value.Basic

/-! Graphs of values: what a value contains, and which values contain none that contains itself. -/

namespace ValueCheck.Value

open Relation

def Child (w : World) (v u : Value) : Prop := u ∈ v.children w

def Acyclic (w : World) (v : Value) : Prop :=
  ∀ u, ReflTransGen (Child w) v u → ¬ TransGen (Child w) u u

variable {w : World} {u v : Value}

theorem Acyclic.child (h : v.Acyclic w) (hu : Child w v u) : u.Acyclic w :=
  fun x hx => h x (.head hu hx)

theorem Acyclic.of_children (h : ∀ u ∈ v.children w, u.Acyclic w) : v.Acyclic w := by
  intro x hx hxx
  rcases ReflTransGen.cases_head hx with rfl | ⟨u, hu, hux⟩
  · obtain ⟨u, hu, huv⟩ := TransGen.head'_iff.1 hxx
    exact h u hu v huv hxx
  · exact h u hu x hux hxx

theorem exists_container_of_child (h : Child w v u) : ∃ id, v = .container id := by
  cases v with
  | container id => exact ⟨id, rfl⟩
  | _ => cases h

theorem children_of_not_lt {id : CellId} (h : ¬ id < w.cells.size) :
    (Value.container id).children w = [] := by
  change (w.cell id).children = []
  rw [World.cell, Array.getElem?_eq_none (Nat.le_of_not_lt h)]
  rfl

theorem acyclic_iff : v.Acyclic w ↔
    ∀ id, ReflTransGen (Child w) v (.container id) →
      ¬ TransGen (Child w) (.container id) (.container id) := by
  constructor
  · intro h id hr
    exact h _ hr
  · intro h u hr hu
    obtain ⟨x, hx, -⟩ := TransGen.head'_iff.1 hu
    obtain ⟨id, rfl⟩ := exists_container_of_child hx
    exact h id hr hu

/-- Finite trees of values with the property: sharing is undone, and nothing is below itself. -/
inductive IsTree (w : World) (p : Value → Prop) : Value → Prop where
  | node {v : Value} (h : p v) (hc : ∀ u ∈ v.children w, IsTree w p u) : IsTree w p v

variable {p : Value → Prop}

theorem IsTree.reaches (h : v.IsTree w p) (hr : ReflTransGen (Child w) v u) : u.IsTree w p := by
  induction hr with
  | refl => exact h
  | tail _ hc ih =>
    cases ih with
    | node _ hi => exact hi _ hc

theorem IsTree.property (h : v.IsTree w p) : p v := by
  cases h with
  | node h _ => exact h

theorem IsTree.not_below_itself (h : v.IsTree w p) : ¬ TransGen (Child w) v v := by
  induction h with
  | @node v _ _ ih =>
    intro hv
    obtain ⟨u, hc, hr⟩ := TransGen.head'_iff.1 hv
    apply ih u hc
    exact TransGen.tail' hr hc

theorem IsTree.acyclic (h : v.IsTree w p) : v.Acyclic w :=
  fun _ hr => (h.reaches hr).not_below_itself

end ValueCheck.Value
