import Mathlib.Data.List.Infix
import Mathlib.Logic.Relation
import ValueCheck.Class

/-! Inheritance as an order. The ancestors of a class form a chain, and the walk up that chain
needs the serials of the classes only, since no two classes of one supply share theirs. -/

namespace ValueCheck

open Relation

namespace Class

variable {c d e p : Class}

def Extends (c p : Class) : Prop := c.parent? = some p

theorem head?_lineage (c : Class) : c.lineage.head? = some c := by
  cases c <;> rfl

theorem mem_lineage_iff : d ∈ c.lineage ↔ c.isSubclassOf d = true := by
  rw [isSubclassOf, List.contains_iff_mem]

theorem lineage_inj (h : c.lineage = d.lineage) : c = d := by
  have hhead := congrArg List.head? h
  rw [head?_lineage, head?_lineage] at hhead
  exact Option.some.inj hhead

theorem isSubclassOf_iff_suffix : c.isSubclassOf d = true ↔ d.lineage <:+ c.lineage := by
  rw [← mem_lineage_iff]
  constructor
  · intro h
    induction c with
    | root n name =>
      rw [List.mem_singleton.1 h]
    | extending n name parent ih =>
      rcases List.mem_cons.1 h with rfl | h
      · exact List.suffix_rfl
      · exact (ih h).trans (List.suffix_cons _ _)
  · intro h
    exact h.subset (mem_lineage_iff.2 d.isSubclassOf_self)

theorem isSubclassOf_trans (hcd : c.isSubclassOf d = true) (hde : d.isSubclassOf e = true) :
    c.isSubclassOf e = true := by
  rw [isSubclassOf_iff_suffix] at hcd hde ⊢
  exact hde.trans hcd

theorem isSubclassOf_antisymm (h : c.isSubclassOf d = true) (h' : d.isSubclassOf c = true) :
    c = d := by
  rw [isSubclassOf_iff_suffix] at h h'
  have hlength := Nat.le_antisymm h'.length_le h.length_le
  exact lineage_inj (h'.eq_of_length hlength)

theorem isSubclassOf_or (hd : c.isSubclassOf d = true) (he : c.isSubclassOf e = true) :
    d.isSubclassOf e = true ∨ e.isSubclassOf d = true := by
  rw [isSubclassOf_iff_suffix] at hd he
  rw [isSubclassOf_iff_suffix, isSubclassOf_iff_suffix]
  exact List.suffix_or_suffix_of_suffix he hd

theorem isSubclassOf_iff_reflTransGen : c.isSubclassOf d = true ↔ ReflTransGen Extends c d := by
  constructor
  · intro h
    induction c with
    | root n name =>
      rcases (isSubclassOf_iff _ d).1 h with rfl | ⟨p, hp, -⟩
      · exact .refl
      · cases hp
    | extending n name parent ih =>
      rcases (isSubclassOf_iff _ d).1 h with rfl | ⟨p, hp, hpd⟩
      · exact .refl
      · obtain rfl : parent = p := Option.some.inj hp
        exact .head rfl (ih hpd)
  · intro h
    induction h using ReflTransGen.head_induction_on with
    | refl => exact d.isSubclassOf_self
    | @head c p hp _ ih => exact (isSubclassOf_iff c d).2 (.inr ⟨p, hp, ih⟩)

structure IsForest (le : Class → Class → Prop) : Prop where
  refl (c : Class) : le c c
  trans {c d e : Class} : le c d → le d e → le c e
  antisymm {c d : Class} : le c d → le d c → c = d
  chain {c d e : Class} : le c d → le c e → le d e ∨ le e d

theorem isForest_isSubclassOf : IsForest fun c d => c.isSubclassOf d = true where
  refl := isSubclassOf_self
  trans := isSubclassOf_trans
  antisymm := isSubclassOf_antisymm
  chain := isSubclassOf_or

/-- The walk up the parents to a class with the serial, or to no class at all. It has no answer
where the turns it may take run out. -/
def climb (serial : Nat) : Nat → Option Class → Option Bool
  | _, none => some false
  | 0, some _ => none
  | turns + 1, some c => if c.serial = serial then some true else climb serial turns c.parent?

theorem lineage_eq (h : c.parent? = some p) : c.lineage = c :: p.lineage := by
  cases c <;> cases h
  rfl

theorem isSubclassOf_of_ne (h : c ≠ d) : c.isSubclassOf d = c.parent?.any (·.isSubclassOf d) := by
  rw [Bool.eq_iff_iff, isSubclassOf_iff, Option.any_eq_true]
  exact or_iff_right h

theorem climb_eq {turns : Nat} {current : Option Class}
    (hd : ∀ c ∈ current, ∀ a ∈ c.lineage, a.serial = d.serial → a = d)
    (ht : ∀ c ∈ current, c.lineage.length ≤ turns) :
    climb d.serial turns current = some (current.any (·.isSubclassOf d)) := by
  induction turns generalizing current with
  | zero =>
    cases current with
    | none => rfl
    | some c =>
      have hnil : c.lineage = [] := List.length_eq_zero_iff.1 (Nat.le_zero.1 (ht c rfl))
      have hmem := mem_lineage_iff.2 c.isSubclassOf_self
      rw [hnil] at hmem
      cases hmem
  | succ turns ih =>
    cases current with
    | none => rfl
    | some c =>
      by_cases hs : c.serial = d.serial
      · obtain rfl := hd c rfl c (mem_lineage_iff.2 c.isSubclassOf_self) hs
        rw [climb, if_pos rfl, Option.any_some, isSubclassOf_self]
      · have hne : c ≠ d := fun he => hs (congrArg serial he)
        rw [climb, if_neg hs, Option.any_some, isSubclassOf_of_ne hne]
        apply ih
        · intro p hp a ha
          apply hd c rfl a
          rw [lineage_eq hp]
          exact List.mem_cons_of_mem c ha
        · intro p hp
          have hlength := ht c rfl
          rw [lineage_eq hp, List.length_cons] at hlength
          exact Nat.le_of_succ_le_succ hlength

end Class

namespace ClassSupply

/-- The classes that come from a supply, the latest one first. -/
inductive Made : ClassSupply → List Class → Prop where
  | nothing : Made 0 []
  | declare {n : ClassSupply} {made : List Class} (h : Made n made) (name : Option String) :
      Made (declare name n).2 ((declare name n).1 :: made)
  | extend {n : ClassSupply} {made : List Class} {parent : Class} (h : Made n made) (name : String)
      (hp : parent ∈ made) : Made (extend name parent n).2 ((extend name parent n).1 :: made)

namespace Made

variable {n : ClassSupply} {made : List Class} {c d p : Class}

theorem serial_lt (h : Made n made) : ∀ c ∈ made, c.serial < n := by
  induction h with
  | nothing => simp
  | declare _ _ ih | extend _ _ _ ih =>
    rw [List.forall_mem_cons]
    exact ⟨Nat.lt_succ_self _, fun c hc => Nat.lt_succ_of_lt (ih c hc)⟩

theorem eq_of_serial (h : Made n made) (hc : c ∈ made) (hd : d ∈ made)
    (hs : c.serial = d.serial) : c = d := by
  induction h with
  | nothing => cases hc
  | declare h _ ih | extend h _ _ ih =>
    rcases List.mem_cons.1 hc with rfl | hc <;> rcases List.mem_cons.1 hd with rfl | hd
    · rfl
    · exact absurd hs.symm (h.serial_lt d hd).ne
    · exact absurd hs (h.serial_lt c hc).ne
    · exact ih hc hd

theorem parent (h : Made n made) (hc : c ∈ made) (hp : c.parent? = some p) :
    p ∈ made ∧ p.serial < c.serial := by
  induction h with
  | nothing => cases hc
  | declare _ _ ih =>
    rcases List.mem_cons.1 hc with rfl | hc
    · cases hp
    · obtain ⟨hmem, hlt⟩ := ih hc
      exact ⟨List.mem_cons_of_mem _ hmem, hlt⟩
  | extend h _ hparent ih =>
    rcases List.mem_cons.1 hc with rfl | hc
    · obtain rfl := Option.some.inj hp
      exact ⟨List.mem_cons_of_mem _ hparent, h.serial_lt _ hparent⟩
    · obtain ⟨hmem, hlt⟩ := ih hc
      exact ⟨List.mem_cons_of_mem _ hmem, hlt⟩

theorem lineage (h : Made n made) (hc : c ∈ made) :
    c.lineage ⊆ made ∧ c.lineage.length ≤ c.serial + 1 := by
  induction c with
  | root m name =>
    exact ⟨List.cons_subset.2 ⟨hc, List.nil_subset _⟩, Nat.succ_le_succ (Nat.zero_le _)⟩
  | extending m name parent ih =>
    obtain ⟨hparent, hlt⟩ := h.parent hc rfl
    obtain ⟨hsubset, hlength⟩ := ih hparent
    refine ⟨List.cons_subset.2 ⟨hc, hsubset⟩, ?_⟩
    rw [Class.lineage, List.length_cons]
    exact Nat.succ_le_succ (hlength.trans hlt)

theorem mem_of_isSubclassOf (h : Made n made) (hc : c ∈ made) (hd : c.isSubclassOf d = true) :
    d ∈ made :=
  (h.lineage hc).1 (Class.mem_lineage_iff.2 hd)

theorem climb_eq (h : Made n made) (hc : c ∈ made) (hd : d ∈ made) {turns : Nat} (ht : n ≤ turns) :
    Class.climb d.serial turns (some c) = some (c.isSubclassOf d) := by
  obtain ⟨hsubset, hlength⟩ := h.lineage hc
  apply Class.climb_eq
  · intro b hb a ha hs
    cases hb
    exact h.eq_of_serial (hsubset ha) hd hs
  · intro b hb
    cases hb
    exact (hlength.trans (h.serial_lt c hc)).trans ht

theorem not_isSubclassOf_new {new : Class} (h : Made n made) (hd : d ∈ made)
    (hn : new.serial = n) : d.isSubclassOf new = false := by
  apply eq_false_of_ne_true
  intro hs
  have hlt := h.serial_lt new (h.mem_of_isSubclassOf hd hs)
  exact absurd hn hlt.ne

theorem isSubclassOf_new {new : Class} (h : Made n made) (hd : d ∈ made) (hn : new.serial = n) :
    new.isSubclassOf d = new.parent?.any (·.isSubclassOf d) := by
  apply Class.isSubclassOf_of_ne
  rintro rfl
  exact absurd hn (h.serial_lt new hd).ne

end Made

end ClassSupply

end ValueCheck
