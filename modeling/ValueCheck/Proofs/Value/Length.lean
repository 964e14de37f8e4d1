import Mathlib.Algebra.Order.BigOperators.Group.List
import Mathlib.Algebra.Order.Ring.Nat
import Mathlib.Data.Set.Finite.List
import Mathlib.Order.ConditionallyCompleteLattice.Basic
import Mathlib.Order.Lattice.Nat
import Mathlib.Tactic.Ring
import ValueCheck.Proofs.Value.Graph
import ValueCheck.Proofs.Value.Quoting

/-! Texts of values are short. Only names and rendered numbers and dates are written in full; what
else a value holds is cut, so it adds no more than a constant factor. -/

namespace ValueCheck

theorem Quoting.Escapes.length_le {c : Char} {es : List Char} (h : Escapes c es) :
    es.length ≤ 6 := by
  cases h with
  | plain | short => simp
  | code hc =>
    have hl := (hexDigits_spec c.toNat (toNat_lt_of_isControl hc)).1
    simp [hl]

theorem Quoting.length_quote_le (s : String) : (quote s).length ≤ 248 := by
  have hshown : (shown s).length ≤ 41 := by
    by_cases h : 40 < s.length
    · exact (length_shown_of_lt h).le
    · have hlength : s.toList.length = s.length := String.length_toList
      rw [shown_of_le (by omega)]
      omega
  have hbody : ((shown s).flatMap escape).length ≤ (shown s).length * 6 := by
    rw [List.length_flatMap]
    have hsum := List.sum_le_card_nsmul ((shown s).map fun c => (escape c).length) 6 (by
      intro n hn
      obtain ⟨c, -, rfl⟩ := List.mem_map.1 hn
      exact (escapes_escape c).length_le)
    simpa using hsum
  rw [← String.length_toList, quote_eq]
  simp only [List.length_append, List.length_cons, List.length_nil]
  omega

namespace Value

open Relation

variable {w : World} {u v : Value} {c : Cell} {L B : Nat}

/-- What is written in full for a value, apart from words that are the same for all values. -/
def label? (w : World) : Value → Option String
  | number n => some n.text
  | symbol _ description => some description
  | function name => name
  | date millis => some (Calendar.dateText millis)
  | regexp _ source => some source
  | container id => ((container id).class? w).bind Class.name?
  | _ => none

def labelLength (w : World) (v : Value) : Nat := ((v.label? w).map String.length).getD 0

noncomputable def longestLabel (w : World) (v : Value) : Nat :=
  sSup (labelLength w '' {u | ReflTransGen (Child w) v u})

theorem cell_eq_getElem {id : CellId} (h : id < w.cells.size) : w.cell id = w.cells[id] := by
  simp [World.cell, h]

theorem finite_reachable (w : World) (v : Value) : {u | ReflTransGen (Child w) v u}.Finite := by
  refine (List.finite_toSet (v :: w.cells.toList.flatMap Cell.children)).subset fun u hu => ?_
  rcases ReflTransGen.cases_tail hu with rfl | ⟨x, -, hx⟩
  · exact List.mem_cons_self
  · obtain ⟨id, rfl⟩ := exists_container_of_child hx
    have hid : id < w.cells.size := by
      by_contra hn
      rw [Child, children_of_not_lt hn] at hx
      cases hx
    have hu : u ∈ (w.cell id).children := hx
    rw [cell_eq_getElem hid] at hu
    exact List.mem_cons_of_mem v (List.mem_flatMap.2 ⟨_, by simp, hu⟩)

theorem isGreatest_longestLabel (w : World) (v : Value) :
    IsGreatest (labelLength w '' {u | ReflTransGen (Child w) v u}) (longestLabel w v) := by
  have hbound := ((finite_reachable w v).image (labelLength w)).bddAbove
  exact ⟨Nat.sSup_mem ⟨_, v, .refl, rfl⟩ hbound, fun n hn => le_csSup hbound hn⟩

theorem length_scalarText_le (v : Value) : v.scalarText.length ≤ 250 + labelLength w v := by
  cases v with
  | str s => exact (Quoting.length_quote_le s).trans (by omega)
  | bool b => cases b <;> simp [scalarText, ← String.length_toList] <;> omega
  | function name =>
    cases name <;> simp [scalarText, labelLength, label?, ← String.length_toList]
    omega
  | symbol | regexp =>
    simp [scalarText, labelLength, label?, ← String.length_toList]
    omega
  | _ => simp [scalarText, labelLength, label?, ← String.length_toList]

theorem length_intercalate_le {separator : String} {texts : List String} {m : Nat}
    (h : ∀ s ∈ texts, s.length ≤ m) :
    (separator.intercalate texts).length ≤ texts.length * (m + separator.length) := by
  induction texts with
  | nil => simp
  | cons s texts ih =>
    obtain ⟨hs, htexts⟩ := List.forall_mem_cons.1 h
    cases texts with
    | nil =>
      simp only [String.intercalate_singleton, List.length_singleton]
      omega
    | cons t texts =>
      have hrest := ih htexts
      simp only [String.intercalate_cons_cons, String.length_append, List.length_cons,
        Nat.succ_mul] at hrest ⊢
      omega

theorem length_listing_le {α : Type} {opening closing pad : String} {item : Option (α → String)}
    {items : List α} {m : Nat} (hm : 1 ≤ m)
    (hbrackets : opening.length + closing.length + 2 * pad.length ≤ 4)
    (h : ∀ f, item = some f → ∀ a ∈ items, (f a).length ≤ m) :
    (listing opening closing pad item items).length ≤ 4 + 11 * (m + 2) := by
  rcases items with - | ⟨a, items⟩
  · simp [listing]
    omega
  rcases item with - | item
  · have hmark : "…".length = 1 := by decide
    simp only [listing, String.length_append]
    omega
  let texts := ((a :: items).take maxItems).map item
  let shown := if maxItems < (a :: items).length then texts ++ ["…"] else texts
  have htexts : texts.length ≤ 10 ∧ ∀ s ∈ texts, s.length ≤ m := by
    refine ⟨by simp [texts, maxItems], fun s hs => ?_⟩
    obtain ⟨b, hb, rfl⟩ := List.mem_map.1 hs
    exact h item rfl b (List.mem_of_mem_take hb)
  have hshown : shown.length ≤ 11 ∧ ∀ s ∈ shown, s.length ≤ m := by
    dsimp only [shown]
    split
    · refine ⟨?_, List.forall_mem_append.2 ⟨htexts.2, List.forall_mem_singleton.2 hm⟩⟩
      rw [List.length_append, List.length_singleton]
      omega
    · exact ⟨by omega, htexts.2⟩
  have hjoined : (", ".intercalate shown).length ≤ 11 * (m + 2) :=
    (length_intercalate_le hshown.2).trans (Nat.mul_le_mul_right (m + 2) hshown.1)
  have htext : listing opening closing pad (some item) (a :: items) =
      opening ++ pad ++ ", ".intercalate shown ++ pad ++ closing := rfl
  simp only [htext, String.length_append]
  omega

theorem length_count_le {n : Nat} (h : n < 2 ^ 64) : (toString n).length ≤ 20 :=
  (Nat.length_repr_le_iff (by decide)).2 (h.trans (by decide))

theorem length_instance_le (cls : Class) :
    ("instance of " ++ cls.displayName).length ≤ 27 + (cls.name?.map String.length).getD 0 := by
  cases h : cls.name? with
  | none => simp [Class.displayName, h, ← String.length_toList]
  | some name =>
    simp [Class.displayName, h, ← String.length_toList]
    omega

theorem length_cellText_le {inner : Option (Value → String)} (hc : c.size < 2 ^ 64)
    (hL : ∀ cls ps, c = .object (some cls) ps → (cls.name?.map String.length).getD 0 ≤ L)
    (hB : ∀ f, inner = some f → ∀ u ∈ c.children, (f u).length ≤ B) :
    (cellText inner c).length ≤ 2900 + L + 22 * B := by
  have hcount := length_count_le hc
  cases c with
  | array items =>
    have hlist : (listing "[" "]" "" inner items).length ≤ 4 + 11 * (B + 1 + 2) :=
      length_listing_le (by omega) (by decide) fun f hf a ha => (hB f hf a ha).trans (by omega)
    rw [cellText]
    omega
  | set items =>
    have hlist : (listing "\x7b" "\x7d" " " inner items).length ≤ 4 + 11 * (B + 1 + 2) :=
      length_listing_le (by omega) (by decide) fun f hf a ha => (hB f hf a ha).trans (by omega)
    simp only [cellText, String.length_append, Cell.size] at hcount ⊢
    have hwords : "Set(".length + ") ".length = 6 := by decide
    omega
  | map pairs =>
    have hlist : (listing "\x7b" "\x7d" " "
        (inner.map fun f (p : Value × Value) => f p.1 ++ " => " ++ f p.2) pairs).length ≤
          4 + 11 * (2 * B + 4 + 2) := by
      refine length_listing_le (by omega) (by decide) fun f hf p hp => ?_
      obtain ⟨g, hg, rfl⟩ := Option.map_eq_some_iff.1 hf
      have hkey := hB g hg p.1 (List.mem_flatMap.2 ⟨p, hp, by simp⟩)
      have hvalue := hB g hg p.2 (List.mem_flatMap.2 ⟨p, hp, by simp⟩)
      have hword : " => ".length = 4 := by decide
      simp only [String.length_append]
      omega
    simp only [cellText, String.length_append, Cell.size] at hcount ⊢
    have hwords : "Map(".length + ") ".length = 6 := by decide
    omega
  | object cls properties =>
    cases cls with
    | some cls =>
      have hname := hL cls properties rfl
      have htext := length_instance_le cls
      rw [cellText]
      omega
    | none =>
      have hlist : (listing "\x7b" "\x7d" " "
          (inner.map fun f (p : String × Value) => Quoting.quote p.1 ++ ": " ++ f p.2)
          properties.entries).length ≤ 4 + 11 * (250 + B + 2) := by
        refine length_listing_le (by omega) (by decide) fun f hf p hp => ?_
        obtain ⟨g, hg, rfl⟩ := Option.map_eq_some_iff.1 hf
        have hkey := Quoting.length_quote_le p.1
        have hvalue := hB g hg p.2 (List.mem_map_of_mem hp)
        have hword : ": ".length = 2 := by decide
        simp only [String.length_append]
        omega
      rw [cellText]
      omega

theorem size_cell_lt (hw : ∀ c ∈ w.cells, c.size < 2 ^ 64) (id : CellId) :
    (w.cell id).size < 2 ^ 64 := by
  by_cases hid : id < w.cells.size
  · rw [cell_eq_getElem hid]
    exact hw _ (Array.getElem_mem hid)
  · simp [World.cell, hid, Cell.size]

theorem length_class_le {id : CellId} {cls : Class} {properties : Keyed Value}
    (hc : w.cell id = .object (some cls) properties) :
    (cls.name?.map String.length).getD 0 = labelLength w (.container id) := by
  simp [labelLength, label?, class?, cell?, hc]

def itemText (w : World) (path : List CellId) (id : CellId) : Nat → Option (Value → String)
  | 0 => none
  | levels + 1 => some (textBelow w levels (id :: path))

theorem textBelow_cases (w : World) (levels : Nat) (path : List CellId) (v : Value) :
    textBelow w levels path v = v.scalarText ∨ textBelow w levels path v = "↻" ∨
      ∃ id, v = .container id ∧
        textBelow w levels path v = cellText (itemText w path id levels) (w.cell id) := by
  cases v with
  | container id =>
    have htext : textBelow w levels path (.container id) =
        if path.contains id && ((Value.container id).class? w).isNone then "↻"
        else cellText (itemText w path id levels) (w.cell id) := by
      cases levels <;> rfl
    rw [htext]
    split
    · exact .inr (.inl rfl)
    · exact .inr (.inr ⟨id, rfl, rfl⟩)
  | _ => exact .inl (by cases levels <;> rfl)

theorem length_textBelow_step {levels : Nat} {path : List CellId}
    (hw : ∀ c ∈ w.cells, c.size < 2 ^ 64) (hL : labelLength w v ≤ L)
    (hB : ∀ id f, itemText w path id levels = some f → ∀ u ∈ v.children w, (f u).length ≤ B) :
    (textBelow w levels path v).length ≤ 2900 + L + 22 * B := by
  rcases textBelow_cases w levels path v with h | h | ⟨id, rfl, h⟩
  · have hscalar := length_scalarText_le (w := w) v
    rw [h]
    omega
  · have hmark : "↻".length = 1 := by decide
    rw [h]
    omega
  · rw [h]
    exact length_cellText_le (size_cell_lt hw id)
      (fun cls properties hc => (length_class_le hc).trans_le hL) (hB id)

theorem length_textBelow_le (hw : ∀ c ∈ w.cells, c.size < 2 ^ 64) (levels : Nat)
    (path : List CellId) (v : Value)
    (hL : ∀ u, ReflTransGen (Child w) v u → labelLength w u ≤ L) :
    (textBelow w levels path v).length ≤ 23 ^ levels * (2900 + L) := by
  -- Below the last level no item is written; each level above it multiplies the bound.
  induction levels generalizing path v with
  | zero =>
    have hstep : (textBelow w 0 path v).length ≤ 2900 + L + 22 * 0 := by
      apply length_textBelow_step hw (hL v .refl)
      rintro id f ⟨⟩
    omega
  | succ levels ih =>
    have hstep : (textBelow w (levels + 1) path v).length ≤
        2900 + L + 22 * (23 ^ levels * (2900 + L)) := by
      apply length_textBelow_step hw (hL v .refl)
      rintro id f ⟨⟩ u hu
      exact ih (id :: path) u fun x hx => hL x (.head hu hx)
    have hone : 2900 + L ≤ 23 ^ levels * (2900 + L) :=
      Nat.le_mul_of_pos_left _ (Nat.pow_pos (by decide))
    calc (textBelow w (levels + 1) path v).length
        ≤ 2900 + L + 22 * (23 ^ levels * (2900 + L)) := hstep
      _ ≤ 23 ^ levels * (2900 + L) + 22 * (23 ^ levels * (2900 + L)) := by omega
      _ = 23 ^ (levels + 1) * (2900 + L) := by ring

theorem length_text_le (w : World) (v : Value) (hw : ∀ c ∈ w.cells, c.size < 2 ^ 64) :
    IsGreatest (labelLength w '' {u | ReflTransGen (Child w) v u}) (longestLabel w v) ∧
      (v.text w).length ≤ 2900 * 23 ^ 3 * (1 + longestLabel w v) := by
  have hgreatest := isGreatest_longestLabel w v
  have htext : (v.text w).length ≤ 23 ^ 3 * (2900 + longestLabel w v) :=
    length_textBelow_le hw maxLevels [] v fun u hu => hgreatest.2 ⟨u, hu, rfl⟩
  refine ⟨hgreatest, ?_⟩
  calc (v.text w).length ≤ 23 ^ 3 * (2900 + longestLabel w v) := htext
    _ ≤ 23 ^ 3 * (2900 * (1 + longestLabel w v)) := Nat.mul_le_mul_left _ (by omega)
    _ = 2900 * 23 ^ 3 * (1 + longestLabel w v) := by ring

theorem length_text_loop :
    let w : World := { cells := #[.array [.container 0, .symbol 0 "id"]] }
    (∀ c ∈ w.cells, c.size < 2 ^ 64) ∧
      ((container 0).text w).length ≤ 2900 * 23 ^ 3 * (1 + longestLabel w (.container 0)) := by
  intro w
  have hw : ∀ c ∈ w.cells, c.size < 2 ^ 64 := by simp [w, Cell.size]
  exact ⟨hw, (length_text_le w (.container 0) hw).2⟩

end Value

end ValueCheck
