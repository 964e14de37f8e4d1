import Mathlib.Data.List.Induction
import ValueCheck.Value.Basic

/-! Sets. A new set keeps the values to which no earlier one is equal, though it compares a
value only with those kept so far. -/

namespace ValueCheck.Value

variable {a b c v : Value} {vs : List Value}

theorem equals_trans (hab : a.equals b = true) (hbc : b.equals c = true) : a.equals c = true := by
  rwa [eq_of_equals hab]

theorem equals_self_iff : a.equals a = true ↔ a ≠ .number .nan ∧ a ≠ .date .nan := by
  cases a with
  | number n => cases n <;> simp [equals, Number.equals_self, Number.isNaN]
  | date n => cases n <;> simp [equals, Number.equals_self, Number.isNaN]
  | _ => simp [equals]

def firsts (vs : List Value) : List Value :=
  (vs.zipIdx.filter fun p => (vs.take p.2).all fun u => !u.equals p.1).map Prod.fst

theorem firsts_concat (vs : List Value) (v : Value) :
    firsts (vs ++ [v]) = firsts vs ++ if vs.any (·.equals v) then [] else [v] := by
  have hfront : ∀ p ∈ vs.zipIdx, (vs ++ [v]).take p.2 = vs.take p.2 := by
    intro p hp
    have hlt : p.2 < vs.length := List.snd_lt_of_mem_zipIdx hp
    rw [List.take_append_of_le_length (Nat.le_of_lt hlt)]
  have hfilter : vs.zipIdx.filter (fun p => ((vs ++ [v]).take p.2).all fun u => !u.equals p.1) =
      vs.zipIdx.filter fun p => (vs.take p.2).all fun u => !u.equals p.1 := by
    apply List.filter_congr
    intro p hp
    rw [hfront p hp]
  rw [firsts, List.zipIdx_append, List.filter_append, hfilter, List.map_append, firsts]
  congr 1
  cases hv : vs.any (·.equals v) <;> simp_all

theorem distinct_concat (vs : List Value) (v : Value) : distinct (vs ++ [v]) =
    if (distinct vs).any (·.equals v) then distinct vs else distinct vs ++ [v] := by
  rw [distinct, List.foldl_append]
  rfl

theorem mem_of_mem_distinct (h : v ∈ distinct vs) : v ∈ vs := by
  induction vs using List.reverseRecOn with
  | nil => exact h
  | append_singleton vs u ih =>
    rw [distinct_concat] at h
    split at h
    · exact List.mem_append_left _ (ih h)
    · rcases List.mem_append.1 h with h | h
      · exact List.mem_append_left _ (ih h)
      · exact List.mem_append_right _ h

theorem exists_equals_distinct {u : Value} (hu : u ∈ vs) (h : u.equals v = true) :
    ∃ k ∈ distinct vs, k.equals v = true := by
  induction vs using List.reverseRecOn with
  | nil => cases hu
  | append_singleton vs last ih =>
    rw [distinct_concat]
    rcases List.mem_append.1 hu with hu | hu
    · obtain ⟨k, hk, hkv⟩ := ih hu
      refine ⟨k, ?_, hkv⟩
      split
      · exact hk
      · exact List.mem_append_left _ hk
    · obtain rfl := List.mem_singleton.1 hu
      split
      · next hkept =>
        obtain ⟨k, hk, hku⟩ := List.any_eq_true.1 hkept
        exact ⟨k, hk, equals_trans hku h⟩
      · exact ⟨u, List.mem_append_right _ (List.mem_singleton_self u), h⟩

theorem any_distinct (vs : List Value) (v : Value) :
    (distinct vs).any (·.equals v) = vs.any (·.equals v) := by
  rw [Bool.eq_iff_iff, List.any_eq_true, List.any_eq_true]
  constructor
  · rintro ⟨k, hk, h⟩
    exact ⟨k, mem_of_mem_distinct hk, h⟩
  · rintro ⟨u, hu, h⟩
    exact exists_equals_distinct hu h

theorem distinct_eq_firsts (vs : List Value) : distinct vs = firsts vs := by
  induction vs using List.reverseRecOn with
  | nil => rfl
  | append_singleton vs v ih =>
    rw [distinct_concat, firsts_concat, any_distinct, ih]
    split
    · rw [List.append_nil]
    · rfl

theorem pairwise_distinct (vs : List Value) :
    (distinct vs).Pairwise fun a b => a.equals b = false := by
  induction vs using List.reverseRecOn with
  | nil => exact .nil
  | append_singleton vs v ih =>
    rw [distinct_concat]
    split
    · exact ih
    · next hv =>
      refine List.pairwise_append.2 ⟨ih, List.pairwise_singleton _ v, ?_⟩
      intro k hk u hu
      obtain rfl := List.mem_singleton.1 hu
      exact eq_false_of_ne_true fun h => hv (List.any_eq_true.2 ⟨k, hk, h⟩)

theorem distinct_of_pairwise (h : vs.Pairwise fun a b => a.equals b = false) :
    distinct vs = vs := by
  induction vs using List.reverseRecOn with
  | nil => rfl
  | append_singleton vs v ih =>
    obtain ⟨hvs, -, hlast⟩ := List.pairwise_append.1 h
    have hv : vs.any (·.equals v) = false := by
      rw [List.any_eq_false]
      intro u hu
      rw [hlast u hu v (List.mem_singleton_self v)]
      exact Bool.false_ne_true
    rw [distinct_concat, ih hvs, hv, if_neg Bool.false_ne_true]

theorem cell?_newSet (w : World) (vs : List Value) :
    (newSet vs w).1.cell? (newSet vs w).2 = some (.set (distinct vs)) := by
  change some ((w.cells.push (.set (distinct vs)))[w.cells.size]?.getD (.array [])) = _
  rw [Array.getElem?_push_size, Option.getD_some]

theorem newSet_keeps_firsts (w : World) (vs : List Value) :
    (newSet vs w).1.cell? (newSet vs w).2 = some (.set (firsts vs)) ∧
    (firsts vs).Pairwise (fun a b => a.equals b = false ∧ b.equals a = false) ∧
    (∀ w', (newSet (firsts vs) w').1.cell? (newSet (firsts vs) w').2 = some (.set (firsts vs))) ∧
    (∀ a b : Value, a.equals b = b.equals a) ∧
    (∀ a b c : Value, a.equals b = true → b.equals c = true → a.equals c = true) ∧
    ∀ a : Value, a.equals a = true ↔ a ≠ .number .nan ∧ a ≠ .date .nan := by
  have hunequal : (firsts vs).Pairwise fun a b => a.equals b = false := by
    rw [← distinct_eq_firsts]
    exact pairwise_distinct vs
  refine ⟨?_, ?_, ?_, equals_comm, fun a b c => equals_trans, fun a => equals_self_iff⟩
  · rw [cell?_newSet, distinct_eq_firsts]
  · apply hunequal.imp
    intro a b h
    exact ⟨h, by rwa [equals_comm]⟩
  · intro w'
    rw [cell?_newSet, distinct_of_pairwise hunequal]

example : distinct [.number .nan, .null, .number .nan, .null, .date .nan] =
    [.number .nan, .null, .number .nan, .date .nan] := by decide

end ValueCheck.Value
