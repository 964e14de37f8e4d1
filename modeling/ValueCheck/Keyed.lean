/-! Keyed stores: pairs in the order in which their keys first came. A later
pair with a known key takes the place of the earlier one, so no key is there twice. -/

namespace ValueCheck

structure Keyed (α : Type) where
  entries : List (String × α) := []
  nodup : (entries.map Prod.fst).Nodup := by simp

namespace Keyed

variable {α β : Type}

theorem eq_of_entries {s t : Keyed α} (h : s.entries = t.entries) : s = t := by
  cases s
  cases t
  congr

def empty : Keyed α := {}

def get? (s : Keyed α) (key : String) : Option α := s.entries.lookup key

def contains (s : Keyed α) (key : String) : Bool := (s.get? key).isSome

def size (s : Keyed α) : Nat := s.entries.length

def keys (s : Keyed α) : List String := s.entries.map Prod.fst

def values (s : Keyed α) : List α := s.entries.map Prod.snd

def put (key : String) (a : α) : List (String × α) → List (String × α)
  | [] => [(key, a)]
  | (k, b) :: rest => if k = key then (k, a) :: rest else (k, b) :: put key a rest

theorem map_fst_put (key : String) (a : α) (ps : List (String × α)) :
    (put key a ps).map Prod.fst =
      if key ∈ ps.map Prod.fst then ps.map Prod.fst else ps.map Prod.fst ++ [key] := by
  induction ps with
  | nil => simp [put]
  | cons p ps ih =>
    obtain ⟨k, b⟩ := p
    by_cases h : k = key
    · simp [put, h]
    · by_cases hm : key ∈ ps.map Prod.fst
      · rw [if_pos hm] at ih
        rw [if_pos (by simp at hm ⊢; exact .inr hm)]
        simp [put, h, ih]
      · rw [if_neg hm] at ih
        rw [if_neg (by simp at hm ⊢; exact ⟨fun e => h e.symm, hm⟩)]
        simp [put, h, ih]

theorem nodup_append_key {key : String} {ks : List String} (h : ks.Nodup) (hk : key ∉ ks) :
    (ks ++ [key]).Nodup := by
  rw [List.nodup_append]
  refine ⟨h, by simp, ?_⟩
  rintro k hmem l hl rfl
  exact hk (List.mem_singleton.1 hl ▸ hmem)

theorem nodup_put (key : String) (a : α) {ps : List (String × α)}
    (h : (ps.map Prod.fst).Nodup) : ((put key a ps).map Prod.fst).Nodup := by
  rw [map_fst_put]
  split
  · exact h
  · next hk => exact nodup_append_key h hk

def insert (s : Keyed α) (key : String) (a : α) : Keyed α :=
  ⟨put key a s.entries, nodup_put key a s.nodup⟩

theorem isSome_lookup (key : String) (ps : List (String × α)) :
    (ps.lookup key).isSome = true ↔ key ∈ ps.map Prod.fst := by
  induction ps with
  | nil => simp
  | cons p ps ih =>
    obtain ⟨k, b⟩ := p
    by_cases h : key = k
    · simp [h]
    · have h' : (key == k) = false := by simpa using h
      simp only [List.lookup_cons, h', List.map_cons, List.mem_cons, h, false_or, ih]

theorem contains_iff (s : Keyed α) (key : String) : s.contains key = true ↔ key ∈ s.keys :=
  isSome_lookup key s.entries

def insertIfNew (s : Keyed α) (key : String) (a : α) : Keyed α :=
  if h : s.contains key = true then s
  else ⟨s.entries ++ [(key, a)], by
    simpa using nodup_append_key s.nodup (mt (s.contains_iff key).2 h)⟩

def insertAll (s : Keyed α) (pairs : List (String × α)) : Keyed α :=
  pairs.foldl (fun s p => s.insert p.1 p.2) s

def ofList (pairs : List (String × α)) : Keyed α := empty.insertAll pairs

theorem lookup_put_self (key : String) (a : α) (ps : List (String × α)) :
    (put key a ps).lookup key = some a := by
  induction ps with
  | nil => simp [put]
  | cons p ps ih =>
    obtain ⟨k, b⟩ := p
    by_cases h : k = key
    · simp [put, h]
    · have h' : (key == k) = false := by simpa using fun e => h e.symm
      rw [put, if_neg h, List.lookup_cons, h']
      exact ih

theorem lookup_put_ne {key other : String} (a : α) (ps : List (String × α)) (h : other ≠ key) :
    (put key a ps).lookup other = ps.lookup other := by
  induction ps with
  | nil => simp [put, h]
  | cons p ps ih =>
    obtain ⟨k, b⟩ := p
    by_cases hk : k = key
    · have h' : (other == key) = false := by simpa using h
      simp [put, hk, List.lookup_cons, h']
    · simp [put, hk, List.lookup_cons, ih]

theorem mem_entries_of_get? {s : Keyed α} {key : String} {a : α} (h : s.get? key = some a) :
    (key, a) ∈ s.entries := by
  obtain ⟨l, r, hs, -⟩ := List.lookup_eq_some_iff.1 h
  simp [hs]

theorem mem_values_of_get? {s : Keyed α} {key : String} {a : α} (h : s.get? key = some a) :
    a ∈ s.values :=
  List.mem_map.2 ⟨(key, a), mem_entries_of_get? h, rfl⟩

theorem get?_insert_self (s : Keyed α) (key : String) (a : α) :
    (s.insert key a).get? key = some a := lookup_put_self key a s.entries

theorem get?_insert_ne (s : Keyed α) {key other : String} (a : α) (h : other ≠ key) :
    (s.insert key a).get? other = s.get? other := lookup_put_ne a s.entries h

theorem get?_insertIfNew_self (s : Keyed α) (key : String) (a : α) :
    (s.insertIfNew key a).get? key = some ((s.get? key).getD a) := by
  unfold insertIfNew
  split
  · next h =>
    obtain ⟨b, hb⟩ := Option.isSome_iff_exists.1 h
    rw [hb, Option.getD_some]
  · next h =>
    have hn : s.entries.lookup key = none := Option.not_isSome_iff_eq_none.1 h
    simp [get?, List.lookup_append, hn]

theorem get?_insertIfNew_ne (s : Keyed α) {key other : String} (a : α) (h : other ≠ key) :
    (s.insertIfNew key a).get? other = s.get? other := by
  have hb : (other == key) = false := by simpa using h
  unfold insertIfNew get?
  split
  · rfl
  · simp [List.lookup_append, List.lookup_cons, hb]

theorem get?_of_mem_entries {key : String} {a : α} (s : Keyed α) (h : (key, a) ∈ s.entries) :
    s.get? key = some a := by
  obtain ⟨l, r, hs⟩ := List.append_of_mem h
  have hn := s.nodup
  rw [hs, List.map_append, List.nodup_append] at hn
  refine List.lookup_eq_some_iff.2 ⟨l, r, hs, ?_⟩
  intro p hp
  simpa using (hn.2.2 p.1 (List.mem_map_of_mem hp) key (by simp)).symm

theorem keys_insert (s : Keyed α) (key : String) (a : α) :
    (s.insert key a).keys = if key ∈ s.keys then s.keys else s.keys ++ [key] :=
  map_fst_put key a s.entries

theorem mem_keys_insertAll {key : String} (s : Keyed α) (pairs : List (String × α)) :
    key ∈ (s.insertAll pairs).keys ↔ key ∈ s.keys ∨ key ∈ pairs.map Prod.fst := by
  unfold insertAll
  induction pairs generalizing s with
  | nil => simp
  | cons p pairs ih =>
    rw [List.foldl_cons, ih, keys_insert, List.map_cons, List.mem_cons]
    split
    · next hp =>
      constructor
      · rintro (h | h)
        · exact .inl h
        · exact .inr (.inr h)
      · rintro (h | rfl | h)
        · exact .inl h
        · exact .inl hp
        · exact .inr h
    · rw [List.mem_append, List.mem_singleton, or_assoc]

theorem put_of_notMem {key : String} {a : α} {ps : List (String × α)}
    (h : key ∉ ps.map Prod.fst) : put key a ps = ps ++ [(key, a)] := by
  induction ps with
  | nil => rfl
  | cons p ps ih =>
    rw [List.map_cons, List.mem_cons, not_or] at h
    rw [put, if_neg (Ne.symm h.1), ih h.2, List.cons_append]

theorem entries_insertAll {s : Keyed α} {pairs : List (String × α)}
    (h : ((s.entries ++ pairs).map Prod.fst).Nodup) :
    (s.insertAll pairs).entries = s.entries ++ pairs := by
  induction pairs generalizing s with
  | nil => exact (List.append_nil _).symm
  | cons p pairs ih =>
    have hp : p.1 ∉ s.entries.map Prod.fst := by
      intro hm
      rw [List.map_append, List.nodup_append] at h
      exact h.2.2 p.1 hm p.1 (by simp) rfl
    have hput : (s.insert p.1 p.2).entries = s.entries ++ [p] := put_of_notMem hp
    have hall := ih (s := s.insert p.1 p.2) (by rwa [hput, List.append_assoc])
    rw [hput, List.append_assoc] at hall
    exact hall

theorem entries_ofList {pairs : List (String × α)} (h : (pairs.map Prod.fst).Nodup) :
    (ofList pairs).entries = pairs :=
  entries_insertAll h

def map (f : α → β) (s : Keyed α) : Keyed β where
  entries := s.entries.map fun p => (p.1, f p.2)
  nodup := by simpa [Function.comp_def] using s.nodup

theorem get?_map (f : α → β) (s : Keyed α) (key : String) :
    (s.map f).get? key = (s.get? key).map f := by
  change (s.entries.map fun p => (p.1, f p.2)).lookup key = (s.entries.lookup key).map f
  induction s.entries with
  | nil => rfl
  | cons p ps ih =>
    rw [List.map_cons, List.lookup_cons, List.lookup_cons, ih]
    cases key == p.1 <;> rfl

theorem map_insertIfNew (f : α → β) (s : Keyed α) (key : String) (a : α) :
    (s.insertIfNew key a).map f = (s.map f).insertIfNew key (f a) := by
  have hc : (s.map f).contains key = s.contains key := by
    rw [contains, get?_map, Option.isSome_map, contains]
  unfold insertIfNew
  simp only [hc]
  split
  · rfl
  · simp [map]

end Keyed

end ValueCheck
