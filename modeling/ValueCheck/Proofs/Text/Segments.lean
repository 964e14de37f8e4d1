import Mathlib.Data.List.Basic
import ValueCheck.Text.Case

/-! Joined words by their parts: the cases with a separator accept the texts whose parts between
the separators are words of that case. -/

namespace ValueCheck.Text

variable {separator c : Char} {first further : List Char → Prop} {cs : List Char}

def Segmented (separator : Char) (first further : List Char → Prop) (cs : List Char) : Prop :=
  ∃ part parts, cs.splitOn separator = part :: parts ∧ first part ∧ ∀ p ∈ parts, further p

theorem segmented_nil : Segmented separator first further [] ↔ first [] := by
  simp [Segmented]

theorem segmented_cons_self :
    Segmented separator first further (separator :: cs) ↔
      first [] ∧ Segmented separator further further cs := by
  obtain ⟨part, parts, h⟩ := List.exists_cons_of_ne_nil (List.splitOn_ne_nil separator cs)
  simp [Segmented, List.splitOn_cons_eq_if_modifyHead, h]

theorem segmented_cons_ne (hc : c ≠ separator) :
    Segmented separator first further (c :: cs) ↔
      Segmented separator (fun part => first (c :: part)) further cs := by
  obtain ⟨part, parts, h⟩ := List.exists_cons_of_ne_nil (List.splitOn_ne_nil separator cs)
  simp [Segmented, List.splitOn_cons_eq_if_modifyHead, h, hc]

theorem segmented_and (q : Prop) :
    Segmented separator (fun part => q ∧ first part) further cs ↔
      q ∧ Segmented separator first further cs := by
  simp only [Segmented]
  tauto

def AllOf (p : Char → Bool) (part : List Char) : Prop := ∀ c ∈ part, p c = true

def IsWord (p : Char → Bool) (part : List Char) : Prop := part ≠ [] ∧ AllOf p part

def IsWagon (part : List Char) : Prop :=
  2 ≤ part.length ∧ AllOf isAlphanumeric part ∧
    ∃ c rest, part = c :: rest ∧ isUpperOrDigit c = true

theorem allOf_cons {p : Char → Bool} {part : List Char} :
    AllOf p (c :: part) ↔ p c = true ∧ AllOf p part := List.forall_mem_cons

theorem isAlphanumeric_of_isUpperOrDigit (h : isUpperOrDigit c = true) :
    isAlphanumeric c = true := by
  simp only [isUpperOrDigit, Bool.or_eq_true] at h
  simp only [isAlphanumeric, isLetter, Bool.or_eq_true]
  tauto

theorem isWagon_cons_cons {d e : Char} {part : List Char} :
    IsWagon (d :: e :: part) ↔
      (isUpperOrDigit d = true ∧ isAlphanumeric e = true) ∧ AllOf isAlphanumeric part := by
  simp only [IsWagon, allOf_cons, List.length_cons, List.cons.injEq]
  constructor
  · rintro ⟨-, ⟨-, he, hp⟩, _, _, ⟨rfl, -⟩, hd⟩
    exact ⟨⟨hd, he⟩, hp⟩
  · rintro ⟨⟨hd, he⟩, hp⟩
    exact ⟨by omega, ⟨isAlphanumeric_of_isUpperOrDigit hd, he, hp⟩, d, _, ⟨rfl, rfl⟩, hd⟩

theorem wordsFrom_iff {p : Char → Bool} (hp : p separator = false) :
    wordsFrom separator p cs = true ↔ Segmented separator (AllOf p) (IsWord p) cs := by
  fun_induction wordsFrom separator p cs with
  | case1 => simp [segmented_nil, AllOf]
  | case2 c =>
    by_cases hc : c = separator
    · subst hc
      simp [hp, segmented_cons_self, segmented_nil, IsWord]
    · simp [segmented_cons_ne hc, segmented_nil, AllOf]
  | case3 d cs ih =>
    rw [segmented_cons_self]
    by_cases hd : d = separator
    · subst hd
      simp [hp, segmented_cons_self, IsWord]
    · simp only [segmented_cons_ne hd, IsWord, allOf_cons, ne_eq, reduceCtorEq, not_false_eq_true,
        true_and, segmented_and, Bool.and_eq_true, ih]
      simp [AllOf]
  | case4 c d cs hc ih =>
    rw [segmented_cons_ne hc]
    simp only [allOf_cons, segmented_and, Bool.and_eq_true, ih]

theorem wagonsFrom_iff :
    wagonsFrom cs = true ↔ Segmented '-' (AllOf isAlphanumeric) IsWagon cs := by
  have hyphen : isUpperOrDigit '-' = false ∧ isAlphanumeric '-' = false := by decide
  fun_induction wagonsFrom cs with
  | case1 d e cs ih =>
    rw [segmented_cons_self]
    by_cases hd : d = '-'
    · subst hd
      simp [hyphen.1, segmented_cons_self, IsWagon]
    by_cases he : e = '-'
    · subst he
      simp [hyphen.2, segmented_cons_ne hd, segmented_cons_self, IsWagon]
    simp only [segmented_cons_ne hd, segmented_cons_ne he, isWagon_cons_cons, segmented_and,
      Bool.and_eq_true, ih]
    simp [AllOf]
  | case2 c cs hcs ih =>
    by_cases hc : c = '-'
    · subst hc
      -- Fewer than two characters are left behind this hyphen.
      rw [hyphen.2, Bool.false_and, segmented_cons_self]
      simp only [Bool.false_eq_true, false_iff, not_and]
      intro _
      rcases cs with - | ⟨d, - | ⟨e, cs⟩⟩
      · simp [segmented_nil, IsWagon]
      · by_cases hd : d = '-'
        · subst hd
          simp [segmented_cons_self, IsWagon]
        · simp [segmented_cons_ne hd, segmented_nil, IsWagon]
      · exact absurd rfl (hcs d e cs rfl)
    · rw [segmented_cons_ne hc]
      simp only [allOf_cons, segmented_and, Bool.and_eq_true, ih]
  | case3 => simp [segmented_nil, AllOf]

theorem startsThen_iff {start : Char → Bool} {rest : List Char → Bool} :
    startsThen start rest cs = true ↔ ∃ c ds, cs = c :: ds ∧ start c = true ∧ rest ds = true := by
  cases cs <;> simp [startsThen]

theorem exists_segmented_iff {start : Char → Bool} (hs : start separator = false) :
    (∃ c ds, cs = c :: ds ∧ start c = true ∧ Segmented separator first further ds) ↔
      ∃ c part parts, cs.splitOn separator = (c :: part) :: parts ∧ start c = true ∧
        first part ∧ ∀ p ∈ parts, further p := by
  constructor
  · rintro ⟨c, ds, rfl, hc, part, parts, hp, hf⟩
    have hne : c ≠ separator := by
      rintro rfl
      rw [hs] at hc
      cases hc
    exact ⟨c, part, parts, by simp [List.splitOn_cons_eq_if_modifyHead, hne, hp], hc, hf⟩
  · rintro ⟨c, part, parts, hp, hc, hf⟩
    cases cs with
    | nil => simp at hp
    | cons d ds =>
      obtain ⟨part', parts', hd⟩ := List.exists_cons_of_ne_nil (List.splitOn_ne_nil separator ds)
      rw [List.splitOn_cons_eq_if_modifyHead, hd] at hp
      split at hp
      · simp at hp
      · obtain ⟨⟨rfl, rfl⟩, rfl⟩ : (d = c ∧ part' = part) ∧ parts' = parts := by simpa using hp
        exact ⟨d, ds, rfl, hc, part', parts', hd, hf⟩

def AreWords (start inner : Char → Bool) (parts : List (List Char)) : Prop :=
  (∀ part ∈ parts, part ≠ [] ∧ ∀ c ∈ part, inner c = true) ∧
    ∃ c part rest, parts = (c :: part) :: rest ∧ start c = true

def AreWagons (parts : List (List Char)) : Prop :=
  ∃ c part wagons, parts = (c :: part) :: wagons ∧ isUpper c = true ∧
    (∀ d ∈ part, isAlphanumeric d = true) ∧
    ∀ wagon ∈ wagons, 2 ≤ wagon.length ∧ (∀ d ∈ wagon, isAlphanumeric d = true) ∧
      ∃ d rest, wagon = d :: rest ∧ isUpperOrDigit d = true

theorem startsThen_words_iff {start inner : Char → Bool} (hs : ∀ c, start c = true → inner c = true)
    (hi : inner separator = false) :
    startsThen start (wordsFrom separator inner) cs = true ↔
      AreWords start inner (cs.splitOn separator) := by
  have hsep : start separator = false := by
    by_contra h
    rw [hs separator (by simpa using h)] at hi
    cases hi
  simp only [startsThen_iff, wordsFrom_iff hi, exists_segmented_iff hsep, AreWords]
  constructor
  · rintro ⟨c, part, parts, hp, hc, hpart, hparts⟩
    refine ⟨?_, c, part, parts, hp, hc⟩
    rw [hp, List.forall_mem_cons]
    exact ⟨⟨List.cons_ne_nil c part, allOf_cons.2 ⟨hs c hc, hpart⟩⟩, hparts⟩
  · rintro ⟨hall, c, part, parts, hp, hc⟩
    rw [hp, List.forall_mem_cons] at hall
    exact ⟨c, part, parts, hp, hc, (allOf_cons.1 hall.1.2).2, hall.2⟩

theorem startsThen_wagons_iff :
    startsThen isUpper wagonsFrom cs = true ↔ AreWagons (cs.splitOn '-') := by
  simp only [startsThen_iff, wagonsFrom_iff]
  exact exists_segmented_iff (by decide)

def SeparatedInside (separator : Char) (cs : List Char) : Prop :=
  ¬ [separator] <+: cs ∧ ¬ [separator] <:+ cs ∧ ¬ [separator, separator] <:+: cs

theorem separatedInside_of_parts (h : [] ∉ cs.splitOn separator) :
    SeparatedInside separator cs := by
  refine ⟨?_, ?_, ?_⟩
  · rintro ⟨t, rfl⟩
    apply h
    simp [List.splitOn_cons_eq_if_modifyHead]
  · rintro ⟨t, rfl⟩
    apply h
    simp [List.splitOn_append_cons_self]
  · rintro ⟨t, u, rfl⟩
    apply h
    simp [List.splitOn_append_cons_self, List.splitOn_cons_eq_if_modifyHead]

theorem AreWords.nil_notMem {start inner : Char → Bool} {parts : List (List Char)}
    (h : AreWords start inner parts) : [] ∉ parts :=
  fun hm => (h.1 [] hm).1 rfl

theorem AreWagons.nil_notMem {parts : List (List Char)} (h : AreWagons parts) : [] ∉ parts := by
  obtain ⟨c, part, wagons, rfl, -, -, hw⟩ := h
  rw [List.mem_cons]
  rintro (hm | hm)
  · cases hm
  · exact absurd (hw [] hm).1 (by decide)

end ValueCheck.Text
