import Mathlib.Computability.RegularExpressions
import ValueCheck.Proofs.Text.Segments

/-! Letter cases as languages. Each case accepts what its regular expression matches on the whole
text, and the cases with a separator the texts whose parts are words of that case. -/

namespace ValueCheck.Text

open RegularExpression (matches'_add matches'_mul matches'_star)

namespace Pattern

def oneOf (cs : List Char) : RegularExpression Char := (cs.map .char).sum

def range (low high : Char) : List Char :=
  (List.range' low.toNat (high.toNat + 1 - low.toNat)).map Char.ofNat

def lower : RegularExpression Char := oneOf (range 'a' 'z')

def upper : RegularExpression Char := oneOf (range 'A' 'Z')

def digit : RegularExpression Char := oneOf (range '0' '9')

def letter : RegularExpression Char := lower + upper

def alphanumeric : RegularExpression Char := letter + digit

def oneOrMore (P : RegularExpression Char) : RegularExpression Char := P * P.star

def joined (separator : Char) (first further : RegularExpression Char) : RegularExpression Char :=
  first * (.char separator * further).star

def words (separator : Char) (start inner : RegularExpression Char) : RegularExpression Char :=
  start * joined separator inner.star (oneOrMore inner)

end Pattern

open Pattern

def Case.pattern : Case → RegularExpression Char
  | .alphanumeric => oneOrMore Pattern.alphanumeric
  | .alphabetic => oneOrMore letter
  | .numeric => oneOrMore digit
  | .lower => oneOrMore Pattern.lower
  | .upper => oneOrMore Pattern.upper
  | .camel => Pattern.lower * Pattern.alphanumeric.star
  | .pascal => Pattern.upper * Pattern.alphanumeric.star
  | .snake => words '_' Pattern.lower (Pattern.lower + digit)
  | .screaming => words '_' Pattern.upper (Pattern.upper + digit)
  | .kebab => words '-' Pattern.lower (Pattern.lower + digit)
  | .train =>
    Pattern.upper * joined '-' Pattern.alphanumeric.star
      ((Pattern.upper + digit) * oneOrMore Pattern.alphanumeric)

def Case.separator? : Case → Option Char
  | .snake | .screaming => some '_'
  | .kebab | .train => some '-'
  | _ => none

variable {c separator : Char} {cs : List Char} {p q : Char → Bool}
  {P Q first further : RegularExpression Char}

def Reads (P : RegularExpression Char) (p : Char → Bool) : Prop :=
  ∀ cs, cs ∈ P.matches' ↔ ∃ c, cs = [c] ∧ p c = true

theorem mem_oneOf {choices : List Char} :
    cs ∈ (oneOf choices).matches' ↔ ∃ c ∈ choices, cs = [c] := by
  induction choices with
  | nil => simp [oneOf]
  | cons c choices ih =>
    have hsum : oneOf (c :: choices) = .char c + oneOf choices := by simp [oneOf]
    rw [hsum, matches'_add, Language.mem_add, ih, List.exists_mem_cons_iff]
    exact Iff.rfl

theorem mem_range {low high : Char} (h : high.toNat < 0xd800) :
    c ∈ range low high ↔ low ≤ c ∧ c ≤ high := by
  have hle (a b : Char) : a ≤ b ↔ a.toNat ≤ b.toNat := Iff.rfl
  rw [range, List.mem_map, hle, hle]
  constructor
  · rintro ⟨n, hn, rfl⟩
    rw [List.mem_range'_1] at hn
    have hv : n.isValidChar := .inl (by omega)
    have hn' : (Char.ofNat n).toNat = n := by
      rw [Char.ofNat, dif_pos hv]
      rfl
    omega
  · rintro ⟨hl, hh⟩
    exact ⟨c.toNat, List.mem_range'_1.2 (by omega), Char.ofNat_toNat c⟩

theorem reads_range {low high : Char} (h : high.toNat < 0xd800) :
    Reads (oneOf (range low high)) (fun c => low ≤ c && c ≤ high) := by
  intro cs
  rw [mem_oneOf]
  simp only [mem_range h, Bool.and_eq_true, decide_eq_true_eq]
  exact exists_congr fun c => and_comm

theorem Reads.add (hp : Reads P p) (hq : Reads Q q) : Reads (P + Q) (fun c => p c || q c) := by
  intro cs
  rw [matches'_add, Language.mem_add, hp, hq, ← exists_or]
  simp only [Bool.or_eq_true, and_or_left]

theorem reads_lower : Reads Pattern.lower isLower := reads_range (by decide)

theorem reads_upper : Reads Pattern.upper isUpper := reads_range (by decide)

theorem reads_digit : Reads digit isDigit := reads_range (by decide)

theorem reads_letter : Reads letter isLetter := reads_lower.add reads_upper

theorem reads_alphanumeric : Reads Pattern.alphanumeric isAlphanumeric :=
  reads_letter.add reads_digit

theorem Reads.mem_mul (hp : Reads P p) :
    cs ∈ (P * Q).matches' ↔ ∃ c ds, cs = c :: ds ∧ p c = true ∧ ds ∈ Q.matches' := by
  rw [matches'_mul, Language.mem_mul]
  constructor
  · rintro ⟨a, ha, ds, hd, rfl⟩
    obtain ⟨c, rfl, hc⟩ := (hp a).1 ha
    exact ⟨c, ds, rfl, hc, hd⟩
  · rintro ⟨c, ds, rfl, hc, hd⟩
    exact ⟨[c], (hp _).2 ⟨c, rfl, hc⟩, ds, hd, rfl⟩

theorem Reads.mem_star (hp : Reads P p) : cs ∈ P.star.matches' ↔ AllOf p cs := by
  rw [matches'_star, Language.mem_kstar]
  constructor
  · rintro ⟨parts, rfl, hall⟩ c hc
    obtain ⟨part, hpart, hc⟩ := List.mem_flatten.1 hc
    obtain ⟨d, rfl, hd⟩ := (hp part).1 (hall part hpart)
    rwa [List.mem_singleton.1 hc]
  · intro hall
    refine ⟨cs.map ([·]), by rw [← List.flatMap_def, List.flatMap_singleton'], ?_⟩
    intro part hpart
    obtain ⟨c, hc, rfl⟩ := List.mem_map.1 hpart
    exact (hp _).2 ⟨c, rfl, hall c hc⟩

theorem Reads.mem_oneOrMore (hp : Reads P p) :
    cs ∈ (oneOrMore P).matches' ↔ IsWord p cs := by
  rw [oneOrMore, hp.mem_mul]
  simp only [hp.mem_star]
  cases cs with
  | nil => simp [IsWord]
  | cons c ds => simp [IsWord, allOf_cons]

theorem segmented_flatten {first further : List Char → Prop} {part : List Char}
    {stretches : List (List Char)} (hfirst : first part) (hpart : separator ∉ part)
    (hs : ∀ s ∈ stretches, ∃ w, s = separator :: w ∧ further w ∧ separator ∉ w) :
    Segmented separator first further (part ++ stretches.flatten) := by
  -- Each stretch starts with a separator, so it adds one part.
  induction stretches generalizing part first with
  | nil => exact ⟨part, [], by simp [List.splitOn_eq_singleton hpart], hfirst, by simp⟩
  | cons s stretches ih =>
    obtain ⟨⟨w, rfl, hw, hsep⟩, hrest⟩ := List.forall_mem_cons.1 hs
    obtain ⟨part', parts, hsplit, hpart', hparts⟩ := ih hw hsep hrest
    refine ⟨part, part' :: parts, ?_, hfirst, List.forall_mem_cons.2 ⟨hpart', hparts⟩⟩
    rw [List.flatten_cons, List.cons_append, List.splitOn_append_cons_self_of_not_mem hpart, hsplit]

theorem intercalate_eq_append_flatten (part : List Char) (parts : List (List Char)) :
    [separator].intercalate (part :: parts) = part ++ (parts.map (separator :: ·)).flatten := by
  induction parts generalizing part with
  | nil => simp
  | cons next parts ih => simp [List.intercalate_cons_cons, ih]

theorem mem_joined (hfirst : ∀ w ∈ first.matches', separator ∉ w)
    (hfurther : ∀ w ∈ further.matches', separator ∉ w) :
    cs ∈ (joined separator first further).matches' ↔
      Segmented separator (· ∈ first.matches') (· ∈ further.matches') cs := by
  rw [joined, matches'_mul, Language.mem_mul]
  constructor
  · rintro ⟨part, hp, rest, hr, rfl⟩
    rw [matches'_star, Language.mem_kstar] at hr
    obtain ⟨stretches, rfl, hs⟩ := hr
    refine segmented_flatten hp (hfirst part hp) fun s hmem => ?_
    obtain ⟨a, rfl, w, hw, rfl⟩ := Language.mem_mul.1 (hs s hmem)
    exact ⟨w, rfl, hw, hfurther w hw⟩
  · rintro ⟨part, parts, hsplit, hp, hparts⟩
    have hcs : part ++ (parts.map (separator :: ·)).flatten = cs := by
      rw [← intercalate_eq_append_flatten, ← hsplit, List.intercalate_splitOn]
    refine ⟨part, hp, _, Language.join_mem_kstar fun s hs => ?_, hcs⟩
    obtain ⟨w, hw, rfl⟩ := List.mem_map.1 hs
    exact ⟨[separator], rfl, w, hparts w hw, rfl⟩

theorem allOf_iff : allOf p cs = true ↔ IsWord p cs := by
  cases cs <;> simp [allOf, IsWord, AllOf]

theorem startsThen_all_iff (hp : Reads P p) (hq : Reads Q q) :
    startsThen p (·.all q) cs = true ↔ cs ∈ (P * Q.star).matches' := by
  rw [hp.mem_mul, startsThen_iff]
  simp only [hq.mem_star, AllOf, List.all_eq_true]

theorem notMem_of_allOf (hs : q separator = false) (h : AllOf q cs) : separator ∉ cs := by
  intro hm
  rw [h separator hm] at hs
  cases hs

theorem mem_joined_star (hq : Reads Q q) (hs : q separator = false) {part : List Char → Prop}
    (hpart : ∀ w, w ∈ further.matches' ↔ part w) (hall : ∀ w, part w → AllOf q w) :
    cs ∈ (joined separator Q.star further).matches' ↔ Segmented separator (AllOf q) part cs := by
  rw [mem_joined (fun w hw => notMem_of_allOf hs (hq.mem_star.1 hw)) fun w hw =>
    notMem_of_allOf hs (hall w ((hpart w).1 hw))]
  simp only [hq.mem_star, hpart]

theorem startsThen_wordsFrom_iff (hp : Reads P p) (hq : Reads Q q) (hs : q separator = false) :
    startsThen p (wordsFrom separator q) cs = true ↔ cs ∈ (words separator P Q).matches' := by
  have hjoined (ds : List Char) : ds ∈ (joined separator Q.star (oneOrMore Q)).matches' ↔
      Segmented separator (AllOf q) (IsWord q) ds :=
    mem_joined_star hq hs (fun _ => hq.mem_oneOrMore) fun _ => And.right
  rw [words, hp.mem_mul, startsThen_iff]
  simp only [wordsFrom_iff hs, hjoined]

theorem mem_wagon :
    cs ∈ ((Pattern.upper + digit) * oneOrMore Pattern.alphanumeric).matches' ↔ IsWagon cs := by
  have hstart : Reads (Pattern.upper + digit) isUpperOrDigit := reads_upper.add reads_digit
  simp only [hstart.mem_mul, reads_alphanumeric.mem_oneOrMore]
  rcases cs with - | ⟨d, - | ⟨e, cs⟩⟩
  · simp [IsWagon]
  · simp [IsWagon, IsWord]
  · simp [isWagon_cons_cons, IsWord, allOf_cons, and_assoc]

theorem startsThen_wagonsFrom_iff :
    startsThen isUpper wagonsFrom cs = true ↔ cs ∈ Case.train.pattern.matches' := by
  have hjoined (ds : List Char) : ds ∈ (joined '-' Pattern.alphanumeric.star
      ((Pattern.upper + digit) * oneOrMore Pattern.alphanumeric)).matches' ↔
      Segmented '-' (AllOf isAlphanumeric) IsWagon ds :=
    mem_joined_star reads_alphanumeric (by decide) (fun _ => mem_wagon) fun _ hw => hw.2.1
  rw [Case.pattern, reads_upper.mem_mul, startsThen_iff]
  simp only [wagonsFrom_iff, hjoined]

theorem accepts_iff_matches (case : Case) (cs : List Char) :
    case.accepts cs = true ↔ cs ∈ case.pattern.matches' := by
  have hlower : Reads (Pattern.lower + digit) isLowerOrDigit := reads_lower.add reads_digit
  have hupper : Reads (Pattern.upper + digit) isUpperOrDigit := reads_upper.add reads_digit
  cases case with
  | alphanumeric => exact allOf_iff.trans reads_alphanumeric.mem_oneOrMore.symm
  | alphabetic => exact allOf_iff.trans reads_letter.mem_oneOrMore.symm
  | numeric => exact allOf_iff.trans reads_digit.mem_oneOrMore.symm
  | lower => exact allOf_iff.trans reads_lower.mem_oneOrMore.symm
  | upper => exact allOf_iff.trans reads_upper.mem_oneOrMore.symm
  | camel => exact startsThen_all_iff reads_lower reads_alphanumeric
  | pascal => exact startsThen_all_iff reads_upper reads_alphanumeric
  | snake => exact startsThen_wordsFrom_iff reads_lower hlower (by decide)
  | screaming => exact startsThen_wordsFrom_iff reads_upper hupper (by decide)
  | kebab => exact startsThen_wordsFrom_iff reads_lower hlower (by decide)
  | train => exact startsThen_wagonsFrom_iff

theorem isLowerOrDigit_of_isLower (h : isLower c = true) : isLowerOrDigit c = true := by
  rw [isLowerOrDigit, h, Bool.true_or]

theorem isUpperOrDigit_of_isUpper (h : isUpper c = true) : isUpperOrDigit c = true := by
  rw [isUpperOrDigit, h, Bool.true_or]

theorem accepts_iff_parts (s : String) :
    (Case.kebab.accepts s.toList = true ↔
      AreWords isLower isLowerOrDigit (s.toList.splitOn '-')) ∧
    (Case.snake.accepts s.toList = true ↔
      AreWords isLower isLowerOrDigit (s.toList.splitOn '_')) ∧
    (Case.screaming.accepts s.toList = true ↔
      AreWords isUpper isUpperOrDigit (s.toList.splitOn '_')) ∧
    (Case.train.accepts s.toList = true ↔ AreWagons (s.toList.splitOn '-')) ∧
    (∀ case : Case, case.accepts s.toList = true ↔ s.toList ∈ case.pattern.matches') ∧
    ∀ (case : Case) (separator : Char), case.separator? = some separator →
      case.accepts s.toList = true → SeparatedInside separator s.toList := by
  have kebab : Case.kebab.accepts s.toList = true ↔
      AreWords isLower isLowerOrDigit (s.toList.splitOn '-') :=
    startsThen_words_iff (fun _ => isLowerOrDigit_of_isLower) (by decide)
  have snake : Case.snake.accepts s.toList = true ↔
      AreWords isLower isLowerOrDigit (s.toList.splitOn '_') :=
    startsThen_words_iff (fun _ => isLowerOrDigit_of_isLower) (by decide)
  have screaming : Case.screaming.accepts s.toList = true ↔
      AreWords isUpper isUpperOrDigit (s.toList.splitOn '_') :=
    startsThen_words_iff (fun _ => isUpperOrDigit_of_isUpper) (by decide)
  have train : Case.train.accepts s.toList = true ↔ AreWagons (s.toList.splitOn '-') :=
    startsThen_wagons_iff
  refine ⟨kebab, snake, screaming, train, fun case => accepts_iff_matches case s.toList, ?_⟩
  intro case separator hs ha
  apply separatedInside_of_parts
  cases case with
  | kebab =>
    cases hs
    exact (kebab.1 ha).nil_notMem
  | snake =>
    cases hs
    exact (snake.1 ha).nil_notMem
  | screaming =>
    cases hs
    exact (screaming.1 ha).nil_notMem
  | train =>
    cases hs
    exact (train.1 ha).nil_notMem
  | _ => cases hs

end ValueCheck.Text
