import ValueCheck.Proofs.Grammar.Cutting
import ValueCheck.Proofs.Text.Patterns

/-! Tokens as a tiling of the source: each stands where a longest match of the token patterns does,
only blanks are left between them, and there is one way at most to lay them. -/

namespace ValueCheck.Grammar

open Text.Pattern (oneOf oneOrMore words)

namespace Kind

def letter : RegularExpression Char := Text.Pattern.letter + .char '_'

def wordChar : RegularExpression Char := letter + Text.Pattern.digit

def pattern : Kind → RegularExpression Char
  | .ampersand => .char '&'
  | .pipe => .char '|'
  | .bang => .char '!'
  | .question => .char '?'
  | .plus => .char '+'
  | .leftParen => .char '('
  | .rightParen => .char ')'
  | .leftBracket => .char '['
  | .rightBracket => .char ']'
  | .leftBrace => .char '\x7b'
  | .rightBrace => .char '\x7d'
  | .comma => .char ','
  | .colon => .char ':'
  | .integer => oneOrMore Text.Pattern.digit
  | .name => (1 + oneOf ['+', '-']) * words '-' letter wordChar

end Kind

variable {word rest : List Char} {k k' : Kind}

theorem reads_letter : Text.Reads Kind.letter isLetter := by
  apply Text.reads_letter.add
  intro cs
  simp only [decide_eq_true_eq, exists_eq_right]
  exact Iff.rfl

theorem reads_wordChar : Text.Reads Kind.wordChar isWordChar := reads_letter.add Text.reads_digit

theorem wordsFrom_cons {c : Char} (hc : c ≠ '-') (cs : List Char) :
    Text.wordsFrom '-' isWordChar (c :: cs) =
      (isWordChar c && Text.wordsFrom '-' isWordChar cs) := by
  cases cs with
  | nil => rw [Text.wordsFrom, Text.wordsFrom, Bool.and_true]
  | cons d cs => rw [Text.wordsFrom, if_neg hc]

theorem wordsFrom_iff_isTail {cs : List Char} :
    Text.wordsFrom '-' isWordChar cs = true ↔ IsTail cs := by
  constructor
  · intro h
    fun_induction Text.wordsFrom '-' isWordChar cs with
    | case1 => exact .nil
    | case2 c => exact .word h .nil
    | case3 d cs ih =>
      rw [Bool.and_eq_true] at h
      exact .hyphen h.1 (ih h.2)
    | case4 c d cs hc ih =>
      rw [Bool.and_eq_true] at h
      exact .word h.1 (ih h.2)
  · intro h
    induction h with
    | nil => rfl
    | @word c cs hc _ ih =>
      have hne : c ≠ '-' := by
        rintro rfl
        exact absurd hc (by decide)
      rw [wordsFrom_cons hne, hc, ih, Bool.true_and]
    | hyphen hc _ ih => rw [Text.wordsFrom, if_pos rfl, hc, ih, Bool.true_and]

theorem mem_words :
    word ∈ (words '-' Kind.letter Kind.wordChar).matches' ↔
      ∃ c cs, word = c :: cs ∧ isLetter c = true ∧ IsTail cs := by
  rw [← Text.startsThen_wordsFrom_iff reads_letter reads_wordChar (by decide), Text.startsThen_iff]
  simp only [wordsFrom_iff_isTail]

theorem isName_iff_mem : IsName word ↔ word ∈ Kind.name.pattern.matches' := by
  rw [Kind.pattern, RegularExpression.matches'_mul, Language.mem_mul]
  constructor
  · intro h
    cases h with
    | @letter c cs hc h => exact ⟨[], .inl rfl, c :: cs, mem_words.2 ⟨c, cs, rfl, hc, h⟩, rfl⟩
    | @sign c d cs hc hd h =>
      have hsign : [c] ∈ (oneOf ['+', '-']).matches' := by
        simpa [Text.mem_oneOf, isSign] using hc
      have hcs : IsTail cs := by
        cases h with
        | word _ h => exact h
        | hyphen => cases hd
      exact ⟨[c], .inr hsign, d :: cs, mem_words.2 ⟨d, cs, rfl, hd, hcs⟩, rfl⟩
  · rintro ⟨front, hfront, back, hback, rfl⟩
    obtain ⟨d, cs, rfl, hd, hcs⟩ := mem_words.1 hback
    rcases hfront with rfl | hsign
    · exact .letter hd hcs
    · obtain ⟨c, hc, rfl⟩ := Text.mem_oneOf.1 hsign
      have hc : isSign c = true := by simpa [isSign] using hc
      exact .sign hc hd (.word (isWordChar_of_isLetter hd) hcs)

theorem pattern_of_punctuation {c : Char} (h : punctuation c = some k) : k.pattern = .char c := by
  simp only [punctuation] at h
  split at h <;> cases h <;> rfl

theorem mem_pattern : word ∈ k.pattern.matches' ↔ IsLexeme word k := by
  cases k with
  | name => exact isName_iff_mem.symm
  | integer => exact Text.reads_digit.mem_oneOrMore
  | _ =>
    constructor
    · intro h
      exact ⟨_, h, rfl⟩
    · rintro ⟨c, rfl, hc⟩
      rw [pattern_of_punctuation hc]
      exact rfl

theorem IsLexeme.kind_unique (h : IsLexeme word k) (h' : IsLexeme word k') : k = k' := by
  have hl := lexeme?_of_isLexeme h (.of_stops stops_nil k)
  rw [lexeme?_of_isLexeme h' (.of_stops stops_nil k')] at hl
  cases hl
  rfl

theorem IsLexeme.exists_lexeme? (h : IsLexeme word k) (rest : List Char) :
    ∃ k' word', lexeme? (word ++ rest) = some (k', word') ∧ word.length ≤ word'.length := by
  cases k with
  | name =>
    cases h with
    | @letter c cs hc h =>
      refine ⟨.name, c :: (cs ++ nameTail rest), ?_, by simp⟩
      simp [lexeme?, not_isDigit_of_isLetter hc, hc, h.nameTail_append]
    | @sign c d cs hc hd h =>
      have ht : nameTail (d :: (cs ++ rest)) = d :: (cs ++ nameTail rest) := by
        simpa using h.nameTail_append rest
      refine ⟨.name, c :: d :: (cs ++ nameTail rest), ?_, by simp⟩
      simp [lexeme?, not_isDigit_of_isSign hc, hc, hd, ht]
  | integer =>
    obtain ⟨hne, hd⟩ := h
    cases word with
    | nil => exact absurd rfl hne
    | cons d ds =>
      rw [List.forall_mem_cons] at hd
      refine ⟨.integer, d :: (ds ++ rest.takeWhile isDigit), ?_, by simp⟩
      simp [lexeme?, hd.1, List.takeWhile_append_of_pos hd.2]
  | _ =>
    obtain ⟨c, rfl, hc⟩ := h
    rw [List.singleton_append, lexeme?, hc]
    split
    · exact ⟨_, _, rfl, by simp⟩
    · split
      · exact ⟨_, _, rfl, by simp⟩
      · exact ⟨_, _, rfl, Nat.le_refl _⟩

theorem lexeme?_eq_some_iff :
    lexeme? (word ++ rest) = some (k, word) ↔ word ∈ k.pattern.matches' ∧
      ∀ (longer back : List Char) (k' : Kind), word ++ rest = longer ++ back →
        longer ∈ k'.pattern.matches' → longer.length ≤ word.length := by
  constructor
  · intro h
    refine ⟨mem_pattern.2 (isLexeme_of_lexeme? h).1, ?_⟩
    intro longer back k' hcut hk'
    obtain ⟨k'', word'', hl, hle⟩ := (mem_pattern.1 hk').exists_lexeme? back
    rw [← hcut, h] at hl
    cases hl
    exact hle
  · rintro ⟨hk, hlongest⟩
    obtain ⟨k', word', hl, hle⟩ := (mem_pattern.1 hk).exists_lexeme? rest
    obtain ⟨⟨back, hback⟩, -⟩ := lexeme?_prefix hl
    have hword' : IsLexeme word' k' := by
      rw [← hback] at hl
      exact (isLexeme_of_lexeme? hl).1
    have hge := hlongest word' back k' hback.symm (mem_pattern.2 hword')
    obtain ⟨rfl, -⟩ := List.append_inj hback (Nat.le_antisymm hge hle)
    rw [hl, (mem_pattern.1 hk).kind_unique hword']

/-- The token is a piece of the text, which begins at the offset, and its span is its place. -/
def Token.StandsIn (t : Token) (offset : Nat) (cs : List Char) : Prop :=
  ∃ front back, cs = front ++ (t.text.toList ++ back) ∧
    t.span = ⟨offset + byteLength front, offset + byteLength front + byteLength t.text.toList⟩

def Span.Has (span : Span) (place : Nat) : Prop := span.start ≤ place ∧ place < span.stop

def Token.IsLongest (t : Token) (offset : Nat) (cs : List Char) : Prop :=
  ∀ (front longer back : List Char) (k : Kind), cs = front ++ (longer ++ back) →
    t.span.start = offset + byteLength front → longer ∈ k.pattern.matches' →
      longer.length ≤ t.text.toList.length

structure Tiles (offset : Nat) (cs : List Char) (tokens : List Token) : Prop where
  stands : ∀ t ∈ tokens, t.StandsIn offset cs
  nonempty : ∀ t ∈ tokens, t.span.start < t.span.stop
  apart : tokens.Pairwise fun t u => t.span.stop ≤ u.span.start
  blank (front : List Char) (c : Char) (back : List Char) : cs = front ++ c :: back →
    (∀ t ∈ tokens, ¬ t.span.Has (offset + byteLength front)) → c ∈ [' ', '\t', '\r', '\n']
  matching : ∀ t ∈ tokens, t.text.toList ∈ t.kind.pattern.matches'
  longest : ∀ t ∈ tokens, t.IsLongest offset cs

variable {offset : Nat} {c : Char} {cs front back piece : List Char} {t : Token}
  {tokens before after : List Token}

theorem byteLength_pos (h : cs ≠ []) : 0 < byteLength cs := by
  cases cs with
  | nil => exact absurd rfl h
  | cons c cs => exact Nat.add_pos_left c.utf8Size_pos _

theorem eq_nil_of_byteLength (h : byteLength cs = 0) : cs = [] := by
  by_contra hne
  exact absurd h (byteLength_pos hne).ne'

theorem mem_blanks : c ∈ [' ', '\t', '\r', '\n'] ↔ isBlank c = true := by
  simp [isBlank, or_assoc]

theorem cut_of_le (h : piece ++ rest = front ++ back) (hl : byteLength piece ≤ byteLength front) :
    ∃ middle, front = piece ++ middle ∧ rest = middle ++ back := by
  rcases List.append_eq_append_iff.1 h with hm | ⟨middle, rfl, rfl⟩
  · exact hm
  · rw [byteLength_append] at hl
    obtain rfl : middle = [] := eq_nil_of_byteLength (by omega)
    exact ⟨[], by simp, rfl⟩

namespace Token.StandsIn

theorem le_start (h : t.StandsIn offset cs) : offset ≤ t.span.start := by
  obtain ⟨front, back, -, hs⟩ := h
  rw [hs]
  exact Nat.le_add_right offset _

theorem stop_le (h : t.StandsIn offset cs) : t.span.stop ≤ offset + byteLength cs := by
  obtain ⟨front, back, rfl, hs⟩ := h
  rw [hs, byteLength_append, byteLength_append]
  simp only
  omega

theorem ahead (h : t.StandsIn offset cs) (rest : List Char) : t.StandsIn offset (cs ++ rest) := by
  obtain ⟨front, back, rfl, hs⟩ := h
  exact ⟨front, back ++ rest, by simp, hs⟩

theorem behind (h : t.StandsIn (offset + byteLength piece) rest) :
    t.StandsIn offset (piece ++ rest) := by
  obtain ⟨front, back, rfl, hs⟩ := h
  refine ⟨piece ++ front, back, by simp, ?_⟩
  rw [hs, byteLength_append, Nat.add_assoc]

theorem drop (h : t.StandsIn offset (piece ++ rest))
    (hle : offset + byteLength piece ≤ t.span.start) :
    t.StandsIn (offset + byteLength piece) rest := by
  obtain ⟨front, back, hcs, hs⟩ := h
  rw [hs] at hle
  obtain ⟨middle, rfl, rfl⟩ := cut_of_le hcs (Nat.le_of_add_le_add_left hle)
  refine ⟨middle, back, rfl, ?_⟩
  rw [hs, byteLength_append, ← Nat.add_assoc]

theorem behind_first (h : t.StandsIn offset (c :: cs)) (hlt : offset < t.span.start) :
    offset + byteLength [c] ≤ t.span.start := by
  obtain ⟨front, back, hcs, hs⟩ := h
  rw [hs] at hlt ⊢
  cases front with
  | nil => exact absurd hlt (Nat.lt_irrefl _)
  | cons d front =>
    obtain ⟨rfl, -⟩ := List.cons.inj hcs
    simp only [byteLength]
    omega

end Token.StandsIn

namespace Tiles

theorem append (hf : Tiles offset front before)
    (hb : Tiles (offset + byteLength front) back after)
    (hl : ∀ t ∈ before, t.IsLongest offset (front ++ back)) :
    Tiles offset (front ++ back) (before ++ after) where
  stands := by
    rw [List.forall_mem_append]
    exact ⟨fun t ht => (hf.stands t ht).ahead back, fun t ht => (hb.stands t ht).behind⟩
  nonempty := List.forall_mem_append.2 ⟨hf.nonempty, hb.nonempty⟩
  apart := by
    refine List.pairwise_append.2 ⟨hf.apart, hb.apart, fun t ht u hu => ?_⟩
    exact (hf.stands t ht).stop_le.trans (hb.stands u hu).le_start
  blank := by
    intro first c last hcs hfree
    rw [List.forall_mem_append] at hfree
    rcases Nat.lt_or_ge (byteLength first) (byteLength front) with hlt | hge
    · obtain ⟨middle, rfl, hm⟩ := cut_of_le hcs.symm hlt.le
      cases middle with
      | nil => simp at hlt
      | cons d middle =>
        obtain ⟨rfl, -⟩ := List.cons.inj hm
        exact hf.blank first c middle rfl hfree.1
    · obtain ⟨middle, rfl, rfl⟩ := cut_of_le hcs hge
      rw [byteLength_append, ← Nat.add_assoc] at hfree
      exact hb.blank middle c last rfl hfree.2
  matching := List.forall_mem_append.2 ⟨hf.matching, hb.matching⟩
  longest := by
    refine List.forall_mem_append.2 ⟨hl, fun t ht => ?_⟩
    intro first longer last k hcs hs hk
    have hle := (hb.stands t ht).le_start
    rw [hs] at hle
    obtain ⟨middle, rfl, rfl⟩ := cut_of_le hcs (Nat.le_of_add_le_add_left hle)
    rw [byteLength_append, ← Nat.add_assoc] at hs
    exact hb.longest t ht middle longer last k rfl hs hk

theorem drop (before : List Token) (h : Tiles offset (piece ++ rest) (before ++ after))
    (hb : ∀ t ∈ before, t.span.stop ≤ offset + byteLength piece)
    (ha : ∀ t ∈ after, offset + byteLength piece ≤ t.span.start) :
    Tiles (offset + byteLength piece) rest after where
  stands t ht := (h.stands t (List.mem_append_right _ ht)).drop (ha t ht)
  nonempty t ht := h.nonempty t (List.mem_append_right _ ht)
  apart := (List.pairwise_append.1 h.apart).2.1
  blank := by
    intro front c back hcs hfree
    apply h.blank (piece ++ front) c back (by rw [hcs, List.append_assoc])
    rw [byteLength_append, ← Nat.add_assoc, List.forall_mem_append]
    refine ⟨fun t ht hhas => ?_, hfree⟩
    have hstop := hb t ht
    have hlt := hhas.2
    omega
  matching t ht := h.matching t (List.mem_append_right _ ht)
  longest t ht := by
    intro front longer back k hcs hs hk
    apply h.longest t (List.mem_append_right _ ht) (piece ++ front) longer back k ?_ ?_ hk
    · rw [hcs, List.append_assoc]
    · rw [hs, byteLength_append, Nat.add_assoc]

theorem of_blanks (h : ∀ c ∈ cs, isBlank c = true) : Tiles offset cs [] where
  stands := by simp
  nonempty := by simp
  apart := .nil
  blank := by
    intro front c back hcs _
    apply mem_blanks.2 (h c _)
    rw [hcs]
    exact List.mem_append_right front List.mem_cons_self
  matching := by simp
  longest := by simp

theorem single_word (hw : word ∈ k.pattern.matches') (hne : word ≠ []) :
    Tiles offset word [⟨k, String.ofList word, offset, offset + byteLength word⟩] where
  stands := by
    rw [List.forall_mem_singleton]
    exact ⟨[], [], by simp, by simp [byteLength]⟩
  nonempty := by
    rw [List.forall_mem_singleton]
    exact Nat.lt_add_of_pos_right (byteLength_pos hne)
  apart := List.pairwise_singleton _ _
  blank := by
    intro front c back hcs hfree
    rw [List.forall_mem_singleton] at hfree
    refine absurd ⟨Nat.le_add_right .., ?_⟩ hfree
    have hpos := c.utf8Size_pos
    rw [hcs, byteLength_append, byteLength]
    simp only
    omega
  matching := by
    rw [List.forall_mem_singleton, String.toList_ofList]
    exact hw
  longest := by
    rw [List.forall_mem_singleton]
    intro front longer back k hcs _ _
    rw [String.toList_ofList, hcs]
    simp only [List.length_append]
    omega

end Tiles

theorem Scanned.tiles (h : Scanned offset cs tokens) : Tiles offset cs tokens := by
  induction h with
  | nil => exact .of_blanks (by simp)
  | @blank offset b cs tokens hb _ ih =>
    have hfirst : Tiles offset [b] [] := .of_blanks (by simpa using hb)
    exact hfirst.append ih (by simp)
  | @word offset word rest k tokens hw he _ ih =>
    have hl := lexeme?_of_isLexeme hw he
    obtain ⟨hk, hlongest⟩ := lexeme?_eq_some_iff.1 hl
    obtain ⟨-, hne⟩ := lexeme?_prefix hl
    refine (Tiles.single_word hk hne).append ih ?_
    rw [List.forall_mem_singleton]
    intro front longer back k' hcs hs hk'
    obtain rfl : front = [] := eq_nil_of_byteLength (Nat.left_eq_add.1 hs)
    rw [String.toList_ofList]
    exact hlongest longer back k' hcs hk'

theorem Tiles.eq_cons (h : Tiles offset cs tokens) (ht : t ∈ tokens) (hs : t.span.start = offset) :
    ∃ later, tokens = t :: later := by
  obtain ⟨before, later, rfl⟩ := List.append_of_mem ht
  cases before with
  | nil => exact ⟨later, rfl⟩
  | cons u before =>
    have hu : u ∈ u :: before ++ t :: later := List.mem_cons_self
    have hstart := (h.stands u hu).le_start
    have hlt := h.nonempty u hu
    have hstop :=
      List.rel_of_pairwise_cons h.apart (List.mem_append_right before List.mem_cons_self)
    omega

theorem Tiles.exists_word (h : Tiles offset cs (t :: tokens)) (hs : t.span.start = offset) :
    ∃ word rest, cs = word ++ rest ∧ word ≠ [] ∧ IsLexeme word t.kind ∧ Ends rest t.kind ∧
      t = ⟨t.kind, String.ofList word, offset, offset + byteLength word⟩ ∧
      Tiles (offset + byteLength word) rest tokens := by
  have ht : t ∈ t :: tokens := List.mem_cons_self
  obtain ⟨front, rest, hcs, hspan⟩ := h.stands t ht
  rw [hspan] at hs
  obtain rfl : front = [] := eq_nil_of_byteLength (Nat.add_eq_left.1 hs)
  simp only [byteLength, Nat.add_zero] at hspan
  rw [List.nil_append] at hcs
  subst hcs
  have hl : lexeme? (t.text.toList ++ rest) = some (t.kind, t.text.toList) := by
    refine lexeme?_eq_some_iff.2 ⟨h.matching t ht, fun longer back k hcut hk => ?_⟩
    exact h.longest t ht [] longer back k hcut (by rw [hspan]; rfl) hk
  obtain ⟨hw, he⟩ := isLexeme_of_lexeme? hl
  obtain ⟨-, hne⟩ := lexeme?_prefix hl
  refine ⟨t.text.toList, rest, rfl, hne, hw, he, ?_, ?_⟩
  · rw [String.ofList_toList, ← hspan]
  · apply Tiles.drop [t] h
    · rw [List.forall_mem_singleton, hspan]
    · intro u hu
      have hstop := List.rel_of_pairwise_cons h.apart hu
      rwa [hspan] at hstop

theorem Tiles.scanned (h : Tiles offset cs tokens) : Scanned offset cs tokens := by
  -- What is left of the text is shorter by a blank or by the first token.
  induction hn : cs.length using Nat.strong_induction_on generalizing offset cs tokens with
  | _ n ih =>
  subst hn
  by_cases hfree : ∃ t ∈ tokens, t.span.start = offset
  · obtain ⟨t, ht, hs⟩ := hfree
    obtain ⟨later, rfl⟩ := h.eq_cons ht hs
    obtain ⟨word, rest, rfl, hne, hw, he, ht, hrest⟩ := h.exists_word hs
    have hlt : rest.length < (word ++ rest).length := by
      have hpos := List.length_pos_iff.2 hne
      rw [List.length_append]
      omega
    rw [ht]
    exact .word hw he (ih _ hlt hrest rfl)
  · have hstart : ∀ t ∈ tokens, offset < t.span.start := by
      intro t ht
      exact Nat.lt_of_le_of_ne (h.stands t ht).le_start fun hs => hfree ⟨t, ht, hs.symm⟩
    cases cs with
    | nil =>
      cases tokens with
      | nil => exact .nil
      | cons t tokens =>
        have hlt := h.nonempty t List.mem_cons_self
        have hstop := (h.stands t List.mem_cons_self).stop_le
        have hs := hstart t List.mem_cons_self
        rw [byteLength] at hstop
        omega
    | cons c cs =>
      have hc : isBlank c = true := by
        apply mem_blanks.1 (h.blank [] c cs rfl _)
        intro t ht hhas
        exact absurd hhas.1 (Nat.not_le.2 (hstart t ht))
      have hrest : Tiles (offset + byteLength [c]) cs tokens :=
        Tiles.drop [] h (by simp) fun t ht => (h.stands t ht).behind_first (hstart t ht)
      exact .blank hc (ih _ (Nat.lt_succ_self _) hrest rfl)

theorem lex_eq_ok_iff_tiles (source : String) (tokens : List Token) :
    (lex source = .ok tokens ↔ Tiles 0 source.toList tokens) ∧
    ∀ other, Tiles 0 source.toList tokens → Tiles 0 source.toList other → other = tokens := by
  have hlex {tokens : List Token} : lex source = .ok tokens ↔ Tiles 0 source.toList tokens :=
    ⟨fun h => (Scanned.of_scan h).tiles, fun h => h.scanned.scan⟩
  refine ⟨hlex, fun other h ho => ?_⟩
  have he := (hlex.2 ho).symm.trans (hlex.2 h)
  exact Except.ok.inj he

example : lex "a-1+b +" = .ok [⟨.name, "a-1", 0, 3⟩, ⟨.name, "+b", 3, 5⟩, ⟨.plus, "+", 6, 7⟩] := by
  decide +kernel

end ValueCheck.Grammar
