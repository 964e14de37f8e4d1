import ValueCheck.Proofs.Grammar.Lexing

/-! Lexing what was cut. A blank ends every lexeme and starts none, so the text in front of
it is lexed by itself; and a text that is cut between two tokens is lexed into those before
the cut. -/

namespace ValueCheck.Grammar

def IsLexeme (word : List Char) : Kind → Prop
  | .name => IsName word
  | .integer => word ≠ [] ∧ ∀ d ∈ word, isDigit d = true
  | k => ∃ c, word = [c] ∧ punctuation c = some k

def Ends (rest : List Char) : Kind → Prop
  | .name => nameTail rest = []
  | .integer => rest.takeWhile isDigit = []
  | .plus => rest.head?.any isLetter = false
  | _ => True

variable {word rest : List Char} {k : Kind}

theorem punctuation_eq_plus {c : Char} (h : punctuation c = some .plus) : c = '+' := by
  simp only [punctuation] at h
  split at h <;> cases h
  rfl

theorem punctuation_eq_leftParen {c : Char} (h : punctuation c = some .leftParen) : c = '(' := by
  simp only [punctuation] at h
  split at h <;> cases h
  rfl

theorem punctuation_of_isSign {c : Char} (h : punctuation c = some k) (hs : isSign c = true) :
    k = .plus := by
  simp only [isSign, Bool.or_eq_true, decide_eq_true_eq] at hs
  rcases hs with rfl | rfl
  · cases h
    rfl
  · cases h

theorem isLexeme_of_punctuation {c : Char} (h : punctuation c = some k) : IsLexeme [c] k := by
  obtain ⟨hn, hi⟩ := punctuation_ne_name h
  cases k with
  | name => exact absurd rfl hn
  | integer => exact absurd rfl hi
  | _ => exact ⟨c, rfl, h⟩

theorem ends_of_punctuation {c : Char} (h : punctuation c = some k)
    (hs : isSign c = true → rest.head?.any isLetter = false) : Ends rest k := by
  obtain ⟨hn, hi⟩ := punctuation_ne_name h
  cases k with
  | name => exact absurd rfl hn
  | integer => exact absurd rfl hi
  | plus =>
    obtain rfl := punctuation_eq_plus h
    exact hs rfl
  | _ => trivial

theorem isLexeme_of_lexeme? (h : lexeme? (word ++ rest) = some (k, word)) :
    IsLexeme word k ∧ Ends rest k := by
  cases word with
  | nil =>
    obtain ⟨-, hne⟩ := lexeme?_prefix h
    exact absurd rfl hne
  | cons c cs =>
    have hname := fun hk : k = .name => isName_of_lexeme? (hk ▸ h)
    simp only [lexeme?, List.cons_append] at h
    split at h
    · next hd =>
      obtain ⟨rfl, hcs⟩ : Kind.integer = k ∧ (cs ++ rest).takeWhile isDigit = cs := by
        simpa using h
      have hds : ∀ d ∈ cs, isDigit d = true := by
        intro d hd
        rw [← hcs] at hd
        exact List.mem_takeWhile_imp hd
      rw [List.takeWhile_append_of_pos hds] at hcs
      rw [List.append_right_eq_self] at hcs
      exact ⟨⟨by simp, List.forall_mem_cons.2 ⟨hd, hds⟩⟩, hcs⟩
    · split at h
      · obtain ⟨rfl, hcs⟩ : Kind.name = k ∧ nameTail (cs ++ rest) = cs := by
          simpa using h
        have ht : IsTail cs := by
          rw [← hcs]
          exact isTail_nameTail _
        rw [ht.nameTail_append, List.append_right_eq_self] at hcs
        exact ⟨hname rfl, hcs⟩
      · next hn =>
        obtain ⟨hk, rfl⟩ : punctuation c = some k ∧ [] = cs := by simpa using h
        refine ⟨isLexeme_of_punctuation hk, ends_of_punctuation hk fun hs => ?_⟩
        simpa [hs] using (Bool.or_eq_false_iff.1 (eq_false_of_ne_true hn)).2

theorem lexeme?_of_isLexeme (hw : IsLexeme word k) (he : Ends rest k) :
    lexeme? (word ++ rest) = some (k, word) := by
  cases k with
  | name => exact hw.lexeme? he
  | integer => exact lexeme?_digits hw.1 hw.2 he
  | plus =>
    obtain ⟨c, rfl, hc⟩ := hw
    exact lexeme?_punctuation hc fun _ => he
  | _ =>
    obtain ⟨c, rfl, hc⟩ := hw
    apply lexeme?_punctuation hc
    intro hs
    cases punctuation_of_isSign hc hs

theorem nameTail_eq_nil {c : Char} {cs : List Char} : nameTail (c :: cs) = [] ↔
    isWordChar c = false ∧ (c = '-' → cs.head?.any isWordChar = false) := by
  by_cases hc : isWordChar c = true
  · simp [nameTail_word hc, hc]
  · by_cases hd : c = '-'
    · subst hd
      cases cs with
      | nil => simp [nameTail, hc]
      | cons d ds =>
        by_cases hw : isWordChar d = true
        · simp [nameTail_hyphen hw, hw]
        · simp [nameTail, hc, hw]
    · simp [nameTail, hc, hd]

theorem Ends.of_stops (h : Stops rest) (k : Kind) : Ends rest k := by
  cases k with
  | name => exact nameTail_of_stops h
  | integer => exact not_isDigit_of_stops h
  | plus =>
    cases rest with
    | nil => rfl
    | cons c cs =>
      have hc := (h c rfl).1
      simp only [isWordChar, Bool.or_eq_false_iff] at hc
      simpa [Ends] using hc.1
  | _ => trivial

theorem Ends.front {front : List Char} (h : Ends rest k) (hf : front <+: rest) :
    Ends front k := by
  obtain ⟨back, rfl⟩ := hf
  cases front with
  | nil => exact .of_stops stops_nil k
  | cons c cs =>
    cases k with
    | name =>
      obtain ⟨hc, hd⟩ := nameTail_eq_nil.1 h
      refine nameTail_eq_nil.2 ⟨hc, fun he => ?_⟩
      cases cs with
      | nil => rfl
      | cons d ds => exact hd he
    | integer =>
      have hc : isDigit c = false := by
        by_contra hd
        simp [Ends, hd] at h
      simp [Ends, hc]
    | plus => exact h
    | _ => trivial

theorem stops_of_isBlank {b : Char} (h : isBlank b = true) (rest : List Char) :
    Stops (b :: rest) := by
  simp only [isBlank, Bool.or_eq_true, decide_eq_true_eq] at h
  rcases h with ((rfl | rfl) | rfl) | rfl <;> exact stops_cons (by decide) (by decide)

theorem Ends.append_stops {more : List Char} (h : Ends rest k) (hs : Stops more) :
    Ends (rest ++ more) k := by
  cases rest with
  | nil => exact .of_stops hs k
  | cons c cs =>
    cases k with
    | name =>
      obtain ⟨hc, hd⟩ := nameTail_eq_nil.1 h
      refine nameTail_eq_nil.2 ⟨hc, fun he => ?_⟩
      cases cs with
      | nil =>
        cases more with
        | nil => rfl
        | cons d ds => simpa using (hs d rfl).1
      | cons d ds => exact hd he
    | integer =>
      have hc : isDigit c = false := by
        by_contra hd
        simp [Ends, hd] at h
      simp [Ends, hc]
    | plus => exact h
    | _ => trivial

inductive Scanned : Nat → List Char → List Token → Prop where
  | nil {offset : Nat} : Scanned offset [] []
  | blank {offset : Nat} {b : Char} {cs : List Char} {tokens : List Token}
      (hb : isBlank b = true) (h : Scanned (offset + b.utf8Size) cs tokens) :
      Scanned offset (b :: cs) tokens
  | word {offset : Nat} {word rest : List Char} {k : Kind} {tokens : List Token}
      (hw : IsLexeme word k) (he : Ends rest k)
      (h : Scanned (offset + byteLength word) rest tokens) :
      Scanned offset (word ++ rest)
        (⟨k, String.ofList word, offset, offset + byteLength word⟩ :: tokens)

theorem append_drop_of_lexeme? {c : Char} {cs word : List Char} {k : Kind}
    (h : lexeme? (c :: cs) = some (k, word)) : word ++ cs.drop (word.length - 1) = c :: cs := by
  obtain ⟨⟨rest, hr⟩, hne⟩ := lexeme?_prefix h
  cases word with
  | nil => exact absurd rfl hne
  | cons d ds =>
    obtain ⟨rfl, rfl⟩ := List.cons.inj hr
    simp

theorem Scanned.of_scan {offset : Nat} {cs : List Char} {tokens : List Token}
    (h : scan offset cs = .ok tokens) : Scanned offset cs tokens := by
  fun_induction scan offset cs generalizing tokens with
  | case1 =>
    cases h
    exact .nil
  | case2 offset c cs hb ih => exact .blank hb (ih h)
  | case3 => cases h
  | case4 offset c cs _ k word hl _ later hs =>
    rename_i ih
    cases h
    have hr := append_drop_of_lexeme? hl
    rw [← hr] at hl ⊢
    obtain ⟨hw, he⟩ := isLexeme_of_lexeme? hl
    exact .word hw he (ih hs)
  | case5 => cases h

theorem Scanned.scan_append {offset : Nat} {cs rest : List Char} {tokens : List Token}
    (h : Scanned offset cs tokens) (hs : Stops rest) :
    scan offset (cs ++ rest) = (scan (offset + byteLength cs) rest).map (tokens ++ ·) := by
  induction h with
  | nil =>
    rw [List.nil_append, byteLength, Nat.add_zero]
    cases scan _ rest <;> rfl
  | @blank offset c cs tokens hc _ ih =>
    rw [List.cons_append, scan_blank hc, ih, byteLength, ← Nat.add_assoc]
  | @word offset word cs k tokens hw he _ ih =>
    rw [List.append_assoc, scan_word (lexeme?_of_isLexeme hw (he.append_stops hs)), ih,
      byteLength_append, ← Nat.add_assoc]
    cases scan _ rest <;> rfl

theorem Scanned.scan {offset : Nat} {cs : List Char} {tokens : List Token}
    (h : Scanned offset cs tokens) : scan offset cs = .ok tokens := by
  have hs := h.scan_append stops_nil
  rw [List.append_nil, Grammar.scan] at hs
  simpa [Except.map] using hs

def Token.moved (t : Token) (n : Nat) : Token :=
  { t with span := ⟨t.span.start + n, t.span.stop + n⟩ }

theorem Scanned.moved {offset : Nat} {cs : List Char} {tokens : List Token}
    (h : Scanned offset cs tokens) (n : Nat) :
    Scanned (offset + n) cs (tokens.map (Token.moved · n)) := by
  induction h with
  | nil => exact .nil
  | blank hb _ ih =>
    rw [Nat.add_right_comm] at ih
    exact .blank hb ih
  | word hw he _ ih =>
    rw [Nat.add_right_comm] at ih
    rw [List.map_cons, Token.moved, Nat.add_right_comm]
    exact .word hw he ih

theorem lexes_of_lex {source : String} {tokens : List Token} (h : lex source = .ok tokens) :
    Lexes source.toList (tokens.map Token.symbol) := by
  intro offset rest later hr hl
  have hm := (Scanned.of_scan h).moved offset
  rw [Nat.zero_add] at hm
  refine ⟨tokens.map (Token.moved · offset), ?_, ?_⟩
  · rw [List.map_map]
    rfl
  · rw [hm.scan_append hr, hl]
    rfl

theorem Scanned.cut {offset : Nat} {cs : List Char} {tokens before after : List Token}
    {token : Token} (h : Scanned offset cs tokens) (ht : tokens = before ++ token :: after) :
    ∃ front word back, cs = front ++ (word ++ back) ∧ Scanned offset front before ∧
      Scanned offset (front ++ word) (before ++ [token]) ∧
      token.span = ⟨offset + byteLength front, offset + byteLength (front ++ word)⟩ ∧
      token.text = String.ofList word ∧ IsLexeme word token.kind := by
  induction h generalizing before with
  | nil => simp at ht
  | @blank offset b cs tokens hb _ ih =>
    obtain ⟨front, word, back, rfl, hf, hw, hs, hl⟩ := ih ht
    refine ⟨b :: front, word, back, rfl, .blank hb hf, .blank hb hw, ?_, hl⟩
    rw [hs]
    simp [byteLength, Nat.add_assoc]
  | @word offset word rest k tokens hw he h ih =>
    cases before with
    | nil =>
      obtain ⟨rfl, rfl⟩ := List.cons.inj ht
      have hone : Scanned offset (word ++ []) [⟨k, _, offset, _⟩] :=
        .word hw (he.front List.nil_prefix) .nil
      rw [List.append_nil] at hone
      exact ⟨[], word, rest, rfl, .nil, hone, rfl, rfl, hw⟩
    | cons first before =>
      obtain ⟨rfl, hrest⟩ := List.cons.inj ht
      obtain ⟨front, last, back, rfl, hf, hl, hs, hword⟩ := ih hrest
      refine ⟨word ++ front, last, back, ?_, .word hw (he.front ?_) hf, ?_, ?_, hword⟩
      · simp
      · exact List.prefix_append front _
      · rw [List.append_assoc]
        refine .word hw (he.front ?_) hl
        rw [← List.append_assoc]
        exact List.prefix_append (front ++ last) back
      · rw [hs]
        simp [byteLength_append, Nat.add_assoc]

theorem utf8ByteSize_ofList (cs : List Char) : (String.ofList cs).utf8ByteSize = byteLength cs := by
  induction cs with
  | nil => rfl
  | cons c cs ih =>
    rw [String.ofList_cons, String.utf8ByteSize_append, String.utf8ByteSize_singleton, ih,
      byteLength]

theorem byteLength_toList (s : String) : byteLength s.toList = s.utf8ByteSize := by
  rw [← utf8ByteSize_ofList, String.ofList_toList]

theorem slice_of_le {span : Span} {offset : Nat} (h : span.stop ≤ offset) (cs : List Char) :
    slice span offset cs = [] := by
  induction cs generalizing offset with
  | nil => rfl
  | cons c cs ih =>
    have hc : ¬ offset < span.stop := by omega
    simp only [slice, hc, ih (Nat.le_trans h (Nat.le_add_right ..)), decide_false, Bool.and_false,
      Bool.false_eq_true, if_false]

theorem slice_append {start offset : Nat} (h : start ≤ offset) (front back : List Char) :
    slice ⟨start, offset + byteLength front⟩ offset (front ++ back) = front := by
  induction front generalizing offset with
  | nil => exact slice_of_le (Nat.le_refl _) back
  | cons c front ih =>
    have hpos := c.utf8Size_pos
    have hc : offset < offset + (c.utf8Size + byteLength front) := by omega
    have hi := ih (h.trans (Nat.le_add_right offset c.utf8Size))
    rw [Nat.add_assoc] at hi
    simp only [List.cons_append, slice, byteLength, hi, h, hc, decide_true, Bool.and_self, if_true]

theorem Span.text_append (front back : List Char) :
    Span.text ⟨0, byteLength front⟩ (String.ofList (front ++ back)) = String.ofList front := by
  have h := slice_append (Nat.le_refl 0) front back
  rw [Nat.zero_add] at h
  rw [Span.text, String.toList_ofList, h]

end ValueCheck.Grammar
