import ValueCheck.Proofs.Grammar.Derivation

/-! Lexing what is written lexeme by lexeme. A name or a number ends where the
next character can not continue it. -/

namespace ValueCheck.Grammar

def Stops (rest : List Char) : Prop := ∀ c ∈ rest.head?, isWordChar c = false ∧ c ≠ '-'

theorem stops_nil : Stops [] := by simp [Stops]

theorem stops_cons {c : Char} {cs : List Char} (h : isWordChar c = false) (hd : c ≠ '-') :
    Stops (c :: cs) := by
  intro d he
  obtain rfl : c = d := by simpa using he
  exact ⟨h, hd⟩

inductive IsTail : List Char → Prop where
  | nil : IsTail []
  | word {c : Char} {cs : List Char} (hc : isWordChar c = true) (h : IsTail cs) : IsTail (c :: cs)
  | hyphen {c : Char} {cs : List Char} (hc : isWordChar c = true) (h : IsTail cs) :
      IsTail ('-' :: c :: cs)

theorem nameTail_word {c : Char} (hc : isWordChar c = true) (cs : List Char) :
    nameTail (c :: cs) = c :: nameTail cs := by
  have hd : c ≠ '-' := by
    rintro rfl
    exact absurd hc (by decide)
  simp [nameTail, hd, hc]

theorem nameTail_hyphen {c : Char} (hc : isWordChar c = true) (cs : List Char) :
    nameTail ('-' :: c :: cs) = '-' :: c :: nameTail cs := by
  rw [nameTail, if_pos hc]

theorem nameTail_of_stops {rest : List Char} (h : Stops rest) : nameTail rest = [] := by
  unfold nameTail
  split
  · exact absurd rfl (h '-' rfl).2
  · next c cs _ => rw [if_neg (by simp [(h c rfl).1])]
  · rfl

theorem isTail_nameTail (cs : List Char) : IsTail (nameTail cs) := by
  fun_induction nameTail cs with
  | case1 c cs hc ih => exact .hyphen hc ih
  | case3 c cs _ hc ih => exact .word hc ih
  | case2 | case4 | case5 => exact .nil

theorem IsTail.nameTail_append {cs : List Char} (h : IsTail cs) (rest : List Char) :
    nameTail (cs ++ rest) = cs ++ nameTail rest := by
  induction h with
  | nil => rfl
  | word hc _ ih => rw [List.cons_append, nameTail_word hc, ih, List.cons_append]
  | hyphen hc _ ih =>
    rw [List.cons_append, List.cons_append, nameTail_hyphen hc, ih, List.cons_append,
      List.cons_append]

inductive IsName : List Char → Prop where
  | letter {c : Char} {cs : List Char} (hc : isLetter c = true) (h : IsTail cs) : IsName (c :: cs)
  | sign {c d : Char} {cs : List Char} (hc : isSign c = true) (hd : isLetter d = true)
      (h : IsTail (d :: cs)) : IsName (c :: d :: cs)

theorem not_isDigit_of_isLetter {c : Char} (h : isLetter c = true) : isDigit c = false := by
  simp only [isLetter, isDigit, Bool.or_eq_true, Bool.and_eq_true, decide_eq_true_eq,
    Bool.and_eq_false_iff, decide_eq_false_iff_not, Char.le_def, UInt32.le_iff_toNat_le] at h ⊢
  rcases h with (h | h) | rfl
  · simp at h ⊢
    omega
  · simp at h ⊢
    omega
  · decide

theorem not_isDigit_of_isSign {c : Char} (h : isSign c = true) : isDigit c = false := by
  simp only [isSign, Bool.or_eq_true, decide_eq_true_eq] at h
  rcases h with rfl | rfl <;> decide

theorem isWordChar_of_isLetter {c : Char} (h : isLetter c = true) : isWordChar c = true := by
  simp [isWordChar, h]

theorem IsName.lexeme? {n rest : List Char} (h : IsName n) (hr : nameTail rest = []) :
    lexeme? (n ++ rest) = some (.name, n) := by
  cases h with
  | letter hc h =>
    simp [Grammar.lexeme?, not_isDigit_of_isLetter hc, hc, h.nameTail_append, hr]
  | @sign c d cs hc hd h =>
    have ht : nameTail (d :: (cs ++ rest)) = d :: cs := by
      simpa [hr] using h.nameTail_append rest
    simp [Grammar.lexeme?, not_isDigit_of_isSign hc, hc, hd, ht]

theorem punctuation_ne_name {c : Char} {k : Kind} (h : punctuation c = some k) :
    k ≠ .name ∧ k ≠ .integer := by
  simp only [punctuation] at h
  split at h <;> cases h <;> decide

theorem isName_of_lexeme? {cs word : List Char} (h : lexeme? cs = some (.name, word)) :
    IsName word := by
  cases cs with
  | nil => cases h
  | cons c cs =>
    simp only [lexeme?] at h
    split at h
    · cases h
    · split at h
      · next hc =>
        cases h
        simp only [Bool.or_eq_true, Bool.and_eq_true] at hc
        rcases hc with hc | ⟨hc, hd⟩
        · exact .letter hc (isTail_nameTail cs)
        · cases cs with
          | nil => cases hd
          | cons d cs =>
            have ht := isTail_nameTail (d :: cs)
            have hd : isLetter d = true := by simpa using hd
            rw [nameTail_word (isWordChar_of_isLetter hd)] at ht ⊢
            exact .sign hc hd ht
      · obtain ⟨k, hk, hw⟩ := Option.map_eq_some_iff.1 h
        cases hw
        exact absurd rfl (punctuation_ne_name hk).1

theorem not_isDigit_of_stops {rest : List Char} (h : Stops rest) : rest.takeWhile isDigit = [] := by
  cases rest with
  | nil => rfl
  | cons c cs =>
    have hc := (h c rfl).1
    simp only [isWordChar, Bool.or_eq_false_iff] at hc
    simp [hc.2]

theorem lexeme?_digits {ds rest : List Char} (hne : ds ≠ []) (hd : ∀ d ∈ ds, isDigit d = true)
    (hr : rest.takeWhile isDigit = []) : lexeme? (ds ++ rest) = some (.integer, ds) := by
  cases ds with
  | nil => exact absurd rfl hne
  | cons d ds =>
    rw [List.forall_mem_cons] at hd
    simp [lexeme?, hd.1, List.takeWhile_append_of_pos hd.2, hr]

theorem not_isBlank_of_lexeme? {c : Char} {cs word : List Char} {k : Kind}
    (h : lexeme? (c :: cs) = some (k, word)) : isBlank c = false := by
  by_contra hb
  simp only [Bool.not_eq_false, isBlank, Bool.or_eq_true, decide_eq_true_eq] at hb
  rcases hb with ((rfl | rfl) | rfl) | rfl <;> cases h

theorem scan_blank {c : Char} (hc : isBlank c = true) (offset : Nat) (cs : List Char) :
    scan offset (c :: cs) = scan (offset + c.utf8Size) cs := by
  rw [scan, if_pos hc]

theorem scan_word {word rest : List Char} {k : Kind}
    (h : lexeme? (word ++ rest) = some (k, word)) (offset : Nat) :
    scan offset (word ++ rest) = (scan (offset + byteLength word) rest).map
      (⟨k, String.ofList word, offset, offset + byteLength word⟩ :: ·) := by
  cases word with
  | nil =>
    obtain ⟨-, hne⟩ := lexeme?_prefix h
    exact absurd rfl hne
  | cons c cs =>
    rw [List.cons_append] at h ⊢
    rw [scan, not_isBlank_of_lexeme? h, h]
    simp only [Bool.false_eq_true, if_false, List.length_cons, Nat.add_sub_cancel,
      List.drop_left]
    cases scan (offset + byteLength (c :: cs)) rest <;> rfl

def Lexes (cs : List Char) (symbols : List Symbol) : Prop :=
  ∀ (offset : Nat) (rest : List Char) (later : List Token), Stops rest →
    scan (offset + byteLength cs) rest = .ok later →
    ∃ tokens, tokens.map Token.symbol = symbols ∧ scan offset (cs ++ rest) = .ok (tokens ++ later)

theorem Lexes.nil : Lexes [] [] := fun _ _ _ _ h => ⟨[], rfl, h⟩

theorem Lexes.append {a b : List Char} {xs ys : List Symbol} (ha : Lexes a xs) (hb : Lexes b ys)
    (hs : ∀ rest, Stops rest → Stops (b ++ rest)) : Lexes (a ++ b) (xs ++ ys) := by
  intro offset rest later hr h
  rw [byteLength_append, ← Nat.add_assoc] at h
  obtain ⟨us, rfl, hu⟩ := hb _ rest later hr h
  obtain ⟨ts, rfl, ht⟩ := ha offset (b ++ rest) _ (hs rest hr) hu
  exact ⟨ts ++ us, List.map_append .., by rw [List.append_assoc, ht, List.append_assoc]⟩

theorem Lexes.append_cons {a b : List Char} {c : Char} {xs ys : List Symbol} (ha : Lexes a xs)
    (hb : Lexes (c :: b) ys) (hc : isWordChar c = false ∧ c ≠ '-') :
    Lexes (a ++ c :: b) (xs ++ ys) :=
  ha.append hb fun _ _ => stops_cons hc.1 hc.2

theorem Lexes.blank {cs : List Char} {xs : List Symbol} (h : Lexes cs xs) :
    Lexes (' ' :: cs) xs := by
  intro offset rest later hr hl
  obtain ⟨ts, hx, ht⟩ := h (offset + ' '.utf8Size) rest later hr (by
    simpa [byteLength, Nat.add_assoc] using hl)
  exact ⟨ts, hx, by rw [List.cons_append, scan_blank (by decide), ht]⟩

theorem Lexes.of_lexeme? {word : List Char} {k : Kind}
    (h : ∀ rest, Stops rest → lexeme? (word ++ rest) = some (k, word)) :
    Lexes word [Token.symbol ⟨k, String.ofList word, 0, 0⟩] := by
  intro offset rest later hr hl
  refine ⟨[⟨k, String.ofList word, offset, offset + byteLength word⟩], ?_, ?_⟩
  · rfl
  · rw [scan_word (h rest hr), hl]
    rfl

theorem Lexes.name {n : String} (h : IsName n.toList) : Lexes n.toList [.name n] := by
  simpa [Token.symbol] using Lexes.of_lexeme? fun _ hr => h.lexeme? (nameTail_of_stops hr)

theorem Lexes.digits {n : String} (hne : n.toList ≠ []) (hd : ∀ d ∈ n.toList, isDigit d = true) :
    Lexes n.toList [.integer n] := by
  simpa [Token.symbol] using
    Lexes.of_lexeme? fun _ hr => lexeme?_digits hne hd (not_isDigit_of_stops hr)

theorem not_isWordChar_of_punctuation {c : Char} {k : Kind} (h : punctuation c = some k) :
    isDigit c = false ∧ isLetter c = false := by
  simp only [punctuation] at h
  split at h <;> first | cases h; done | decide

theorem symbol_of_punctuation {c : Char} {k : Kind} (h : punctuation c = some k) (text : String)
    (span : Span) : (⟨k, text, span⟩ : Token).symbol = .mark k := by
  obtain ⟨hn, hi⟩ := punctuation_ne_name h
  rw [Token.symbol]
  split <;> first | exact absurd ‹_› hn | exact absurd ‹_› hi | rfl

theorem lexeme?_punctuation {c : Char} {k : Kind} {rest : List Char} (h : punctuation c = some k)
    (hs : isSign c = true → rest.head?.any isLetter = false) :
    lexeme? (c :: rest) = some (k, [c]) := by
  obtain ⟨hd, hl⟩ := not_isWordChar_of_punctuation h
  have hn : (isSign c && rest.head?.any isLetter) = false := by
    cases hg : isSign c with
    | false => rfl
    | true => exact hs hg
  simp only [lexeme?, hd, hl, hn, h, Bool.or_false, Bool.false_eq_true, if_false,
    Option.map_some]

theorem Lexes.of_punctuation {c : Char} {k : Kind} {cs : List Char} {xs : List Symbol}
    (hc : punctuation c = some k) (h : Lexes cs xs)
    (hs : ∀ rest, Stops rest → isSign c = true → (cs ++ rest).head?.any isLetter = false) :
    Lexes (c :: cs) (.mark k :: xs) := by
  intro offset rest later hr hl
  have hb : byteLength (c :: cs) = byteLength [c] + byteLength cs := byteLength_append [c] cs
  rw [hb, ← Nat.add_assoc] at hl
  obtain ⟨ts, rfl, ht⟩ := h _ rest later hr hl
  refine ⟨⟨k, String.ofList [c], offset, offset + byteLength [c]⟩ :: ts, ?_, ?_⟩
  · rw [List.map_cons, symbol_of_punctuation hc]
  · have hw : lexeme? ([c] ++ (cs ++ rest)) = some (k, [c]) := lexeme?_punctuation hc (hs rest hr)
    have hscan := scan_word hw offset
    rw [ht] at hscan
    exact hscan

theorem Lexes.mark {c : Char} {k : Kind} {cs : List Char} {xs : List Symbol}
    (hc : punctuation c = some k) (hg : isSign c = false) (h : Lexes cs xs) :
    Lexes (c :: cs) (.mark k :: xs) :=
  .of_punctuation hc h fun _ _ hs => by simp [hg] at hs

theorem Lexes.plus : Lexes ['+'] [.mark .plus] :=
  .of_punctuation rfl .nil fun rest hr _ => by
    cases rest with
    | nil => rfl
    | cons c cs =>
      have hc := (hr c rfl).1
      simp only [isWordChar, Bool.or_eq_false_iff] at hc
      simpa using hc.1

theorem isName_of_scan {offset : Nat} {cs : List Char} {tokens : List Token}
    (h : scan offset cs = .ok tokens) : ∀ t ∈ tokens, t.kind = .name → IsName t.text.toList := by
  fun_induction scan offset cs generalizing tokens with
  | case1 =>
    cases h
    simp
  | case2 offset c cs hb ih => exact ih h
  | case3 => cases h
  | case4 offset c cs _ k word hw stop later hl =>
    rename_i ih
    cases h
    rw [List.forall_mem_cons]
    refine ⟨?_, ih hl⟩
    rintro rfl
    simpa using isName_of_lexeme? hw
  | case5 => cases h

theorem symbols_of_lexes {s : String} {xs : List Symbol} (h : Lexes s.toList xs) :
    ∃ tokens, lex s = .ok tokens ∧ tokens.map Token.symbol = xs := by
  obtain ⟨tokens, hx, ht⟩ := h 0 [] [] stops_nil (by rw [scan])
  exact ⟨tokens, by simpa [lex] using ht, hx⟩

end ValueCheck.Grammar
