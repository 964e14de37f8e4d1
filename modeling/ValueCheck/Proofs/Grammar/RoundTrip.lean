import Mathlib.Logic.Relation
import ValueCheck.Proofs.Grammar.Canonical

/-! The text of a term that was read, and of each of its parts, reads back as it.
So texts can stand for the terms. -/

namespace ValueCheck.Grammar

theorem digitsValue_repr (n : Nat) : digitsValue n.repr = n := by
  have h := Nat.ofDigitChars_ten_toDigits (n := n)
  rw [Nat.ofDigitChars_eq_foldl] at h
  simpa [digitsValue] using h

theorem isDigit_eq (c : Char) : isDigit c = c.isDigit := by
  simp [isDigit, Char.isDigit, Char.le_def]

theorem Lexes.repr (n : Nat) : Lexes n.repr.toList [.integer n.repr] := by
  refine .digits ?_ ?_
  · rw [Nat.toList_repr]
    exact Nat.toDigits_ne_nil
  · intro d hd
    rw [Nat.toList_repr] at hd
    rw [isDigit_eq]
    exact Nat.isDigit_of_mem_toDigits (by decide) (by decide) hd

def SizeRange.size : SizeRange → Size
  | exactly n => .exactly n.repr
  | atLeast n => .atLeast n.repr
  | atMost n => .atMost n.repr
  | between low high => .between low.repr high.repr

theorem SizeRange.range_size (r : SizeRange) : r.size.range = r := by
  cases r <;> simp [size, Size.range, digitsValue_repr]

theorem SizeRange.Fits.size {r : SizeRange} (h : r.Fits) : r.size.Fits := by
  cases r <;> simpa [SizeRange.size, Size.Fits, digitsValue_repr, SizeRange.Fits] using h

mutual

def Term.symbols : Term → List Symbol
  | .name n => [.name n]
  | .group t => .mark .leftParen :: (t.symbols ++ [.mark .rightParen])
  | .allOf ts => separated .ampersand ts
  | .anyOf ts => separated .pipe ts
  | .tuple ts => .mark .leftBracket :: (separated .comma ts ++ [.mark .rightBracket])
  | .array t => t.symbols ++ Suffix.array.symbols
  | .object v => .mark .leftBrace :: (v.symbols ++ [.mark .rightBrace])
  | .entries k v =>
    .mark .leftBrace :: (k.symbols ++ .mark .colon :: (v.symbols ++ [.mark .rightBrace]))
  | .inverted t => .mark .bang :: t.symbols
  | .nonEmpty t => t.symbols ++ Suffix.nonEmpty.symbols
  | .optional t => t.symbols ++ Suffix.optional.symbols
  | .sized t r => t.symbols ++ (Suffix.sized r.size).symbols

def separated (separator : Kind) : List Term → List Symbol
  | [] => []
  | [t] => t.symbols
  | t :: u :: us => t.symbols ++ .mark separator :: separated separator (u :: us)

end

theorem SizeRange.lexes (r : SizeRange) : Lexes r.text.toList (Suffix.sized r.size).symbols := by
  have close : Lexes ['}'] [.mark .rightBrace] := .mark rfl rfl .nil
  have comma {cs : List Char} {xs : List Symbol} (h : Lexes cs xs) :
      Lexes (',' :: cs) (.mark .comma :: xs) := .mark rfl rfl h
  cases r with
  | exactly n =>
    have h := (Lexes.repr n).append_cons close (by decide)
    simpa [text, Suffix.symbols, size, Size.symbols] using Lexes.mark (c := '{') rfl rfl h
  | atLeast n =>
    have h := (Lexes.repr n).append_cons (comma close) (by decide)
    simpa [text, Suffix.symbols, size, Size.symbols] using Lexes.mark (c := '{') rfl rfl h
  | atMost n =>
    have h := comma ((Lexes.repr n).append_cons close (by decide))
    simpa [text, Suffix.symbols, size, Size.symbols] using Lexes.mark (c := '{') rfl rfl h
  | between low high =>
    have h := (Lexes.repr low).append_cons
      (comma ((Lexes.repr high).append_cons close (by decide))) (by decide)
    simpa [text, Suffix.symbols, size, Size.symbols] using Lexes.mark (c := '{') rfl rfl h

theorem SizeRange.stops_text (r : SizeRange) (rest : List Char) :
    Stops (r.text.toList ++ rest) := by
  cases r <;> simpa [text] using stops_cons (by decide) (by decide)

theorem Lexes.separated {separator : String} {k : Kind} {ts : List Term}
    (hs : ∀ a b xs ys, Lexes a xs → Lexes b ys →
      Lexes (a ++ (separator.toList ++ b)) (xs ++ .mark k :: ys))
    (h : ∀ t ∈ ts, Lexes t.text.toList t.symbols) :
    Lexes (separator.intercalate (Term.texts ts)).toList (separated k ts) := by
  rw [Term.texts_eq_map]
  induction ts with
  | nil => simpa [Grammar.separated] using Lexes.nil
  | cons t ts ih =>
    rw [List.forall_mem_cons] at h
    cases ts with
    | nil => simpa [Grammar.separated] using h.1
    | cons u us =>
      have hts := hs _ _ _ _ h.1 (ih h.2)
      simpa [Grammar.separated, String.intercalate_cons_cons] using hts

variable {g : Bool} {r : Rule} {t u : Term}

theorem Canonical.lexes (h : Canonical r g t) : Lexes t.text.toList t.symbols := by
  -- An operator stands between blanks, a comma in front of one.
  have between (c : Char) (k : Kind) (hp : punctuation c = some k) (hg : isSign c = false)
      (a b : List Char) (xs ys : List Symbol) (ha : Lexes a xs) (hb : Lexes b ys) :
      Lexes (a ++ ' ' :: c :: ' ' :: b) (xs ++ .mark k :: ys) :=
    ha.append_cons (.blank (.mark hp hg (.blank hb))) (by decide)
  have comma (a b : List Char) (xs ys : List Symbol) (ha : Lexes a xs) (hb : Lexes b ys) :
      Lexes (a ++ ',' :: ' ' :: b) (xs ++ .mark .comma :: ys) :=
    ha.append_cons (.mark rfl rfl (.blank hb)) (by decide)
  have closed {a : List Char} {xs : List Symbol} (c : Char) (k : Kind)
      (hc : isWordChar c = false ∧ c ≠ '-') (hp : punctuation c = some k) (hg : isSign c = false)
      (ha : Lexes a xs) : Lexes (a ++ [c]) (xs ++ [.mark k]) :=
    ha.append_cons (.mark hp hg .nil) hc
  induction h with
  | name h => exact .name h
  | primary _ ih | operand _ ih | inversion _ ih | conjunction _ ih => exact ih
  | group _ ih =>
    have h := closed ')' .rightParen (by decide) rfl rfl ih
    simpa [Term.text, Term.symbols] using Lexes.mark (c := '(') rfl rfl h
  | tuple _ _ ih =>
    have hts := @Lexes.separated ", " .comma _ comma ih
    have h := closed ']' .rightBracket (by decide) rfl rfl hts
    simpa [Term.text, Term.symbols] using Lexes.mark (c := '[') rfl rfl h
  | object _ ih =>
    have h := closed '}' .rightBrace (by decide) rfl rfl ih
    simpa [Term.text, Term.symbols] using Lexes.mark (c := '{') rfl rfl h
  | entries _ _ ihk ihv =>
    have hv := closed '}' .rightBrace (by decide) rfl rfl ihv
    have h := ihk.append_cons (c := ':') (.mark rfl rfl (.blank hv)) (by decide)
    simpa [Term.text, Term.symbols] using Lexes.mark (c := '{') rfl rfl h
  | optional _ ih =>
    have h := closed '?' .question (by decide) rfl rfl ih
    simpa [Term.text, Term.symbols, Suffix.symbols] using h
  | nonEmpty _ ih =>
    simpa [Term.text, Term.symbols, Suffix.symbols] using ih.append_cons .plus (by decide)
  | @sized _ t r _ _ ih =>
    simpa [Term.text, Term.symbols] using ih.append r.lexes fun rest _ => r.stops_text rest
  | array _ ih | outerArray _ ih =>
    have h := ih.append_cons (c := '[') (.mark rfl rfl (.mark (c := ']') rfl rfl .nil)) (by decide)
    simpa [Term.text, Term.symbols, Suffix.symbols] using h
  | inverted _ _ ih => simpa [Term.text, Term.symbols] using Lexes.mark (c := '!') rfl rfl ih
  | allOf _ _ ih => exact .separated (between '&' .ampersand rfl rfl) ih
  | anyOf _ _ ih => exact .separated (between '|' .pipe rfl rfl) ih

def Inversion.snoc : Inversion → Inversion
  | .bang i => .bang i.snoc
  | .operand o => .operand (o.snoc .array)

theorem Inversion.symbols_snoc (i : Inversion) :
    i.snoc.symbols = i.symbols ++ Suffix.array.symbols := by
  match i with
  | .bang i => simp [snoc, i.symbols_snoc]
  | .operand o => exact o.symbols_snoc .array

theorem Inversion.Admissible.snoc {i : Inversion} (h : i.Admissible g) : i.snoc.Admissible g := by
  match i with
  | .bang i => exact Inversion.Admissible.snoc (i := i) h
  | .operand o => exact Operand.Admissible.snoc h trivial

theorem Operand.arrays_snoc (o : Operand) : (o.snoc .array).arrays = o.arrays + 1 := by
  obtain ⟨p, ss⟩ := o
  rw [snoc, arrays, List.rtakeWhile_concat_pos _ _ _ rfl, List.length_append]
  rfl

theorem Operand.core_snoc (o : Operand) : (o.snoc .array).core = o.core := by
  obtain ⟨p, ss⟩ := o
  rw [snoc, core, List.rdropWhile_concat_pos _ _ _ rfl, core]

theorem Inversion.arrays_snoc (i : Inversion) : i.snoc.arrays = i.arrays + 1 := by
  match i with
  | .bang i => exact i.arrays_snoc
  | .operand o => exact o.arrays_snoc

theorem Inversion.core_snoc (i : Inversion) : i.snoc.core = i.core := by
  match i with
  | .bang i => exact congrArg Term.inverted i.core_snoc
  | .operand o => exact o.core_snoc

theorem Inversion.term_snoc (i : Inversion) : i.snoc.term = .array i.term := by
  rw [term, i.arrays_snoc, i.core_snoc, Function.iterate_succ_apply', term]

theorem Inversion.term_bang {i : Inversion} (h : ¬ i.term.IsArray) :
    (Inversion.bang i).term = .inverted i.term := by
  have hz : i.arrays = 0 := by
    by_contra hne
    obtain ⟨n, hn⟩ := Nat.exists_eq_succ_of_ne_zero hne
    rw [term, hn, Function.iterate_succ_apply'] at h
    exact h ⟨_, rfl⟩
  rw [term, term, arrays, hz]
  rfl

def Rule.Derives (g : Bool) (t : Term) : Rule → Prop
  | alternation => ∃ e : Alternation, e.symbols = t.symbols ∧ e.term = t ∧ e.Admissible g
  | conjunction => ∃ c : Conjunction, c.symbols = t.symbols ∧ c.term = t ∧ c.Admissible g
  | inversion => ∃ i : Inversion, i.symbols = t.symbols ∧ i.term = t ∧ i.Admissible g
  | operand => ∃ o : Operand, o.symbols = t.symbols ∧ o.term = t ∧ o.Admissible g
  | primary => ∃ p : Primary, p.symbols = t.symbols ∧ p.term = t ∧ p.Admissible g

theorem exists_separated {k : Kind} {d : Term → Prop} {p : List Symbol → List Term → Prop}
    (last : ∀ t, d t → p t.symbols [t])
    (link : ∀ t xs ts, d t → p xs ts → p (t.symbols ++ .mark k :: xs) (t :: ts))
    {ts : List Term} (hne : ts ≠ []) (h : ∀ t ∈ ts, d t) : p (separated k ts) ts := by
  induction ts with
  | nil => exact absurd rfl hne
  | cons t ts ih =>
    rw [List.forall_mem_cons] at h
    cases ts with
    | nil => exact last t h.1
    | cons u us => exact link t _ _ h.1 (ih (List.cons_ne_nil u us) h.2)

theorem exists_items {ts : List Term} (hne : ts ≠ [])
    (h : ∀ t ∈ ts, Rule.alternation.Derives g t) :
    ∃ is : Items, is.symbols = separated .comma ts ∧ is.terms = ts ∧ is.Admissible g := by
  refine exists_separated (p := fun xs ts => ∃ is : Items,
    is.symbols = xs ∧ is.terms = ts ∧ is.Admissible g) ?_ ?_ hne h
  · rintro t ⟨e, hs, rfl, ha⟩
    exact ⟨.single e, hs, rfl, ha⟩
  · rintro t xs ts ⟨e, hs, rfl, ha⟩ ⟨is, rfl, rfl, ha'⟩
    exact ⟨.comma e is, by rw [Items.symbols, hs], rfl, ha, ha'⟩

theorem exists_conjunction {ts : List Term} (hne : ts ≠ [])
    (h : ∀ t ∈ ts, Rule.inversion.Derives g t) :
    ∃ c : Conjunction, c.symbols = separated .ampersand ts ∧ c.terms = ts ∧ c.Admissible g := by
  refine exists_separated (p := fun xs ts => ∃ c : Conjunction,
    c.symbols = xs ∧ c.terms = ts ∧ c.Admissible g) ?_ ?_ hne h
  · rintro t ⟨i, hs, rfl, ha⟩
    exact ⟨.single i, hs, rfl, ha⟩
  · rintro t xs ts ⟨i, hs, rfl, ha⟩ ⟨c, rfl, rfl, ha'⟩
    exact ⟨.ampersand i c, by rw [Conjunction.symbols, hs], rfl, ha, ha'⟩

theorem exists_alternation {ts : List Term} (hne : ts ≠ [])
    (h : ∀ t ∈ ts, Rule.conjunction.Derives g t) :
    ∃ e : Alternation, e.symbols = separated .pipe ts ∧ e.terms = ts ∧ e.Admissible g := by
  refine exists_separated (p := fun xs ts => ∃ e : Alternation,
    e.symbols = xs ∧ e.terms = ts ∧ e.Admissible g) ?_ ?_ hne h
  · rintro t ⟨c, hs, rfl, ha⟩
    exact ⟨.single c, hs, rfl, ha⟩
  · rintro t xs ts ⟨c, hs, rfl, ha⟩ ⟨e, rfl, rfl, ha'⟩
    exact ⟨.pipe c e, by rw [Alternation.symbols, hs], rfl, ha, ha'⟩

theorem Rule.Derives.suffixed {s : Suffix} (h : Rule.operand.Derives g t) (hs : s.Fits)
    (hu : u = s.apply t) (hx : u.symbols = t.symbols ++ s.symbols) : Rule.operand.Derives g u := by
  obtain ⟨o, ho, rfl, ha⟩ := h
  exact ⟨o.snoc s, by rw [o.symbols_snoc, ho, hx], by rw [o.term_snoc, hu], ha.snoc hs⟩

theorem ne_nil_of_two_le {ts : List Term} (h : 2 ≤ ts.length) : ts ≠ [] := by
  rintro rfl
  simp at h

theorem Canonical.derives (h : Canonical r g t) : r.Derives g t := by
  induction h with
  | @name g n _ => exact ⟨.name n, rfl, rfl, trivial⟩
  | group _ ih =>
    obtain ⟨e, hs, rfl, ha⟩ := ih
    exact ⟨.paren e, by rw [Primary.symbols, hs, Term.symbols], rfl, rfl, ha⟩
  | tuple hne _ ih =>
    obtain ⟨is, hs, rfl, ha⟩ := exists_items hne ih
    exact ⟨.bracket is, by rw [Primary.symbols, hs, Term.symbols], rfl, ha⟩
  | object _ ih =>
    obtain ⟨v, hs, rfl, ha⟩ := ih
    exact ⟨.brace v, by rw [Primary.symbols, hs, Term.symbols], rfl, ha⟩
  | entries _ _ ihk ihv =>
    obtain ⟨k, hk, rfl, hka⟩ := ihk
    obtain ⟨v, hv, rfl, hva⟩ := ihv
    exact ⟨.entries k v, by rw [Primary.symbols, hk, hv, Term.symbols], rfl, hka, hva⟩
  | primary _ ih =>
    obtain ⟨p, hs, ht, ha⟩ := ih
    exact ⟨.mk p [], by simp [hs], ht, ha, by simp⟩
  | optional _ ih => exact ih.suffixed (s := .optional) trivial rfl (by rw [Term.symbols])
  | nonEmpty _ ih => exact ih.suffixed (s := .nonEmpty) trivial rfl (by rw [Term.symbols])
  | array _ ih => exact ih.suffixed (s := .array) trivial rfl (by rw [Term.symbols])
  | sized _ hr ih =>
    exact ih.suffixed (s := .sized _) hr.size (by rw [Suffix.apply, SizeRange.range_size])
      (by rw [Term.symbols])
  | operand _ ih =>
    obtain ⟨o, hs, ht, ha⟩ := ih
    exact ⟨.operand o, hs, by rw [← ht, o.term_eq_iterate]; rfl, ha⟩
  | inverted _ hna ih =>
    obtain ⟨i, hs, rfl, ha⟩ := ih
    exact ⟨.bang i, by rw [Inversion.symbols, hs, Term.symbols], Inversion.term_bang hna, ha⟩
  | outerArray _ ih =>
    obtain ⟨i, hs, rfl, ha⟩ := ih
    exact ⟨i.snoc, by rw [i.symbols_snoc, hs, Term.symbols], i.term_snoc,
      Inversion.Admissible.snoc ha⟩
  | inversion _ ih =>
    obtain ⟨i, hs, ht, ha⟩ := ih
    exact ⟨.single i, hs, ht, ha⟩
  | allOf hl _ ih =>
    obtain ⟨c, hs, rfl, ha⟩ := exists_conjunction (ne_nil_of_two_le hl) ih
    exact ⟨c, by rw [hs, Term.symbols], by rw [c.term_eq_joined, joined_of_two_le hl], ha⟩
  | conjunction _ ih =>
    obtain ⟨c, hs, ht, ha⟩ := ih
    exact ⟨.single c, hs, ht, ha⟩
  | anyOf hl _ ih =>
    obtain ⟨e, hs, rfl, ha⟩ := exists_alternation (ne_nil_of_two_le hl) ih
    exact ⟨e, by rw [hs, Term.symbols], by rw [e.term_eq_joined, joined_of_two_le hl], ha⟩

theorem parse_text (h : Canonical .alternation g t) : parse t.text = .ok t := by
  obtain ⟨e, hs, rfl, ha⟩ := h.ungrouped.derives
  obtain ⟨tokens, hl, hx⟩ := symbols_of_lexes h.lexes
  exact parse_eq_ok_of_derives hl ⟨hs.trans hx.symm, ha⟩

theorem canonical_of_parse {source : String} (h : parse source = .ok t) :
    Canonical .alternation false t := by
  cases hl : lex source with
  | error e => simp [parse, hl, bind, Except.bind] at h
  | ok tokens =>
    obtain ⟨e, hs, ha, rfl⟩ := exists_derivation_of_readTokens ((parse_eq_ok_iff hl).1 h)
    refine Alternation.canonical_of_terms (Alternation.canonical_terms ha ?_)
    intro n hn
    rw [hs] at hn
    obtain ⟨token, ht, hx⟩ := List.mem_map.1 hn
    obtain ⟨hk, rfl⟩ := Token.name_of_symbol hx
    exact isName_of_scan hl token ht hk

def Term.IsPart (u t : Term) : Prop := Relation.ReflTransGen (fun t u => u ∈ Term.children t) t u

theorem Canonical.part (h : Canonical .alternation false t) (hu : u.IsPart t) :
    Canonical .alternation false u := by
  induction hu with
  | refl => exact h
  | tail _ hc ih => exact ih.child hc

theorem parse_text_of_isPart {source : String} (h : parse source = .ok t) :
    (∀ u : Term, u.IsPart t → parse u.text = .ok u) ∧
      ∀ (source' : String) (t' : Term), parse source' = .ok t' →
        ∀ u u' : Term, u.IsPart t → u'.IsPart t' → u.text = u'.text → u = u' := by
  have back {source : String} {t : Term} (h : parse source = .ok t) (u : Term) (hu : u.IsPart t) :
      parse u.text = .ok u := parse_text ((canonical_of_parse h).part hu)
  refine ⟨back h, fun source' t' h' u u' hu hu' he => ?_⟩
  have hb := back h u hu
  rw [he, back h' u' hu'] at hb
  exact (Except.ok.inj hb).symm

theorem parse_text_inverted_array :
    parse "!a+[]" = .ok (.array (.inverted (.nonEmpty (.name "a")))) ∧
      parse (Term.inverted (.nonEmpty (.name "a"))).text =
        .ok (.inverted (.nonEmpty (.name "a"))) := by
  have h : parse "!a+[]" = .ok (.array (.inverted (.nonEmpty (.name "a")))) := by decide +kernel
  exact ⟨h, (parse_text_of_isPart h).1 _ (.single (List.mem_singleton_self _))⟩

end ValueCheck.Grammar
