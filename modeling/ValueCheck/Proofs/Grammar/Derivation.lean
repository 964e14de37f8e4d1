import Mathlib.Data.List.DropRight
import Mathlib.Logic.Function.Iterate
import ValueCheck.Grammar.Parser

/-! Derivations in the grammar of type strings: the symbols a derivation spells
and the term it denotes. No sequence of symbols has two derivations. -/

namespace ValueCheck.Grammar

inductive Symbol where
  | mark (kind : Kind)
  | name (name : String)
  | integer (digits : String)
  deriving DecidableEq

def Symbol.kind : Symbol → Kind
  | mark k => k
  | name _ => .name
  | integer _ => .integer

def Token.symbol (t : Token) : Symbol :=
  match t.kind with
  | .name => .name t.text
  | .integer => .integer t.text
  | k => .mark k

inductive Size where
  | exactly (n : String)
  | atLeast (n : String)
  | atMost (n : String)
  | between (low high : String)

inductive Suffix where
  | optional
  | nonEmpty
  | array
  | sized (size : Size)

-- One type for each rule, from `expr` down; a list is what is repeated with `*`.
mutual

inductive Alternation where
  | single (c : Conjunction)
  | pipe (c : Conjunction) (rest : Alternation)

inductive Conjunction where
  | single (i : Inversion)
  | ampersand (i : Inversion) (rest : Conjunction)

inductive Inversion where
  | bang (i : Inversion)
  | operand (o : Operand)

inductive Operand where
  | mk (p : Primary) (suffixes : List Suffix)

inductive Primary where
  | name (name : String)
  | paren (e : Alternation)
  | bracket (items : Items)
  | brace (value : Alternation)
  | entries (key value : Alternation)

inductive Items where
  | single (e : Alternation)
  | comma (e : Alternation) (rest : Items)

end

def Size.symbols : Size → List Symbol
  | exactly n => [.integer n]
  | atLeast n => [.integer n, .mark .comma]
  | atMost n => [.mark .comma, .integer n]
  | between low high => [.integer low, .mark .comma, .integer high]

def Suffix.symbols : Suffix → List Symbol
  | optional => [.mark .question]
  | nonEmpty => [.mark .plus]
  | array => [.mark .leftBracket, .mark .rightBracket]
  | sized size => .mark .leftBrace :: (size.symbols ++ [.mark .rightBrace])

mutual

def Alternation.symbols : Alternation → List Symbol
  | .single c => c.symbols
  | .pipe c rest => c.symbols ++ .mark .pipe :: rest.symbols

def Conjunction.symbols : Conjunction → List Symbol
  | .single i => i.symbols
  | .ampersand i rest => i.symbols ++ .mark .ampersand :: rest.symbols

def Inversion.symbols : Inversion → List Symbol
  | .bang i => .mark .bang :: i.symbols
  | .operand o => o.symbols

def Operand.symbols : Operand → List Symbol
  | .mk p suffixes => p.symbols ++ suffixes.flatMap Suffix.symbols

def Primary.symbols : Primary → List Symbol
  | .name n => [.name n]
  | .paren e => .mark .leftParen :: (e.symbols ++ [.mark .rightParen])
  | .bracket items => .mark .leftBracket :: (items.symbols ++ [.mark .rightBracket])
  | .brace v => .mark .leftBrace :: (v.symbols ++ [.mark .rightBrace])
  | .entries k v =>
    .mark .leftBrace :: (k.symbols ++ .mark .colon :: (v.symbols ++ [.mark .rightBrace]))

def Items.symbols : Items → List Symbol
  | .single e => e.symbols
  | .comma e rest => e.symbols ++ .mark .comma :: rest.symbols

end

def Size.range : Size → SizeRange
  | exactly n => .exactly (digitsValue n)
  | atLeast n => .atLeast (digitsValue n)
  | atMost n => .atMost (digitsValue n)
  | between low high => .between (digitsValue low) (digitsValue high)

def Suffix.apply (t : Term) : Suffix → Term
  | optional => .optional t
  | nonEmpty => .nonEmpty t
  | array => .array t
  | sized size => .sized t size.range

def Suffix.isArray (s : Suffix) : Bool := s matches .array

def Operand.arrays : Operand → Nat
  | .mk _ suffixes => (suffixes.rtakeWhile Suffix.isArray).length

def Inversion.arrays : Inversion → Nat
  | .bang i => i.arrays
  | .operand o => o.arrays

mutual

def Alternation.term : Alternation → Term
  | .single c => c.term
  | .pipe c rest => .anyOf (c.term :: rest.terms)

def Alternation.terms : Alternation → List Term
  | .single c => [c.term]
  | .pipe c rest => c.term :: rest.terms

def Conjunction.term : Conjunction → Term
  | .single i => Term.array^[i.arrays] i.core
  | .ampersand i rest => .allOf (Term.array^[i.arrays] i.core :: rest.terms)

def Conjunction.terms : Conjunction → List Term
  | .single i => [Term.array^[i.arrays] i.core]
  | .ampersand i rest => Term.array^[i.arrays] i.core :: rest.terms

/-- What is inverted, without the trailing run of `[]`, which applies outside each `!`. -/
def Inversion.core : Inversion → Term
  | .bang i => .inverted i.core
  | .operand o => o.core

def Operand.core : Operand → Term
  | .mk p suffixes => (suffixes.rdropWhile Suffix.isArray).foldl Suffix.apply p.term

def Primary.term : Primary → Term
  | .name n => .name n
  | .paren e => .group e.term
  | .bracket items => .tuple items.terms
  | .brace v => .object v.term
  | .entries k v => .entries k.term v.term

def Items.terms : Items → List Term
  | .single e => [e.term]
  | .comma e rest => e.term :: rest.terms

end

def Inversion.term (i : Inversion) : Term := Term.array^[i.arrays] i.core

def Operand.term : Operand → Term
  | .mk p suffixes => suffixes.foldl Suffix.apply p.term

def Size.Fits : Size → Prop
  | exactly n | atLeast n | atMost n => digitsValue n < UInt64.size
  | between low high =>
    digitsValue low < UInt64.size ∧ digitsValue high < UInt64.size ∧
      digitsValue low ≤ digitsValue high

def Suffix.Fits : Suffix → Prop
  | sized size => size.Fits
  | _ => True

-- The conditions beyond the rules: sizes fit, and no group is open where one opens.
mutual

def Alternation.Admissible (inGroup : Bool) : Alternation → Prop
  | .single c => c.Admissible inGroup
  | .pipe c rest => c.Admissible inGroup ∧ rest.Admissible inGroup

def Conjunction.Admissible (inGroup : Bool) : Conjunction → Prop
  | .single i => i.Admissible inGroup
  | .ampersand i rest => i.Admissible inGroup ∧ rest.Admissible inGroup

def Inversion.Admissible (inGroup : Bool) : Inversion → Prop
  | .bang i => i.Admissible inGroup
  | .operand o => o.Admissible inGroup

def Operand.Admissible (inGroup : Bool) : Operand → Prop
  | .mk p suffixes => p.Admissible inGroup ∧ ∀ s ∈ suffixes, s.Fits

def Primary.Admissible (inGroup : Bool) : Primary → Prop
  | .name _ => True
  | .paren e => inGroup = false ∧ e.Admissible true
  | .bracket items => items.Admissible inGroup
  | .brace v => v.Admissible inGroup
  | .entries k v => k.Admissible inGroup ∧ v.Admissible inGroup

def Items.Admissible (inGroup : Bool) : Items → Prop
  | .single e => e.Admissible inGroup
  | .comma e rest => e.Admissible inGroup ∧ rest.Admissible inGroup

end

attribute [simp] Symbol.kind Alternation.symbols Conjunction.symbols Inversion.symbols
  Operand.symbols Primary.symbols Items.symbols

def Avoids (kinds : List Kind) (rest : List Symbol) : Prop := ∀ s ∈ rest.head?, s.kind ∉ kinds

@[simp] theorem avoids_cons (kinds : List Kind) (s : Symbol) (rest : List Symbol) :
    Avoids kinds (s :: rest) ↔ s.kind ∉ kinds := by simp [Avoids]

theorem Avoids.of_cons {k : Kind} {kinds : List Kind} {rest : List Symbol}
    (h : Avoids (k :: kinds) rest) : Avoids kinds rest :=
  fun s hs hk => h s hs (List.mem_cons_of_mem k hk)

-- The kinds that would continue an operand, a conjunction, an alternation, a list of items.
abbrev suffixKinds : List Kind := [.question, .plus, .leftBracket, .leftBrace]
abbrev conjunctionKinds : List Kind := .ampersand :: suffixKinds
abbrev alternationKinds : List Kind := .pipe :: conjunctionKinds
abbrev itemsKinds : List Kind := .comma :: alternationKinds

theorem Size.symbols_inj {s s' : Size} {r r' : List Symbol}
    (h : s.symbols ++ .mark .rightBrace :: r = s'.symbols ++ .mark .rightBrace :: r') :
    s = s' ∧ r = r' := by
  cases s <;> cases s' <;> simp_all [Size.symbols]

theorem Suffix.symbols_inj {s s' : Suffix} {r r' : List Symbol}
    (h : s.symbols ++ r = s'.symbols ++ r') : s = s' ∧ r = r' := by
  cases s <;> cases s' <;> simp [Suffix.symbols] at h ⊢
  case sized.sized => exact Size.symbols_inj h
  all_goals exact h

theorem Suffix.not_avoids (s : Suffix) (r : List Symbol) :
    ¬ Avoids suffixKinds (s.symbols ++ r) := by
  cases s <;> simp [Suffix.symbols]

theorem suffixes_inj {ss ss' : List Suffix} {r r' : List Symbol}
    (h : ss.flatMap Suffix.symbols ++ r = ss'.flatMap Suffix.symbols ++ r')
    (hr : Avoids suffixKinds r) (hr' : Avoids suffixKinds r') : ss = ss' ∧ r = r' := by
  induction ss generalizing ss' with
  | nil =>
    cases ss' with
    | nil => exact ⟨rfl, h⟩
    | cons s' ss' =>
      simp only [List.flatMap_nil, List.flatMap_cons, List.nil_append, List.append_assoc] at h
      exact absurd (h ▸ hr) (s'.not_avoids _)
  | cons s ss ih =>
    cases ss' with
    | nil =>
      simp only [List.flatMap_nil, List.flatMap_cons, List.nil_append, List.append_assoc] at h
      exact absurd (h ▸ hr') (s.not_avoids _)
    | cons s' ss' =>
      simp only [List.flatMap_cons, List.append_assoc] at h
      obtain ⟨rfl, hss⟩ := Suffix.symbols_inj h
      obtain ⟨rfl, rfl⟩ := ih hss
      exact ⟨rfl, rfl⟩

mutual

theorem Alternation.symbols_inj : ∀ {e e' : Alternation} {r r' : List Symbol},
    e.symbols ++ r = e'.symbols ++ r' → Avoids alternationKinds r → Avoids alternationKinds r' →
    e = e' ∧ r = r'
  | .single c, .single c', r, r', h, hr, hr' => by
    obtain ⟨rfl, rfl⟩ := Conjunction.symbols_inj h hr.of_cons hr'.of_cons
    exact ⟨rfl, rfl⟩
  | .single c, .pipe c' rest, r, r', h, hr, hr' => by
    obtain ⟨rfl, rfl⟩ := Conjunction.symbols_inj (by simpa using h) hr.of_cons (by simp)
    simp at hr
  | .pipe c rest, .single c', r, r', h, hr, hr' => by
    obtain ⟨rfl, rfl⟩ := Conjunction.symbols_inj (by simpa using h) (by simp) hr'.of_cons
    simp at hr'
  | .pipe c rest, .pipe c' rest', r, r', h, hr, hr' => by
    obtain ⟨rfl, hs⟩ := Conjunction.symbols_inj (by simpa using h) (by simp) (by simp)
    obtain ⟨rfl, rfl⟩ := Alternation.symbols_inj (List.cons.inj hs).2 hr hr'
    exact ⟨rfl, rfl⟩

theorem Conjunction.symbols_inj : ∀ {c c' : Conjunction} {r r' : List Symbol},
    c.symbols ++ r = c'.symbols ++ r' → Avoids conjunctionKinds r → Avoids conjunctionKinds r' →
    c = c' ∧ r = r'
  | .single i, .single i', r, r', h, hr, hr' => by
    obtain ⟨rfl, rfl⟩ := Inversion.symbols_inj h hr.of_cons hr'.of_cons
    exact ⟨rfl, rfl⟩
  | .single i, .ampersand i' rest, r, r', h, hr, hr' => by
    obtain ⟨rfl, rfl⟩ := Inversion.symbols_inj (by simpa using h) hr.of_cons (by simp)
    simp at hr
  | .ampersand i rest, .single i', r, r', h, hr, hr' => by
    obtain ⟨rfl, rfl⟩ := Inversion.symbols_inj (by simpa using h) (by simp) hr'.of_cons
    simp at hr'
  | .ampersand i rest, .ampersand i' rest', r, r', h, hr, hr' => by
    obtain ⟨rfl, hs⟩ := Inversion.symbols_inj (by simpa using h) (by simp) (by simp)
    obtain ⟨rfl, rfl⟩ := Conjunction.symbols_inj (List.cons.inj hs).2 hr hr'
    exact ⟨rfl, rfl⟩

theorem Inversion.symbols_inj : ∀ {i i' : Inversion} {r r' : List Symbol},
    i.symbols ++ r = i'.symbols ++ r' → Avoids suffixKinds r → Avoids suffixKinds r' →
    i = i' ∧ r = r'
  | .bang i, .bang i', r, r', h, hr, hr' => by
    obtain ⟨rfl, rfl⟩ := Inversion.symbols_inj (List.cons.inj h).2 hr hr'
    exact ⟨rfl, rfl⟩
  | .bang i, .operand (.mk p ss), r, r', h, hr, hr' => by cases p <;> simp at h
  | .operand (.mk p ss), .bang i, r, r', h, hr, hr' => by cases p <;> simp at h
  | .operand (.mk p ss), .operand (.mk p' ss'), r, r', h, hr, hr' => by
    obtain ⟨rfl, hs⟩ := Primary.symbols_inj (by simpa using h)
    obtain ⟨rfl, rfl⟩ := suffixes_inj hs hr hr'
    exact ⟨rfl, rfl⟩

theorem Primary.symbols_inj : ∀ {p p' : Primary} {r r' : List Symbol},
    p.symbols ++ r = p'.symbols ++ r' → p = p' ∧ r = r'
  | .name n, p', r, r', h => by cases p' <;> simp_all
  | .paren e, p', r, r', h => by
    cases p' with
    | paren e' =>
      obtain ⟨rfl, hs⟩ := Alternation.symbols_inj (by simpa using h) (by simp) (by simp)
      exact ⟨rfl, (List.cons.inj hs).2⟩
    | _ => simp at h
  | .bracket is, p', r, r', h => by
    cases p' with
    | bracket is' =>
      obtain ⟨rfl, hs⟩ := Items.symbols_inj (by simpa using h) (by simp) (by simp)
      exact ⟨rfl, (List.cons.inj hs).2⟩
    | _ => simp at h
  | .brace v, p', r, r', h => by
    cases p' with
    | brace v' =>
      obtain ⟨rfl, hs⟩ := Alternation.symbols_inj (by simpa using h) (by simp) (by simp)
      exact ⟨rfl, (List.cons.inj hs).2⟩
    | entries k' v' =>
      obtain ⟨-, hs⟩ := Alternation.symbols_inj (by simpa using h) (by simp) (by simp)
      simp at hs
    | _ => simp at h
  | .entries k v, p', r, r', h => by
    cases p' with
    | entries k' v' =>
      obtain ⟨rfl, hs⟩ := Alternation.symbols_inj (by simpa using h) (by simp) (by simp)
      obtain ⟨rfl, ht⟩ := Alternation.symbols_inj (List.cons.inj hs).2 (by simp) (by simp)
      exact ⟨rfl, (List.cons.inj ht).2⟩
    | brace v' =>
      obtain ⟨-, hs⟩ := Alternation.symbols_inj (by simpa using h) (by simp) (by simp)
      simp at hs
    | _ => simp at h

theorem Items.symbols_inj : ∀ {is is' : Items} {r r' : List Symbol},
    is.symbols ++ r = is'.symbols ++ r' → Avoids itemsKinds r → Avoids itemsKinds r' →
    is = is' ∧ r = r'
  | .single i, .single i', r, r', h, hr, hr' => by
    obtain ⟨rfl, rfl⟩ := Alternation.symbols_inj h hr.of_cons hr'.of_cons
    exact ⟨rfl, rfl⟩
  | .single i, .comma i' rest, r, r', h, hr, hr' => by
    obtain ⟨rfl, rfl⟩ := Alternation.symbols_inj (by simpa using h) hr.of_cons (by simp)
    simp at hr
  | .comma i rest, .single i', r, r', h, hr, hr' => by
    obtain ⟨rfl, rfl⟩ := Alternation.symbols_inj (by simpa using h) (by simp) hr'.of_cons
    simp at hr'
  | .comma i rest, .comma i' rest', r, r', h, hr, hr' => by
    obtain ⟨rfl, hs⟩ := Alternation.symbols_inj (by simpa using h) (by simp) (by simp)
    obtain ⟨rfl, rfl⟩ := Items.symbols_inj (List.cons.inj hs).2 hr hr'
    exact ⟨rfl, rfl⟩

end

theorem Alternation.eq_of_symbols_eq {e e' : Alternation} (h : e.symbols = e'.symbols) :
    e = e' := by
  have hs : e.symbols ++ [] = e'.symbols ++ [] := by rw [h]
  exact (Alternation.symbols_inj hs (by simp [Avoids]) (by simp [Avoids])).1

end ValueCheck.Grammar
