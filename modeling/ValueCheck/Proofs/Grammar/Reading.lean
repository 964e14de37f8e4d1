import ValueCheck.Proofs.Grammar.Derivation

/-! Reading the symbols of a derivation. From any context the reader arrives
behind them with the term of the derivation in hand. -/

namespace ValueCheck.Grammar

theorem Token.kind_symbol (t : Token) : t.symbol.kind = t.kind := by
  rw [Token.symbol]
  split <;> simp_all

theorem Token.kind_of_symbol {t : Token} {k : Kind} (h : t.symbol = .mark k) : t.kind = k := by
  rw [← t.kind_symbol, h]
  rfl

theorem Token.name_of_symbol {t : Token} {n : String} (h : t.symbol = .name n) :
    t.kind = .name ∧ t.text = n := by
  have hk : t.kind = .name := by rw [← t.kind_symbol, h]; rfl
  exact ⟨hk, by simpa [Token.symbol, hk] using h⟩

theorem Token.integer_of_symbol {t : Token} {n : String} (h : t.symbol = .integer n) :
    t.kind = .integer ∧ t.text = n := by
  have hk : t.kind = .integer := by rw [← t.kind_symbol, h]; rfl
  exact ⟨hk, by simpa [Token.symbol, hk] using h⟩

def Reads (source : String) (s : State) (symbols : List Symbol) (s' : State) : Prop :=
  ∀ tokens : List Token, tokens.map Token.symbol = symbols →
    tokens.foldlM (State.next source) s = .ok s'

variable {source : String} {s s' u : State}

theorem Reads.nil : Reads source s [] s := by
  intro tokens h
  obtain rfl := List.map_eq_nil_iff.1 h
  rfl

theorem Reads.append {xs ys : List Symbol} (hx : Reads source s xs u) (hy : Reads source u ys s') :
    Reads source s (xs ++ ys) s' := by
  intro tokens h
  obtain ⟨front, back, rfl, hf, hb⟩ := List.map_eq_append_iff.1 h
  rw [List.foldlM_append, hx front hf]
  exact hy back hb

theorem Reads.single {x : Symbol}
    (h : ∀ token : Token, token.symbol = x → State.next source s token = .ok s') :
    Reads source s [x] s' := by
  intro tokens ht
  obtain ⟨token, rest, rfl, hx, hr⟩ := List.map_eq_cons_iff.1 ht
  obtain rfl := List.map_eq_nil_iff.1 hr
  simp [h token hx]

theorem Reads.cons {x : Symbol} {xs : List Symbol} (hx : Reads source s [x] u)
    (hxs : Reads source u xs s') : Reads source s (x :: xs) s' :=
  hx.append hxs

theorem Reads.mark {k : Kind}
    (h : ∀ token : Token, token.kind = k → State.next source s token = .ok s') :
    Reads source s [.mark k] s' :=
  .single fun token ht => h token (Token.kind_of_symbol ht)

theorem Reads.integer {n : String}
    (h : ∀ token : Token, token.kind = .integer → token.text = n →
      State.next source s token = .ok s') : Reads source s [.integer n] s' :=
  .single fun token ht => h token (Token.integer_of_symbol ht).1 (Token.integer_of_symbol ht).2

variable {c : Context} {t : Term}

theorem bound?_eq_some {n : String} (h : digitsValue n < UInt64.size) :
    bound? n = some (digitsValue n) :=
  if_pos h

def Size.bounds : Size → Bounds
  | exactly n => ⟨some n, false, none⟩
  | atLeast n => ⟨some n, true, none⟩
  | atMost n => ⟨none, true, some n⟩
  | between low high => ⟨some low, true, some high⟩

theorem Size.range?_bounds (size : Size) (h : size.Fits) :
    size.bounds.range? = some size.range := by
  cases size with
  | between low high =>
    simp [bounds, Bounds.range?, bound?_eq_some h.1, bound?_eq_some h.2.1, h.2.2, range]
  | exactly n => simp [bounds, Bounds.range?, bound?_eq_some h, range]
  | atLeast n => simp [bounds, Bounds.range?, bound?_eq_some h, range]
  | atMost n => simp [bounds, Bounds.range?, bound?_eq_some h, range]

theorem reads_low {start : Nat} (n : String) :
    Reads source (.size c t start {}) [.integer n] (.size c t start ⟨some n, false, none⟩) :=
  .integer fun token hk hn => by simp [State.next, State.inSize, hk, hn]

theorem reads_comma {start : Nat} (low : Option String) :
    Reads source (.size c t start ⟨low, false, none⟩) [.mark .comma]
      (.size c t start ⟨low, true, none⟩) :=
  .mark fun token hk => by simp [State.next, State.inSize, hk]

theorem reads_high {start : Nat} (low : Option String) (n : String) :
    Reads source (.size c t start ⟨low, true, none⟩) [.integer n]
      (.size c t start ⟨low, true, some n⟩) :=
  .integer fun token hk hn => by simp [State.next, State.inSize, hk, hn]

theorem Size.reads {start : Nat} (size : Size) :
    Reads source (.size c t start {}) size.symbols (.size c t start size.bounds) := by
  cases size with
  | exactly n => exact reads_low n
  | atLeast n => exact (reads_low n).cons (reads_comma _)
  | atMost n => exact (reads_comma none).cons (reads_high none n)
  | between low high => exact (reads_low low).cons ((reads_comma _).cons (reads_high _ high))

theorem Suffix.reads (s : Suffix) (h : s.Fits) :
    Reads source (.suffix c t) s.symbols (.suffix c (s.apply t)) := by
  cases s with
  | optional => exact .mark fun token hk => by simp [State.next, State.atSuffix, hk, apply]
  | nonEmpty => exact .mark fun token hk => by simp [State.next, State.atSuffix, hk, apply]
  | array =>
    have hb : Reads source (.suffix c t) [.mark .leftBracket] (.bracket c t) :=
      .mark fun token hk => by simp [State.next, State.atSuffix, hk]
    exact hb.cons (.mark fun token hk => by simp [State.next, State.inBracket, hk, apply])
  | sized size =>
    -- The place of the brace stays in the state until the size is complete.
    intro tokens ht
    obtain ⟨brace, rest, rfl, hb, hr⟩ := List.map_eq_cons_iff.1 ht
    have hs : State.next source (.suffix c t) brace = .ok (.size c t brace.span.start {}) := by
      simp [State.next, State.atSuffix, Token.kind_of_symbol hb]
    have hclose : Reads source (.size c t brace.span.start size.bounds) [.mark .rightBrace]
        (.suffix c (.sized t size.range)) :=
      .mark fun token hk => by
        simp [State.next, State.inSize, hk, size.range?_bounds h]
    rw [List.foldlM_cons, hs]
    exact (size.reads.append hclose) rest hr

theorem reads_suffixes (ss : List Suffix) (h : ∀ s ∈ ss, s.Fits) :
    Reads source (.suffix c t) (ss.flatMap Suffix.symbols)
      (.suffix c (ss.foldl Suffix.apply t)) := by
  induction ss generalizing t with
  | nil => exact .nil
  | cons s ss ih =>
    exact (s.reads (h s (by simp))).append (ih fun s' hs => h s' (List.mem_cons_of_mem s hs))

def joined (combine : List Term → Term) : List Term → Term
  | [t] => t
  | ts => combine ts

theorem combined_eq_joined (combine : List Term → Term) (earlier : List Term) (last : Term) :
    combined combine earlier last = joined combine (earlier.reverse ++ [last]) := by
  cases earlier with
  | nil => rfl
  | cons x xs =>
    have hne : ∀ u, (x :: xs).reverse ++ [last] ≠ [u] := by
      intro u hu
      have hl := congrArg List.length hu
      simp at hl
    unfold joined
    split
    · next u hu => exact absurd hu (hne u)
    · rfl

theorem Conjunction.terms_ne_nil (c : Conjunction) : c.terms ≠ [] := by
  cases c <;> simp [terms]

theorem Alternation.terms_ne_nil (e : Alternation) : e.terms ≠ [] := by
  cases e <;> simp [terms]

theorem joined_cons {combine : List Term → Term} {t : Term} {ts : List Term} (h : ts ≠ []) :
    joined combine (t :: ts) = combine (t :: ts) := by
  cases ts with
  | nil => exact absurd rfl h
  | cons u us => rfl

theorem joined_of_two_le {combine : List Term → Term} {ts : List Term} (h : 2 ≤ ts.length) :
    joined combine ts = combine ts := by
  match ts, h with
  | t :: u :: us, _ => rfl

theorem Conjunction.term_eq_joined (c : Conjunction) : c.term = joined .allOf c.terms := by
  cases c with
  | single i => rfl
  | ampersand i rest => rw [terms, joined_cons rest.terms_ne_nil, term]

theorem Alternation.term_eq_joined (e : Alternation) : e.term = joined .anyOf e.terms := by
  cases e with
  | single c => rfl
  | pipe c rest => rw [terms, joined_cons rest.terms_ne_nil, term]

def Term.IsArray (t : Term) : Prop := ∃ u, t = .array u

theorem inverted_of_not_array {n : Nat} {t : Term} (h : ¬ t.IsArray) :
    inverted n t = Term.inverted^[n] t := by
  have hr : inverted n t = n.repeat .inverted t := by
    unfold inverted
    split
    · next u => exact absurd ⟨u, rfl⟩ h
    · rfl
  rw [hr]
  clear hr
  induction n with
  | zero => rfl
  | succ n ih => rw [Function.iterate_succ_apply', ← ih]; rfl

theorem inverted_iterate_array {n : Nat} {t : Term} (h : ¬ t.IsArray) (k : Nat) :
    inverted n (Term.array^[k] t) = Term.array^[k] (Term.inverted^[n] t) := by
  induction k with
  | zero => exact inverted_of_not_array h
  | succ k ih => rw [Function.iterate_succ_apply', Function.iterate_succ_apply', ← ih]; rfl

theorem Operand.term_eq_iterate (o : Operand) : o.term = Term.array^[o.arrays] o.core := by
  obtain ⟨p, ss⟩ := o
  simp only [term, arrays, core]
  induction ss using List.reverseRecOn with
  | nil => rfl
  | append_singleton ss s ih =>
    cases s with
    | array =>
      rw [List.rtakeWhile_concat_pos _ _ _ rfl, List.rdropWhile_concat_pos _ _ _ rfl,
        List.foldl_append, List.length_append]
      exact (congrArg Term.array ih).trans (Function.iterate_succ_apply' _ _ _).symm
    | _ =>
      rw [List.rtakeWhile_concat_neg _ _ _ (by simp [Suffix.isArray]),
        List.rdropWhile_concat_neg _ _ _ (by simp [Suffix.isArray])]
      rfl

theorem Operand.core_not_array (o : Operand) : ¬ o.core.IsArray := by
  obtain ⟨p, ss⟩ := o
  simp only [core]
  induction ss using List.reverseRecOn with
  | nil => cases p <;> simp [Primary.term, Term.IsArray]
  | append_singleton ss s ih =>
    cases s with
    | array => rwa [List.rdropWhile_concat_pos _ _ _ rfl]
    | _ =>
      rw [List.rdropWhile_concat_neg _ _ _ (by simp [Suffix.isArray]), List.foldl_append]
      simp [Suffix.apply, Term.IsArray]

def Inversion.bangs : Inversion → Nat
  | .bang i => i.bangs + 1
  | .operand _ => 0

def Inversion.inner : Inversion → Operand
  | .bang i => i.inner
  | .operand o => o

theorem Inversion.arrays_eq (i : Inversion) : i.arrays = i.inner.arrays := by
  match i with
  | .bang i => exact i.arrays_eq
  | .operand o => rfl

theorem Inversion.core_eq (i : Inversion) : i.core = Term.inverted^[i.bangs] i.inner.core := by
  match i with
  | .bang i =>
    rw [bangs, Function.iterate_succ_apply', inner, ← i.core_eq]
    rfl
  | .operand o => rfl

theorem Inversion.term_eq_inverted (i : Inversion) : i.term = inverted i.bangs i.inner.term := by
  rw [i.inner.term_eq_iterate, inverted_iterate_array i.inner.core_not_array, term, i.arrays_eq,
    i.core_eq]

mutual

theorem Alternation.reads : ∀ {e : Alternation} (alternatives : List Term)
    (rest : List (Opener × Level)), e.Admissible (Context.inGroup ⟨{}, rest⟩) →
    ∃ (l : Level) (t : Term),
      Reads source (.operand ⟨⟨alternatives, [], 0⟩, rest⟩) e.symbols (.suffix ⟨l, rest⟩ t) ∧
      l.close t = joined .anyOf (alternatives.reverse ++ e.terms)
  | .single c, alternatives, rest, h => by
    obtain ⟨l, t, hr, ha, ht⟩ := Conjunction.reads alternatives [] rest h
    refine ⟨l, t, hr, ?_⟩
    rw [Level.close, ha, ht, combined_eq_joined, Alternation.terms, c.term_eq_joined]
    rfl
  | .pipe c e, alternatives, rest, h => by
    obtain ⟨l, t, hr, ha, ht⟩ := Conjunction.reads alternatives [] rest h.1
    obtain ⟨l', t', hr', ht'⟩ :=
      Alternation.reads (l.conjunction t :: alternatives) rest h.2
    have hp : Reads source (.suffix ⟨l, rest⟩ t) [.mark .pipe]
        (.operand ⟨⟨l.conjunction t :: alternatives, [], 0⟩, rest⟩) :=
      .mark fun token hk => by simp [State.next, State.atSuffix, hk, Level.afterPipe, ha]
    refine ⟨l', t', hr.append (hp.cons hr'), ?_⟩
    rw [ht', ht, Alternation.terms, c.term_eq_joined]
    simp

theorem Conjunction.reads : ∀ {c : Conjunction} (alternatives conjuncts : List Term)
    (rest : List (Opener × Level)), c.Admissible (Context.inGroup ⟨{}, rest⟩) →
    ∃ (l : Level) (t : Term),
      Reads source (.operand ⟨⟨alternatives, conjuncts, 0⟩, rest⟩) c.symbols
        (.suffix ⟨l, rest⟩ t) ∧
      l.alternatives = alternatives ∧
      l.conjunction t = joined .allOf (conjuncts.reverse ++ c.terms)
  | .single i, alternatives, conjuncts, rest, h => by
    refine ⟨_, _, Inversion.reads ⟨alternatives, conjuncts, 0⟩ rest h, rfl, ?_⟩
    rw [Level.conjunction, combined_eq_joined, Nat.zero_add, ← i.term_eq_inverted]
    rfl
  | .ampersand i c, alternatives, conjuncts, rest, h => by
    have hi := Inversion.reads ⟨alternatives, conjuncts, 0⟩ rest h.1
    obtain ⟨l, t, hr, ha, ht⟩ :=
      Conjunction.reads alternatives (i.term :: conjuncts) rest h.2
    have hp : Reads source
        (.suffix ⟨⟨alternatives, conjuncts, 0 + i.bangs⟩, rest⟩ i.inner.term) [.mark .ampersand]
        (.operand ⟨⟨alternatives, i.term :: conjuncts, 0⟩, rest⟩) :=
      .mark fun token hk => by
        simp [State.next, State.atSuffix, hk, Level.afterAmpersand, i.term_eq_inverted]
    refine ⟨l, t, hi.append (hp.cons hr), ha, ?_⟩
    rw [ht, Conjunction.terms, ← Inversion.term]
    simp

theorem Inversion.reads : ∀ {i : Inversion} (l : Level) (rest : List (Opener × Level)),
    i.Admissible (Context.inGroup ⟨{}, rest⟩) →
    Reads source (.operand ⟨l, rest⟩) i.symbols
      (.suffix ⟨{ l with inversions := l.inversions + i.bangs }, rest⟩ i.inner.term)
  | .bang i, l, rest, h => by
    have hb : Reads source (.operand ⟨l, rest⟩) [.mark .bang] (.operand ⟨l.invert, rest⟩) :=
      .mark fun token hk => by simp [State.next, State.atOperand, hk]
    have hl : l.inversions + (i.bangs + 1) = l.inversions + 1 + i.bangs := by omega
    rw [Inversion.bangs, hl]
    exact hb.cons (Inversion.reads l.invert rest h)
  | .operand o, l, rest, h => Operand.reads (c := ⟨l, rest⟩) h

theorem Operand.reads : ∀ {o : Operand} {c : Context}, o.Admissible c.inGroup →
    Reads source (.operand c) o.symbols (.suffix c o.term)
  | .mk _ ss, _, h => (Primary.reads h.1).append (reads_suffixes ss h.2)

theorem Primary.reads : ∀ {p : Primary} {c : Context}, p.Admissible c.inGroup →
    Reads source (.operand c) p.symbols (.suffix c p.term)
  | .name n, c, h => .single fun token ht => by
    obtain ⟨hk, hn⟩ := Token.name_of_symbol ht
    simp [State.next, State.atOperand, hk, hn, Primary.term]
  | .paren e, c, h => by
    have ho : Reads source (.operand c) [.mark .leftParen] (.operand (c.enter .group)) :=
      .mark fun token hk => by simp [State.next, State.atOperand, hk, h.1]
    obtain ⟨l, t, hr, ht⟩ := Alternation.reads [] ((.group, c.level) :: c.enclosing) h.2
    have hc : Reads source (.suffix ⟨l, (.group, c.level) :: c.enclosing⟩ t) [.mark .rightParen]
        (.suffix c (.group e.term)) :=
      .mark fun token hk => by
        simp [State.next, State.atSuffix, hk, ht, e.term_eq_joined]
    exact ho.cons (hr.append hc)
  | .bracket is, c, h => by
    have ho : Reads source (.operand c) [.mark .leftBracket] (.operand (c.enter (.tuple []))) :=
      .mark fun token hk => by simp [State.next, State.atOperand, hk]
    obtain ⟨l, t, items, hr, ht⟩ := Items.reads [] c.level c.enclosing h
    have hc : Reads source (.suffix ⟨l, (.tuple items, c.level) :: c.enclosing⟩ t)
        [.mark .rightBracket] (.suffix c (.tuple is.terms)) :=
      .mark fun token hk => by simpa [State.next, State.atSuffix, hk] using ht
    exact ho.cons (hr.append hc)
  | .brace v, c, h => by
    have ho : Reads source (.operand c) [.mark .leftBrace] (.operand (c.enter .object)) :=
      .mark fun token hk => by simp [State.next, State.atOperand, hk]
    obtain ⟨l, t, hr, ht⟩ := Alternation.reads [] ((.object, c.level) :: c.enclosing) h
    have hc : Reads source (.suffix ⟨l, (.object, c.level) :: c.enclosing⟩ t) [.mark .rightBrace]
        (.suffix c (.object v.term)) :=
      .mark fun token hk => by simp [State.next, State.atSuffix, hk, ht, v.term_eq_joined]
    exact ho.cons (hr.append hc)
  | .entries k v, c, h => by
    have ho : Reads source (.operand c) [.mark .leftBrace] (.operand (c.enter .object)) :=
      .mark fun token hk => by simp [State.next, State.atOperand, hk]
    obtain ⟨l, t, hr, ht⟩ := Alternation.reads [] ((.object, c.level) :: c.enclosing) h.1
    have hm : Reads source (.suffix ⟨l, (.object, c.level) :: c.enclosing⟩ t) [.mark .colon]
        (.operand ⟨{}, (.entry k.term, c.level) :: c.enclosing⟩) :=
      .mark fun token hk => by simp [State.next, State.atSuffix, hk, ht, k.term_eq_joined]
    obtain ⟨l', t', hr', ht'⟩ := Alternation.reads [] ((.entry k.term, c.level) :: c.enclosing) h.2
    have hc : Reads source (.suffix ⟨l', (.entry k.term, c.level) :: c.enclosing⟩ t')
        [.mark .rightBrace] (.suffix c (.entries k.term v.term)) :=
      .mark fun token hk => by simp [State.next, State.atSuffix, hk, ht', v.term_eq_joined]
    exact ho.cons (hr.append (hm.cons (hr'.append hc)))

theorem Items.reads : ∀ {is : Items} (items : List Term) (outer : Level)
    (rest : List (Opener × Level)), is.Admissible (Context.inGroup ⟨{}, rest⟩) →
    ∃ (l : Level) (t : Term) (items' : List Term),
      Reads source (.operand ⟨{}, (.tuple items, outer) :: rest⟩) is.symbols
        (.suffix ⟨l, (.tuple items', outer) :: rest⟩ t) ∧
      items'.reverse ++ [l.close t] = items.reverse ++ is.terms
  | .single e, items, outer, rest, h => by
    obtain ⟨l, t, hr, ht⟩ := Alternation.reads [] ((.tuple items, outer) :: rest) h
    exact ⟨l, t, items, hr, by simp [ht, e.term_eq_joined, Items.terms]⟩
  | .comma e is, items, outer, rest, h => by
    obtain ⟨l, t, hr, ht⟩ := Alternation.reads [] ((.tuple items, outer) :: rest) h.1
    obtain ⟨l', t', items', hr', ht'⟩ := Items.reads (l.close t :: items) outer rest h.2
    have hc : Reads source (.suffix ⟨l, (.tuple items, outer) :: rest⟩ t) [.mark .comma]
        (.operand ⟨{}, (.tuple (l.close t :: items), outer) :: rest⟩) :=
      .mark fun token hk => by simp [State.next, State.atSuffix, hk]
    refine ⟨l', t', items', hr.append (hc.cons hr'), ?_⟩
    rw [ht', ht, Items.terms, e.term_eq_joined]
    simp

end

theorem readTokens_of_symbols {e : Alternation} (h : e.Admissible false) {tokens : List Token}
    (ht : tokens.map Token.symbol = e.symbols) : readTokens source tokens = .ok e.term := by
  obtain ⟨l, t, hr, hc⟩ := Alternation.reads [] [] h
  have hs : tokens.foldlM (State.next source) (.operand {}) = .ok (.suffix ⟨l, []⟩ t) :=
    hr tokens ht
  rw [readTokens, hs, e.term_eq_joined]
  exact congrArg Except.ok hc

end ValueCheck.Grammar
