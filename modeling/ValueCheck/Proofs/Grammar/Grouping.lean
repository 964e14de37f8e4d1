import ValueCheck.Proofs.Grammar.RoundTrip
import ValueCheck.Proofs.Grammar.Spacing

/-! Type strings in parentheses. Without a group of its own, what a type string is read as is
the operand of whatever is written around the parentheses; with one, its first parenthesis is
refused. -/

namespace ValueCheck.Grammar

mutual

def Term.hasGroup : Term → Bool
  | .name _ => false
  | .group _ => true
  | .allOf ts | .anyOf ts | .tuple ts => anyGroup ts
  | .entries k v => k.hasGroup || v.hasGroup
  | .array t | .object t | .inverted t | .nonEmpty t | .optional t | .sized t _ => t.hasGroup

def anyGroup : List Term → Bool
  | [] => false
  | t :: ts => t.hasGroup || anyGroup ts

end

def Spells (text : String) (symbols : List Symbol) : Prop :=
  (lex text).map (List.map Token.symbol) = .ok symbols

instance (text : String) (symbols : List Symbol) : Decidable (Spells text symbols) :=
  inferInstanceAs (Decidable (_ = _))

def opens (xs : List Symbol) : Bool := xs.contains (.mark .leftParen)

@[simp] theorem opens_nil : opens [] = false := rfl

@[simp] theorem opens_cons (x : Symbol) (xs : List Symbol) :
    opens (x :: xs) = (decide (x = .mark .leftParen) || opens xs) := by
  simp [opens, eq_comm]

@[simp] theorem opens_append (xs ys : List Symbol) : opens (xs ++ ys) = (opens xs || opens ys) := by
  simp [opens]

theorem hasGroup_joined {combine : List Term → Term} {ts : List Term}
    (h : (combine ts).hasGroup = anyGroup ts) : (joined combine ts).hasGroup = anyGroup ts := by
  unfold joined
  split
  · simp [anyGroup]
  · exact h

theorem hasGroup_iterate_array (k : Nat) (t : Term) :
    (Term.array^[k] t).hasGroup = t.hasGroup := by
  induction k with
  | zero => rfl
  | succ k ih =>
    rw [Function.iterate_succ_apply', ← ih]
    rfl

theorem hasGroup_suffixes (ss : List Suffix) (t : Term) :
    (ss.foldl Suffix.apply t).hasGroup = t.hasGroup := by
  induction ss generalizing t with
  | nil => rfl
  | cons s ss ih =>
    rw [List.foldl_cons, ih]
    cases s <;> rfl

theorem opens_suffixes (ss : List Suffix) : opens (ss.flatMap Suffix.symbols) = false := by
  induction ss with
  | nil => rfl
  | cons s ss ih =>
    rw [List.flatMap_cons, opens_append, ih, Bool.or_false]
    cases s with
    | sized size => cases size <;> rfl
    | _ => rfl

theorem Alternation.hasGroup_term (e : Alternation) : e.term.hasGroup = anyGroup e.terms := by
  rw [e.term_eq_joined, hasGroup_joined rfl]

theorem Conjunction.hasGroup_term (c : Conjunction) : c.term.hasGroup = anyGroup c.terms := by
  rw [c.term_eq_joined, hasGroup_joined rfl]

mutual

theorem Alternation.anyGroup_terms : ∀ e : Alternation, anyGroup e.terms = opens e.symbols
  | .single c => by simp [Alternation.terms, anyGroup, c.hasGroup_term, c.anyGroup_terms]
  | .pipe c e => by
    simp [Alternation.terms, anyGroup, c.hasGroup_term, c.anyGroup_terms, e.anyGroup_terms]

theorem Conjunction.anyGroup_terms : ∀ c : Conjunction, anyGroup c.terms = opens c.symbols
  | .single i => by simp [Conjunction.terms, anyGroup, hasGroup_iterate_array, i.hasGroup_core]
  | .ampersand i c => by
    simp [Conjunction.terms, anyGroup, hasGroup_iterate_array, i.hasGroup_core, c.anyGroup_terms]

theorem Inversion.hasGroup_core : ∀ i : Inversion, i.core.hasGroup = opens i.symbols
  | .bang i => by simp [Inversion.core, Term.hasGroup, i.hasGroup_core]
  | .operand o => o.hasGroup_core

theorem Operand.hasGroup_core : ∀ o : Operand, o.core.hasGroup = opens o.symbols
  | .mk p ss => by
    simp [Operand.core, hasGroup_suffixes, p.hasGroup_term, opens_suffixes]

theorem Primary.hasGroup_term : ∀ p : Primary, p.term.hasGroup = opens p.symbols
  | .name n => by simp [Primary.term, Term.hasGroup]
  | .paren e => by simp [Primary.term, Term.hasGroup]
  | .bracket is => by simp [Primary.term, Term.hasGroup, is.anyGroup_terms]
  | .brace v => by simp [Primary.term, Term.hasGroup, v.hasGroup_term, v.anyGroup_terms]
  | .entries k v => by
    simp [Primary.term, Term.hasGroup, k.hasGroup_term, k.anyGroup_terms, v.hasGroup_term,
      v.anyGroup_terms]

theorem Items.anyGroup_terms : ∀ is : Items, anyGroup is.terms = opens is.symbols
  | .single e => by simp [Items.terms, anyGroup, e.hasGroup_term, e.anyGroup_terms]
  | .comma e is => by
    simp [Items.terms, anyGroup, e.hasGroup_term, e.anyGroup_terms, is.anyGroup_terms]

end

theorem Alternation.hasGroup_eq_opens (e : Alternation) : e.term.hasGroup = opens e.symbols := by
  rw [e.hasGroup_term, e.anyGroup_terms]

variable {g : Bool}

mutual

theorem Alternation.Admissible.grouped : ∀ {e : Alternation}, e.Admissible g →
    opens e.symbols = false → e.Admissible true
  | .single c, h, ho => Conjunction.Admissible.grouped (c := c) h ho
  | .pipe c e, h, ho => by
    simp at ho
    exact ⟨h.1.grouped ho.1, h.2.grouped ho.2⟩

theorem Conjunction.Admissible.grouped : ∀ {c : Conjunction}, c.Admissible g →
    opens c.symbols = false → c.Admissible true
  | .single i, h, ho => Inversion.Admissible.grouped (i := i) h ho
  | .ampersand i c, h, ho => by
    simp at ho
    exact ⟨h.1.grouped ho.1, h.2.grouped ho.2⟩

theorem Inversion.Admissible.grouped : ∀ {i : Inversion}, i.Admissible g →
    opens i.symbols = false → i.Admissible true
  | .bang i, h, ho => Inversion.Admissible.grouped (i := i) h (by simpa using ho)
  | .operand o, h, ho => Operand.Admissible.grouped (o := o) h ho

theorem Operand.Admissible.grouped : ∀ {o : Operand}, o.Admissible g →
    opens o.symbols = false → o.Admissible true
  | .mk p ss, h, ho => by
    simp at ho
    exact ⟨h.1.grouped ho.1, h.2⟩

theorem Primary.Admissible.grouped : ∀ {p : Primary}, p.Admissible g →
    opens p.symbols = false → p.Admissible true
  | .name n, _, _ => trivial
  | .paren e, _, ho => by simp at ho
  | .bracket is, h, ho => by
    have hi : is.Admissible g := h
    exact hi.grouped (by simpa using ho)
  | .brace v, h, ho => Alternation.Admissible.grouped (e := v) h (by simpa using ho)
  | .entries k v, h, ho => by
    simp at ho
    exact ⟨h.1.grouped ho.1, h.2.grouped ho.2⟩

theorem Items.Admissible.grouped : ∀ {is : Items}, is.Admissible g →
    opens is.symbols = false → is.Admissible true
  | .single e, h, ho => Alternation.Admissible.grouped (e := e) h ho
  | .comma e is, h, ho => by
    simp at ho
    exact ⟨h.1.grouped ho.1, h.2.grouped ho.2⟩

end

variable {source source' : String} {t t' : Term}

theorem Spells.lexes {text : String} {xs : List Symbol} (h : Spells text xs) :
    Lexes text.toList xs := by
  rw [Spells] at h
  cases hl : lex text with
  | error e =>
    rw [hl] at h
    cases h
  | ok tokens =>
    rw [hl] at h
    cases h
    exact lexes_of_lex hl

theorem parse_eq_ok_of_lexes {e : Alternation} (he : e.Admissible false)
    (hx : Lexes source.toList e.symbols) : parse source = .ok e.term := by
  obtain ⟨tokens, hlex, ht⟩ := symbols_of_lexes hx
  exact parse_eq_ok_of_derives hlex ⟨ht.symm, he⟩

structure IsParen (source : String) (t : Term) (p : Primary) : Prop where
  term_eq : p.term = .group t
  admissible : p.Admissible false
  lexes {cs : List Char} {xs : List Symbol} (h : Lexes cs xs) :
    Lexes ('(' :: (source.toList ++ ')' :: cs)) (p.symbols ++ xs)

theorem exists_paren (h : parse source = .ok t) (hg : t.hasGroup = false) :
    ∃ p, IsParen source t p := by
  cases hl : lex source with
  | error e => simp [parse, hl, bind, Except.bind] at h
  | ok tokens =>
    obtain ⟨e, hs, ha, rfl⟩ := exists_derivation_of_readTokens ((parse_eq_ok_iff hl).1 h)
    rw [e.hasGroup_eq_opens] at hg
    have hlex := lexes_of_lex hl
    rw [← hs] at hlex
    refine ⟨.paren e, rfl, ⟨rfl, ha.grouped hg⟩, ?_⟩
    intro cs xs hcs
    have hclose := hlex.append_cons (Lexes.mark (c := ')') rfl rfl hcs) (by decide)
    simpa using Lexes.mark (c := '(') rfl rfl hclose

namespace IsParen

variable {p p' : Primary} {xs : List Symbol}

theorem parse_decorated (h : IsParen source t p) {n : Nat} {us : List Suffix}
    {bangs suffixes text : String} (hb : Spells bangs (List.replicate n (.mark .bang)))
    (hs : Spells suffixes (us.flatMap Suffix.symbols)) (hu : ∀ u ∈ us, u.Fits)
    (ht : text.toList = bangs.toList ++ '(' :: (source.toList ++ ')' :: suffixes.toList)) :
    parse text = .ok (inverted n (us.foldl Suffix.apply (.group t))) := by
  let l : OpenLevel := { inversions := n }
  let o : Operand := .mk p us
  have hl : l.Admissible false := by simp [l, OpenLevel.Admissible]
  have hx := hb.lexes.append (h.lexes hs.lexes) fun _ _ => stops_cons (by decide) (by decide)
  have hp : parse text = .ok (l.close o).term := by
    apply parse_eq_ok_of_lexes (OpenLevel.admissible_close (o := o) hl ⟨h.admissible, hu⟩)
    rw [l.symbols_close, ht]
    simpa [l, o, OpenLevel.symbols] using hx
  rw [hp, l.term_close, ← h.term_eq]
  rfl

theorem lexes_joined (h : IsParen source t p) (h' : IsParen source' t' p') {between : String}
    {xs : List Symbol} (hb : Spells between xs) :
    Lexes ("(" ++ source ++ ")" ++ between ++ "(" ++ source' ++ ")").toList
      (p.symbols ++ (xs ++ p'.symbols)) := by
  have hx := h.lexes (hb.lexes.append (h'.lexes .nil) fun _ _ => stops_cons (by decide) (by decide))
  simpa using hx

theorem parse_ampersand (h : IsParen source t p) (h' : IsParen source' t' p') {between : String}
    (hb : Spells between [.mark .ampersand]) :
    parse ("(" ++ source ++ ")" ++ between ++ "(" ++ source' ++ ")") =
      .ok (.allOf [.group t, .group t']) := by
  let e : Alternation :=
    .single (.ampersand (.operand (.mk p [])) (.single (.operand (.mk p' []))))
  have he : e.Admissible false := ⟨⟨h.admissible, by simp⟩, h'.admissible, by simp⟩
  have hx := h.lexes_joined h' hb
  rw [parse_eq_ok_of_lexes (e := e) he (by simpa [e] using hx), ← h.term_eq, ← h'.term_eq]
  rfl

theorem parse_pipe (h : IsParen source t p) (h' : IsParen source' t' p') {between : String}
    (hb : Spells between [.mark .pipe]) :
    parse ("(" ++ source ++ ")" ++ between ++ "(" ++ source' ++ ")") =
      .ok (.anyOf [.group t, .group t']) := by
  let e : Alternation :=
    .pipe (.single (.operand (.mk p []))) (.single (.single (.operand (.mk p' []))))
  have he : e.Admissible false := ⟨⟨h.admissible, by simp⟩, h'.admissible, by simp⟩
  have hx := h.lexes_joined h' hb
  rw [parse_eq_ok_of_lexes (e := e) he (by simpa [e] using hx), ← h.term_eq, ← h'.term_eq]
  rfl

end IsParen

theorem IsTail.not_mem {c : Char} {cs : List Char} (h : IsTail cs) (hw : isWordChar c = false)
    (hd : c ≠ '-') : c ∉ cs := by
  induction h with
  | nil => simp
  | word hc _ ih =>
    rintro hm
    rcases List.mem_cons.1 hm with rfl | hm
    · exact absurd hc (by simp [hw])
    · exact ih hm
  | hyphen hc _ ih =>
    intro hm
    rcases List.mem_cons.1 hm with rfl | hm
    · exact hd rfl
    rcases List.mem_cons.1 hm with rfl | hm
    · exact absurd hc (by simp [hw])
    · exact ih hm

theorem leftParen_of_mem {word : List Char} {k : Kind} (hw : IsLexeme word k) (hm : '(' ∈ word) :
    k = .leftParen ∧ word = ['('] := by
  cases k
  case name =>
    cases hw with
    | letter hc ht =>
      rcases List.mem_cons.1 hm with rfl | hm
      · cases hc
      · exact absurd hm (ht.not_mem (by decide) (by decide))
    | sign hc _ ht =>
      rcases List.mem_cons.1 hm with rfl | hm
      · cases hc
      · exact absurd hm (ht.not_mem (by decide) (by decide))
  case integer => cases hw.2 _ hm
  all_goals
    obtain ⟨c, rfl, hc⟩ := hw
    obtain rfl := List.mem_singleton.1 hm
    cases hc
  exact ⟨rfl, rfl⟩

theorem Scanned.not_mem_leftParen {offset : Nat} {cs : List Char} {tokens : List Token}
    (h : Scanned offset cs tokens) (hk : ∀ token ∈ tokens, token.kind ≠ .leftParen) :
    '(' ∉ cs := by
  induction h with
  | nil => simp
  | @blank offset b cs tokens hb _ ih =>
    rw [List.mem_cons, not_or]
    refine ⟨?_, ih hk⟩
    rintro rfl
    cases hb
  | @word offset word rest k tokens hw _ _ ih =>
    rw [List.forall_mem_cons] at hk
    rw [List.mem_append, not_or]
    exact ⟨fun hm => hk.1 (leftParen_of_mem hw hm).1, ih hk.2⟩

namespace Context

def under (c : Context) (below : List (Opener × Level)) : Context :=
  { c with enclosing := c.enclosing ++ below }

end Context

def State.under (below : List (Opener × Level)) : State → State
  | operand c => operand (c.under below)
  | suffix c t => suffix (c.under below) t
  | bracket c t => bracket (c.under below) t
  | size c t start bounds => size (c.under below) t start bounds

variable {s s' : State} {token : Token} {tokens : List Token} {below : List (Opener × Level)}

theorem next_under (h : s.next source token = .ok s') (hk : token.kind ≠ .leftParen) :
    (s.under below).next source token = .ok (s'.under below) := by
  cases s with
  | operand c =>
    simp only [State.next, State.under, State.atOperand] at h ⊢
    split at h
    case h_3 hl => exact absurd hl hk
    case h_6 => cases h
    all_goals
      cases h
      simp_all [Context.under, Context.enter]
  | suffix c t =>
    obtain ⟨l, enclosing⟩ := c
    simp only [State.next, State.under, State.atSuffix] at h ⊢
    split at h <;> cases h <;> simp_all [Context.under]
  | bracket c t =>
    simp only [State.next, State.under, State.inBracket] at h ⊢
    split at h
    · cases h
      simp_all
    · cases h
  | size c t start bounds =>
    simp only [State.next, State.under, State.inSize] at h ⊢
    split at h
    case h_4 held _ hb _ =>
      cases hr : held.range? with
      | none => simp [hr] at h
      | some range =>
        rw [hr] at h
        cases h
        simp_all
    case h_5 => cases h
    all_goals
      cases h
      simp_all

theorem run_under (h : tokens.foldlM (State.next source) s = .ok s')
    (hk : ∀ token ∈ tokens, token.kind ≠ .leftParen) :
    tokens.foldlM (State.next source) (s.under below) = .ok (s'.under below) := by
  induction tokens generalizing s with
  | nil =>
    cases h
    rfl
  | cons token tokens ih =>
    rw [List.forall_mem_cons] at hk
    rw [List.foldlM_cons] at h ⊢
    cases hn : s.next source token with
    | error e => simp [hn, bind, Except.bind] at h
    | ok u =>
      rw [hn] at h
      rw [next_under hn hk.1]
      exact ih h hk.2

theorem operand_of_next (h : s.next source token = .ok s') (hk : token.kind = .leftParen) :
    ∃ c, s = .operand c := by
  cases s with
  | operand c => exact ⟨c, rfl⟩
  | suffix c t => simp [State.next, State.atSuffix, hk] at h
  | bracket c t => simp [State.next, State.inBracket, hk] at h
  | size c t start bounds => simp [State.next, State.inSize, hk] at h

theorem next_nested {c : Context} (hc : c.inGroup = true) (hk : token.kind = .leftParen) :
    State.next source (.operand c) token = .error ⟨.nestedGroup, token.span⟩ := by
  rw [State.next, State.atOperand, hk]
  exact if_pos hc

theorem run_moved {c : Context} (h : tokens.foldlM (State.next source) s = .ok (.operand c))
    (n : Nat) (source' : String) :
    (tokens.map (Token.moved · n)).foldlM (State.next source') s = .ok (.operand c) := by
  have hl : (tokens.map (Token.moved · n)).map Token.lexeme = tokens.map Token.lexeme := by
    rw [List.map_map]
    rfl
  have hu := @run_unplaced source' source s s _ _ rfl hl
  rw [h] at hu
  cases hr : (tokens.map (Token.moved · n)).foldlM (State.next source') s with
  | error e =>
    rw [hr] at hu
    cases hu
  | ok u =>
    rw [hr] at hu
    cases u with
    | operand c' =>
      cases hu
      rfl
    | _ => cases hu

section

variable {before after : List Token} {e : GrammarError}

theorem exists_next_of_readTokens (h : readTokens source (before ++ token :: after) = .ok t) :
    ∃ s s', before.foldlM (State.next source) (.operand {}) = .ok s ∧
      s.next source token = .ok s' := by
  rw [readTokens, List.foldlM_append] at h
  cases hr : before.foldlM (State.next source) (.operand {}) with
  | error e => simp [hr, bind, Except.bind] at h
  | ok s =>
    refine ⟨s, ?_⟩
    cases hn : s.next source token with
    | error e => simp [hr, hn, bind, Except.bind] at h
    | ok s' => exact ⟨s', rfl, rfl⟩

theorem readTokens_eq_error (hr : before.foldlM (State.next source) (.operand {}) = .ok s)
    (hn : s.next source token = .error e) :
    readTokens source (before ++ token :: after) = .error e := by
  rw [readTokens, List.foldlM_append, hr]
  change ((token :: after).foldlM (State.next source) s >>= _) = _
  rw [List.foldlM_cons, hn]
  rfl

end

theorem lex_paren (h : lex source = .ok tokens) :
    ∃ close, lex ("(" ++ source ++ ")") =
      .ok (⟨.leftParen, "(", 0, 1⟩ :: (tokens.map (Token.moved · 1) ++ [close])) := by
  let n := 0 + 1 + byteLength source.toList
  have hclose : scan n [')'] = .ok [⟨.rightParen, ")", n, n + 1⟩] := by
    have hw : lexeme? ([')'] ++ []) = some (.rightParen, [')']) := rfl
    have hs := scan_word hw n
    rw [scan] at hs
    exact hs
  have hstops : Stops [')'] := stops_cons (by decide) (by decide)
  have hm := ((Scanned.of_scan h).moved 1).scan_append hstops
  rw [hclose] at hm
  have hw : lexeme? (['('] ++ (source.toList ++ [')'])) = some (.leftParen, ['(']) := by
    apply lexeme?_punctuation rfl
    intro hs
    cases hs
  have hs := scan_word hw 0
  have hone : 0 + byteLength ['('] = 0 + 1 := rfl
  rw [hone, hm] at hs
  refine ⟨⟨.rightParen, ")", n, n + 1⟩, ?_⟩
  rw [lex, String.toList_append, String.toList_append, List.append_assoc]
  exact hs

section

variable {before after : List Token}

theorem exists_first_leftParen (h : opens (tokens.map Token.symbol) = true) :
    ∃ before token after, tokens = before ++ token :: after ∧ token.kind = .leftParen ∧
      ∀ u ∈ before, u.kind ≠ .leftParen := by
  rw [opens, List.contains_iff_mem] at h
  obtain ⟨xs, ys, hxs, hfirst⟩ := List.eq_append_cons_of_mem h
  obtain ⟨before, rest, rfl, rfl, hrest⟩ := List.map_eq_append_iff.1 hxs
  obtain ⟨token, after, rfl, htoken, rfl⟩ := List.map_eq_cons_iff.1 hrest
  refine ⟨before, token, after, rfl, Token.kind_of_symbol htoken, ?_⟩
  intro u hu hk
  apply hfirst
  rw [List.mem_map]
  exact ⟨u, hu, by simp [Token.symbol, hk]⟩

theorem cut_leftParen (h : lex source = .ok (before ++ token :: after))
    (hk : token.kind = .leftParen) (hb : ∀ u ∈ before, u.kind ≠ .leftParen) :
    ∃ front back, source = front ++ "(" ++ back ∧ '(' ∉ front.toList ∧
      token.span = ⟨front.utf8ByteSize, front.utf8ByteSize + 1⟩ := by
  obtain ⟨front, word, back, hsource, hfront, -, hspan, -, hword⟩ := (Scanned.of_scan h).cut rfl
  rw [hk] at hword
  obtain ⟨c, rfl, hc⟩ := hword
  obtain rfl := punctuation_eq_leftParen hc
  refine ⟨String.ofList front, String.ofList back, ?_, ?_, ?_⟩
  · rw [← String.ofList_toList (s := source), hsource, String.append_assoc]
    simp
  · rw [String.toList_ofList]
    exact hfront.not_mem_leftParen hb
  · rw [hspan, utf8ByteSize_ofList, byteLength_append, Nat.zero_add, Nat.zero_add]
    rfl

theorem parse_paren_of_first (h : lex source = .ok (before ++ token :: after))
    (hp : parse source = .ok t) (hk : token.kind = .leftParen)
    (hb : ∀ u ∈ before, u.kind ≠ .leftParen) :
    parse ("(" ++ source ++ ")") = .error ⟨.nestedGroup, (token.moved 1).span⟩ := by
  obtain ⟨s, s', hrun, hnext⟩ := exists_next_of_readTokens ((parse_eq_ok_iff h).1 hp)
  obtain ⟨c, rfl⟩ := operand_of_next hnext hk
  have hmoved : (⟨.leftParen, "(", 0, 1⟩ :: before.map (Token.moved · 1)).foldlM
      (State.next ("(" ++ source ++ ")")) (.operand {}) = .ok (.operand (c.under [(.group, {})])) :=
    run_moved (run_under hrun hb) 1 ("(" ++ source ++ ")")
  have hgroup : (c.under [(.group, {})]).inGroup = true := by
    simp [Context.under, Context.inGroup]
  have hnested : State.next ("(" ++ source ++ ")") (.operand (c.under [(.group, {})]))
      (token.moved 1) = .error ⟨.nestedGroup, (token.moved 1).span⟩ := next_nested hgroup hk
  obtain ⟨close, hlex⟩ := lex_paren h
  rw [List.map_append, List.map_cons, List.append_assoc, List.cons_append] at hlex
  rw [parse, hlex]
  exact readTokens_eq_error hmoved hnested

end

theorem parse_nested (h : parse source = .ok t) (hg : t.hasGroup = true) :
    ∃ front back, source = front ++ "(" ++ back ∧ '(' ∉ front.toList ∧
      parse ("(" ++ source ++ ")") =
        .error ⟨.nestedGroup, front.utf8ByteSize + 1, front.utf8ByteSize + 2⟩ := by
  cases hl : lex source with
  | error e => simp [parse, hl, bind, Except.bind] at h
  | ok tokens =>
    obtain ⟨e, hs, -, rfl⟩ := exists_derivation_of_readTokens ((parse_eq_ok_iff hl).1 h)
    rw [e.hasGroup_eq_opens, hs] at hg
    obtain ⟨before, token, after, rfl, hk, hb⟩ := exists_first_leftParen hg
    obtain ⟨front, back, hsource, hfront, hspan⟩ := cut_leftParen hl hk hb
    refine ⟨front, back, hsource, hfront, ?_⟩
    rw [parse_paren_of_first hl h hk hb, Token.moved, hspan]

end ValueCheck.Grammar
