import ValueCheck.Proofs.Grammar.Acceptance
import ValueCheck.Proofs.Grammar.Cutting

/-! Where a type string becomes hopeless. Short of a size range, whatever has been read can be
completed by a name and the brackets that are still missing, so an error about a token points
at the first token behind which no text helps. -/

namespace ValueCheck.Grammar

/-- Something can be written behind the text, apart by a space, that makes a type string of it. -/
def Viable (text : String) : Prop := ∃ t u, parse (text ++ " " ++ t) = .ok u

variable {source : String} {s s' : State} {token : Token} {e : GrammarError}

def Opener.closer : Opener → Kind × Char
  | .group => (.rightParen, ')')
  | .tuple _ => (.rightBracket, ']')
  | .object | .entry _ => (.rightBrace, '}')

def Opener.closed (opener : Opener) (t : Term) : Term :=
  match opener with
  | .group => .group t
  | .tuple items => .tuple (items.reverse ++ [t])
  | .object => .object t
  | .entry key => .entries key t

theorem Opener.punctuation_closer (opener : Opener) :
    punctuation opener.closer.2 = some opener.closer.1 ∧ isSign opener.closer.2 = false := by
  cases opener <;> exact ⟨rfl, rfl⟩

theorem Opener.reads_closer (opener : Opener) (l outer : Level)
    (rest : List (Opener × Level)) (t : Term) :
    Reads source (.suffix ⟨l, (opener, outer) :: rest⟩ t) [.mark opener.closer.1]
      (.suffix ⟨outer, rest⟩ (opener.closed (l.close t))) := by
  apply Reads.mark
  intro token hk
  cases opener <;> simp [State.next, State.atSuffix, closer, closed] at hk ⊢ <;> rw [hk]

def closers (enclosing : List (Opener × Level)) : List Char :=
  enclosing.map fun p => p.1.closer.2

def closerSymbols (enclosing : List (Opener × Level)) : List Symbol :=
  enclosing.map fun p => .mark p.1.closer.1

theorem lexes_closers (enclosing : List (Opener × Level)) :
    Lexes (closers enclosing) (closerSymbols enclosing) := by
  induction enclosing with
  | nil => exact .nil
  | cons p rest ih =>
    obtain ⟨hc, hs⟩ := p.1.punctuation_closer
    exact .mark hc hs ih

theorem reads_closers (source : String) (enclosing : List (Opener × Level)) (l : Level)
    (t : Term) : ∃ l' t', Reads source (.suffix ⟨l, enclosing⟩ t) (closerSymbols enclosing)
      (.suffix ⟨l', []⟩ t') := by
  induction enclosing generalizing l t with
  | nil => exact ⟨l, t, .nil⟩
  | cons p rest ih =>
    obtain ⟨opener, outer⟩ := p
    obtain ⟨l', t', hr⟩ := ih outer (opener.closed (l.close t))
    exact ⟨l', t', (opener.reads_closer l outer rest t).cons hr⟩

def State.sizing : State → Bool
  | size .. => true
  | _ => false

theorem exists_completion (hs : s.sizing = false) :
    ∃ cs symbols, Lexes cs symbols ∧
      ∀ source, ∃ l t, Reads source s symbols (.suffix ⟨l, []⟩ t) := by
  cases s with
  | size => cases hs
  | suffix c t =>
    refine ⟨_, _, lexes_closers c.enclosing, ?_⟩
    intro source
    exact reads_closers source c.enclosing c.level t
  | bracket c t =>
    refine ⟨']' :: closers c.enclosing, _, .mark rfl rfl (lexes_closers c.enclosing), ?_⟩
    intro source
    obtain ⟨l', t', hr⟩ := reads_closers source c.enclosing c.level (.array t)
    refine ⟨l', t', .cons (.mark ?_) hr⟩
    intro token hk
    simp [State.next, State.inBracket, hk]
  | operand c =>
    have hname : Lexes ['a'] [.name "a"] :=
      Lexes.name (n := "a") (.letter (by decide) .nil)
    have hclose : Lexes (' ' :: closers c.enclosing) (closerSymbols c.enclosing) :=
      (lexes_closers c.enclosing).blank
    refine ⟨_, _, hname.append_cons hclose (by decide), ?_⟩
    intro source
    obtain ⟨l', t', hr⟩ := reads_closers source c.enclosing c.level (.name "a")
    refine ⟨l', t', .cons (.single ?_) hr⟩
    intro token ht
    obtain ⟨hk, hn⟩ := Token.name_of_symbol ht
    simp [State.next, State.atOperand, hk, hn]

def Fault.Misplaced : Fault → Prop
  | .unexpectedToken .. | .nestedGroup => True
  | _ => False

theorem next_error (h : s.next source token = .error e) :
    (∃ c t start bounds, s = .size c t start bounds ∧
      e = invalidSize source ⟨start, token.span.stop⟩) ∨
      s.sizing = false ∧ ((∃ expected, e = unexpected token expected) ∨
        token.kind = .leftParen ∧ e = ⟨.nestedGroup, token.span⟩) := by
  cases s with
  | operand c =>
    right
    simp only [State.next, State.atOperand] at h
    split at h
    case h_3 hk =>
      split at h <;> cases h
      exact ⟨rfl, .inr ⟨hk, rfl⟩⟩
    case h_6 =>
      cases h
      exact ⟨rfl, .inl ⟨_, rfl⟩⟩
    all_goals cases h
  | suffix c t =>
    right
    simp only [State.next, State.atSuffix] at h
    split at h <;> cases h
    exact ⟨rfl, .inl ⟨_, rfl⟩⟩
  | bracket c t =>
    right
    simp only [State.next, State.inBracket] at h
    split at h <;> cases h
    exact ⟨rfl, .inl ⟨_, rfl⟩⟩
  | size c t start bounds =>
    left
    simp only [State.next, State.inSize] at h
    refine ⟨c, t, start, bounds, rfl, ?_⟩
    split at h
    case h_4 =>
      split at h <;> cases h
      rfl
    case h_5 =>
      cases h
      rfl
    all_goals cases h

theorem finish_error (h : s.finish source = .error e) :
    (∃ c t start bounds, s = .size c t start bounds ∧
      e = invalidSize source ⟨start, source.utf8ByteSize⟩) ∨
      s.sizing = false ∧ ∃ expected, e = State.endError source expected := by
  cases s with
  | operand c =>
    cases h
    exact .inr ⟨rfl, _, rfl⟩
  | suffix c t =>
    obtain ⟨l, enclosing⟩ := c
    cases enclosing with
    | nil => cases h
    | cons =>
      cases h
      exact .inr ⟨rfl, _, rfl⟩
  | bracket c t =>
    cases h
    exact .inr ⟨rfl, _, rfl⟩
  | size c t start bounds =>
    cases h
    exact .inl ⟨c, t, start, bounds, rfl, rfl⟩

theorem next_of_source (h : s.next source token = .ok s') (source' : String) :
    s.next source' token = .ok s' := by
  cases s with
  | size c t start bounds =>
    simp only [State.next, State.inSize] at h ⊢
    split at h
    case h_4 held _ _ _ =>
      cases hr : held.range? with
      | none => simp [hr] at h
      | some range => simpa [hr] using h
    case h_5 => cases h
    all_goals exact h
  | _ => exact h

theorem run_of_source {tokens : List Token} (h : tokens.foldlM (State.next source) s = .ok s')
    (source' : String) : tokens.foldlM (State.next source') s = .ok s' := by
  induction tokens generalizing s with
  | nil => exact h
  | cons token tokens ih =>
    rw [List.foldlM_cons] at h ⊢
    cases hn : s.next source token with
    | error e => simp [hn, bind, Except.bind] at h
    | ok u =>
      rw [hn] at h
      rw [next_of_source hn source']
      exact ih h

theorem run_error {tokens : List Token} (h : tokens.foldlM (State.next source) s = .error e) :
    ∃ before token after u, tokens = before ++ token :: after ∧
      before.foldlM (State.next source) s = .ok u ∧ u.next source token = .error e := by
  induction tokens generalizing s with
  | nil => cases h
  | cons token tokens ih =>
    rw [List.foldlM_cons] at h
    cases hn : s.next source token with
    | error e' =>
      rw [hn] at h
      cases h
      exact ⟨[], token, tokens, s, rfl, rfl, hn⟩
    | ok u =>
      rw [hn] at h
      obtain ⟨before, last, after, u', rfl, hu, he⟩ := ih h
      refine ⟨token :: before, last, after, u', rfl, ?_, he⟩
      rw [List.foldlM_cons, hn]
      exact hu

variable {front : List Char} {tokens before : List Token}

theorem lex_append (h : Scanned 0 front tokens) (t : String) :
    lex (String.ofList front ++ " " ++ t) =
      (scan (byteLength front + ' '.utf8Size) t.toList).map (tokens ++ ·) := by
  have ht : (String.ofList front ++ " " ++ t).toList = front ++ ' ' :: t.toList := by simp
  rw [lex, ht, h.scan_append (stops_of_isBlank rfl _), scan_blank rfl, Nat.zero_add]

theorem viable_of_run (h : Scanned 0 front tokens)
    (hr : tokens.foldlM (State.next source) (.operand {}) = .ok s) (hs : s.sizing = false) :
    Viable (String.ofList front) := by
  obtain ⟨cs, symbols, hl, hc⟩ := exists_completion hs
  obtain ⟨later, hx, hscan⟩ := hl (byteLength front + ' '.utf8Size) [] [] stops_nil (by rw [scan])
  rw [List.append_nil, List.append_nil] at hscan
  refine ⟨String.ofList cs, ?_⟩
  have hlex : lex (String.ofList front ++ " " ++ String.ofList cs) = .ok (tokens ++ later) := by
    rw [lex_append h, String.toList_ofList, hscan]
    rfl
  obtain ⟨l, t, hread⟩ := hc (String.ofList front ++ " " ++ String.ofList cs)
  refine ⟨l.close t, (parse_eq_ok_iff hlex).2 ?_⟩
  rw [readTokens, List.foldlM_append, run_of_source hr]
  exact congrArg (· >>= State.finish _) (hread later hx)

theorem not_viable_of_error (h : Scanned 0 front (before ++ [token]))
    (hr : before.foldlM (State.next source) (.operand {}) = .ok s)
    (he : s.next source token = .error e) : ¬ Viable (String.ofList front) := by
  rintro ⟨t, u, hp⟩
  have hlex := lex_append h t
  cases hscan : scan (byteLength front + ' '.utf8Size) t.toList with
  | error e' =>
    rw [hscan] at hlex
    simp [parse, hlex, Except.map, bind, Except.bind] at hp
  | ok later =>
    have hall : lex _ = .ok (before ++ [token] ++ later) := hlex.trans (by rw [hscan]; rfl)
    have hread := (parse_eq_ok_iff hall).1 hp
    rw [readTokens, List.append_assoc, List.foldlM_append, run_of_source hr] at hread
    cases hn : s.next (String.ofList front ++ " " ++ t) token with
    | error e' => simp [hn, bind, Except.bind] at hread
    | ok s' =>
      rw [next_of_source hn source] at he
      cases he

theorem readTokens_error (h : readTokens source tokens = .error e) :
    tokens.foldlM (State.next source) (.operand {}) = .error e ∨
      ∃ s, tokens.foldlM (State.next source) (.operand {}) = .ok s ∧
        s.finish source = .error e := by
  rw [readTokens] at h
  cases hr : tokens.foldlM (State.next source) (.operand {}) with
  | error e' =>
    rw [hr] at h
    cases h
    exact .inl rfl
  | ok s =>
    rw [hr] at h
    exact .inr ⟨s, rfl, h⟩

theorem parse_eq_readTokens (h : lex source = .ok tokens) (hne : tokens ≠ []) :
    parse source = readTokens source tokens := by
  rw [parse, h]
  cases tokens with
  | nil => exact absurd rfl hne
  | cons => rfl

theorem parse_error (h : lex source = .ok tokens) (he : parse source = .error e) :
    e.fault = .empty ∨ tokens.foldlM (State.next source) (.operand {}) = .error e ∨
      ∃ s, tokens.foldlM (State.next source) (.operand {}) = .ok s ∧
        s.finish source = .error e := by
  cases tokens with
  | nil =>
    rw [parse, h] at he
    cases he
    exact .inl rfl
  | cons first later =>
    rw [parse_eq_readTokens h (List.cons_ne_nil _ _)] at he
    exact .inr (readTokens_error he)

theorem viable_of_run_error (h : lex source = .ok tokens)
    (he : tokens.foldlM (State.next source) (.operand {}) = .error e) :
    (∃ found, e.fault = .invalidSize found) ∨
      e.fault.Misplaced ∧ Viable (Span.text ⟨0, e.span.start⟩ source) ∧
        ¬ Viable (Span.text ⟨0, e.span.stop⟩ source) := by
  obtain ⟨before, token, after, s, rfl, hr, hn⟩ := run_error he
  rcases next_error hn with ⟨-, -, -, -, -, rfl⟩ | ⟨hs, he⟩
  · exact .inl ⟨_, rfl⟩
  · right
    obtain ⟨hm, ht⟩ : e.fault.Misplaced ∧ e.span = token.span := by
      rcases he with ⟨expected, rfl⟩ | ⟨-, rfl⟩ <;> exact ⟨trivial, rfl⟩
    obtain ⟨front, word, back, hsource, hfront, hword, hspan, -⟩ := (Scanned.of_scan h).cut rfl
    have hstart : Span.text ⟨0, byteLength front⟩ source = String.ofList front := by
      rw [← String.ofList_toList (s := source), hsource, Span.text_append]
    have hstop :
        Span.text ⟨0, byteLength (front ++ word)⟩ source = String.ofList (front ++ word) := by
      rw [← String.ofList_toList (s := source), hsource, ← List.append_assoc, Span.text_append]
    rw [ht, hspan, Nat.zero_add, Nat.zero_add, hstart, hstop]
    exact ⟨hm, viable_of_run hfront hr hs, not_viable_of_error hword hr hn⟩

theorem viable_of_finish_error (h : lex source = .ok tokens)
    (hr : tokens.foldlM (State.next source) (.operand {}) = .ok s)
    (he : s.finish source = .error e) :
    (∃ found, e.fault = .invalidSize found) ∨
      (∃ expected, e.fault = .unexpectedEnd expected) ∧ Viable source := by
  rcases finish_error he with ⟨-, -, -, -, -, rfl⟩ | ⟨hs, expected, rfl⟩
  · exact .inl ⟨_, rfl⟩
  · have hv := viable_of_run (.of_scan h) hr hs
    rw [String.ofList_toList] at hv
    exact .inr ⟨⟨expected, rfl⟩, hv⟩

theorem parse_error_viable (h : lex source = .ok tokens) (he : parse source = .error e) :
    match e.fault with
    | .unexpectedToken .. | .nestedGroup =>
      Viable (Span.text ⟨0, e.span.start⟩ source) ∧ ¬ Viable (Span.text ⟨0, e.span.stop⟩ source)
    | .unexpectedEnd _ => Viable source
    | _ => True := by
  obtain ⟨fault, span⟩ := e
  rcases parse_error h he with hempty | hr | ⟨s, hr, hf⟩
  · cases hempty
    trivial
  · rcases viable_of_run_error h hr with ⟨found, hs⟩ | ⟨hm, hv⟩
    · cases hs
      trivial
    · cases fault with
      | unexpectedToken => exact hv
      | nestedGroup => exact hv
      | _ => exact hm.elim
  · rcases viable_of_finish_error h hr hf with ⟨found, hs⟩ | ⟨⟨expected, hx⟩, hv⟩
    · cases hs
      trivial
    · cases hx
      exact hv

theorem parse_error_viable_nested :
    parse "(a & (b))" = .error ⟨.nestedGroup, 5, 6⟩ ∧ Viable "(a & " ∧ ¬ Viable "(a & (" := by
  have h : lex "(a & (b))" = .ok [⟨.leftParen, "(", 0, 1⟩, ⟨.name, "a", 1, 2⟩,
      ⟨.ampersand, "&", 3, 4⟩, ⟨.leftParen, "(", 5, 6⟩, ⟨.name, "b", 6, 7⟩,
      ⟨.rightParen, ")", 7, 8⟩, ⟨.rightParen, ")", 8, 9⟩] := by decide +kernel
  have he : parse "(a & (b))" = .error ⟨.nestedGroup, 5, 6⟩ := by decide +kernel
  exact ⟨he, parse_error_viable h he⟩

end ValueCheck.Grammar
