import ValueCheck.Proofs.Grammar.Viability

/-! What errors point at. The span of an error is that of a piece of the source, and what the
error quotes is that piece. -/

namespace ValueCheck.Grammar

def Span.Covers (span : Span) (source piece : String) : Prop :=
  ∃ front back, source = front ++ piece ++ back ∧
    span = ⟨front.utf8ByteSize, front.utf8ByteSize + piece.utf8ByteSize⟩

variable {source piece : String} {span : Span} {token x : Token} {tokens before after : List Token}
  {e : GrammarError} {s s' : State}

theorem covers_of_toList {front middle back : List Char} {start stop : Nat}
    (h : source.toList = front ++ (middle ++ back)) (hstart : start = byteLength front)
    (hstop : stop = byteLength (front ++ middle)) :
    Span.Covers ⟨start, stop⟩ source (String.ofList middle) := by
  refine ⟨String.ofList front, String.ofList back, ?_, ?_⟩
  · rw [← String.ofList_append, ← String.ofList_append, List.append_assoc, ← h,
      String.ofList_toList]
  · rw [utf8ByteSize_ofList, utf8ByteSize_ofList, ← byteLength_append, hstart, hstop]

theorem slice_front {offset : Nat} {front : List Char} (h : offset + byteLength front ≤ span.start)
    (back : List Char) :
    slice span offset (front ++ back) = slice span (offset + byteLength front) back := by
  induction front generalizing offset with
  | nil => rfl
  | cons c front ih =>
    have hpos := c.utf8Size_pos
    rw [byteLength] at h ⊢
    have hc : ¬ span.start ≤ offset := by omega
    rw [List.cons_append, slice, ih (by omega), Nat.add_assoc]
    simp only [hc, decide_false, Bool.false_and, Bool.false_eq_true, if_false]

namespace Span.Covers

theorem text_eq (h : span.Covers source piece) : span.text source = piece := by
  obtain ⟨front, back, rfl, rfl⟩ := h
  let span : Span := ⟨byteLength front.toList, byteLength front.toList + byteLength piece.toList⟩
  have hle : 0 + byteLength front.toList ≤ span.start := Nat.le_of_eq (Nat.zero_add _)
  have hfront := slice_front hle (piece.toList ++ back.toList)
  rw [Nat.zero_add, slice_append (Nat.le_refl _)] at hfront
  rw [Span.text, String.toList_append, String.toList_append, List.append_assoc,
    ← byteLength_toList, ← byteLength_toList, hfront, String.ofList_toList]

theorem valid (h : span.Covers source piece) : span.start ≤ span.stop ∧
    span.stop ≤ source.utf8ByteSize ∧ String.Pos.Raw.IsValid source ⟨span.start⟩ ∧
      String.Pos.Raw.IsValid source ⟨span.stop⟩ := by
  obtain ⟨front, back, rfl, rfl⟩ := h
  refine ⟨Nat.le_add_right _ _, ?_, ?_, ?_⟩
  · rw [String.utf8ByteSize_append, String.utf8ByteSize_append]
    exact Nat.le_add_right _ _
  · rw [String.Pos.Raw.isValid_iff_exists_append]
    exact ⟨front, piece ++ back, String.append_assoc, rfl⟩
  · rw [String.Pos.Raw.isValid_iff_exists_append]
    exact ⟨front ++ piece, back, rfl, by rw [String.rawEndPos, String.utf8ByteSize_append]⟩

end Span.Covers

theorem covers_token (h : lex source = .ok (before ++ token :: after)) :
    token.span.Covers source token.text := by
  obtain ⟨front, word, back, hsource, -, -, hspan, htext, -⟩ := (Scanned.of_scan h).cut rfl
  rw [hspan, htext]
  exact covers_of_toList hsource (Nat.zero_add _) (Nat.zero_add _)

theorem covers_between (h : lex source = .ok (before ++ token :: after)) (hx : x ∈ before) :
    ∃ piece, Span.Covers ⟨x.span.start, token.span.stop⟩ source piece := by
  obtain ⟨front, word, back, hsource, hfront, -, hspan, -⟩ := (Scanned.of_scan h).cut rfl
  obtain ⟨first, later, rfl⟩ := List.append_of_mem hx
  obtain ⟨front', word', back', rfl, -, -, hspan', -⟩ := hfront.cut rfl
  have hpiece : source.toList = front' ++ ((word' ++ back' ++ word) ++ back) := by
    rw [hsource]
    simp
  refine ⟨_, covers_of_toList hpiece ?_ ?_⟩
  · rw [hspan', Nat.zero_add]
  · rw [hspan, Nat.zero_add]
    simp

theorem covers_rest (h : lex source = .ok tokens) (hx : x ∈ tokens) :
    ∃ piece, Span.Covers ⟨x.span.start, source.utf8ByteSize⟩ source piece := by
  obtain ⟨first, later, rfl⟩ := List.append_of_mem hx
  obtain ⟨front, word, back, hsource, -, -, hspan, -⟩ := (Scanned.of_scan h).cut rfl
  have hpiece : source.toList = front ++ ((word ++ back) ++ []) := by
    rw [hsource, List.append_nil]
  refine ⟨_, covers_of_toList hpiece ?_ ?_⟩
  · rw [hspan, Nat.zero_add]
  · rw [← hsource, byteLength_toList]

theorem text_of_leftParen (h : lex source = .ok (before ++ token :: after))
    (hk : token.kind = .leftParen) : token.text = "(" := by
  obtain ⟨front, word, back, -, -, -, -, htext, hword⟩ := (Scanned.of_scan h).cut rfl
  rw [hk] at hword
  obtain ⟨c, rfl, hc⟩ := hword
  obtain rfl := punctuation_eq_leftParen hc
  exact htext

theorem next_size {c : Context} {t : Term} {start : Nat} {bounds : Bounds}
    (h : s.next source token = .ok (.size c t start bounds)) :
    token.span.start = start ∨ ∃ c t bounds, s = .size c t start bounds := by
  cases s with
  | operand c =>
    simp only [State.next, State.atOperand] at h
    split at h
    case h_3 => split at h <;> cases h
    all_goals cases h
  | suffix c t =>
    simp only [State.next, State.atSuffix] at h
    split at h <;> cases h
    exact .inl rfl
  | bracket c t =>
    simp only [State.next, State.inBracket] at h
    split at h <;> cases h
  | size c t start' bounds =>
    right
    simp only [State.next, State.inSize] at h
    split at h
    case h_4 => split at h <;> cases h
    all_goals
      cases h <;> exact ⟨_, _, _, rfl⟩

theorem start_of_run {c : Context} {t : Term} {start : Nat} {bounds : Bounds}
    (h : tokens.foldlM (State.next source) s = .ok (.size c t start bounds)) :
    (∃ token ∈ tokens, token.span.start = start) ∨ ∃ c t bounds, s = .size c t start bounds := by
  induction tokens generalizing s with
  | nil =>
    cases h
    exact .inr ⟨c, t, bounds, rfl⟩
  | cons token tokens ih =>
    rw [List.foldlM_cons] at h
    cases hn : s.next source token with
    | error e => simp [hn, bind, Except.bind] at h
    | ok u =>
      rw [hn] at h
      rcases ih h with ⟨x, hx, hs⟩ | ⟨c, t, bounds, rfl⟩
      · exact .inl ⟨x, List.mem_cons_of_mem token hx, hs⟩
      · rcases next_size hn with hs | hs
        · exact .inl ⟨token, List.mem_cons_self, hs⟩
        · exact .inr hs

theorem start_of_run_operand {c : Context} {t : Term} {start : Nat} {bounds : Bounds}
    (h : tokens.foldlM (State.next source) (.operand {}) = .ok (.size c t start bounds)) :
    ∃ token ∈ tokens, token.span.start = start := by
  rcases start_of_run h with h | ⟨c, t, bounds, h⟩
  · exact h
  · cases h

theorem scan_error {offset : Nat} {cs : List Char} (h : scan offset cs = .error e) :
    ∃ front c back, cs = front ++ ([c] ++ back) ∧ isBlank c = false ∧
      e = ⟨.invalidCharacter c, offset + byteLength front, offset + byteLength (front ++ [c])⟩ := by
  fun_induction scan offset cs with
  | case1 => cases h
  | case2 offset c cs hb ih =>
    obtain ⟨front, d, back, rfl, hd, rfl⟩ := ih h
    exact ⟨c :: front, d, back, rfl, hd, by simp [byteLength, Nat.add_assoc]⟩
  | case3 offset c cs hb hl =>
    cases h
    exact ⟨[], c, cs, rfl, eq_false_of_ne_true hb, rfl⟩
  | case4 => cases h
  | case5 offset c cs hb k word hl stop e' hs ih =>
    cases h
    obtain ⟨front, d, back, hcs, hd, rfl⟩ := ih hs
    refine ⟨word ++ front, d, back, ?_, hd, ?_⟩
    · rw [← append_drop_of_lexeme? hl, hcs, List.append_assoc]
    · simp [stop, byteLength_append, Nat.add_assoc]

theorem Scanned.isBlank_of_nil {offset : Nat} {cs : List Char} (h : Scanned offset cs tokens)
    (ht : tokens = []) : ∀ c ∈ cs, isBlank c = true := by
  induction h with
  | nil => simp
  | blank hb _ ih =>
    rw [List.forall_mem_cons]
    exact ⟨hb, ih ht⟩
  | word => cases ht

def Fault.Quotes (source : String) (span : Span) : Fault → Prop
  | .empty => span = ⟨0, source.utf8ByteSize⟩ ∧ ∀ c ∈ source.toList, isBlank c = true
  | .invalidCharacter found =>
    (span.text source).toList.head? = some found ∧ isBlank found = false
  | .unexpectedToken found _ => found = span.text source
  | .unexpectedEnd _ => span = ⟨source.utf8ByteSize, source.utf8ByteSize⟩
  | .nestedGroup => span.text source = "("
  | .invalidSize found => found = span.text source

structure GrammarError.Located (e : GrammarError) (source : String) : Prop where
  ordered : e.span.start ≤ e.span.stop
  inside : e.span.stop ≤ source.utf8ByteSize
  start_valid : String.Pos.Raw.IsValid source ⟨e.span.start⟩
  stop_valid : String.Pos.Raw.IsValid source ⟨e.span.stop⟩
  quotes : e.fault.Quotes source e.span

theorem Span.Covers.located (h : e.span.Covers source piece)
    (hq : e.fault.Quotes source e.span) : e.Located source :=
  ⟨h.valid.1, h.valid.2.1, h.valid.2.2.1, h.valid.2.2.2, hq⟩

theorem covers_end (source : String) :
    Span.Covers ⟨source.utf8ByteSize, source.utf8ByteSize⟩ source "" :=
  ⟨source, "", by simp, rfl⟩

theorem covers_whole (source : String) : Span.Covers ⟨0, source.utf8ByteSize⟩ source source :=
  ⟨"", "", by simp, by simp⟩

theorem located_of_next (h : lex source = .ok (before ++ token :: after))
    (hr : before.foldlM (State.next source) (.operand {}) = .ok s)
    (he : s.next source token = .error e) : e.Located source := by
  rcases next_error he with ⟨c, t, start, bounds, rfl, rfl⟩ | ⟨-, ⟨expected, rfl⟩ | ⟨hk, rfl⟩⟩
  · obtain ⟨x, hx, rfl⟩ := start_of_run_operand hr
    obtain ⟨piece, hp⟩ := covers_between h hx
    exact hp.located rfl
  · exact (covers_token h).located (covers_token h).text_eq.symm
  · exact (covers_token h).located ((covers_token h).text_eq.trans (text_of_leftParen h hk))

theorem located_of_finish (h : lex source = .ok tokens)
    (hr : tokens.foldlM (State.next source) (.operand {}) = .ok s)
    (he : s.finish source = .error e) : e.Located source := by
  rcases finish_error he with ⟨c, t, start, bounds, rfl, rfl⟩ | ⟨-, expected, rfl⟩
  · obtain ⟨x, hx, rfl⟩ := start_of_run_operand hr
    obtain ⟨piece, hp⟩ := covers_rest h hx
    exact hp.located rfl
  · exact (covers_end source).located rfl

theorem located_of_lex (h : lex source = .error e) : e.Located source := by
  obtain ⟨front, c, back, hsource, hc, rfl⟩ := scan_error h
  have hp := covers_of_toList hsource (Nat.zero_add _) (Nat.zero_add _)
  refine hp.located ⟨?_, hc⟩
  rw [hp.text_eq, String.toList_ofList]
  rfl

theorem parse_error_located (h : parse source = .error e) : e.Located source := by
  cases hl : lex source with
  | error e' =>
    rw [parse, hl] at h
    cases h
    exact located_of_lex hl
  | ok tokens =>
    by_cases hne : tokens = []
    · subst hne
      rw [parse, hl] at h
      cases h
      exact (covers_whole source).located ⟨rfl, (Scanned.of_scan hl).isBlank_of_nil rfl⟩
    · rw [parse_eq_readTokens hl hne] at h
      rcases readTokens_error h with hr | ⟨s, hr, hf⟩
      · obtain ⟨before, token, after, s, rfl, hr, hn⟩ := run_error hr
        exact located_of_next hl hr hn
      · exact located_of_finish hl hr hf

end ValueCheck.Grammar
