import ValueCheck.Proofs.Grammar.Cutting

/-! Blanks between tokens. They are lexed into nothing, and the reader sees kinds and texts of
tokens only; so with more of them a type string reads as before. -/

namespace ValueCheck.Grammar

def Token.lexeme (t : Token) : Kind × String := (t.kind, t.text)

def Fault.unquoted : Fault → Fault
  | .invalidSize _ => .invalidSize ""
  | fault => fault

def State.unplaced : State → State
  | size c t _ bounds => size c t 0 bounds
  | s => s

def unplaced (x : Except GrammarError State) : Except Fault State :=
  (x.map State.unplaced).mapError (·.fault.unquoted)

variable {source source' : String} {s s' u u' : State} {t t' : Token} {tokens tokens' : List Token}
  {e e' : GrammarError}

theorem next_unplaced (hs : s.unplaced = s'.unplaced) (ht : t.lexeme = t'.lexeme) :
    unplaced (s.next source t) = unplaced (s'.next source' t') := by
  obtain ⟨hk, hx⟩ : t.kind = t'.kind ∧ t.text = t'.text := Prod.mk.inj ht
  cases s <;> cases s' <;> cases hs
  case operand c =>
    simp only [State.next, State.atOperand, unexpected, hk, hx]
    split
    case h_3 => split <;> rfl
    all_goals rfl
  case suffix c u =>
    simp only [State.next, State.atSuffix, unexpected, hk, hx]
    split <;> rfl
  case bracket c u =>
    simp only [State.next, State.inBracket, unexpected, hk, hx]
    split <;> rfl
  case size c u start start' bounds =>
    simp only [State.next, State.inSize, invalidSize, hk, hx]
    split
    case h_4 => split <;> rfl
    all_goals rfl

theorem run_unplaced (hs : s.unplaced = s'.unplaced)
    (ht : tokens.map Token.lexeme = tokens'.map Token.lexeme) :
    unplaced (tokens.foldlM (State.next source) s) =
      unplaced (tokens'.foldlM (State.next source') s') := by
  induction tokens generalizing s s' tokens' with
  | nil =>
    obtain rfl := List.map_eq_nil_iff.1 ht.symm
    exact congrArg (fun u => Except.ok u) hs
  | cons t tokens ih =>
    obtain ⟨t', later, rfl, ht', hl⟩ := List.map_eq_cons_iff.1 ht.symm
    have hn := @next_unplaced source source' s s' t t' hs ht'.symm
    rw [List.foldlM_cons, List.foldlM_cons]
    cases hu : s.next source t <;> cases hu' : s'.next source' t' <;> rw [hu, hu'] at hn
    case error.error => exact hn
    case ok.ok => exact ih (Except.ok.inj hn) hl.symm
    all_goals cases hn

theorem finish_unplaced (hs : s.unplaced = s'.unplaced) :
    (s.finish source).mapError (·.fault.unquoted) =
      (s'.finish source').mapError (·.fault.unquoted) := by
  cases s <;> cases s' <;> cases hs
  case suffix c u =>
    obtain ⟨l, enclosing⟩ := c
    cases enclosing <;> rfl
  all_goals rfl

theorem readTokens_unplaced (ht : tokens.map Token.lexeme = tokens'.map Token.lexeme) :
    (readTokens source tokens).mapError (·.fault.unquoted) =
      (readTokens source' tokens').mapError (·.fault.unquoted) := by
  have hr := @run_unplaced source source' (.operand {}) _ tokens tokens' rfl ht
  rw [readTokens, readTokens]
  cases hu : tokens.foldlM (State.next source) (.operand {}) <;>
    cases hu' : tokens'.foldlM (State.next source') (.operand {}) <;> rw [hu, hu'] at hr
  case error.error => exact congrArg Except.error (Except.error.inj hr)
  case ok.ok => exact finish_unplaced (Except.ok.inj hr)
  all_goals cases hr

theorem parse_unplaced (h : lex source = .ok tokens) (h' : lex source' = .ok tokens')
    (ht : tokens.map Token.lexeme = tokens'.map Token.lexeme) :
    (parse source).mapError (·.fault.unquoted) = (parse source').mapError (·.fault.unquoted) := by
  rw [parse, parse, h, h']
  cases tokens <;> cases tokens' <;> try cases ht
  case nil => rfl
  case cons => exact readTokens_unplaced ht

theorem utf8Size_of_isBlank {c : Char} (h : isBlank c = true) : c.utf8Size = 1 := by
  simp only [isBlank, Bool.or_eq_true, decide_eq_true_eq] at h
  rcases h with ((rfl | rfl) | rfl) | rfl <;> rfl

theorem Scanned.split {offset place : Nat} {cs : List Char} (h : Scanned offset cs tokens)
    (hl : offset ≤ place) (hr : place ≤ offset + byteLength cs)
    (hp : ∀ t ∈ tokens, ¬ (t.span.start < place ∧ place < t.span.stop)) :
    ∃ front back before after, cs = front ++ back ∧ tokens = before ++ after ∧
      offset + byteLength front = place ∧ Scanned offset front before ∧
      Scanned place back after := by
  induction h with
  | nil =>
    rw [byteLength] at hr
    obtain rfl := Nat.le_antisymm hl hr
    exact ⟨[], [], [], [], rfl, rfl, rfl, .nil, .nil⟩
  | @blank offset b cs tokens hb h ih =>
    rcases hl.eq_or_lt with rfl | hl
    · exact ⟨[], _, [], _, rfl, rfl, rfl, .nil, .blank hb h⟩
    · have hone := utf8Size_of_isBlank hb
      rw [byteLength] at hr
      obtain ⟨front, back, before, after, rfl, rfl, hplace, hfront, hback⟩ :=
        ih (by omega) (by omega) hp
      refine ⟨b :: front, back, before, after, rfl, rfl, ?_, .blank hb hfront, hback⟩
      rw [byteLength]
      omega
  | @word offset word rest k tokens hw he h ih =>
    rcases hl.eq_or_lt with rfl | hl
    · exact ⟨[], _, [], _, rfl, rfl, rfl, .nil, .word hw he h⟩
    · rw [List.forall_mem_cons] at hp
      have hstop : offset + byteLength word ≤ place := Nat.le_of_not_lt fun hlt => hp.1 ⟨hl, hlt⟩
      rw [byteLength_append] at hr
      obtain ⟨front, back, before, after, rfl, rfl, hplace, hfront, hback⟩ :=
        ih hstop (by omega) hp.2
      have hends : Ends front k := he.front (List.prefix_append front back)
      refine ⟨word ++ front, back, _ :: before, after, ?_, rfl, ?_, .word hw hends hfront, hback⟩
      · rw [List.append_assoc]
      · rw [byteLength_append]
        omega

theorem scan_blanks {blanks : List Char} (h : ∀ c ∈ blanks, isBlank c = true) (offset : Nat)
    (cs : List Char) : scan offset (blanks ++ cs) = scan (offset + byteLength blanks) cs := by
  induction blanks generalizing offset with
  | nil => rfl
  | cons b blanks ih =>
    rw [List.forall_mem_cons] at h
    rw [List.cons_append, scan_blank h.1, ih h.2, byteLength, Nat.add_assoc]

theorem stops_of_blanks {blanks : List Char} (h : ∀ c ∈ blanks, isBlank c = true)
    (hne : blanks ≠ []) (cs : List Char) : Stops (blanks ++ cs) := by
  cases blanks with
  | nil => exact absurd rfl hne
  | cons b blanks => exact stops_of_isBlank (h b List.mem_cons_self) _

theorem scan_spaced {offset : Nat} {front back blanks : List Char} {before after : List Token}
    (hf : Scanned offset front before) (hb : Scanned (offset + byteLength front) back after)
    (hblank : ∀ c ∈ blanks, isBlank c = true) (hne : blanks ≠ []) :
    scan offset (front ++ (blanks ++ back)) =
      .ok (before ++ after.map (Token.moved · (byteLength blanks))) := by
  rw [hf.scan_append (stops_of_blanks hblank hne back), scan_blanks hblank, (hb.moved _).scan]
  rfl

theorem parse_spaced {place : Nat} {blanks : String} (h : lex source = .ok tokens)
    (hplace : place ≤ source.utf8ByteSize)
    (hinside : ∀ t ∈ tokens, ¬ (t.span.start < place ∧ place < t.span.stop))
    (hblank : ∀ c ∈ blanks.toList, isBlank c = true) :
    ∃ front back, source = front ++ back ∧ front.utf8ByteSize = place ∧
      (lex (front ++ blanks ++ back)).map (List.map Token.lexeme) =
        .ok (tokens.map Token.lexeme) ∧
      (parse (front ++ blanks ++ back)).mapError (·.fault.unquoted) =
        (parse source).mapError (·.fault.unquoted) := by
  obtain ⟨front, back, before, after, hcs, rfl, hf, hfront, hback⟩ :=
    (Scanned.of_scan h).split (Nat.zero_le place) (by rwa [Nat.zero_add, byteLength_toList]) hinside
  obtain rfl : source = String.ofList front ++ String.ofList back := by
    rw [← String.ofList_append, ← hcs, String.ofList_toList]
  refine ⟨_, _, rfl, by rw [utf8ByteSize_ofList]; omega, ?_⟩
  suffices hlex : ∃ tokens',
      lex (String.ofList front ++ blanks ++ String.ofList back) = .ok tokens' ∧
      tokens'.map Token.lexeme = (before ++ after).map Token.lexeme by
    obtain ⟨tokens', hl, ht⟩ := hlex
    exact ⟨by rw [hl]; exact congrArg Except.ok ht, parse_unplaced hl h ht⟩
  by_cases hne : blanks = ""
  · subst hne
    exact ⟨before ++ after, by rw [String.append_empty, h], rfl⟩
  · refine ⟨before ++ after.map (Token.moved · (byteLength blanks.toList)), ?_, ?_⟩
    · rw [← hf] at hback
      rw [lex, String.toList_append, String.toList_append, String.toList_ofList,
        String.toList_ofList, List.append_assoc]
      exact scan_spaced hfront hback hblank (by simpa using hne)
    · rw [List.map_append, List.map_append, List.map_map]
      rfl

theorem parse_spaced_sign :
    lex "a+b" = .ok [⟨.name, "a", 0, 1⟩, ⟨.name, "+b", 1, 3⟩] ∧
      ∃ front back, "a+b" = front ++ back ∧ front.utf8ByteSize = 1 ∧
        (lex (front ++ " \t" ++ back)).map (List.map Token.lexeme) =
          .ok [(.name, "a"), (.name, "+b")] ∧
        (parse (front ++ " \t" ++ back)).mapError (·.fault.unquoted) =
          (parse "a+b").mapError (·.fault.unquoted) := by
  have h : lex "a+b" = .ok [⟨.name, "a", 0, 1⟩, ⟨.name, "+b", 1, 3⟩] := by decide +kernel
  exact ⟨h, parse_spaced h (by decide) (by decide) (by simp [isBlank])⟩

end ValueCheck.Grammar
