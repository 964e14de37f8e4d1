import ValueCheck.Proofs.Grammar.Descent

/-! The descent returns what reading from left to right returns, and reads nothing out of range on
the way: a call that reads a part of a term leaves the cursor where the reader has taken the tokens
of that part. -/

namespace ValueCheck.Grammar

variable {source : String} {tokens : List Token} {token : Token} {pos : Nat}

def outcome (source : String) (tokens : List Token) (s : State) (pos : Nat) :
    Except GrammarError Term := do
  let s ← (tokens.drop pos).foldlM (State.next source) s
  s.finish source

variable {s s' : State} {e : GrammarError}

theorem outcome_next (h : tokens[pos]? = some token) (hn : s.next source token = .ok s') :
    outcome source tokens s pos = outcome source tokens s' (pos + 1) := by
  rw [outcome, drop_of_getElem? h, List.foldlM_cons, hn]
  rfl

theorem outcome_refused (h : tokens[pos]? = some token) (hn : s.next source token = .error e) :
    outcome source tokens s pos = .error e := by
  rw [outcome, drop_of_getElem? h, List.foldlM_cons, hn]
  rfl

theorem outcome_end (h : tokens[pos]? = none) :
    outcome source tokens s pos = s.finish source := by
  rw [outcome, List.drop_eq_nil_of_le (List.getElem?_eq_none_iff.1 h)]
  rfl

namespace Descent

variable {α : Type} {k : Cursor} {out : Except GrammarError Term} {P : α → Cursor → Prop}

/-- With the cursor moved on, reading from the state has the outcome. -/
structure Reached (source : String) (tokens : List Token) (s : State) (k : Cursor)
    (out : Except GrammarError Term) (k' : Cursor) : Prop where
  reads : outcome source tokens s k'.pos = out
  groups : k'.openGroups = k.openGroups
  forward : k.pos ≤ k'.pos

theorem Reached.here (h : outcome source tokens s k.pos = out) :
    Reached source tokens s k out k := ⟨h, rfl, Nat.le_refl _⟩

theorem Reached.trans {k' k'' : Cursor} (h : Reached source tokens s k out k')
    (h' : Reached source tokens s' k' out k'') : Reached source tokens s' k out k'' :=
  ⟨h'.reads, h'.groups.trans h.groups, h.forward.trans h'.forward⟩

theorem Reached.next {k' : Cursor} (h : Reached source tokens s k out k')
    (ht : tokens[k'.pos]? = some token) (hn : s.next source token = .ok s') :
    Reached source tokens s' k out k'.next :=
  ⟨(outcome_next ht hn).symm.trans h.reads, h.groups, h.forward.trans (Nat.le_succ _)⟩

theorem Reached.refused {k' : Cursor} (h : Reached source tokens s k out k')
    (ht : tokens[k'.pos]? = some token) (hn : s.next source token = .error e) :
    out = .error e :=
  h.reads.symm.trans (outcome_refused ht hn)

theorem Reached.ended {k' : Cursor} (h : Reached source tokens s k out k')
    (ht : tokens[k'.pos]? = none) : out = s.finish source :=
  h.reads.symm.trans (outcome_end ht)

theorem room_lt {k' : Cursor} (ht : tokens[k.pos]? = some token) (h : k.pos < k'.pos) :
    tokens.length - k'.pos < tokens.length - k.pos :=
  Nat.sub_lt_sub_left (List.getElem?_eq_some_iff.1 ht).1 h

theorem meets_repeated {I : List Term → Cursor → Prop} {kind : Kind} {part : Descent Term}
    (step : ∀ items k token, I items k → tokens[k.pos]? = some token → token.kind = kind →
      Meets part k.next out fun t k' => I (items ++ [t]) k' ∧ k.pos < k'.pos) :
    ∀ {fuel : Nat} {items : List Term} {k : Cursor}, I items k → tokens.length - k.pos < fuel →
      Meets (repeated tokens kind part fuel items) k out fun items' k' =>
        I items' k' ∧ Free tokens [kind] k'.pos ∧ items.length ≤ items'.length ∧
          (Free tokens [kind] k.pos ∨ items.length < items'.length)
  | 0, _, _, _, hf => by omega
  | fuel + 1, items, k, h, hf => by
    refine .eat ?_ ?_
    · intro token ht hk
      refine (step items k token h ht hk).bind ?_
      rintro t k' ⟨h', hlt⟩
      have hroom := room_lt ht hlt
      refine (meets_repeated step h' (by omega)).mono ?_
      rintro items' k'' ⟨h'', hfree, hle, -⟩
      rw [List.length_append, List.length_singleton] at hle
      exact ⟨h'', hfree, Nat.le_of_succ_le hle, .inr hle⟩
    · intro hfree
      exact .pure ⟨h, hfree, Nat.le_refl _, .inl hfree⟩

theorem meets_bangs {l : Level} {enclosing : List (Opener × Level)} :
    ∀ {fuel n : Nat} {k : Cursor},
      outcome source tokens (.operand ⟨{ l with inversions := n }, enclosing⟩) k.pos = out →
      tokens.length - k.pos < fuel →
      Meets (bangs tokens fuel n) k out fun n' k' =>
        Reached source tokens (.operand ⟨{ l with inversions := n' }, enclosing⟩) k out k' ∧
          Free tokens [.bang] k'.pos
  | 0, _, _, _, hf => by omega
  | fuel + 1, n, k, h, hf => by
    refine .eat ?_ ?_
    · intro token ht hk
      have hn : State.next source (.operand ⟨{ l with inversions := n }, enclosing⟩) token =
          .ok (.operand ⟨{ l with inversions := n + 1 }, enclosing⟩) := by
        simp [State.next, State.atOperand, hk, Level.invert]
      have hnext := (Reached.here h).next ht hn
      have hroom := room_lt ht k.pos_lt_next
      refine (meets_bangs hnext.reads (by omega)).mono ?_
      rintro n' k' ⟨h', hfree⟩
      exact ⟨hnext.trans h', hfree⟩
    · intro hfree
      exact .pure ⟨.here h, hfree⟩

theorem sizeRange_eq_range? (b : Bounds) :
    sizeRange (b.low.map bound?) b.comma (b.high.map bound?) = b.range? := by
  obtain ⟨_ | n, _ | _, _ | m⟩ := b <;> simp only [Option.map_none, Option.map_some, Bounds.range?]
  case some.false.none | some.true.none | some.false.some => cases bound? n <;> rfl
  case none.true.some => cases bound? m <;> rfl
  case some.true.some => cases bound? n <;> cases bound? m <;> rfl
  all_goals rfl

section

variable {c : Context} {t : Term} {start : Nat}

theorem meets_sizeBound (fill : Option String → Bounds) (hl : lex source = .ok tokens)
    (h : outcome source tokens (.size c t start (fill none)) k.pos = out)
    (hfill : ∀ token, tokens[k.pos]? = some token → token.kind = .integer →
      State.inSize source c t start (fill none) token =
        .ok (.size c t start (fill (some token.text)))) :
    Meets (sizeBound source tokens) k out fun bound k' => ∃ digits : Option String,
      bound = digits.map bound? ∧ Reached source tokens (.size c t start (fill digits)) k out k' ∧
        (digits = none → k' = k ∧ Free tokens [.integer] k.pos) := by
  refine .current ?_
  cases ht : tokens[k.pos]? with
  | none => exact .pure ⟨none, rfl, .here h, fun _ => ⟨rfl, by simp [Free, ht]⟩⟩
  | some token =>
    by_cases hk : token.kind = .integer
    · have hnext := (Reached.here h).next ht (hfill token ht hk)
      simp only [hk, if_true]
      refine .advance (.checked (slice?_token hl ht) (.pure ⟨some token.text, rfl, hnext, ?_⟩))
      rintro ⟨⟩
    · simp only [hk, if_false]
      exact .pure ⟨none, rfl, .here h, fun _ => ⟨rfl, by simp [Free, ht, hk]⟩⟩

theorem meets_comma {low : Option String}
    (h : outcome source tokens (.size c t start ⟨low, false, none⟩) k.pos = out) :
    Meets (eat tokens .comma) k out fun comma k' =>
      Reached source tokens (.size c t start ⟨low, comma, none⟩) k out k' ∧
        (comma = false → k' = k ∧ Free tokens [.comma] k.pos) := by
  rw [← bind_pure (eat tokens .comma)]
  refine .eat ?_ ?_
  · intro token ht hk
    refine .pure ⟨(Reached.here h).next ht ?_, by simp⟩
    simp [State.next, State.inSize, hk]
  · intro hfree
    exact .pure ⟨.here h, fun _ => ⟨rfl, hfree⟩⟩

theorem inSize_refused {b : Bounds} (hb : token.kind ≠ .rightBrace)
    (hi : token.kind = .integer → b.high ≠ none)
    (hc : token.kind = .comma → b.high = none → b.comma = true) :
    State.inSize source c t start b token =
      .error (invalidSize source ⟨start, token.span.stop⟩) := by
  obtain ⟨low, comma, high⟩ := b
  cases hk : token.kind <;> simp only [State.inSize, hk]
  case rightBrace => exact absurd hk hb
  case integer =>
    cases high with
    | none => exact absurd rfl (hi hk)
    | some high => simp
  case comma =>
    cases high with
    | none =>
      obtain rfl : comma = true := hc hk rfl
      rfl
    | some high => simp

theorem Meets.closed {last : Token} {g : Nat → Descent α} (ht : tokens[k.pos]? = some last)
    (h : Meets (g last.span.stop) k.next out P) :
    Meets (sizeStop source tokens true >>= g) k.next out P := by
  have hz : k.next.pos ≠ 0 := Nat.succ_ne_zero _
  rw [sizeStop, bind_assoc]
  refine .get ?_
  rw [if_pos rfl, if_neg hz, bind_assoc]
  exact .checked ht h

theorem Meets.unclosed {g : Nat → Descent α}
    (h : Meets (g (tokens[k.pos]?.elim source.utf8ByteSize (·.span.stop))) k out P) :
    Meets (sizeStop source tokens false >>= g) k out P := h

theorem meets_bounds (hl : lex source = .ok tokens)
    (h : outcome source tokens (.size c t start {}) k.pos = out) :
    Meets (bounds source tokens) k out fun held k' => ∃ b : Bounds,
      held = (b.low.map bound?, b.comma, b.high.map bound?) ∧
      Reached source tokens (.size c t start b) k out k' ∧
      ∀ last, tokens[k'.pos]? = some last → last.kind ≠ .rightBrace →
        State.inSize source c t start b last =
          .error (invalidSize source ⟨start, last.span.stop⟩) := by
  have hlow := meets_sizeBound (fun low => ⟨low, false, none⟩) hl h
    (by
      intro token _ hk
      simp [State.inSize, hk])
  refine hlow.bind ?_
  rintro _ k₁ ⟨low, rfl, h₁, hlow⟩
  refine (meets_comma h₁.reads).bind ?_
  rintro comma k₂ ⟨h₂, hcomma⟩
  have hhigh := meets_sizeBound (fun high => ⟨low, comma, high⟩) hl h₂.reads
    (by
      intro token ht hk
      cases low with
      | some low => simp [State.inSize, hk]
      | none =>
        cases comma with
        | true => simp [State.inSize, hk]
        | false =>
          -- A first bound would have been read before.
          obtain ⟨rfl, -⟩ := hcomma rfl
          obtain ⟨rfl, hfree⟩ := hlow rfl
          exact absurd (List.mem_singleton.2 hk) (hfree token ht))
  refine hhigh.bind ?_
  rintro _ k₃ ⟨high, rfl, h₃, hhigh⟩
  refine .pure ⟨⟨low, comma, high⟩, rfl, h₁.trans (h₂.trans h₃), ?_⟩
  intro last hlast hbrace
  apply inSize_refused hbrace
  · rintro hk rfl
    obtain ⟨rfl, hf⟩ := hhigh rfl
    exact hf last hlast (List.mem_singleton.2 hk)
  · rintro hk rfl
    obtain ⟨rfl, -⟩ := hhigh rfl
    by_contra hc
    obtain ⟨rfl, hf⟩ := hcomma (eq_false_of_ne_true hc)
    exact hf last hlast (List.mem_singleton.2 hk)

theorem meets_size {brace : Token} (hl : lex source = .ok tokens)
    (h : outcome source tokens (.suffix c t) k.pos = out) (ht : tokens[k.pos]? = some brace)
    (hk : brace.kind = .leftBrace) : Meets (size source tokens) k out fun range k' =>
      Reached source tokens (.suffix c (.sized t range)) k out k' ∧ k.pos < k'.pos := by
  have hopen : State.next source (.suffix c t) brace = .ok (.size c t brace.span.start {}) := by
    simp [State.next, State.atSuffix, hk]
  have hstart := (Reached.here h).next ht hopen
  refine .current (.advance ?_)
  rw [ht, Option.elim_some]
  refine (meets_bounds hl hstart.reads).bind ?_
  rintro _ k₁ ⟨b, rfl, h₁, hend⟩
  have hread := hstart.trans h₁
  have hlt : k.pos < k₁.pos := h₁.forward
  dsimp only
  rw [sizeRange_eq_range?]
  refine .eat ?_ ?_
  · intro last hlast hk
    cases hrange : b.range? with
    | some range =>
      refine .pure ⟨hread.next hlast ?_, Nat.lt_succ_of_lt hlt⟩
      simp [State.next, State.inSize, hk, hrange]
    | none =>
      have hn : State.next source (.size c t brace.span.start b) last =
          .error (invalidSize source ⟨brace.span.start, last.span.stop⟩) := by
        simp [State.next, State.inSize, hk, hrange]
      exact .closed hlast
        (.checked (slice?_between hl ht hlast hlt) (.throw (hread.refused hlast hn)))
  · intro hfree
    suffices hs : Meets (sizeStop source tokens false >>= fun stop => do
        throw ⟨.invalidSize (← checked (slice? source ⟨brace.span.start, stop⟩)),
          brace.span.start, stop⟩) k₁ out fun range k' =>
            Reached source tokens (.suffix c (.sized t range)) k out k' ∧ k.pos < k'.pos by
      cases b.range? <;> exact hs
    refine .unclosed ?_
    cases hlast : tokens[k₁.pos]? with
    | none => exact .checked (slice?_rest hl ht) (.throw (hread.ended hlast))
    | some last =>
      have hbrace : last.kind ≠ .rightBrace := by simpa using hfree last hlast
      exact .checked (slice?_between hl ht hlast hlt)
        (.throw (hread.refused hlast (hend last hlast hbrace)))

theorem meets_suffixes (hl : lex source = .ok tokens) : ∀ {fuel : Nat} {t : Term} {k : Cursor},
    outcome source tokens (.suffix c t) k.pos = out → tokens.length - k.pos < fuel →
    Meets (suffixes source tokens fuel t) k out fun t' k' =>
      Reached source tokens (.suffix c t') k out k' ∧ Free tokens suffixKinds k'.pos
  | 0, _, _, _, hf => by omega
  | fuel + 1, t, k, h, hf => by
    refine .current ?_
    cases ht : tokens[k.pos]? with
    | none => exact .pure ⟨.here h, by simp [Free, ht]⟩
    | some token =>
      have rest {t' : Term} {k' : Cursor} (h' : Reached source tokens (.suffix c t') k out k')
          (hlt : k.pos < k'.pos) : Meets (suffixes source tokens fuel t') k' out fun t' k' =>
            Reached source tokens (.suffix c t') k out k' ∧ Free tokens suffixKinds k'.pos := by
        have hroom := room_lt ht hlt
        refine (meets_suffixes hl h'.reads (by omega)).mono ?_
        rintro t'' k'' ⟨h'', hfree⟩
        exact ⟨h'.trans h'', hfree⟩
      have hlt := k.pos_lt_next
      cases hk : token.kind <;> simp only [hk]
      case question =>
        refine .advance (rest ((Reached.here h).next ht ?_) hlt)
        simp [State.next, State.atSuffix, hk]
      case plus =>
        refine .advance (rest ((Reached.here h).next ht ?_) hlt)
        simp [State.next, State.atSuffix, hk]
      case leftBracket =>
        have hb : Reached source tokens (.bracket c t) k out k.next := by
          refine (Reached.here h).next ht ?_
          simp [State.next, State.atSuffix, hk]
        refine .advance (.expect hl ?_ ?_ hb.ended)
        · intro close hc hk
          refine rest (hb.next hc ?_) (Nat.lt_succ_of_lt hlt)
          simp [State.next, State.inBracket, hk]
        · intro close hc hk
          refine hb.refused hc ?_
          simp [State.next, State.inBracket]
      case leftBrace =>
        refine (meets_size hl h ht hk).bind ?_
        rintro range k' ⟨h', hlt⟩
        exact rest h' hlt
      all_goals exact .pure ⟨.here h, by simp [Free, ht, hk]⟩

end

def openGroups (enclosing : List (Opener × Level)) : Nat :=
  enclosing.countP fun p => p.1 matches .group

theorem openGroups_group {l : Level} {enclosing : List (Opener × Level)} :
    openGroups ((.group, l) :: enclosing) = openGroups enclosing + 1 :=
  List.countP_cons_of_pos rfl

theorem inGroup_iff {c : Context} : c.inGroup = true ↔ 0 < openGroups c.enclosing :=
  List.any_eq_true.trans List.countP_pos_iff.symm

def closers : List (Opener × Level) → List Kind
  | [] => []
  | (.group, _) :: _ => [.rightParen]
  | (.tuple _, _) :: _ => [.comma, .rightBracket]
  | (.object, _) :: _ => [.colon, .rightBrace]
  | (.entry _, _) :: _ => [.rightBrace]

theorem atSuffix_refused {c : Context} {t : Term} (hf : token.kind ∉ alternationKinds)
    (hk : token.kind ∉ closers c.enclosing) :
    State.next source (.suffix c t) token = .error (unexpected token c.expected) := by
  obtain ⟨l, enclosing⟩ := c
  rw [State.next, State.atSuffix]
  rcases enclosing with _ | ⟨⟨opener, outer⟩, rest⟩
  · cases hkind : token.kind <;> simp_all
  · cases opener <;> cases hkind : token.kind <;> simp_all [closers]

theorem Meets.close {closer : Kind} {expected : Expected} {c : Context} {u : Term}
    {g : Unit → Descent α} {start : Cursor} (hl : lex source = .ok tokens)
    (h : Reached source tokens (.suffix c u) start out k) (hopen : c.enclosing ≠ [])
    (he : c.expected = expected) (hfree : Free tokens alternationKinds k.pos)
    (hclose : ∀ kind ∈ closers c.enclosing, kind = closer ∨ Free tokens [kind] k.pos)
    (yes : ∀ token, tokens[k.pos]? = some token → token.kind = closer → Meets (g ()) k.next out P) :
    Meets (Descent.expect source tokens closer expected >>= g) k out P := by
  subst he
  refine .expect hl yes ?_ ?_
  · intro token ht hk
    refine h.refused ht (atSuffix_refused (hfree token ht) ?_)
    intro hm
    rcases hclose _ hm with hc | hf
    · exact hk hc
    · exact hf token ht (List.mem_singleton_self _)
  · intro ht
    obtain ⟨l, _ | ⟨p, rest⟩⟩ := c
    · exact absurd rfl hopen
    · exact h.ended ht

section

variable (source tokens) (k : Cursor) (out : Except GrammarError Term)
  (enclosing : List (Opener × Level))

def AfterOperands (alternatives operands : List Term) (k' : Cursor) : Prop :=
  ∃ n u conjuncts, conjuncts.reverse ++ [inverted n u] = operands ∧
    Reached source tokens (.suffix ⟨⟨alternatives, conjuncts, n⟩, enclosing⟩ u) k out k' ∧
    Free tokens suffixKinds k'.pos

def AfterAlternatives (items : List Term) (k' : Cursor) : Prop :=
  ∃ l u, l.alternatives.reverse ++ [l.conjunction u] = items ∧
    Reached source tokens (.suffix ⟨l, enclosing⟩ u) k out k' ∧
    Free tokens conjunctionKinds k'.pos

def AfterItems (outer : Level) (items : List Term) (k' : Cursor) : Prop :=
  ∃ l u earlier, earlier.reverse ++ [l.close u] = items ∧
    Reached source tokens (.suffix ⟨l, (.tuple earlier, outer) :: enclosing⟩ u) k out k' ∧
    Free tokens alternationKinds k'.pos

end

def ReadsTypes (source : String) (tokens : List Token) (out : Except GrammarError Term)
    (room : Nat) (part : Descent Term) : Prop :=
  ∀ (enclosing : List (Opener × Level)) (k : Cursor),
    outcome source tokens (.operand ⟨{}, enclosing⟩) k.pos = out →
    k.openGroups = openGroups enclosing → tokens.length - k.pos < room →
    Meets part k out fun t k' => ∃ l u, l.close u = t ∧
      Reached source tokens (.suffix ⟨l, enclosing⟩ u) k out k' ∧
      Free tokens alternationKinds k'.pos

section

variable (hl : lex source = .ok tokens)

include hl

section

variable {part : Descent Term} {c : Context}
  (hpart : ReadsTypes source tokens out (tokens.length - k.pos) part)
  (h : outcome source tokens (.operand c) k.pos = out)
  (hg : k.openGroups = openGroups c.enclosing) (ht : tokens[k.pos]? = some token)

include hpart h hg ht

theorem meets_group (hk : token.kind = .leftParen) :
    Meets (group source tokens part token) k out fun t k' =>
      Reached source tokens (.suffix c t) k out k' := by
  refine .get ?_
  by_cases hopen : 0 < k.openGroups
  · rw [if_pos hopen]
    refine .throw ((Reached.here h).refused ht ?_)
    rw [State.next, State.atOperand, hk]
    exact if_pos (inGroup_iff.2 (hg ▸ hopen))
  · rw [if_neg hopen]
    have hn : State.next source (.operand c) token = .ok (.operand (c.enter .group)) := by
      rw [State.next, State.atOperand, hk]
      refine if_neg fun hc => hopen ?_
      rw [hg]
      exact inGroup_iff.1 hc
    have hnext := (Reached.here h).next ht hn
    have hroom := room_lt ht k.pos_lt_next
    have hcount : k.openGroups + 1 = openGroups ((.group, c.level) :: c.enclosing) := by
      rw [hg, openGroups_group]
    refine .advance (.modify ?_)
    refine (hpart _ { k.next with openGroups := k.openGroups + 1 } hnext.reads hcount hroom).bind ?_
    rintro _ k₁ ⟨l, u, rfl, h₁, hfree⟩
    refine .close hl h₁ (List.cons_ne_nil _ _) rfl hfree (by simp [closers]) ?_
    intro close hc hk
    have hn : State.next source (.suffix ⟨l, (.group, c.level) :: c.enclosing⟩ u) close =
        .ok (.suffix c (.group (l.close u))) := by
      simp [State.next, State.atSuffix, hk]
    have hclose := h₁.next hc hn
    refine .modify (.pure ⟨hclose.reads, ?_, (Nat.le_succ _).trans hclose.forward⟩)
    exact Nat.sub_eq_of_eq_add hclose.groups

theorem meets_tuple {fuel : Nat} (hf : tokens.length - k.pos ≤ fuel)
    (hk : token.kind = .leftBracket) : Meets (tuple source tokens part fuel) k out fun t k' =>
      Reached source tokens (.suffix c t) k out k' := by
  have hroom := room_lt ht k.pos_lt_next
  have hn : State.next source (.operand c) token = .ok (.operand (c.enter (.tuple []))) := by
    simp [State.next, State.atOperand, hk]
  have hnext := (Reached.here h).next ht hn
  refine .advance ((hpart _ _ hnext.reads hg hroom).bind ?_)
  rintro _ k₁ ⟨l, u, rfl, h₁, hfree⟩
  have hlt : k.pos < k₁.pos := Nat.lt_of_succ_le h₁.forward
  have step (items : List Term) (k₂ : Cursor) (comma : Token)
      (hi : AfterItems source tokens k out c.enclosing c.level items k₂)
      (hc : tokens[k₂.pos]? = some comma) (hk : comma.kind = .comma) :
      Meets part k₂.next out fun t k₃ =>
        AfterItems source tokens k out c.enclosing c.level (items ++ [t]) k₃ ∧
          k₂.pos < k₃.pos := by
    obtain ⟨l', u', earlier, rfl, h₂, -⟩ := hi
    have hn : State.next source (.suffix ⟨l', (.tuple earlier, c.level) :: c.enclosing⟩ u') comma =
        .ok (.operand ⟨{}, (.tuple (l'.close u' :: earlier), c.level) :: c.enclosing⟩) := by
      simp [State.next, State.atSuffix, hk]
    have hcomma := h₂.next hc hn
    have hlt : k.pos < k₂.next.pos := Nat.lt_succ_of_le h₂.forward
    refine (hpart _ _ hcomma.reads (hcomma.groups.trans hg) (room_lt ht hlt)).mono ?_
    rintro _ k₃ ⟨l'', u'', rfl, h₃, hfree'⟩
    exact ⟨⟨l'', u'', l'.close u' :: earlier, by simp, hcomma.trans h₃, hfree'⟩, h₃.forward⟩
  refine (meets_repeated step ⟨l, u, [], rfl, hnext.trans h₁, hfree⟩ (by omega)).bind ?_
  rintro items k₂ ⟨⟨l', u', earlier, rfl, h₂, hfree'⟩, hcomma, -⟩
  refine .close hl h₂ (List.cons_ne_nil _ _) rfl hfree' (by simp [closers, hcomma]) ?_
  intro close hc hk
  refine .pure (h₂.next hc ?_)
  simp [State.next, State.atSuffix, hk]

theorem meets_object (hk : token.kind = .leftBrace) :
    Meets (object source tokens part) k out fun t k' =>
      Reached source tokens (.suffix c t) k out k' := by
  have hroom := room_lt ht k.pos_lt_next
  have hn : State.next source (.operand c) token = .ok (.operand (c.enter .object)) := by
    simp [State.next, State.atOperand, hk]
  have hnext := (Reached.here h).next ht hn
  refine .advance ((hpart _ _ hnext.reads hg hroom).bind ?_)
  rintro _ k₁ ⟨l, u, rfl, h₁, hfree⟩
  have hread := hnext.trans h₁
  refine .eat ?_ ?_
  · intro colon hc hk
    have hn : State.next source (.suffix ⟨l, (.object, c.level) :: c.enclosing⟩ u) colon =
        .ok (.operand ⟨{}, (.entry (l.close u), c.level) :: c.enclosing⟩) := by
      simp [State.next, State.atSuffix, hk]
    have hentry := hread.next hc hn
    have hlt : k.pos < k₁.next.pos := Nat.lt_succ_of_le hread.forward
    refine (hpart _ _ hentry.reads (hentry.groups.trans hg) (room_lt ht hlt)).bind ?_
    rintro _ k₂ ⟨l', u', rfl, h₂, hfree'⟩
    refine .close hl (hentry.trans h₂) (List.cons_ne_nil _ _) rfl hfree' (by simp [closers]) ?_
    intro close hc hk
    refine .pure ((hentry.trans h₂).next hc ?_)
    simp [State.next, State.atSuffix, hk]
  · intro hcolon
    refine .close hl hread (List.cons_ne_nil _ _) rfl hfree (by simp [closers, hcolon]) ?_
    intro close hc hk
    refine .pure (hread.next hc ?_)
    simp [State.next, State.atSuffix, hk]

end

end

-- Each of the four levels takes one from the bound on the calls, and what stands in brackets
-- starts at least one token further on.
mutual

theorem meets_alternation (hl : lex source = .ok tokens) : ∀ {fuel room : Nat},
    4 * room ≤ fuel → ReadsTypes source tokens out room (alternation source tokens fuel)
  | 0, room, hf => by
    intro _ _ _ _ hroom
    omega
  | fuel + 1, room, hf => by
    intro enclosing k h hg hroom
    refine (meets_conjunction hl h hg (by omega)).bind ?_
    rintro first k₁ ⟨l, u, ha, rfl, h₁, hfree⟩
    have hle := h₁.forward
    refine .check ?_ ?_
    · intro pipe hp hk
      have step (items : List Term) (k₂ : Cursor) (token : Token)
          (hi : AfterAlternatives source tokens k out enclosing items k₂)
          (ht : tokens[k₂.pos]? = some token) (hk : token.kind = .pipe) :
          Meets (conjunction source tokens fuel) k₂.next out fun t k₃ =>
            AfterAlternatives source tokens k out enclosing (items ++ [t]) k₃ ∧
              k₂.pos < k₃.pos := by
        obtain ⟨l', u', rfl, h₂, -⟩ := hi
        have hn : State.next source (.suffix ⟨l', enclosing⟩ u') token =
            .ok (.operand ⟨l'.afterPipe u', enclosing⟩) := by
          simp [State.next, State.atSuffix, hk]
        have hnext := h₂.next ht hn
        have hle' := hnext.forward
        refine (meets_conjunction hl hnext.reads (hnext.groups.trans hg) (by omega)).mono ?_
        rintro t k₃ ⟨l'', u'', ha', rfl, h₃, hfree'⟩
        exact ⟨⟨l'', u'', by simp [ha'], hnext.trans h₃, hfree'⟩, h₃.forward⟩
      refine (meets_repeated step ⟨l, u, by simp [ha], h₁, hfree⟩ (by omega)).bind ?_
      rintro items k₂ ⟨⟨l', u', rfl, h₂, hfree'⟩, hpipe, -, hmore⟩
      have hlen := hmore.resolve_left fun hf => hf pipe hp (List.mem_singleton.2 hk)
      refine .pure ⟨l', u', ?_, h₂, hpipe.cons hfree'⟩
      rw [Level.close, combined_eq_joined, joined_of_two_le hlen]
    · intro hp
      refine .pure ⟨l, u, ?_, h₁, hp.cons hfree⟩
      rw [Level.close, ha]
      rfl

theorem meets_conjunction (hl : lex source = .ok tokens) : ∀ {fuel : Nat}
    {enclosing : List (Opener × Level)} {k : Cursor} {alternatives : List Term},
    outcome source tokens (.operand ⟨⟨alternatives, [], 0⟩, enclosing⟩) k.pos = out →
    k.openGroups = openGroups enclosing → 4 * (tokens.length - k.pos) + 3 ≤ fuel →
    Meets (conjunction source tokens fuel) k out fun t k' => ∃ l u,
      l.alternatives = alternatives ∧ l.conjunction u = t ∧
      Reached source tokens (.suffix ⟨l, enclosing⟩ u) k out k' ∧
      Free tokens conjunctionKinds k'.pos
  | 0, _, _, _, _, _, hf => by omega
  | fuel + 1, enclosing, k, alternatives, h, hg, hf => by
    refine (meets_inversion hl h hg (by omega)).bind ?_
    rintro _ k₁ ⟨n, u, rfl, h₁, hfree⟩
    have hle := h₁.forward
    refine .check ?_ ?_
    · intro ampersand hp hk
      have step (items : List Term) (k₂ : Cursor) (token : Token)
          (hi : AfterOperands source tokens k out enclosing alternatives items k₂)
          (ht : tokens[k₂.pos]? = some token) (hk : token.kind = .ampersand) :
          Meets (inversion source tokens fuel) k₂.next out fun t k₃ =>
            AfterOperands source tokens k out enclosing alternatives (items ++ [t]) k₃ ∧
              k₂.pos < k₃.pos := by
        obtain ⟨n', u', conjuncts, rfl, h₂, -⟩ := hi
        have hn : State.next source (.suffix ⟨⟨alternatives, conjuncts, n'⟩, enclosing⟩ u') token =
            .ok (.operand ⟨⟨alternatives, inverted n' u' :: conjuncts, 0⟩, enclosing⟩) := by
          simp [State.next, State.atSuffix, hk, Level.afterAmpersand]
        have hnext := h₂.next ht hn
        have hle' := hnext.forward
        refine (meets_inversion hl hnext.reads (hnext.groups.trans hg) (by omega)).mono ?_
        rintro _ k₃ ⟨n'', u'', rfl, h₃, hfree'⟩
        exact ⟨⟨n'', u'', _, by simp, hnext.trans h₃, hfree'⟩, h₃.forward⟩
      refine (meets_repeated step ⟨n, u, [], rfl, h₁, hfree⟩ (by omega)).bind ?_
      rintro items k₂ ⟨⟨n', u', conjuncts, rfl, h₂, hfree'⟩, hampersand, -, hmore⟩
      have hlen := hmore.resolve_left fun hf => hf ampersand hp (List.mem_singleton.2 hk)
      refine .pure ⟨⟨alternatives, conjuncts, n'⟩, u', rfl, ?_, h₂, hampersand.cons hfree'⟩
      rw [Level.conjunction, combined_eq_joined, joined_of_two_le hlen]
    · intro hp
      exact .pure ⟨⟨alternatives, [], n⟩, u, rfl, rfl, h₁, hp.cons hfree⟩

theorem meets_inversion (hl : lex source = .ok tokens) : ∀ {fuel : Nat}
    {enclosing : List (Opener × Level)} {k : Cursor} {alternatives conjuncts : List Term},
    outcome source tokens (.operand ⟨⟨alternatives, conjuncts, 0⟩, enclosing⟩) k.pos = out →
    k.openGroups = openGroups enclosing → 4 * (tokens.length - k.pos) + 2 ≤ fuel →
    Meets (inversion source tokens fuel) k out fun t k' => ∃ n u, inverted n u = t ∧
      Reached source tokens (.suffix ⟨⟨alternatives, conjuncts, n⟩, enclosing⟩ u) k out k' ∧
      Free tokens suffixKinds k'.pos
  | 0, _, _, _, _, _, _, hf => by omega
  | fuel + 1, enclosing, k, alternatives, conjuncts, h, hg, hf => by
    refine (meets_bangs (l := ⟨alternatives, conjuncts, 0⟩) (n := 0) h (by omega)).bind ?_
    rintro n k₁ ⟨h₁, hfree⟩
    have hle := h₁.forward
    refine (meets_primary hl h₁.reads (h₁.groups.trans hg) hfree (by omega)).bind ?_
    intro t k₂ h₂
    have hle' := h₂.forward
    refine (meets_suffixes hl h₂.reads (by omega)).bind ?_
    rintro u k₃ ⟨h₃, hfree'⟩
    exact .pure ⟨n, u, rfl, h₁.trans (h₂.trans h₃), hfree'⟩

theorem meets_primary (hl : lex source = .ok tokens) : ∀ {fuel : Nat} {c : Context} {k : Cursor},
    outcome source tokens (.operand c) k.pos = out → k.openGroups = openGroups c.enclosing →
    Free tokens [.bang] k.pos → 4 * (tokens.length - k.pos) + 1 ≤ fuel →
    Meets (primary source tokens fuel) k out fun t k' =>
      Reached source tokens (.suffix c t) k out k'
  | 0, _, _, _, _, _, hf => by omega
  | fuel + 1, c, k, h, hg, hfree, hf => by
    refine .current ?_
    cases ht : tokens[k.pos]? with
    | none =>
      refine .refuse hl ?_ (Reached.here h).ended
      simp [ht]
    | some token =>
      have hpart : ReadsTypes source tokens out (tokens.length - k.pos)
          (alternation source tokens fuel) := meets_alternation hl (by omega)
      cases hk : token.kind <;> simp only [hk]
      case name =>
        refine .advance (.checked (slice?_token hl ht) (.pure ((Reached.here h).next ht ?_)))
        simp [State.next, State.atOperand, hk]
      case leftParen => exact meets_group hl hpart h hg ht hk
      case leftBracket => exact meets_tuple hl hpart h hg ht (by omega) hk
      case leftBrace => exact meets_object hl hpart h hg ht hk
      case bang => exact absurd (List.mem_singleton.2 hk) (hfree token ht)
      all_goals
        refine .refuse hl ?_ (by simp [ht])
        intro token' ht'
        obtain rfl := Option.some.inj (ht.symm.trans ht')
        refine (Reached.here h).refused ht ?_
        simp [State.next, State.atOperand, hk]

end

theorem meets_whole {fuel : Nat} (hl : lex source = .ok tokens) (hne : tokens ≠ [])
    (hf : 4 * tokens.length + 4 ≤ fuel) :
    Meets (whole source tokens fuel) {} (readTokens source tokens) fun t _ =>
      readTokens source tokens = .ok t := by
  rw [whole, if_neg (by simpa using hne)]
  have hstart : outcome source tokens (.operand ⟨{}, []⟩) 0 = readTokens source tokens := rfl
  have hread : ReadsTypes source tokens (readTokens source tokens) (tokens.length + 1)
      (alternation source tokens fuel) := meets_alternation hl hf
  refine (hread [] {} hstart rfl (Nat.lt_succ_self _)).bind ?_
  rintro _ k ⟨l, u, rfl, h, hfree⟩
  refine .current ?_
  cases ht : tokens[k.pos]? with
  | none => exact .pure (h.ended ht)
  | some token =>
    refine .refuse hl ?_ (by simp [ht])
    intro token ht
    exact h.refused ht (atSuffix_refused (hfree token ht) List.not_mem_nil)

theorem Meets.run'_eq {m : Descent Term} (h : Meets m k out fun a _ => out = .ok a) :
    (m.run' k).run = some out := by
  rcases h with ⟨e, he, rfl⟩ | ⟨a, k', ha, rfl⟩
  · simp only [StateT.run', he]
    rfl
  · simp only [StateT.run', ha]
    rfl

end Descent

theorem descend_of_lex_error (h : lex source = .error e) : descend source = some (.error e) := by
  obtain ⟨front, c, back, hsource, -, rfl⟩ := scan_error h
  have hp := covers_of_toList hsource (Nat.zero_add _) (Nat.zero_add _)
  rw [descend, h]
  dsimp only
  rw [hp.slice?_eq, Option.map_some, String.toList_ofList]
  rfl

theorem descend_of_lex (h : lex source = .ok tokens) : descend source = some (parse source) := by
  rw [descend, h]
  by_cases hne : tokens = []
  · subst hne
    rw [parse, h]
    rfl
  · rw [parse_eq_readTokens h hne]
    exact (Descent.meets_whole h hne (Nat.le_refl _)).run'_eq

theorem descend_in_range (source : String) : descend source = some (parse source) ∧
    ∀ e, parse source = .error e → e.Located source := by
  refine ⟨?_, fun e => parse_error_located⟩
  cases h : lex source with
  | error e =>
    rw [descend_of_lex_error h, parse, h]
    rfl
  | ok tokens => exact descend_of_lex h

end ValueCheck.Grammar
