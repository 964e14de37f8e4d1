import ValueCheck.Proofs.Grammar.Reading

/-! What the reader accepts. In whatever state it is, the symbols behind it are
those of an unfinished derivation that the state describes; so a term it
returns is the term of a finished one. -/

namespace ValueCheck.Grammar

structure OpenLevel where
  alternatives : List Conjunction := []
  conjuncts : List Inversion := []
  inversions : Nat := 0

inductive OpenBracket where
  | paren
  | bracket (items : List Alternation)
  | brace
  | entry (key : Alternation)

structure Pending where
  level : OpenLevel := {}
  enclosing : List (OpenBracket × OpenLevel) := []

def Conjunction.behind (c : Conjunction) (earlier : List Inversion) : Conjunction :=
  earlier.foldl (fun c i => .ampersand i c) c

def Alternation.behind (e : Alternation) (earlier : List Conjunction) : Alternation :=
  earlier.foldl (fun e c => .pipe c e) e

namespace OpenLevel

def symbols (l : OpenLevel) : List Symbol :=
  l.alternatives.reverse.flatMap (fun c => c.symbols ++ [.mark .pipe]) ++
    (l.conjuncts.reverse.flatMap (fun i => i.symbols ++ [.mark .ampersand]) ++
      List.replicate l.inversions (.mark .bang))

def described (l : OpenLevel) : Level :=
  ⟨l.alternatives.map Conjunction.term, l.conjuncts.map Inversion.term, l.inversions⟩

def Admissible (inGroup : Bool) (l : OpenLevel) : Prop :=
  (∀ c ∈ l.alternatives, c.Admissible inGroup) ∧ ∀ i ∈ l.conjuncts, i.Admissible inGroup

def inversion (l : OpenLevel) (o : Operand) : Inversion :=
  Inversion.bang^[l.inversions] (.operand o)

def conjunction (l : OpenLevel) (o : Operand) : Conjunction :=
  (Conjunction.single (l.inversion o)).behind l.conjuncts

def close (l : OpenLevel) (o : Operand) : Alternation :=
  (Alternation.single (l.conjunction o)).behind l.alternatives

end OpenLevel

def Items.behind (is : Items) (earlier : List Alternation) : Items :=
  earlier.foldl (fun is e => .comma e is) is

def Bounds.symbols (b : Bounds) : List Symbol :=
  b.low.toList.map .integer ++ (if b.comma then [.mark .comma] else []) ++
    b.high.toList.map .integer

namespace OpenBracket

def symbols : OpenBracket → List Symbol
  | paren => [.mark .leftParen]
  | bracket items =>
    .mark .leftBracket :: items.reverse.flatMap (fun e => e.symbols ++ [.mark .comma])
  | brace => [.mark .leftBrace]
  | entry k => .mark .leftBrace :: (k.symbols ++ [.mark .colon])

def described : OpenBracket → Opener
  | paren => .group
  | bracket items => .tuple (items.map Alternation.term)
  | brace => .object
  | entry k => .entry k.term

def Admissible (inGroup : Bool) : OpenBracket → Prop
  | paren => inGroup = false
  | bracket items => ∀ e ∈ items, e.Admissible inGroup
  | brace => True
  | entry k => k.Admissible inGroup

end OpenBracket

def enclosingSymbols (enclosing : List (OpenBracket × OpenLevel)) : List Symbol :=
  enclosing.reverse.flatMap fun p => p.2.symbols ++ p.1.symbols

def describedEnclosing (enclosing : List (OpenBracket × OpenLevel)) : List (Opener × Level) :=
  enclosing.map fun p => (p.1.described, p.2.described)

def insideGroup (enclosing : List (OpenBracket × OpenLevel)) : Bool :=
  Context.inGroup ⟨{}, describedEnclosing enclosing⟩

def AdmissibleEnclosing : List (OpenBracket × OpenLevel) → Prop
  | [] => True
  | (b, l) :: rest =>
    b.Admissible (insideGroup rest) ∧ l.Admissible (insideGroup rest) ∧ AdmissibleEnclosing rest

namespace Pending

def symbols (p : Pending) : List Symbol := enclosingSymbols p.enclosing ++ p.level.symbols

def described (p : Pending) : Context := ⟨p.level.described, describedEnclosing p.enclosing⟩

def Admissible (p : Pending) : Prop :=
  p.level.Admissible (insideGroup p.enclosing) ∧ AdmissibleEnclosing p.enclosing

end Pending

theorem OpenLevel.symbols_inversion (l : OpenLevel) (o : Operand) :
    (l.inversion o).symbols = List.replicate l.inversions (.mark .bang) ++ o.symbols := by
  rw [inversion]
  induction l.inversions with
  | zero => rfl
  | succ n ih => simp [Function.iterate_succ_apply', List.replicate_succ, ih]

theorem OpenLevel.inversion_spec (l : OpenLevel) (o : Operand) :
    (l.inversion o).inner = o ∧ (l.inversion o).bangs = l.inversions := by
  rw [inversion]
  induction l.inversions with
  | zero => exact ⟨rfl, rfl⟩
  | succ n ih => simpa [Function.iterate_succ_apply', Inversion.inner, Inversion.bangs] using ih

theorem OpenLevel.term_inversion (l : OpenLevel) (o : Operand) :
    (l.inversion o).term = inverted l.inversions o.term := by
  rw [Inversion.term_eq_inverted, (l.inversion_spec o).1, (l.inversion_spec o).2]

section

-- What is repeated in the grammar, linked in front of the last of its kind.
variable {α β : Type} {link : α → β → β}

theorem symbols_foldl {k : Kind} (sa : α → List Symbol) (sb : β → List Symbol)
    (h : ∀ a b, sb (link a b) = sa a ++ .mark k :: sb b) (last : β) (earlier : List α) :
    sb (earlier.foldl (fun b a => link a b) last) =
      earlier.reverse.flatMap (fun a => sa a ++ [.mark k]) ++ sb last := by
  induction earlier generalizing last with
  | nil => rfl
  | cons a earlier ih =>
    rw [List.foldl_cons, ih, h]
    simp

theorem terms_foldl (ta : α → Term) (tb : β → List Term)
    (h : ∀ a b, tb (link a b) = ta a :: tb b) (last : β) (earlier : List α) :
    tb (earlier.foldl (fun b a => link a b) last) = (earlier.map ta).reverse ++ tb last := by
  induction earlier generalizing last with
  | nil => rfl
  | cons a earlier ih =>
    rw [List.foldl_cons, ih, h]
    simp

theorem admissible_foldl (pa : α → Prop) (pb : β → Prop) (h : ∀ a b, pa a → pb b → pb (link a b))
    {last : β} (hl : pb last) {earlier : List α} (he : ∀ a ∈ earlier, pa a) :
    pb (earlier.foldl (fun b a => link a b) last) := by
  induction earlier generalizing last with
  | nil => exact hl
  | cons a earlier ih =>
    rw [List.forall_mem_cons] at he
    exact ih (h a last he.1 hl) he.2

end

theorem Conjunction.symbols_behind (c : Conjunction) (is : List Inversion) :
    (c.behind is).symbols =
      is.reverse.flatMap (fun i => i.symbols ++ [.mark .ampersand]) ++ c.symbols :=
  symbols_foldl Inversion.symbols Conjunction.symbols (fun _ _ => rfl) c is

theorem Conjunction.terms_behind (c : Conjunction) (is : List Inversion) :
    (c.behind is).terms = (is.map Inversion.term).reverse ++ c.terms :=
  terms_foldl Inversion.term Conjunction.terms (fun _ _ => rfl) c is

theorem Alternation.symbols_behind (e : Alternation) (cs : List Conjunction) :
    (e.behind cs).symbols =
      cs.reverse.flatMap (fun c => c.symbols ++ [.mark .pipe]) ++ e.symbols :=
  symbols_foldl Conjunction.symbols Alternation.symbols (fun _ _ => rfl) e cs

theorem Alternation.terms_behind (e : Alternation) (cs : List Conjunction) :
    (e.behind cs).terms = (cs.map Conjunction.term).reverse ++ e.terms :=
  terms_foldl Conjunction.term Alternation.terms (fun _ _ => rfl) e cs

theorem OpenLevel.symbols_close (l : OpenLevel) (o : Operand) :
    (l.close o).symbols = l.symbols ++ o.symbols := by
  simp [close, conjunction, Alternation.symbols_behind, Conjunction.symbols_behind,
    symbols_inversion, symbols]

theorem OpenLevel.term_conjunction (l : OpenLevel) (o : Operand) :
    (l.conjunction o).term = l.described.conjunction o.term := by
  rw [Conjunction.term_eq_joined, conjunction, Conjunction.terms_behind, Level.conjunction,
    combined_eq_joined, described, ← l.term_inversion]
  rfl

theorem OpenLevel.term_close (l : OpenLevel) (o : Operand) :
    (l.close o).term = l.described.close o.term := by
  rw [Alternation.term_eq_joined, close, Alternation.terms_behind, Level.close,
    combined_eq_joined, ← l.term_conjunction]
  rfl

theorem Items.symbols_behind (is : Items) (es : List Alternation) :
    (is.behind es).symbols =
      es.reverse.flatMap (fun e => e.symbols ++ [.mark .comma]) ++ is.symbols :=
  symbols_foldl Alternation.symbols Items.symbols (fun _ _ => rfl) is es

theorem Items.terms_behind (is : Items) (es : List Alternation) :
    (is.behind es).terms = (es.map Alternation.term).reverse ++ is.terms :=
  terms_foldl Alternation.term Items.terms (fun _ _ => rfl) is es

variable {g : Bool}

theorem Items.admissible_behind {is : Items} (hi : is.Admissible g) {es : List Alternation}
    (hes : ∀ e ∈ es, e.Admissible g) : (is.behind es).Admissible g :=
  admissible_foldl (Alternation.Admissible g) (Items.Admissible g) (fun _ _ => And.intro) hi hes

theorem Conjunction.admissible_behind {c : Conjunction} (hc : c.Admissible g) {is : List Inversion}
    (his : ∀ i ∈ is, i.Admissible g) : (c.behind is).Admissible g :=
  admissible_foldl (Inversion.Admissible g) (Conjunction.Admissible g) (fun _ _ => And.intro) hc his

theorem Alternation.admissible_behind {e : Alternation} (he : e.Admissible g)
    {cs : List Conjunction} (hcs : ∀ c ∈ cs, c.Admissible g) : (e.behind cs).Admissible g :=
  admissible_foldl (Conjunction.Admissible g) (Alternation.Admissible g) (fun _ _ => And.intro)
    he hcs

theorem OpenLevel.admissible_inversion (l : OpenLevel) {o : Operand} (h : o.Admissible g) :
    (l.inversion o).Admissible g := by
  rw [inversion]
  induction l.inversions with
  | zero => exact h
  | succ n ih => rwa [Function.iterate_succ_apply', Inversion.Admissible]

theorem OpenLevel.admissible_conjunction {l : OpenLevel} {o : Operand} (hl : l.Admissible g)
    (ho : o.Admissible g) : (l.conjunction o).Admissible g :=
  Conjunction.admissible_behind (c := .single (l.inversion o)) (l.admissible_inversion ho) hl.2

theorem OpenLevel.admissible_close {l : OpenLevel} {o : Operand} (hl : l.Admissible g)
    (ho : o.Admissible g) : (l.close o).Admissible g :=
  Alternation.admissible_behind (e := .single (l.conjunction o)) (admissible_conjunction hl ho) hl.1

/-- The states, and the symbols behind each, that an unfinished derivation accounts for. -/
inductive Accounted : State → List Symbol → Prop where
  | operand (p : Pending) (hp : p.Admissible) : Accounted (.operand p.described) p.symbols
  | suffix (p : Pending) (o : Operand) (hp : p.Admissible)
      (ho : o.Admissible (insideGroup p.enclosing)) :
      Accounted (.suffix p.described o.term) (p.symbols ++ o.symbols)
  | bracket (p : Pending) (o : Operand) (hp : p.Admissible)
      (ho : o.Admissible (insideGroup p.enclosing)) :
      Accounted (.bracket p.described o.term) (p.symbols ++ o.symbols ++ [.mark .leftBracket])
  | size (p : Pending) (o : Operand) (hp : p.Admissible)
      (ho : o.Admissible (insideGroup p.enclosing)) (start : Nat) (b : Bounds) :
      Accounted (.size p.described o.term start b)
        (p.symbols ++ o.symbols ++ .mark .leftBrace :: b.symbols)

theorem Accounted.of_eq {s s' : State} {xs xs' : List Symbol} (h : Accounted s' xs') (hs : s' = s)
    (hx : xs' = xs) : Accounted s xs := by
  subst hs hx
  exact h

namespace Pending

def enter (p : Pending) (b : OpenBracket) : Pending := ⟨{}, (b, p.level) :: p.enclosing⟩

theorem symbols_enter (p : Pending) (b : OpenBracket) :
    (p.enter b).symbols = p.symbols ++ b.symbols := by
  simp [enter, symbols, enclosingSymbols, OpenLevel.symbols]

theorem Admissible.enter {p : Pending} (hp : p.Admissible) {b : OpenBracket}
    (hb : b.Admissible (insideGroup p.enclosing)) : (p.enter b).Admissible :=
  ⟨⟨by simp [Pending.enter], by simp [Pending.enter]⟩, hb, hp⟩

def invert (p : Pending) : Pending :=
  { p with level := { p.level with inversions := p.level.inversions + 1 } }

theorem symbols_invert (p : Pending) : p.invert.symbols = p.symbols ++ [.mark .bang] := by
  simp [invert, symbols, OpenLevel.symbols, List.replicate_succ']

end Pending

variable {source : String} {token : Token} {s' : State}

theorem Accounted.atOperand {p : Pending} (hp : p.Admissible)
    (h : State.atOperand p.described token = .ok s') :
    Accounted s' (p.symbols ++ [token.symbol]) := by
  cases hk : token.kind <;> simp only [State.atOperand, hk] at h <;> try cases h
  case name =>
    exact (Accounted.suffix p (.mk (.name token.text) []) hp ⟨trivial, by simp⟩).of_eq rfl
      (by simp [Token.symbol, hk])
  case bang =>
    exact (Accounted.operand p.invert hp).of_eq rfl (by simp [p.symbols_invert, Token.symbol, hk])
  case leftBracket =>
    exact (Accounted.operand (p.enter (.bracket []))
      (hp.enter (by simp [OpenBracket.Admissible]))).of_eq
      rfl (by simp [p.symbols_enter, OpenBracket.symbols, Token.symbol, hk])
  case leftBrace =>
    exact (Accounted.operand (p.enter .brace) (hp.enter trivial)).of_eq rfl
      (by simp [p.symbols_enter, OpenBracket.symbols, Token.symbol, hk])
  case leftParen =>
    split at h
    · cases h
    · next hg =>
      cases h
      exact (Accounted.operand (p.enter .paren) (hp.enter (eq_false_of_ne_true hg))).of_eq rfl
        (by simp [p.symbols_enter, OpenBracket.symbols, Token.symbol, hk])

def Operand.snoc : Operand → Suffix → Operand
  | .mk p ss, s => .mk p (ss ++ [s])

theorem Operand.symbols_snoc (o : Operand) (s : Suffix) :
    (o.snoc s).symbols = o.symbols ++ s.symbols := by
  cases o
  simp [snoc]

theorem Operand.term_snoc (o : Operand) (s : Suffix) : (o.snoc s).term = s.apply o.term := by
  cases o
  simp [snoc, term]

theorem Operand.Admissible.snoc {g : Bool} {o : Operand} (ho : o.Admissible g) {s : Suffix}
    (hs : s.Fits) : (o.snoc s).Admissible g := by
  cases o
  refine ⟨ho.1, ?_⟩
  rw [List.forall_mem_append]
  exact ⟨ho.2, by simpa using hs⟩

theorem Accounted.suffixed {p : Pending} {o : Operand} (hp : p.Admissible)
    (ho : o.Admissible (insideGroup p.enclosing)) {s : Suffix} (hs : s.Fits) :
    Accounted (.suffix p.described (s.apply o.term)) (p.symbols ++ o.symbols ++ s.symbols) := by
  apply (Accounted.suffix p (o.snoc s) hp (ho.snoc hs)).of_eq
  · rw [o.term_snoc]
  · rw [o.symbols_snoc, List.append_assoc]

section

variable {l : OpenLevel} {enclosing : List (OpenBracket × OpenLevel)} {o : Operand}

theorem Accounted.afterAmpersand (hp : Pending.Admissible ⟨l, enclosing⟩)
    (ho : o.Admissible (insideGroup enclosing)) :
    Accounted (.operand ⟨l.described.afterAmpersand o.term, describedEnclosing enclosing⟩)
      (Pending.symbols ⟨l, enclosing⟩ ++ o.symbols ++ [.mark .ampersand]) := by
  have hl : OpenLevel.Admissible (insideGroup enclosing)
      ⟨l.alternatives, l.inversion o :: l.conjuncts, 0⟩ :=
    ⟨hp.1.1, List.forall_mem_cons.2 ⟨l.admissible_inversion ho, hp.1.2⟩⟩
  apply (Accounted.operand ⟨_, enclosing⟩ ⟨hl, hp.2⟩).of_eq
  · simp [Pending.described, OpenLevel.described, Level.afterAmpersand, l.term_inversion]
  · simp [Pending.symbols, OpenLevel.symbols, l.symbols_inversion]

theorem Accounted.afterPipe (hp : Pending.Admissible ⟨l, enclosing⟩)
    (ho : o.Admissible (insideGroup enclosing)) :
    Accounted (.operand ⟨l.described.afterPipe o.term, describedEnclosing enclosing⟩)
      (Pending.symbols ⟨l, enclosing⟩ ++ o.symbols ++ [.mark .pipe]) := by
  have hl : OpenLevel.Admissible (insideGroup enclosing)
      ⟨l.conjunction o :: l.alternatives, [], 0⟩ :=
    ⟨List.forall_mem_cons.2 ⟨OpenLevel.admissible_conjunction hp.1 ho, hp.1.1⟩, by simp⟩
  apply (Accounted.operand ⟨_, enclosing⟩ ⟨hl, hp.2⟩).of_eq
  · simp [Pending.described, OpenLevel.described, Level.afterPipe, l.term_conjunction]
  · simp [Pending.symbols, OpenLevel.symbols, OpenLevel.conjunction, Conjunction.symbols_behind,
      l.symbols_inversion]

end

theorem Accounted.closed {rest : List (OpenBracket × OpenLevel)} {outer : OpenLevel} {p : Primary}
    {xs : List Symbol} (hr : Pending.Admissible ⟨outer, rest⟩)
    (hp : p.Admissible (insideGroup rest))
    (hx : (Pending.symbols ⟨outer, rest⟩) ++ p.symbols = xs) :
    Accounted (.suffix (Pending.described ⟨outer, rest⟩) p.term) xs :=
  (Accounted.suffix ⟨outer, rest⟩ (.mk p []) hr ⟨hp, by simp⟩).of_eq rfl (by simpa using hx)

theorem Accounted.atSuffix {p : Pending} {o : Operand} (hp : p.Admissible)
    (ho : o.Admissible (insideGroup p.enclosing))
    (h : State.atSuffix p.described o.term token = .ok s') :
    Accounted s' (p.symbols ++ o.symbols ++ [token.symbol]) := by
  obtain ⟨l, enclosing⟩ := p
  have he := OpenLevel.admissible_close hp.1 ho
  have hx := l.symbols_close o
  cases hk : token.kind <;>
    simp only [State.atSuffix, hk, Pending.described, ← l.term_close] at h
  case question =>
    cases h
    exact (Accounted.suffixed (s := .optional) hp ho trivial).of_eq rfl
      (by simp [Suffix.symbols, Token.symbol, hk])
  case plus =>
    cases h
    exact (Accounted.suffixed (s := .nonEmpty) hp ho trivial).of_eq rfl
      (by simp [Suffix.symbols, Token.symbol, hk])
  case leftBracket =>
    cases h
    exact (Accounted.bracket _ o hp ho).of_eq rfl (by simp [Token.symbol, hk])
  case leftBrace =>
    cases h
    exact (Accounted.size _ o hp ho token.span.start {}).of_eq rfl
      (by simp [Bounds.symbols, Token.symbol, hk])
  case ampersand =>
    cases h
    exact (Accounted.afterAmpersand hp ho).of_eq rfl (by simp [Token.symbol, hk])
  case pipe =>
    cases h
    exact (Accounted.afterPipe hp ho).of_eq rfl (by simp [Token.symbol, hk])
  case rightParen =>
    rcases enclosing with _ | ⟨⟨b, outer⟩, rest⟩
    · cases h
    · cases b <;> cases h
      exact .closed (p := .paren (l.close o)) ⟨hp.2.2.1, hp.2.2.2⟩ ⟨hp.2.1, he⟩
        (by simp [hx, Pending.symbols, enclosingSymbols, OpenBracket.symbols, Token.symbol, hk])
  case comma =>
    rcases enclosing with _ | ⟨⟨b, outer⟩, rest⟩
    · cases h
    · cases b <;> cases h
      next items =>
      exact (Accounted.operand ⟨{}, (.bracket (l.close o :: items), outer) :: rest⟩
        ⟨⟨by simp, by simp⟩, List.forall_mem_cons.2 ⟨he, hp.2.1⟩, hp.2.2⟩).of_eq rfl
        (by simp [hx, Pending.symbols, enclosingSymbols, OpenBracket.symbols, OpenLevel.symbols,
          Token.symbol, hk])
  case rightBracket =>
    rcases enclosing with _ | ⟨⟨b, outer⟩, rest⟩
    · cases h
    · cases b <;> cases h
      next items =>
      refine (Accounted.closed (p := .bracket ((Items.single (l.close o)).behind items))
        ⟨hp.2.2.1, hp.2.2.2⟩ (@Items.admissible_behind _ (.single _) he _ hp.2.1) rfl).of_eq ?_ ?_
      · rw [Primary.term, Items.terms_behind, ← List.map_reverse]
        simp [Items.terms, Pending.described, describedEnclosing]
      · simp [Items.symbols_behind, hx, Pending.symbols, enclosingSymbols, OpenBracket.symbols,
          Token.symbol, hk]
  case colon =>
    rcases enclosing with _ | ⟨⟨b, outer⟩, rest⟩
    · cases h
    · cases b <;> cases h
      exact (Accounted.operand ⟨{}, (.entry (l.close o), outer) :: rest⟩
        ⟨⟨by simp, by simp⟩, he, hp.2.2⟩).of_eq rfl
        (by simp [hx, Pending.symbols, enclosingSymbols, OpenBracket.symbols, OpenLevel.symbols,
          Token.symbol, hk])
  case rightBrace =>
    rcases enclosing with _ | ⟨⟨b, outer⟩, rest⟩
    · cases h
    · cases b <;> cases h
      · exact .closed (p := .brace (l.close o)) ⟨hp.2.2.1, hp.2.2.2⟩ he
          (by simp [hx, Pending.symbols, enclosingSymbols, OpenBracket.symbols, Token.symbol, hk])
      · next k =>
        exact .closed (p := .entries k (l.close o)) ⟨hp.2.2.1, hp.2.2.2⟩ ⟨hp.2.1, he⟩
          (by simp [hx, Pending.symbols, enclosingSymbols, OpenBracket.symbols, Token.symbol, hk])
  all_goals cases h

theorem Accounted.inBracket {p : Pending} {o : Operand} (hp : p.Admissible)
    (ho : o.Admissible (insideGroup p.enclosing))
    (h : State.inBracket p.described o.term token = .ok s') :
    Accounted s' (p.symbols ++ o.symbols ++ [.mark .leftBracket] ++ [token.symbol]) := by
  cases hk : token.kind <;> simp only [State.inBracket, hk] at h <;> cases h
  exact (Accounted.suffixed (s := .array) hp ho trivial).of_eq rfl
    (by simp [Suffix.symbols, Token.symbol, hk])

theorem bound?_eq_some_iff {n : String} {k : Nat} :
    bound? n = some k ↔ digitsValue n < UInt64.size ∧ digitsValue n = k := by
  simp [bound?]

theorem Bounds.exists_size {b : Bounds} {r : SizeRange} (h : b.range? = some r) :
    ∃ size : Size, size.Fits ∧ size.symbols = b.symbols ∧ size.range = r := by
  simp only [range?] at h
  split at h
  · next n =>
    obtain ⟨k, hk, rfl⟩ := Option.map_eq_some_iff.1 h
    obtain ⟨hn, rfl⟩ := bound?_eq_some_iff.1 hk
    exact ⟨.exactly n, hn, rfl, rfl⟩
  · next n =>
    obtain ⟨k, hk, rfl⟩ := Option.map_eq_some_iff.1 h
    obtain ⟨hn, rfl⟩ := bound?_eq_some_iff.1 hk
    exact ⟨.atLeast n, hn, rfl, rfl⟩
  · next n =>
    obtain ⟨k, hk, rfl⟩ := Option.map_eq_some_iff.1 h
    obtain ⟨hn, rfl⟩ := bound?_eq_some_iff.1 hk
    exact ⟨.atMost n, hn, rfl, rfl⟩
  · next n m =>
    split at h
    · next low high hl hh =>
      obtain ⟨hn, rfl⟩ := bound?_eq_some_iff.1 hl
      obtain ⟨hm, rfl⟩ := bound?_eq_some_iff.1 hh
      split at h
      · next hle =>
        cases h
        exact ⟨.between n m, ⟨hn, hm, hle⟩, rfl, rfl⟩
      · cases h
    · cases h
  · cases h

theorem Accounted.inSize {p : Pending} {o : Operand} {start : Nat} {b : Bounds} (hp : p.Admissible)
    (ho : o.Admissible (insideGroup p.enclosing))
    (h : State.inSize source p.described o.term start b token = .ok s') :
    Accounted s' (p.symbols ++ o.symbols ++ .mark .leftBrace :: b.symbols ++ [token.symbol]) := by
  simp only [State.inSize] at h
  split at h
  · next hk =>
    cases h
    exact (Accounted.size p o hp ho start _).of_eq rfl (by simp [Bounds.symbols, Token.symbol, hk])
  · next _ hk =>
    cases h
    exact (Accounted.size p o hp ho start _).of_eq rfl (by simp [Bounds.symbols, Token.symbol, hk])
  · next hk =>
    cases h
    exact (Accounted.size p o hp ho start _).of_eq rfl (by simp [Bounds.symbols, Token.symbol, hk])
  · next hk =>
    split at h
    · next r hr =>
      cases h
      obtain ⟨size, hf, hs, rfl⟩ := Bounds.exists_size hr
      exact (Accounted.suffixed (s := .sized size) hp ho hf).of_eq rfl
        (by simp [Suffix.symbols, hs, Token.symbol, hk])
    · cases h
  · cases h

theorem Accounted.next {s : State} {xs : List Symbol} (hs : Accounted s xs)
    (h : State.next source s token = .ok s') : Accounted s' (xs ++ [token.symbol]) := by
  cases hs with
  | operand p hp => exact .atOperand hp h
  | suffix p o hp ho => exact .atSuffix hp ho h
  | bracket p o hp ho => exact .inBracket hp ho h
  | size p o hp ho start b => exact .inSize hp ho h

theorem Accounted.run {s : State} {xs : List Symbol} (hs : Accounted s xs) {tokens : List Token}
    (h : tokens.foldlM (State.next source) s = .ok s') :
    Accounted s' (xs ++ tokens.map Token.symbol) := by
  induction tokens generalizing s xs with
  | nil =>
    cases h
    simpa using hs
  | cons token tokens ih =>
    rw [List.foldlM_cons] at h
    cases hn : State.next source s token with
    | error e => simp [hn, bind, Except.bind] at h
    | ok u =>
      rw [hn] at h
      simpa using ih (hs.next hn) h

theorem Accounted.finish {s : State} {xs : List Symbol} {t : Term} (hs : Accounted s xs)
    (h : s.finish source = .ok t) :
    ∃ e : Alternation, e.symbols = xs ∧ e.Admissible false ∧ e.term = t := by
  cases hs with
  | operand p hp => cases h
  | bracket p o hp ho => cases h
  | size p o hp ho start b => cases h
  | suffix p o hp ho =>
    obtain ⟨l, enclosing⟩ := p
    cases enclosing with
    | cons b rest => cases h
    | nil =>
      cases h
      exact ⟨l.close o, by simp [l.symbols_close, Pending.symbols, enclosingSymbols],
        OpenLevel.admissible_close hp.1 ho, l.term_close o⟩

theorem exists_derivation_of_readTokens {tokens : List Token} {t : Term}
    (h : readTokens source tokens = .ok t) :
    ∃ e : Alternation, e.symbols = tokens.map Token.symbol ∧ e.Admissible false ∧ e.term = t := by
  rw [readTokens] at h
  cases hr : tokens.foldlM (State.next source) (.operand {}) with
  | error e => simp [hr, bind, Except.bind] at h
  | ok s =>
    rw [hr] at h
    have start : Accounted (.operand {}) [] :=
      .operand {} ⟨⟨by simp, by simp⟩, trivial⟩
    exact (start.run hr).finish h

def Alternation.Derives (e : Alternation) (tokens : List Token) : Prop :=
  e.symbols = tokens.map Token.symbol ∧ e.Admissible false

theorem parse_eq_ok_iff {tokens : List Token} {t : Term} (h : lex source = .ok tokens) :
    parse source = .ok t ↔ readTokens source tokens = .ok t := by
  cases tokens with
  | nil => simp [parse, h, bind, Except.bind, readTokens, State.finish, pure, Except.pure]
  | cons token tokens => simp [parse, h, bind, Except.bind]

theorem parse_eq_ok_of_derives {tokens : List Token} {e : Alternation}
    (h : lex source = .ok tokens) (he : e.Derives tokens) : parse source = .ok e.term :=
  (parse_eq_ok_iff h).2 (readTokens_of_symbols he.2 he.1.symm)

theorem parse_iff_derivation {tokens : List Token} (h : lex source = .ok tokens) :
    ((∃ t, parse source = .ok t) ↔ ∃ e : Alternation, e.Derives tokens) ∧
      (∀ e e' : Alternation, e.Derives tokens → e'.Derives tokens → e = e') ∧
      ∀ e : Alternation, e.Derives tokens → parse source = .ok e.term := by
  refine ⟨⟨?_, ?_⟩, ?_, fun e he => parse_eq_ok_of_derives h he⟩
  · rintro ⟨t, ht⟩
    obtain ⟨e, hs, ha, -⟩ := exists_derivation_of_readTokens ((parse_eq_ok_iff h).1 ht)
    exact ⟨e, hs, ha⟩
  · rintro ⟨e, he⟩
    exact ⟨e.term, parse_eq_ok_of_derives h he⟩
  · intro e e' he he'
    exact Alternation.eq_of_symbols_eq (he.1.trans he'.1.symm)

theorem parse_derivation_inverted_array :
    lex "!a+[]" = .ok [⟨.bang, "!", 0, 1⟩, ⟨.name, "a", 1, 2⟩, ⟨.plus, "+", 2, 3⟩,
      ⟨.leftBracket, "[", 3, 4⟩, ⟨.rightBracket, "]", 4, 5⟩] ∧
    parse "!a+[]" = .ok (.array (.inverted (.nonEmpty (.name "a")))) := by
  have h : lex "!a+[]" = .ok [⟨.bang, "!", 0, 1⟩, ⟨.name, "a", 1, 2⟩, ⟨.plus, "+", 2, 3⟩,
      ⟨.leftBracket, "[", 3, 4⟩, ⟨.rightBracket, "]", 4, 5⟩] := by decide +kernel
  let e : Alternation := .single (.single (.bang (.operand (.mk (.name "a") [.nonEmpty, .array]))))
  exact ⟨h, (parse_iff_derivation h).2.2 e ⟨rfl, trivial, by simp [Suffix.Fits]⟩⟩

end ValueCheck.Grammar
