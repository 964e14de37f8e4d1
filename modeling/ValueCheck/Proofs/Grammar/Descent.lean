import ValueCheck.Proofs.Grammar.Faults

/-! Reading by recursive descent, with a cursor on the tokens. Every read at an index and every
slice of the source is checked. -/

namespace ValueCheck.Grammar

structure Cursor where
  pos : Nat := 0
  openGroups : Nat := 0

def Cursor.next (k : Cursor) : Cursor := { k with pos := k.pos + 1 }

theorem Cursor.pos_lt_next (k : Cursor) : k.pos < k.next.pos := Nat.lt_succ_self _

/-- There is no result where a read is out of range. -/
abbrev Descent := StateT Cursor (ExceptT GrammarError Option)

def slice? (source : String) (span : Span) : Option String :=
  if span.start ≤ span.stop ∧ String.Pos.Raw.isValid source ⟨span.start⟩ ∧
      String.Pos.Raw.isValid source ⟨span.stop⟩ then some (span.text source)
  else none

namespace Descent

variable {α β : Type} (source : String) (tokens : List Token)

def outOfRange : Descent α := fun _ => ExceptT.mk none

def checked (x : Option α) : Descent α :=
  match x with
  | some a => return a
  | none => outOfRange

def current : Descent (Option Token) := return tokens[(← get).pos]?

def check (kind : Kind) : Descent Bool := return (← current tokens).any (·.kind = kind)

def advance : Descent Unit := modify Cursor.next

def eat (kind : Kind) : Descent Bool := do
  if ← check tokens kind then
    advance
    return true
  else return false

def refuse (expected : Expected) : Descent α := do
  match ← current tokens with
  | some token =>
    throw ⟨.unexpectedToken (← checked (slice? source token.span)) expected, token.span⟩
  | none => throw (State.endError source expected)

def expect (kind : Kind) (expected : Expected) : Descent Unit := do
  if ← check tokens kind then advance else refuse source tokens expected

def sizeBound : Descent (Option (Option Nat)) := do
  match ← current tokens with
  | some token =>
    if token.kind = .integer then
      advance
      return some (bound? (← checked (slice? source token.span)))
    else return none
  | none => return none

def sizeRange : Option (Option Nat) → Bool → Option (Option Nat) → Option SizeRange
  | some (some n), false, none => some (.exactly n)
  | some (some n), true, none => some (.atLeast n)
  | none, true, some (some n) => some (.atMost n)
  | some (some n), true, some (some m) => if n ≤ m then some (.between n m) else none
  | _, _, _ => none

def sizeStop (closed : Bool) : Descent Nat := do
  let k ← get
  if closed then
    if k.pos = 0 then outOfRange
    else return (← checked tokens[k.pos - 1]?).span.stop
  else return tokens[k.pos]?.elim source.utf8ByteSize (·.span.stop)

def bounds : Descent (Option (Option Nat) × Bool × Option (Option Nat)) := do
  let low ← sizeBound source tokens
  let comma ← eat tokens .comma
  return (low, comma, ← sizeBound source tokens)

def size : Descent SizeRange := do
  let start := (← current tokens).elim source.utf8ByteSize (·.span.start)
  advance
  let (low, comma, high) ← bounds source tokens
  let closed ← eat tokens .rightBrace
  match sizeRange low comma high, closed with
  | some range, true => return range
  | _, _ =>
    let stop ← sizeStop source tokens closed
    throw ⟨.invalidSize (← checked (slice? source ⟨start, stop⟩)), start, stop⟩

def bangs : Nat → Nat → Descent Nat
  | 0, _ => outOfRange
  | fuel + 1, n => do
    if ← eat tokens .bang then bangs fuel (n + 1) else return n

def suffixes : Nat → Term → Descent Term
  | 0, _ => outOfRange
  | fuel + 1, t => do
    match ← current tokens with
    | none => return t
    | some token =>
      match token.kind with
      | .question =>
        advance
        suffixes fuel (.optional t)
      | .plus =>
        advance
        suffixes fuel (.nonEmpty t)
      | .leftBracket =>
        advance
        expect source tokens .rightBracket .bracketEnd
        suffixes fuel (.array t)
      | .leftBrace => suffixes fuel (.sized t (← size source tokens))
      | _ => return t

def repeated (separator : Kind) (part : Descent Term) : Nat → List Term → Descent (List Term)
  | 0, _ => outOfRange
  | fuel + 1, items => do
    if ← eat tokens separator then
      let item ← part
      repeated separator part fuel (items ++ [item])
    else return items

def group (inner : Descent Term) (token : Token) : Descent Term := do
  if 0 < (← get).openGroups then throw ⟨.nestedGroup, token.span⟩
  else
    advance
    modify fun k => { k with openGroups := k.openGroups + 1 }
    let t ← inner
    expect source tokens .rightParen .groupEnd
    modify fun k => { k with openGroups := k.openGroups - 1 }
    return .group t

def tuple (item : Descent Term) (fuel : Nat) : Descent Term := do
  advance
  let first ← item
  let items ← repeated tokens .comma item fuel [first]
  expect source tokens .rightBracket .tupleEnd
  return .tuple items

def object (part : Descent Term) : Descent Term := do
  advance
  let first ← part
  if ← eat tokens .colon then
    let value ← part
    expect source tokens .rightBrace .objectEnd
    return .entries first value
  else
    expect source tokens .rightBrace .objectEnd
    return .object first

mutual

def alternation : Nat → Descent Term
  | 0 => outOfRange
  | fuel + 1 => do
    let first ← conjunction fuel
    if ← check tokens .pipe then
      return .anyOf (← repeated tokens .pipe (conjunction fuel) fuel [first])
    else return first

def conjunction : Nat → Descent Term
  | 0 => outOfRange
  | fuel + 1 => do
    let first ← inversion fuel
    if ← check tokens .ampersand then
      return .allOf (← repeated tokens .ampersand (inversion fuel) fuel [first])
    else return first

def inversion : Nat → Descent Term
  | 0 => outOfRange
  | fuel + 1 => do
    let n ← bangs tokens fuel 0
    let t ← primary fuel
    return inverted n (← suffixes source tokens fuel t)

def primary : Nat → Descent Term
  | 0 => outOfRange
  | fuel + 1 => do
    match ← current tokens with
    | none => refuse source tokens .operand
    | some token =>
      match token.kind with
      | .name =>
        advance
        return .name (← checked (slice? source token.span))
      | .leftParen => group source tokens (alternation fuel) token
      | .leftBracket => tuple source tokens (alternation fuel) fuel
      | .leftBrace => object source tokens (alternation fuel)
      | _ => refuse source tokens .operand

end

def whole (fuel : Nat) : Descent Term := do
  if tokens.isEmpty then throw ⟨.empty, 0, source.utf8ByteSize⟩
  else
    let t ← alternation source tokens fuel
    if (← current tokens).isSome then refuse source tokens .operatorOrEnd else return t

end Descent

def descend (source : String) : Option (Except GrammarError Term) :=
  match lex source with
  | .error e => (slice? source e.span).map fun text =>
    .error ⟨.invalidCharacter (text.toList.head?.getD '\ufffd'), e.span⟩
  | .ok tokens => ((Descent.whole source tokens (4 * tokens.length + 4)).run' {}).run

variable {source : String} {tokens : List Token} {token x : Token} {span : Span} {piece : String}
  {pos i j : Nat}

theorem Span.Covers.slice?_eq (h : span.Covers source piece) :
    slice? source span = some piece := by
  obtain ⟨hle, -, hstart, hstop⟩ := h.valid
  rw [slice?, h.text_eq]
  exact if_pos ⟨hle, String.Pos.Raw.isValid_eq_true_iff.2 hstart,
    String.Pos.Raw.isValid_eq_true_iff.2 hstop⟩

theorem drop_of_getElem? (h : tokens[pos]? = some token) :
    tokens.drop pos = token :: tokens.drop (pos + 1) := by
  obtain ⟨hlt, rfl⟩ := List.getElem?_eq_some_iff.1 h
  exact List.drop_eq_getElem_cons hlt

theorem take_append_of_getElem? (h : tokens[pos]? = some token) :
    tokens = tokens.take pos ++ token :: tokens.drop (pos + 1) := by
  rw [← drop_of_getElem? h, List.take_append_drop]

section

variable (hl : lex source = .ok tokens)

include hl

theorem slice?_token (h : tokens[pos]? = some token) :
    slice? source token.span = some token.text := by
  rw [take_append_of_getElem? h] at hl
  exact (covers_token hl).slice?_eq

theorem slice?_between (hi : tokens[i]? = some x) (hj : tokens[j]? = some token) (hij : i < j) :
    slice? source ⟨x.span.start, token.span.stop⟩ =
      some (Span.text ⟨x.span.start, token.span.stop⟩ source) := by
  have hx : x ∈ tokens.take j := List.mem_of_getElem? (by rw [List.getElem?_take_of_lt hij, hi])
  rw [take_append_of_getElem? hj] at hl
  obtain ⟨piece, hp⟩ := covers_between hl hx
  rw [hp.slice?_eq, hp.text_eq]

theorem slice?_rest (hi : tokens[i]? = some x) :
    slice? source ⟨x.span.start, source.utf8ByteSize⟩ =
      some (Span.text ⟨x.span.start, source.utf8ByteSize⟩ source) := by
  obtain ⟨piece, hp⟩ := covers_rest hl (List.mem_of_getElem? hi)
  rw [hp.slice?_eq, hp.text_eq]

end

namespace Descent

variable {α β : Type} {k : Cursor} {out : Except GrammarError Term} {P : α → Cursor → Prop}
  {Q : β → Cursor → Prop} {f : α → Descent β}

/-- Nothing out of range is read, an error is the outcome, and a result is as described. -/
def Meets (m : Descent α) (k : Cursor) (out : Except GrammarError Term)
    (P : α → Cursor → Prop) : Prop :=
  (∃ e, m k = some (.error e) ∧ out = .error e) ∨ ∃ a k', m k = some (.ok (a, k')) ∧ P a k'

theorem Meets.bind {m : Descent α} (hm : Meets m k out P)
    (hf : ∀ a k', P a k' → Meets (f a) k' out Q) : Meets (m >>= f) k out Q := by
  rcases hm with ⟨e, he, ho⟩ | ⟨a, k', ha, hp⟩
  · refine .inl ⟨e, ?_, ho⟩
    simp only [Bind.bind, StateT.bind, ExceptT.bind, ExceptT.mk, he]
    rfl
  · have hb : (m >>= f) k = f a k' := by
      simp only [Bind.bind, StateT.bind, ExceptT.bind, ExceptT.mk, ha]
      rfl
    rw [Meets, hb]
    exact hf a k' hp

theorem Meets.mono {m : Descent α} {P' : α → Cursor → Prop} (hm : Meets m k out P)
    (h : ∀ a k', P a k' → P' a k') : Meets m k out P' := by
  rcases hm with he | ⟨a, k', ha, hp⟩
  · exact .inl he
  · exact .inr ⟨a, k', ha, h a k' hp⟩

theorem Meets.pure {a : α} (h : P a k) : Meets (Pure.pure a) k out P := .inr ⟨a, k, rfl, h⟩

theorem Meets.throw (h : out = .error e) : Meets (throw e : Descent α) k out P := .inl ⟨e, rfl, h⟩

section

variable {g : β → Descent α} {a : β}

theorem Meets.current {g : Option Token → Descent α} (h : Meets (g tokens[k.pos]?) k out P) :
    Meets (current tokens >>= g) k out P := h

theorem Meets.get {g : Cursor → Descent α} (h : Meets (g k) k out P) :
    Meets (get >>= g) k out P := h

theorem Meets.modify {g : Unit → Descent α} {move : Cursor → Cursor}
    (h : Meets (g ()) (move k) out P) : Meets (modify move >>= g) k out P := h

theorem Meets.advance {g : Unit → Descent α} (h : Meets (g ()) k.next out P) :
    Meets (advance >>= g) k out P := h

theorem Meets.checked {x : Option β} (hx : x = some a) (h : Meets (g a) k out P) :
    Meets (checked x >>= g) k out P := by
  subst hx
  exact h

end

def Free (tokens : List Token) (kinds : List Kind) (pos : Nat) : Prop :=
  ∀ token, tokens[pos]? = some token → token.kind ∉ kinds

theorem Free.cons {kind : Kind} {kinds : List Kind} (h : Free tokens [kind] pos)
    (hs : Free tokens kinds pos) : Free tokens (kind :: kinds) pos := by
  intro token ht hm
  rcases List.mem_cons.1 hm with rfl | hm
  · exact h token ht (List.mem_singleton_self _)
  · exact hs token ht hm

theorem Meets.check {kind : Kind} {g : Bool → Descent α}
    (yes : ∀ token, tokens[k.pos]? = some token → token.kind = kind → Meets (g true) k out P)
    (no : Free tokens [kind] k.pos → Meets (g false) k out P) :
    Meets (check tokens kind >>= g) k out P := by
  change Meets (g (tokens[k.pos]?.any (·.kind = kind))) k out P
  cases ht : tokens[k.pos]? with
  | none => exact no (by simp [Free, ht])
  | some token =>
    by_cases hk : token.kind = kind
    · simpa [hk] using yes token ht hk
    · simpa [hk] using no (by simp [Free, ht, hk])

theorem Meets.eat {kind : Kind} {g : Bool → Descent α}
    (yes : ∀ token, tokens[k.pos]? = some token → token.kind = kind → Meets (g true) k.next out P)
    (no : Free tokens [kind] k.pos → Meets (g false) k out P) :
    Meets (eat tokens kind >>= g) k out P := by
  rw [Descent.eat, bind_assoc]
  refine .check ?_ ?_
  · intro token ht hk
    exact yes token ht hk
  · intro hf
    exact no hf

section

variable {kind : Kind} {expected : Expected} (hl : lex source = .ok tokens)

include hl

theorem Meets.refuse
    (no : ∀ token, tokens[k.pos]? = some token → out = .error (unexpected token expected))
    (ended : tokens[k.pos]? = none → out = .error (State.endError source expected)) :
    Meets (refuse source tokens expected) k out P := by
  refine .current ?_
  cases ht : tokens[k.pos]? with
  | none => exact .throw (ended ht)
  | some token => exact .checked (slice?_token hl ht) (.throw (no token ht))

theorem Meets.expect {g : Unit → Descent α}
    (yes : ∀ token, tokens[k.pos]? = some token → token.kind = kind → Meets (g ()) k.next out P)
    (no : ∀ token, tokens[k.pos]? = some token → token.kind ≠ kind →
      out = .error (unexpected token expected))
    (ended : tokens[k.pos]? = none → out = .error (State.endError source expected)) :
    Meets (expect source tokens kind expected >>= g) k out P := by
  rw [Descent.expect, bind_assoc]
  refine .check ?_ ?_
  · intro token ht hk
    exact yes token ht hk
  · intro hf
    refine Meets.bind (P := fun _ _ => False) (.refuse hl ?_ ended) (fun _ _ h => h.elim)
    intro token ht
    exact no token ht (by simpa using hf token ht)

end

end Descent

end ValueCheck.Grammar
