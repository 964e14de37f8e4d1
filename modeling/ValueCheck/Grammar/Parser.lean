import ValueCheck.Grammar.Term
import ValueCheck.Grammar.Token

/-! Terms of token sequences, read from left to right in one pass. What has been
read of a term is kept as one level per bracket that is still open. -/

namespace ValueCheck.Grammar

/-- The part of an alternation before the operand being read, latest first:
finished alternatives, operands of the running conjunction, and the number of
`!` directly before the operand. -/
structure Level where
  alternatives : List Term := []
  conjuncts : List Term := []
  inversions : Nat := 0

inductive Opener where
  | group
  | tuple (items : List Term)
  | object
  | entry (key : Term)

structure Context where
  level : Level := {}
  enclosing : List (Opener × Level) := []

structure Bounds where
  low : Option String := none
  comma : Bool := false
  high : Option String := none

inductive State where
  | operand (context : Context)
  | suffix (context : Context) (term : Term)
  | bracket (context : Context) (term : Term)
  | size (context : Context) (term : Term) (start : Nat) (bounds : Bounds)

/-- `!` binds looser than `?`, `+` and sizes, but a trailing run of `[]` applies outside it. -/
def inverted (n : Nat) : Term → Term
  | .array t => .array (inverted n t)
  | t => n.repeat .inverted t

def combined (combine : List Term → Term) : List Term → Term → Term
  | [], last => last
  | earlier, last => combine (earlier.reverse ++ [last])

namespace Level

def invert (l : Level) : Level := { l with inversions := l.inversions + 1 }

def conjunction (l : Level) (operand : Term) : Term :=
  combined .allOf l.conjuncts (inverted l.inversions operand)

def close (l : Level) (operand : Term) : Term :=
  combined .anyOf l.alternatives (l.conjunction operand)

def afterAmpersand (l : Level) (operand : Term) : Level :=
  ⟨l.alternatives, inverted l.inversions operand :: l.conjuncts, 0⟩

def afterPipe (l : Level) (operand : Term) : Level :=
  ⟨l.conjunction operand :: l.alternatives, [], 0⟩

end Level

namespace Context

def enter (c : Context) (opener : Opener) : Context := ⟨{}, (opener, c.level) :: c.enclosing⟩

def inGroup (c : Context) : Bool := c.enclosing.any fun p => p.1 matches .group

def expected (c : Context) : Expected :=
  match c.enclosing with
  | [] => .operatorOrEnd
  | (.group, _) :: _ => .groupEnd
  | (.tuple _, _) :: _ => .tupleEnd
  | (.object, _) :: _ => .objectEnd
  | (.entry _, _) :: _ => .objectEnd

end Context

def slice (span : Span) (offset : Nat) : List Char → List Char
  | [] => []
  | c :: rest =>
    let others := slice span (offset + c.utf8Size) rest
    if span.start ≤ offset && offset < span.stop then c :: others else others

def Span.text (span : Span) (source : String) : String :=
  String.ofList (slice span 0 source.toList)

def digitsValue (digits : String) : Nat :=
  digits.toList.foldl (fun n c => 10 * n + (c.toNat - '0'.toNat)) 0

def bound? (digits : String) : Option Nat :=
  if digitsValue digits < UInt64.size then some (digitsValue digits) else none

def Bounds.range? : Bounds → Option SizeRange
  | ⟨some n, false, none⟩ => (bound? n).map .exactly
  | ⟨some n, true, none⟩ => (bound? n).map .atLeast
  | ⟨none, true, some n⟩ => (bound? n).map .atMost
  | ⟨some n, true, some m⟩ =>
    match bound? n, bound? m with
    | some low, some high => if low ≤ high then some (.between low high) else none
    | _, _ => none
  | _ => none

def unexpected (token : Token) (expected : Expected) : GrammarError :=
  ⟨.unexpectedToken token.text expected, token.span⟩

def invalidSize (source : String) (span : Span) : GrammarError :=
  ⟨.invalidSize (span.text source), span⟩

namespace State

def atOperand (c : Context) (token : Token) : Except GrammarError State :=
  match token.kind with
  | .name => .ok (.suffix c (.name token.text))
  | .bang => .ok (.operand { c with level := c.level.invert })
  | .leftParen =>
    if c.inGroup then .error ⟨.nestedGroup, token.span⟩ else .ok (.operand (c.enter .group))
  | .leftBracket => .ok (.operand (c.enter (.tuple [])))
  | .leftBrace => .ok (.operand (c.enter .object))
  | _ => .error (unexpected token .operand)

def atSuffix (c : Context) (t : Term) (token : Token) : Except GrammarError State :=
  match token.kind, c.enclosing with
  | .question, _ => .ok (.suffix c (.optional t))
  | .plus, _ => .ok (.suffix c (.nonEmpty t))
  | .leftBracket, _ => .ok (.bracket c t)
  | .leftBrace, _ => .ok (.size c t token.span.start {})
  | .ampersand, _ => .ok (.operand { c with level := c.level.afterAmpersand t })
  | .pipe, _ => .ok (.operand { c with level := c.level.afterPipe t })
  | .rightParen, (.group, outer) :: rest => .ok (.suffix ⟨outer, rest⟩ (.group (c.level.close t)))
  | .comma, (.tuple items, outer) :: rest =>
    .ok (.operand ⟨{}, (.tuple (c.level.close t :: items), outer) :: rest⟩)
  | .rightBracket, (.tuple items, outer) :: rest =>
    .ok (.suffix ⟨outer, rest⟩ (.tuple (items.reverse ++ [c.level.close t])))
  | .colon, (.object, outer) :: rest =>
    .ok (.operand ⟨{}, (.entry (c.level.close t), outer) :: rest⟩)
  | .rightBrace, (.object, outer) :: rest =>
    .ok (.suffix ⟨outer, rest⟩ (.object (c.level.close t)))
  | .rightBrace, (.entry key, outer) :: rest =>
    .ok (.suffix ⟨outer, rest⟩ (.entries key (c.level.close t)))
  | _, _ => .error (unexpected token c.expected)

def inBracket (c : Context) (t : Term) (token : Token) : Except GrammarError State :=
  match token.kind with
  | .rightBracket => .ok (.suffix c (.array t))
  | _ => .error (unexpected token .bracketEnd)

def inSize (source : String) (c : Context) (t : Term) (start : Nat) (bounds : Bounds)
    (token : Token) : Except GrammarError State :=
  match token.kind, bounds with
  | .integer, ⟨none, false, none⟩ => .ok (.size c t start ⟨some token.text, false, none⟩)
  | .integer, ⟨low, comma, none⟩ => .ok (.size c t start ⟨low, comma, some token.text⟩)
  | .comma, ⟨low, false, none⟩ => .ok (.size c t start ⟨low, true, none⟩)
  | .rightBrace, bounds =>
    match bounds.range? with
    | some range => .ok (.suffix c (.sized t range))
    | none => .error (invalidSize source ⟨start, token.span.stop⟩)
  | _, _ => .error (invalidSize source ⟨start, token.span.stop⟩)

def next (source : String) : State → Token → Except GrammarError State
  | operand c, token => atOperand c token
  | suffix c t, token => atSuffix c t token
  | bracket c t, token => inBracket c t token
  | size c t start bounds, token => inSize source c t start bounds token

def endError (source : String) (expected : Expected) : GrammarError :=
  ⟨.unexpectedEnd expected, source.utf8ByteSize, source.utf8ByteSize⟩

def finish (source : String) : State → Except GrammarError Term
  | operand _ => .error (endError source .operand)
  | suffix ⟨level, []⟩ t => .ok (level.close t)
  | suffix c _ => .error (endError source c.expected)
  | bracket _ _ => .error (endError source .bracketEnd)
  | size _ _ start _ => .error (invalidSize source ⟨start, source.utf8ByteSize⟩)

end State

def readTokens (source : String) (tokens : List Token) : Except GrammarError Term := do
  let state ← tokens.foldlM (State.next source) (.operand {})
  state.finish source

def parse (source : String) : Except GrammarError Term := do
  match ← lex source with
  | [] => .error ⟨.empty, 0, source.utf8ByteSize⟩
  | tokens => readTokens source tokens

end ValueCheck.Grammar
