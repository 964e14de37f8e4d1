import ValueCheck.Grammar.Error

/-! Tokens of type strings. At each place the longest lexeme is taken; spaces,
tabs and line ends between lexemes are skipped. -/

namespace ValueCheck.Grammar

inductive Kind where
  | ampersand
  | pipe
  | bang
  | question
  | plus
  | leftParen
  | rightParen
  | leftBracket
  | rightBracket
  | leftBrace
  | rightBrace
  | comma
  | colon
  | integer
  | name
  deriving DecidableEq

structure Token where
  kind : Kind
  text : String
  span : Span
  deriving DecidableEq

def isBlank (c : Char) : Bool := c = ' ' || c = '\t' || c = '\r' || c = '\n'

def isDigit (c : Char) : Bool := '0' ≤ c && c ≤ '9'

def isLetter (c : Char) : Bool := 'a' ≤ c && c ≤ 'z' || 'A' ≤ c && c ≤ 'Z' || c = '_'

def isWordChar (c : Char) : Bool := isLetter c || isDigit c

def punctuation : Char → Option Kind
  | '&' => some .ampersand
  | '|' => some .pipe
  | '!' => some .bang
  | '?' => some .question
  | '+' => some .plus
  | '(' => some .leftParen
  | ')' => some .rightParen
  | '[' => some .leftBracket
  | ']' => some .rightBracket
  | '{' => some .leftBrace
  | '}' => some .rightBrace
  | ',' => some .comma
  | ':' => some .colon
  | _ => none

def nameTail : List Char → List Char
  | '-' :: c :: rest => if isWordChar c then '-' :: c :: nameTail rest else []
  | c :: rest => if isWordChar c then c :: nameTail rest else []
  | [] => []

def isSign (c : Char) : Bool := c = '+' || c = '-'

/-- The longest lexeme at the start of the text. A sign directly before a
letter belongs to the name. -/
def lexeme? : List Char → Option (Kind × List Char)
  | [] => none
  | c :: rest =>
    if isDigit c then some (.integer, c :: rest.takeWhile isDigit)
    else if isLetter c || isSign c && rest.head?.any isLetter then some (.name, c :: nameTail rest)
    else (punctuation c).map (·, [c])

theorem nameTail_prefix (cs : List Char) : nameTail cs <+: cs := by
  fun_induction nameTail cs with
  | case1 c rest h ih => simpa using ih
  | case2 c rest h => exact List.nil_prefix
  | case3 c rest _ h ih => simpa using ih
  | case4 c rest _ h => exact List.nil_prefix
  | case5 => exact List.nil_prefix

theorem lexeme?_prefix {cs word : List Char} {kind : Kind} (h : lexeme? cs = some (kind, word)) :
    word <+: cs ∧ word ≠ [] := by
  cases cs with
  | nil => simp [lexeme?] at h
  | cons c rest =>
    simp only [lexeme?] at h
    split at h
    · cases h
      exact ⟨by simpa using List.takeWhile_prefix isDigit, by simp⟩
    · split at h
      · cases h
        exact ⟨by simpa using nameTail_prefix rest, by simp⟩
      · obtain ⟨k, -, hk⟩ := Option.map_eq_some_iff.1 h
        cases hk
        exact ⟨by simp, by simp⟩

def byteLength : List Char → Nat
  | [] => 0
  | c :: cs => c.utf8Size + byteLength cs

theorem byteLength_append (cs ds : List Char) :
    byteLength (cs ++ ds) = byteLength cs + byteLength ds := by
  induction cs with
  | nil => simp [byteLength]
  | cons c cs ih => simp [byteLength, ih, Nat.add_assoc]

def scan (offset : Nat) : List Char → Except GrammarError (List Token)
  | [] => .ok []
  | c :: rest =>
    if isBlank c then scan (offset + c.utf8Size) rest
    else
      match lexeme? (c :: rest) with
      | none => .error ⟨.invalidCharacter c, offset, offset + c.utf8Size⟩
      | some (kind, word) =>
        let stop := offset + byteLength word
        match scan stop (rest.drop (word.length - 1)) with
        | .ok tokens => .ok (⟨kind, String.ofList word, offset, stop⟩ :: tokens)
        | .error e => .error e
termination_by cs => cs.length

def lex (source : String) : Except GrammarError (List Token) := scan 0 source.toList

end ValueCheck.Grammar
