/-! Letter cases of ASCII texts: which characters a text may hold, and how its
words are joined. -/

namespace ValueCheck.Text

def isLower (c : Char) : Bool := 'a' ≤ c && c ≤ 'z'

def isUpper (c : Char) : Bool := 'A' ≤ c && c ≤ 'Z'

def isDigit (c : Char) : Bool := '0' ≤ c && c ≤ '9'

def isLetter (c : Char) : Bool := isLower c || isUpper c

def isAlphanumeric (c : Char) : Bool := isLetter c || isDigit c

def isLowerOrDigit (c : Char) : Bool := isLower c || isDigit c

def isUpperOrDigit (c : Char) : Bool := isUpper c || isDigit c

inductive Case where
  | alphanumeric
  | alphabetic
  | numeric
  | lower
  | upper
  | camel
  | pascal
  | snake
  | screaming
  | kebab
  | train
  deriving DecidableEq

def allOf (p : Char → Bool) (cs : List Char) : Bool := !cs.isEmpty && cs.all p

def startsThen (start : Char → Bool) (rest : List Char → Bool) : List Char → Bool
  | [] => false
  | c :: cs => start c && rest cs

def wordsFrom (separator : Char) (p : Char → Bool) : List Char → Bool
  | [] => true
  | [c] => p c
  | c :: d :: cs =>
    if c = separator then p d && wordsFrom separator p cs
    else p c && wordsFrom separator p (d :: cs)

/-- What may follow inside a word of a train: alphanumeric characters, and hyphens
that have a word of at least two characters behind them. -/
def wagonsFrom : List Char → Bool
  | '-' :: d :: e :: cs => isUpperOrDigit d && isAlphanumeric e && wagonsFrom cs
  | c :: cs => isAlphanumeric c && wagonsFrom cs
  | [] => true

def Case.accepts : Case → List Char → Bool
  | .alphanumeric => allOf isAlphanumeric
  | .alphabetic => allOf isLetter
  | .numeric => allOf isDigit
  | .lower => allOf isLower
  | .upper => allOf isUpper
  | .camel => startsThen isLower (·.all isAlphanumeric)
  | .pascal => startsThen isUpper (·.all isAlphanumeric)
  | .snake => startsThen isLower (wordsFrom '_' isLowerOrDigit)
  | .screaming => startsThen isUpper (wordsFrom '_' isUpperOrDigit)
  | .kebab => startsThen isLower (wordsFrom '-' isLowerOrDigit)
  | .train => startsThen isUpper wagonsFrom

end ValueCheck.Text
