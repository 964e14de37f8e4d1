import ValueCheck.Grammar.Error

/-! Errors of whoever wrote a type or registered a checker; no value is to blame. -/

namespace ValueCheck

inductive ConfigError where
  | unknownChecker (name : String)
  | duplicateChecker (name : String)
  | invalidName (name : String)
  | circularType
  | invalidType (found : String)
  | malformed (source : String) (error : Grammar.GrammarError)
  | depthExceeded (limit : Nat)
  deriving DecidableEq

def ConfigError.message : ConfigError → String
  | .unknownChecker name => "Blork type " ++ Grammar.quoted name ++ " does not exist"
  | .duplicateChecker name => "Blork type " ++ Grammar.quoted name ++ " already exists"
  | .invalidName name => "Blork type name " ++ Grammar.quoted name ++ " must be kebab-case"
  | .circularType => "Blork type must not contain circular references"
  | .invalidType found =>
    "Blork type must be a string, literal, class, list or shape (received " ++ found ++ ")"
  | .malformed source error =>
    "Blork type " ++ Grammar.quoted source ++ " is malformed: " ++ error.message
  | .depthExceeded limit => "Blork type nesting exceeds the depth limit of " ++ toString limit

end ValueCheck
