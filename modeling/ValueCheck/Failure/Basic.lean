import ValueCheck.Failure.Config
import ValueCheck.Value.Rendering

/-! Failures of values, and the errors that are raised for them. -/

namespace ValueCheck

inductive Reason where
  | mustBe (description : String)
  | mustBeInstance (className : String)
  | itemCount (n : Nat)
  | argumentCount (n : Nat)
  | unexpectedKey
  | assertion (description : String)
  deriving DecidableEq

def Reason.text : Reason → String
  | .mustBe description => "Must be " ++ description
  | .mustBeInstance className => "Must be an instance of " ++ className
  | .itemCount n => "Must have " ++ toString n ++ " items"
  | .argumentCount n => "Must have " ++ toString n ++ " arguments"
  | .unexpectedKey => "Must not have unexpected key"
  | .assertion description => "Must " ++ description

structure ValueFailure where
  reason : Reason
  value : Option Value
  place : String
  deriving DecidableEq

def ValueFailure.message (w : World) (f : ValueFailure) : String :=
  (if f.place = "" then "" else f.place ++ ": ") ++ f.reason.text
    ++ (match f.value with
      | some v => " (received " ++ v.text w ++ ")"
      | none => "")

inductive RaisedError where
  | valueError (message : String) (failure : ValueFailure)
  | custom (message : String)
  deriving DecidableEq

abbrev ErrorFactory := World → ValueFailure → RaisedError

def defaultFactory : ErrorFactory := fun w f => .valueError (f.message w) f

inductive CheckError where
  | config (error : ConfigError)
  | value (error : RaisedError)

end ValueCheck
