import ValueCheck.Checker.Basic
import ValueCheck.Text.Case
import ValueCheck.Value.Unfolding

/-! The checkers that exist from the start, each under one or more names. -/

namespace ValueCheck

structure Builtin where
  name : String
  aliases : List String
  description : String
  accepts : World → Value → Bool

namespace Builtin

def isPrimitive : Value → Bool
  | .undefined | .null | .bool _ | .str _ => true
  | .number n => n.isFinite
  | _ => false

def isArraylike (w : World) (v : Value) : Bool :=
  v.isArray w || (v.properties? w).isSome &&
    ((v.property w "length").isInteger &&
      (v.property w "length").asNumber?.any Number.zero.le)

def hasCase (case : Text.Case) (v : Value) : Bool :=
  v.asString?.any fun s => case.accepts s.toList

def isNonnegative (v : Value) : Bool := v.asNumber?.any Number.zero.le

def isNonpositive (v : Value) : Bool := v.asNumber?.any (·.le .zero)

def primitives : List Builtin := [
  ⟨"primitive", [], "primitive", fun _ v => isPrimitive v⟩,
  ⟨"null", [], "null", fun _ v => v.isNull⟩,
  ⟨"undefined", ["void", "undef"], "undefined", fun _ v => v.isUndefined⟩,
  ⟨"defined", ["def"], "defined", fun _ v => !v.isUndefined⟩,
  ⟨"boolean", ["bool"], "boolean", fun _ v => v.asBool?.isSome⟩,
  ⟨"true", [], "true", fun _ v => v = .bool true⟩,
  ⟨"false", [], "false", fun _ v => v = .bool false⟩,
  ⟨"truthy", [], "truthy", fun _ v => v.isTruthy⟩,
  ⟨"falsy", [], "falsy", fun _ v => !v.isTruthy⟩]

def numbers : List Builtin := [
  ⟨"zero", [], "zero", fun _ v => v.asNumber?.any (·.equals .zero)⟩,
  ⟨"one", [], "one", fun _ v => v.asNumber?.any (·.equals (.finite 1))⟩,
  ⟨"nan", [], "NaN", fun _ v => v.asNumber?.any (·.isNaN)⟩,
  ⟨"number", ["num"], "finite number", fun _ v => v.isFiniteNumber⟩,
  ⟨"+number", ["+num"], "positive finite number", fun _ v => v.isFiniteNumber && isNonnegative v⟩,
  ⟨"-number", ["-num"], "negative finite number", fun _ v => v.isFiniteNumber && isNonpositive v⟩,
  ⟨"integer", ["int"], "integer", fun _ v => v.isInteger⟩,
  ⟨"+integer", ["+int"], "positive integer", fun _ v => v.isInteger && isNonnegative v⟩,
  ⟨"-integer", ["-int"], "negative integer", fun _ v => v.isInteger && isNonpositive v⟩]

def strings : List Builtin := [
  ⟨"string", ["str"], "string", fun _ v => v.asString?.isSome⟩,
  ⟨"alphanumeric", [], "alphanumeric string", fun _ v => hasCase .alphanumeric v⟩,
  ⟨"alphabetic", [], "alphabetic string", fun _ v => hasCase .alphabetic v⟩,
  ⟨"numeric", [], "numeric string", fun _ v => hasCase .numeric v⟩,
  ⟨"lower", [], "lowercase string", fun _ v => hasCase .lower v⟩,
  ⟨"upper", [], "UPPERCASE string", fun _ v => hasCase .upper v⟩,
  ⟨"camel", [], "camelCase string", fun _ v => hasCase .camel v⟩,
  ⟨"pascal", [], "PascalCase string", fun _ v => hasCase .pascal v⟩,
  ⟨"snake", [], "snake_case string", fun _ v => hasCase .snake v⟩,
  ⟨"screaming", [], "SCREAMING_SNAKE_CASE string", fun _ v => hasCase .screaming v⟩,
  ⟨"kebab", ["slug"], "kebab-case string", fun _ v => hasCase .kebab v⟩,
  ⟨"train", [], "Camel-Kebab-Case string", fun _ v => hasCase .train v⟩]

def objects : List Builtin := [
  ⟨"function", ["func"], "function", fun _ v => v matches .function _⟩,
  ⟨"objectlike", [], "object", fun _ v => v.isObjectlike⟩,
  ⟨"object", ["obj"], "plain object", fun w v => v.isPlainObject w⟩,
  ⟨"iterable", [], "iterable object", fun w v =>
    match v.cell? w with
    | some (.array _) | some (.map _) | some (.set _) => true
    | _ => false⟩,
  ⟨"circular", [], "circular object", fun w v => v.isCircular w⟩,
  ⟨"array", ["arr"], "plain array", fun w v => v.isArray w⟩,
  ⟨"arraylike", ["arguments", "args"], "arraylike object with a numeric length property",
    isArraylike⟩,
  ⟨"date", [], "date", fun _ v => v.asDate?.isSome⟩,
  ⟨"future", [], "date in the future", fun w v => v.asDate?.any w.now.lt⟩,
  ⟨"past", [], "date in the past", fun w v => v.asDate?.any (·.lt w.now)⟩,
  ⟨"map", [], "map", fun w v => v.cell? w matches some (.map _)⟩,
  ⟨"set", [], "set", fun w v => v.cell? w matches some (.set _)⟩,
  ⟨"regex", ["regexp"], "regular expression", fun _ v => v matches .regexp _ _⟩,
  ⟨"symbol", [], "symbol", fun _ v => v matches .symbol _ _⟩]

def others : List Builtin := [
  ⟨"empty", [], "empty", fun w v => v.isEmpty w⟩,
  ⟨"any", ["mixed"], "any", fun _ _ => true⟩,
  ⟨"json", ["jsonable"], "JSON-friendly value", fun w v => v.isJsonable w⟩]

def all : List Builtin := primitives ++ numbers ++ strings ++ objects ++ others

def checker (b : Builtin) : Checker := ⟨b.name, b.description, b.accepts, false, false, none⟩

end Builtin

end ValueCheck
