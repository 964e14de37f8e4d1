import ValueCheck.Number.Decimal
import ValueCheck.Value.Basic
import ValueCheck.Value.Calendar

/-! Values in messages. The text stays short for every value: long strings and
collections are cut, deep nesting collapses, and a container inside itself is
marked instead of being written again. -/

namespace ValueCheck

namespace Quoting

def maxChars : Nat := 40

def isControl (c : Char) : Bool := c.toNat < 0x20 || 0x7f ≤ c.toNat && c.toNat ≤ 0x9f

def hexDigits (width n : Nat) : List Char :=
  let digits := Nat.toDigits 16 n
  List.replicate (width - digits.length) '0' ++ digits

def escape (c : Char) : List Char :=
  if c = '"' then ['\\', '"']
  else if c = '\\' then ['\\', '\\']
  else if c = '\n' then ['\\', 'n']
  else if c = '\r' then ['\\', 'r']
  else if c = '\t' then ['\\', 't']
  else if isControl c then '\\' :: 'u' :: hexDigits 4 c.toNat
  else [c]

def quote (s : String) : String :=
  let cs := s.toList
  let mark := if maxChars < cs.length then ['…'] else []
  String.ofList ('"' :: (cs.take maxChars).flatMap escape ++ mark ++ ['"'])

end Quoting

namespace Value

def maxItems : Nat := 10

def maxLevels : Nat := 3

def listing {α : Type} (opening closing pad : String) (item : Option (α → String))
    (items : List α) : String :=
  match items, item with
  | [], _ => opening ++ closing
  | _, none => opening ++ "…" ++ closing
  | items, some item =>
    let shown := (items.take maxItems).map item
    let shown := if maxItems < items.length then shown ++ ["…"] else shown
    opening ++ pad ++ ", ".intercalate shown ++ pad ++ closing

def cellText (inner : Option (Value → String)) : Cell → String
  | .array items => listing "[" "]" "" inner items
  | .object none properties =>
    let item := inner.map fun f (p : String × Value) => Quoting.quote p.1 ++ ": " ++ f p.2
    listing "\x7b" "\x7d" " " item properties.entries
  | .object (some c) _ => "instance of " ++ c.displayName
  | .map pairs =>
    let item := inner.map fun f (p : Value × Value) => f p.1 ++ " => " ++ f p.2
    "Map(" ++ toString pairs.length ++ ") " ++ listing "\x7b" "\x7d" " " item pairs
  | .set items => "Set(" ++ toString items.length ++ ") " ++ listing "\x7b" "\x7d" " " inner items

def scalarText : Value → String
  | undefined => "undefined"
  | null => "null"
  | bool b => if b then "true" else "false"
  | number n => n.text
  | str s => Quoting.quote s
  | symbol _ description => "Symbol(" ++ description ++ ")"
  | function (some name) => name ++ "()"
  | function none => "anonymous function"
  | date millis => Calendar.dateText millis
  | regexp _ source => "/" ++ source ++ "/"
  | container _ => ""

def textBelow (w : World) : Nat → List CellId → Value → String
  | levels, path, .container id =>
    if path.contains id && ((Value.container id).class? w).isNone then "↻"
    else
      match levels with
      | 0 => cellText none (w.cell id)
      | n + 1 => cellText (some (textBelow w n (id :: path))) (w.cell id)
  | _, _, v => v.scalarText

def text (w : World) (v : Value) : String := textBelow w maxLevels [] v

end Value

end ValueCheck
