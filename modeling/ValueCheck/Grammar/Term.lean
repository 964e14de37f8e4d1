import ValueCheck.Grammar.SizeRange

/-! Terms: what type strings say. The text of a term reads back as that term,
so it serves as a name for it. -/

namespace ValueCheck.Grammar

inductive Term where
  | name (name : String)
  | group (inner : Term)
  | allOf (operands : List Term)
  | anyOf (operands : List Term)
  | tuple (items : List Term)
  | array (item : Term)
  | object (value : Term)
  | entries (key value : Term)
  | inverted (inner : Term)
  | nonEmpty (inner : Term)
  | optional (inner : Term)
  | sized (inner : Term) (range : SizeRange)

namespace Term

mutual

def text : Term → String
  | name n => n
  | group t => "(" ++ t.text ++ ")"
  | allOf ts => " & ".intercalate (texts ts)
  | anyOf ts => " | ".intercalate (texts ts)
  | tuple ts => "[" ++ ", ".intercalate (texts ts) ++ "]"
  | array t => t.text ++ "[]"
  | object v => "\x7b" ++ v.text ++ "\x7d"
  | entries k v => "\x7b" ++ k.text ++ ": " ++ v.text ++ "\x7d"
  | inverted t => "!" ++ t.text
  | nonEmpty t => t.text ++ "+"
  | optional t => t.text ++ "?"
  | sized t r => t.text ++ r.text

def texts : List Term → List String
  | [] => []
  | t :: ts => t.text :: texts ts

end

theorem texts_eq_map (ts : List Term) : texts ts = ts.map text := by
  induction ts with
  | nil => rfl
  | cons t ts ih => simp [texts, ih]

mutual

def same : Term → Term → Bool
  | name n, name m => n == m
  | group t, group u => same t u
  | allOf ts, allOf us => sames ts us
  | anyOf ts, anyOf us => sames ts us
  | tuple ts, tuple us => sames ts us
  | array t, array u => same t u
  | object v, object w => same v w
  | entries k v, entries l w => same k l && same v w
  | inverted t, inverted u => same t u
  | nonEmpty t, nonEmpty u => same t u
  | optional t, optional u => same t u
  | sized t r, sized u s => same t u && r == s
  | _, _ => false

def sames : List Term → List Term → Bool
  | [], [] => true
  | t :: ts, u :: us => same t u && sames ts us
  | _, _ => false

end

mutual

theorem same_iff : ∀ t u : Term, same t u = true ↔ t = u
  | name _, u => by cases u <;> simp [same]
  | group t, u => by cases u <;> simp [same, same_iff t]
  | allOf ts, u => by cases u <;> simp [same, sames_iff ts]
  | anyOf ts, u => by cases u <;> simp [same, sames_iff ts]
  | tuple ts, u => by cases u <;> simp [same, sames_iff ts]
  | array t, u => by cases u <;> simp [same, same_iff t]
  | object v, u => by cases u <;> simp [same, same_iff v]
  | entries k v, u => by cases u <;> simp [same, same_iff k, same_iff v]
  | inverted t, u => by cases u <;> simp [same, same_iff t]
  | nonEmpty t, u => by cases u <;> simp [same, same_iff t]
  | optional t, u => by cases u <;> simp [same, same_iff t]
  | sized t _, u => by cases u <;> simp [same, same_iff t]

theorem sames_iff : ∀ ts us : List Term, sames ts us = true ↔ ts = us
  | [], us => by cases us <;> simp [sames]
  | t :: ts, us => by cases us <;> simp [sames, same_iff t, sames_iff ts]

end

instance : DecidableEq Term := fun t u => decidable_of_iff _ (same_iff t u)

end Term

end ValueCheck.Grammar
