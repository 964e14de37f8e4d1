import ValueCheck.Proofs.Matching.Demands

/-! What holds of the computations that a matching is put together of holds of the matching. -/

namespace ValueCheck

open Matching

structure Matching.Closed (P : (α : Type) → Matching α → Prop) : Prop where
  pure {α : Type} (a : α) : P α (return a)
  throw {α : Type} (e : Halt) : P α (throw e)
  bind {α β : Type} {x : Matching α} {f : α → Matching β} (hx : P α x) (hf : ∀ a, P β (f a)) :
    P β (x >>= f)
  below {x : Matching Unit} (hx : P Unit x) (step : Step) : P Unit (below step x)
  named {name : String} (h : Grammar.lexeme? name.toList = some (.name, name.toList)) :
    P Checker (compiling (Registry.named name))
  compiled (source : String) : P Checker (compiling (Registry.getOrCompile source))

namespace SchemaNode

theorem lexeme?_containerName (n : SchemaNode) :
    Grammar.lexeme? n.containerName.toList = some (.name, n.containerName.toList) := by
  cases n with
  | list ss =>
    change Grammar.lexeme? "array".toList = some (.name, "array".toList)
    decide
  | shape shape =>
    change Grammar.lexeme? "object".toList = some (.name, "object".toList)
    decide

end SchemaNode

namespace Matching.Closed

variable {P : (α : Type) → Matching α → Prop} {m : Matcher} {budget : Nat} {path : List Visit}
  {s : Schema} {v : Value}

theorem forM {α : Type} {l : List α} {f : α → Matching Unit} (hP : Closed P)
    (h : ∀ a ∈ l, P Unit (f a)) : P Unit (l.forM f) := by
  induction l with
  | nil => exact hP.pure ()
  | cons a l ih =>
    rw [List.forall_mem_cons] at h
    exact hP.bind h.1 fun _ => ih h.2

theorem refuse (hP : Closed P) (reason : Reason) (v : Value) : P Unit (refuse reason v) :=
  hP.throw _

theorem require (hP : Closed P) (c : Checker) : P Unit (m.require c v) := by
  rw [Matcher.require]
  split
  · exact hP.pure ()
  · exact hP.throw _

theorem requireInstance (hP : Closed P) (c : Class) : P Unit (m.requireInstance c v) := by
  rw [Matcher.requireInstance]
  split
  · exact hP.pure ()
  · exact hP.refuse _ _

theorem requireNamed (hP : Closed P) {name : String}
    (hn : Grammar.lexeme? name.toList = some (.name, name.toList)) :
    P Unit (m.requireNamed name v) := hP.bind (hP.named hn) fun c => hP.require c

theorem requireFirst (hP : Closed P) (n : SchemaNode) : P Unit (m.requireFirst n v) := by
  match n with
  | .list [] => exact hP.throw _
  | .list (s :: ss) => exact hP.pure ()
  | .shape shape =>
    rw [Matcher.requireFirst, Matcher.requireKind]
    cases shape.cls with
    | some c => exact hP.requireInstance c
    | none => exact hP.requireNamed (by decide)

theorem inside (hP : Closed P) {id : NodeId} {body : List Visit → List Demand → Matching Unit}
    (hb : ∀ path ds, P Unit (body path ds)) :
    P Unit (m.inside path id v (m.demands (m.schemas.node id) v)
      (m.schemas.node id).containerName body) := by
  have hl := m.looking path id v body
  generalize m.inside path id v _ _ _ = looked at hl
  cases hl with
  | outside => exact hP.requireNamed (SchemaNode.lexeme?_containerName _)
  | circular | tooDeep => exact hP.throw _
  | known => exact hP.pure ()
  | entered => exact hb _ _

theorem meet (hP : Closed P) {inner : Schema → Value → Matching Unit}
    (h : ∀ s v, P Unit (inner s v)) (d : Demand) : P Unit (d.meet inner) := by
  cases d with
  | part step s v => exact hP.below (h s v) step
  | refusal reason v => exact hP.refuse reason v

theorem leaf (hP : Closed P) (hs : ∀ id, s ≠ .node id) :
    P Unit (m.matchBelow budget path s v) := by
  cases s with
  | typeString source =>
    rw [Matcher.matchBelow]
    exact hP.bind (hP.compiled source) fun c => hP.require c
  | literal l =>
    rw [Matcher.matchBelow]
    exact hP.requireNamed (by cases l <;> decide)
  | instanceOf c =>
    rw [Matcher.matchBelow]
    exact hP.requireInstance c
  | node id => exact absurd rfl (hs id)

theorem matchBelow (hP : Closed P) : P Unit (m.matchBelow budget path s v) := by
  induction budget generalizing path s v with
  | zero =>
    cases s with
    | node id =>
      rw [Matcher.matchBelow]
      exact hP.throw _
    | _ => exact hP.leaf (by simp)
  | succ budget ih =>
    cases s with
    | node id =>
      rw [Matcher.matchBelow_node]
      exact hP.bind (hP.requireFirst _) fun _ =>
        hP.inside fun path ds => hP.forM fun d _ => hP.meet (fun s v => ih) d
    | _ => exact hP.leaf (by simp)

theorem matchSchema (hP : Closed P) (s : Schema) (v : Value) : P Unit (m.matchSchema s v) :=
  hP.matchBelow

theorem matchArguments (hP : Closed P) (ss : List Schema) (vs : List Value) :
    P Unit (m.matchArguments ss vs) := by
  rw [Matcher.matchArguments]
  refine hP.bind (hP.forM fun a _ => hP.below (hP.matchSchema a.1 _) _) fun _ => ?_
  split
  · exact hP.refuse _ _
  · exact hP.pure ()

end Matching.Closed

end ValueCheck
