import ValueCheck.Proofs.Matching.Demands

/-! What can end a matching early, in any registry, put together step by step as
the matchings are. -/

namespace ValueCheck

open Matching
open Registry (bind_apply get_bind_apply adapt_apply mapError_eq_error)

def Halts {ε α : Type} (p : ε → Prop) (x : ExceptT ε (StateM Registry) α) : Prop :=
  ∀ r e, (x r).1 = .error e → p e

namespace Halts

variable {ε ε' α β : Type} {p q : ε → Prop} {x : ExceptT ε (StateM Registry) α}

theorem pure (a : α) : Halts p (pure a : ExceptT ε (StateM Registry) α) := by
  intro r e h
  cases h

theorem throw {e : ε} (h : p e) : Halts p (throw e : ExceptT ε (StateM Registry) α) := by
  intro r e' he
  cases he
  exact h

theorem imp (h : Halts p x) (hpq : ∀ e, p e → q e) : Halts q x := fun r e he => hpq e (h r e he)

theorem bind {f : α → ExceptT ε (StateM Registry) β} (hx : Halts p x) (hf : ∀ a, Halts p (f a)) :
    Halts p (x >>= f) := by
  intro r e h
  rw [bind_apply] at h
  cases hxr : x r with
  | mk result r' =>
    rw [hxr] at h
    cases result with
    | error e' =>
      cases h
      exact hx r e (by rw [hxr])
    | ok a => exact hf a r' e h

theorem adapt {p : ε' → Prop} {f : ε → ε'} (h : Halts (fun e => p (f e)) x) :
    Halts p (x.adapt f) := by
  intro r e he
  rw [adapt_apply] at he
  obtain ⟨e', he', rfl⟩ := mapError_eq_error.1 he
  exact h r e' he'

theorem forM {l : List α} {f : α → ExceptT ε (StateM Registry) Unit}
    (h : ∀ a ∈ l, Halts p (f a)) : Halts p (l.forM f) := by
  induction l with
  | nil => exact .pure ()
  | cons a l ih =>
    rw [List.forall_mem_cons] at h
    exact .bind h.1 fun _ => ih h.2

end Halts

namespace Registry

open Grammar (Term)

theorem halts_lookup {p : ConfigError → Prop} {key : String} {x : Registering Checker}
    (h : Halts p x) : Halts p (do
      match (← get).get? key with
      | some c => return c
      | none => x) := by
  intro r e he
  rw [get_bind_apply] at he
  cases hg : r.get? key with
  | some c =>
    rw [hg] at he
    cases he
  | none =>
    rw [hg] at he
    exact h r e he

theorem halts_named (n : String) : Halts (· = .unknownChecker n) (named n) :=
  halts_lookup (.throw rfl)

theorem halts_cache {p : ConfigError → Prop} (key : String) (c : Checker) :
    Halts p (cache key c : Registering Checker) := by
  intro r e he
  cases he

theorem halts_cached {p : ConfigError → Prop} {t : Term} {make : String → Registering Checker}
    (h : Halts p (make t.text)) : Halts p (cached t make) :=
  halts_lookup (h.bind fun c => halts_cache _ c)

def IsUnknownChecker (e : ConfigError) : Prop := ∃ n, e = .unknownChecker n

mutual

theorem halts_compile : ∀ t : Term, Halts IsUnknownChecker (compile t)
  | .name n => (halts_named n).imp fun _ h => ⟨n, h⟩
  | .group t => halts_compile t
  | .allOf ts | .anyOf ts | .tuple ts =>
    halts_cached ((halts_compileAll ts).bind fun _ => .pure _)
  | .array t | .object t | .inverted t | .nonEmpty t | .optional t | .sized t _ =>
    halts_cached ((halts_compile t).bind fun _ => .pure _)
  | .entries k t =>
    halts_cached ((halts_compile t).bind fun _ => (halts_compile k).bind fun _ => .pure _)

theorem halts_compileAll : ∀ ts : List Term, Halts IsUnknownChecker (compileAll ts)
  | [] => .pure []
  | t :: ts => (halts_compile t).bind fun _ => (halts_compileAll ts).bind fun _ => .pure _

end

theorem halts_getOrCompile (source : String) :
    Halts (fun e => IsUnknownChecker e ∨ ∃ g, e = .malformed source g) (getOrCompile source) := by
  refine halts_lookup ?_
  cases Grammar.parse source with
  | ok t => exact ((halts_compile t).imp fun _ => .inl).bind fun c => halts_cache _ c
  | error g => exact .throw (.inr ⟨g, rfl⟩)

end Registry

def ConfigError.OfPath : ConfigError → Prop
  | .circularType | .depthExceeded _ => True
  | _ => False

namespace Matcher

variable {m : Matcher} {p : Halt → Prop} {budget : Nat} {path : List Visit} {id : NodeId}
  {v : Value}

section Own

variable (hconfig : ∀ e : ConfigError, ¬ e.OfPath → p (.config e))
  (hwords : ∀ words factory, p (.mismatch ⟨.mustBe words, v, [], factory⟩))
  (hclass : ∀ name, p (.mismatch ⟨.mustBeInstance name, v, [], none⟩))

include hwords in
theorem halts_require (c : Checker) : Halts p (m.require c v) := by
  rw [require]
  split
  · exact .pure ()
  · exact .throw (hwords _ _)

include hclass in
theorem halts_requireInstance (c : Class) : Halts p (m.requireInstance c v) := by
  rw [requireInstance]
  split
  · exact .pure ()
  · exact .throw (hclass _)

include hconfig hwords in
theorem halts_requireNamed (name : String) : Halts p (m.requireNamed name v) := by
  refine .bind (.adapt ((Registry.halts_named name).imp ?_)) (halts_require hwords)
  rintro e rfl
  exact hconfig _ not_false

include hconfig hwords hclass

theorem halts_requireFirst (n : SchemaNode) : Halts p (m.requireFirst n v) := by
  match n with
  | .list [] => exact .throw (hconfig _ not_false)
  | .list (s :: ss) => exact .pure ()
  | .shape shape =>
    rw [requireFirst, requireKind]
    cases shape.cls with
    | some c => exact halts_requireInstance hclass c
    | none => exact halts_requireNamed hconfig hwords "object"

theorem halts_leaf {s : Schema} (hs : ∀ id, s ≠ .node id) :
    Halts p (m.matchBelow budget path s v) := by
  cases s with
  | typeString source =>
    rw [matchBelow]
    refine .bind (.adapt ((Registry.halts_getOrCompile source).imp ?_)) (halts_require hwords)
    rintro e (⟨n, rfl⟩ | ⟨g, rfl⟩)
    · exact hconfig _ not_false
    · exact hconfig _ not_false
  | literal l =>
    rw [matchBelow]
    exact halts_requireNamed hconfig hwords _
  | instanceOf c =>
    rw [matchBelow]
    exact halts_requireInstance hclass c
  | node id => exact absurd rfl (hs id)

theorem halts_node (hcircular : (∃ u ∈ path, u.node = id) → p (.config .circularType))
    (hdeep : ∀ limit, m.config.maxDepth = some limit → limit < path.length + 1 →
      m.schemas.node id ≠ .list [] → (∀ u ∈ path, u.node ≠ id) →
        p (.config (.depthExceeded limit)))
    (hd : ∀ cell ds, v = .container cell → m.demands (m.schemas.node id) v = some ds →
      m.schemas.node id ≠ .list [] → (∀ u ∈ path, u.node ≠ id) →
        ∀ d ∈ ds, Halts p (d.meet (m.matchBelow budget (⟨id, cell⟩ :: path)))) :
    Halts p (m.matchBelow (budget + 1) path (.node id) v) := by
  rw [matchBelow_node]
  by_cases hne : m.schemas.node id = .list []
  · rw [hne]
    exact .throw (hconfig _ not_false)
  refine (halts_requireFirst hconfig hwords hclass _).bind fun _ => ?_
  have hl := m.looking path id v fun path ds => ds.forM (Demand.meet (m.matchBelow budget path))
  generalize m.inside path id v _ _ _ = looked at hl
  cases hl with
  | outside => exact halts_requireNamed hconfig hwords _
  | circular h => exact .throw (hcircular h)
  | known => exact .pure ()
  | tooDeep hn hl hd => exact .throw (hdeep _ hl hd hne hn)
  | @entered cell ds hv hds hn => exact .forM (hd cell ds hv hds hne hn)

end Own

end Matcher

end ValueCheck
