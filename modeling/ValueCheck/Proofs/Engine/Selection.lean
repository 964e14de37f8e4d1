import ValueCheck.Proofs.Engine.History
import ValueCheck.Proofs.Matching.Attribution

/-! Which factory makes an error. In every history it is the one that the name below the
modifiers of the refusing type string was added with, or else the one that is active. -/

namespace ValueCheck

open Grammar (parse)
open Registry (Coherent)

def givenFactory (adds : List Registration) (n : String) : Option ErrorFactory :=
  (adds.find? (·.name = n)).bind (·.factory)

theorem NamedBy.factory_eq {adds : List Registration} {named : String → Option Checker}
    (h : NamedBy adds named) : (fun n => (named n).bind Checker.factory) = givenFactory adds := by
  funext n
  rw [givenFactory]
  cases hf : adds.find? (·.name = n) with
  | some a =>
    obtain rfl : a.name = n := by simpa using List.find?_some hf
    rw [h.added (List.mem_of_find?_eq_some hf)]
    rfl
  | none =>
    have hn : ∀ a ∈ adds, a.name ≠ n := by simpa using List.find?_eq_none.1 hf
    rw [h.other hn]
    cases hb : Registry.builtin.get? n with
    | none => rfl
    | some c => exact Registry.factory_of_builtin hb

namespace Operation

def schemaAt : Operation → List Step → Option Schema
  | check _ schemas _ s _, steps | checkWith _ schemas _ _ s _, steps => s.below schemas steps
  | checkArguments _ schemas _ ss _, .index i :: steps => ss[i]?.bind (·.below schemas steps)
  | _, _ => none

/-- The schema that refuses a value when the operation is performed. There is none where
arguments are too many, nor where an assertion fails. -/
def refusing? (e : Engine) (op : Operation) : Option Schema :=
  (op.attempt? e).bind fun a =>
    match (a.matching e.registry).1 with
    | .error (.mismatch mm) => op.schemaAt mm.steps
    | _ => none

def activeFactory (fs : List ErrorFactory) : Operation → ErrorFactory
  | checkWith _ _ factory _ _ _ => factory
  | _ => fs.getLastD defaultFactory

variable {e : Engine} {op : Operation} {a : Attempt} {mm : Mismatch}
  {named : String → Option Checker}

theorem attributed_attempt (hr : Coherent named e.registry)
    (hb : ∀ n c, Registry.builtin.get? n = some c → named n = some c)
    (ha : op.attempt? e = some a) (h : (a.matching e.registry).1 = .error (.mismatch mm)) :
    mm.factory = (op.schemaAt mm.steps).bind
        (Schema.ownFactory fun n => (named n).bind Checker.factory) ∧
      ((∀ words, mm.reason ≠ .mustBe words) → mm.factory = none) := by
  cases op with
  | check w schemas v s place | checkWith w schemas factory v s place =>
    cases ha
    obtain ⟨⟨t, ht, hf⟩, hn⟩ := (Matcher.firstFailure_matchBelow .refl h).attributed hr hb
    refine ⟨?_, hn⟩
    rw [schemaAt, ht, hf]
    rfl
  | checkArguments w schemas vs ss place =>
    cases ha
    obtain rfl | ⟨i, s, r', mm', hs, hl, hmm, rfl⟩ := Matcher.mismatch_matchArguments h
    · exact ⟨rfl, fun _ => rfl⟩
    · obtain ⟨⟨t, ht, hf⟩, hn⟩ := (Matcher.firstFailure_matchBelow hl hmm).attributed hr hb
      refine ⟨?_, hn⟩
      rw [schemaAt, hs, Option.bind_some, ht, hf]
      rfl
  | _ => cases ha

end Operation

namespace Outcome

def custom? : Outcome → Option String
  | .checked (.error (.value (.custom text))) => some text
  | _ => none

theorem eq_of_custom? {o : Outcome} {text : String} (h : o.custom? = some text) :
    o = .checked (.error (.value (.custom text))) := by
  unfold custom? at h
  split at h
  · cases h
    rfl
  · cases h

end Outcome

namespace Engine

variable {config : Config} {adds : List Registration} {fs : List ErrorFactory}
  {named : String → Option Checker} {e : Engine} {op : Operation}

theorem Results.new_addition (h : Results config adds fs named e) {a : Registration}
    (ha : op.addition? e = some a) : Registry.builtin.get? a.name = none := by
  cases op with
  | add b =>
    rw [Operation.addition?] at ha
    split at ha
    · next hok =>
      obtain rfl := Option.some.inj ha
      have hreg : (Registry.register b.name b.accepts b.description b.factory e.registry).1.isOk =
          true := hok
      cases hc : (Registry.register b.name b.accepts b.description b.factory e.registry).1 with
      | error err =>
        rw [hc] at hreg
        cases hreg
      | ok c =>
        have hnone := h.coherent.named_eq_none (Registry.register_ok hc).2.1
        have hn : ∀ a ∈ adds, a.name ≠ b.name := by
          intro a ha he
          rw [← he, h.names.added ha] at hnone
          cases hnone
        rw [← h.names.other hn, hnone]
    · cases ha
  | _ => cases ha

theorem Results.new_additions (h : Results config adds fs named e) (ops : List Operation) :
    ∀ a ∈ e.additions ops, Registry.builtin.get? a.name = none := by
  induction ops generalizing adds fs named e with
  | nil => simp [additions]
  | cons op ops ih =>
    obtain ⟨named', hop⟩ := h.perform op
    rw [additions, List.forall_mem_append]
    refine ⟨fun a ha => ?_, ih hop⟩
    exact h.new_addition (by simpa using ha)

theorem Results.attempt_factory (h : Results config adds fs named e) {a : Attempt}
    (ha : op.attempt? e = some a) : a.factory = op.activeFactory fs := by
  cases op with
  | check | checkArguments =>
    cases ha
    exact h.factory
  | checkWith =>
    cases ha
    rfl
  | _ => cases ha

theorem Results.raise_factory (h : Results config adds fs named e)
    (hb : ∀ n c, Registry.builtin.get? n = some c → named n = some c) {x : Raise}
    (hx : op.raise? e = some x) :
    x.factory = ((op.refusing? e).bind (Schema.ownFactory (givenFactory adds))).getD
        (op.activeFactory fs) ∧
      ((∀ words, x.failure.reason ≠ .mustBe words) → x.factory = op.activeFactory fs) := by
  cases ha : op.attempt? e with
  | some a =>
    rw [Operation.raise?_attempt ha, Attempt.raise?] at hx
    rcases hm : (a.matching e.registry).1 with (c | mm) | u <;> rw [hm] at hx <;> cases hx
    obtain ⟨hf, hn⟩ := Operation.attributed_attempt h.coherent hb ha hm
    rw [h.names.factory_eq] at hf
    rw [Operation.refusing?, ha, Option.bind_some, hm, ← hf, ← h.attempt_factory ha]
    refine ⟨rfl, fun hw => ?_⟩
    rw [hn hw, Option.getD_none]
  | none =>
    rw [Operation.refusing?, ha]
    cases op with
    | check | checkWith | checkArguments => cases ha
    -- An assertion raises its error without a checker.
    | assert w condition description place =>
      rw [Operation.raise?] at hx
      split at hx <;> cases hx
      exact ⟨h.factory, fun _ => h.factory⟩
    | checker | add | throws => cases hx

theorem perform_raises (config : Config) (ops : List Operation) (op : Operation)
    {err : RaisedError}
    (h : (op.perform ((fresh config).after ops)).1 = .checked (.error (.value err))) :
    let e := (fresh config).after ops
    let adds := (fresh config).additions ops
    let active := op.activeFactory (factories ops)
    ∃ x, op.raise? e = some x ∧ err = x.error ∧
      x.factory = ((op.refusing? e).bind (Schema.ownFactory (givenFactory adds))).getD active ∧
      (∀ source t, op.refusing? e = some (.typeString source) → parse source = .ok t →
        (∀ n, t.core ≠ .name n) → x.factory = active) ∧
      (∀ a ∈ adds, op.refusing? e = some (.typeString ("!" ++ a.name ++ "[]")) →
        x.factory = active) ∧
      ((∀ source, op.refusing? e ≠ some (.typeString source)) ∨
        (∀ words, x.failure.reason ≠ .mustBe words) → x.factory = active) := by
  intro e adds active
  obtain ⟨x, hx, rfl⟩ := Operation.perform_eq_value.1 h
  obtain ⟨named, hres⟩ := (results_fresh config).after ops
  rw [List.nil_append, List.nil_append] at hres
  have hb : ∀ n c, Registry.builtin.get? n = some c → named n = some c := by
    intro n c hc
    rw [hres.names.other, hc]
    rintro a ha rfl
    rw [(results_fresh config).new_additions ops a ha] at hc
    cases hc
  obtain ⟨hf, hn⟩ := hres.raise_factory hb hx
  have hcore (source : String) (t : Grammar.Term) (hr : op.refusing? e = some (.typeString source))
      (ht : parse source = .ok t) (hname : ∀ n, t.core ≠ .name n) : x.factory = active := by
    rw [hf, hr, Option.bind_some, Schema.ownFactory_of_core ht hname]
    rfl
  refine ⟨x, hx, rfl, hf, hcore, ?_, ?_⟩
  · intro a ha hr
    have hname : Grammar.IsName a.name.toList :=
      hres.coherent.isName (by rw [hres.names.added ha]; rfl)
    exact hcore _ _ hr (Grammar.Term.parse_inverted_array hname) nofun
  · rintro (hs | hw)
    · rw [hf]
      cases hr : op.refusing? e with
      | none => rfl
      | some t =>
        rw [Option.bind_some, Schema.ownFactory_of_ne fun source ht => hs source (by rw [hr, ht])]
        rfl
    · exact hn hw

def loud : ErrorFactory := fun _ f => .custom ("loud " ++ f.place)

def guarded : Registration := ⟨"guarded", fun _ v => Builtin.isNonnegative v, none, some loud⟩

theorem perform_raises_guarded :
    let ops : List Operation := [.add guarded, .throws quiet]
    let op : Operation := .check {} {} (.number (.finite 5)) (.typeString "!(guarded?)") "n"
    let e := (fresh {}).after ops
    (op.perform e).1 = .checked (.error (.value (.custom "loud n"))) ∧
      ∃ x, op.raise? e = some x ∧ .custom "loud n" = x.error ∧
        x.factory = ((op.refusing? e).bind
          (Schema.ownFactory (givenFactory ((fresh {}).additions ops)))).getD quiet := by
  intro ops op e
  have h : (op.perform e).1 = .checked (.error (.value (.custom "loud n"))) := by
    apply Outcome.eq_of_custom?
    decide +kernel
  obtain ⟨x, hx, herr, hf, -⟩ := perform_raises {} ops op h
  exact ⟨h, x, hx, herr, hf⟩

end Engine

end ValueCheck
