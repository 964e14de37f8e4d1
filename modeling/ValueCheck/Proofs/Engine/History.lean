import ValueCheck.Proofs.Engine.Operation
import ValueCheck.Proofs.Matching.Determinacy

/-! Histories of engines. The names of an engine stand for what its accepted additions
gave them, and nothing else that happened to it is seen by the operations that follow. -/

namespace ValueCheck

open Registry (Coherent)

def Registration.checker (a : Registration) : Checker :=
  Registry.made a.name a.accepts a.description a.factory

namespace Operation

def addition? (e : Engine) : Operation → Option Registration
  | add a =>
    if (Engine.add a.name a.accepts a.description a.factory e).1.isOk then some a else none
  | _ => none

def factory? : Operation → Option ErrorFactory
  | throws factory => some factory
  | _ => none

variable {e e' : Engine} {op : Operation} {a : Attempt} {named : String → Option Checker}

theorem attempt?_congr (hf : e.factory = e'.factory) (hc : e.config = e'.config) :
    op.attempt? e = op.attempt? e' := by
  cases op with
  | check | checkWith | checkArguments => simp only [attempt?, hf, hc]
  | _ => rfl

theorem determined_attempt (h : op.attempt? e = some a) : Determined named a.matching := by
  cases op with
  | check | checkWith =>
    cases h
    exact closed_determined.matchSchema _ _
  | checkArguments =>
    cases h
    exact closed_determined.matchArguments _ _
  | _ => cases h

end Operation

structure NamedBy (adds : List Registration) (named : String → Option Checker) : Prop where
  added {a : Registration} (h : a ∈ adds) : named a.name = some a.checker
  other {n : String} (h : ∀ a ∈ adds, a.name ≠ n) : named n = Registry.builtin.get? n

theorem NamedBy.eq {adds adds' : List Registration} {named named' : String → Option Checker}
    (h : NamedBy adds named) (h' : NamedBy adds' named') (hm : ∀ a, a ∈ adds ↔ a ∈ adds') :
    named = named' := by
  funext n
  by_cases hn : ∃ a ∈ adds, a.name = n
  · obtain ⟨a, ha, rfl⟩ := hn
    rw [h.added ha, h'.added ((hm a).1 ha)]
  · have hn : ∀ a ∈ adds, a.name ≠ n := by simpa using hn
    rw [h.other hn, h'.other fun a ha => hn a ((hm a).2 ha)]

theorem NamedBy.concat {adds : List Registration} {named : String → Option Checker}
    (h : NamedBy adds named) {a : Registration} (hn : named a.name = none) :
    NamedBy (adds ++ [a]) (Function.update named a.name (some a.checker)) where
  added {b} hb := by
    rcases List.mem_append.1 hb with hb | hb
    · have hne : b.name ≠ a.name := by
        intro he
        have hs := h.added hb
        rw [he, hn] at hs
        cases hs
      rw [Function.update_of_ne hne, h.added hb]
    · obtain rfl := List.mem_singleton.1 hb
      exact Function.update_self ..
  other {n} hb := by
    rw [Function.update_of_ne (hb a (by simp)).symm]
    exact h.other fun b hmem => hb b (List.mem_append_left _ hmem)

namespace Engine

def after (e : Engine) (ops : List Operation) : Engine :=
  ops.foldl (fun e op => (op.perform e).2) e

def additions (e : Engine) : List Operation → List Registration
  | [] => []
  | op :: ops => (op.addition? e).toList ++ additions (op.perform e).2 ops

def factories (ops : List Operation) : List ErrorFactory := ops.filterMap Operation.factory?

variable {config : Config} {adds adds' : List Registration} {fs : List ErrorFactory}
  {named : String → Option Checker} {e e' : Engine}

structure Results (config : Config) (adds : List Registration) (fs : List ErrorFactory)
    (named : String → Option Checker) (e : Engine) : Prop where
  coherent : Coherent named e.registry
  names : NamedBy adds named
  config : e.config = config
  factory : e.factory = fs.getLastD defaultFactory

theorem results_fresh (config : Config) :
    Results config [] [] Registry.builtin.get? (fresh config) where
  coherent := Registry.coherent_builtin
  names := ⟨by simp, fun _ => rfl⟩
  config := rfl
  factory := rfl

theorem Results.recompiled (h : Results config adds fs named e) {r : Registry}
    (hr : Coherent named r) : Results config adds fs named { e with registry := r } :=
  ⟨hr, h.names, h.config, h.factory⟩

theorem Results.perform_add (h : Results config adds fs named e) (a : Registration) :
    ∃ named', Results config (adds ++ ((Operation.add a).addition? e).toList) fs named'
      ((Operation.add a).perform e).2 := by
  have hp : ((Operation.add a).perform e).2 =
      { e with registry := (Registry.register a.name a.accepts a.description a.factory
        e.registry).2 } := rfl
  have ha : (Operation.add a).addition? e =
      if (Registry.register a.name a.accepts a.description a.factory e.registry).1.isOk then some a
      else none := rfl
  rw [hp, ha]
  cases hc : (Registry.register a.name a.accepts a.description a.factory e.registry).1 with
  | ok c =>
    obtain ⟨hn, hg, hr⟩ := Registry.register_ok hc
    have hnone : named a.name = none := h.coherent.named_eq_none hg
    rw [hr]
    exact ⟨_, h.coherent.registered (Registry.isName_of_kebab hn) hg, h.names.concat hnone,
      h.config, h.factory⟩
  | error err =>
    rw [Registry.register_error hc]
    exact ⟨named, by simpa [Except.isOk, Except.toBool] using h⟩

theorem Results.perform (h : Results config adds fs named e) (op : Operation) :
    ∃ named', Results config (adds ++ (op.addition? e).toList) (fs ++ op.factory?.toList) named'
      (op.perform e).2 := by
  cases ha : op.attempt? e with
  | some a =>
    have hadd : op.addition? e = none ∧ op.factory? = none := by
      cases op <;> cases ha <;> exact ⟨rfl, rfl⟩
    rw [hadd.1, hadd.2, Operation.perform_attempt ha, Option.toList_none, Option.toList_none,
      List.append_nil, List.append_nil]
    exact ⟨named, h.recompiled ((Operation.determined_attempt ha).coherent h.coherent)⟩
  | none =>
    cases op with
    | check | checkWith | checkArguments => cases ha
    | assert w condition description place =>
      rw [Operation.perform_assert]
      exact ⟨named, by simpa [Operation.addition?, Operation.factory?] using h⟩
    | checker source =>
      have hc : Results config adds fs named ((Operation.checker source).perform e).2 :=
        h.recompiled (Registry.computes_getOrCompile source e.registry h.coherent).1
      exact ⟨named, by simpa [Operation.addition?, Operation.factory?] using hc⟩
    | add a => simpa [Operation.factory?] using h.perform_add a
    | throws factory =>
      have ht : ((Operation.throws factory).perform e).2 = { e with factory := factory } := rfl
      rw [ht]
      refine ⟨named, h.coherent, ?_, h.config, ?_⟩
      · simpa [Operation.addition?] using h.names
      · simp [Operation.factory?]

theorem Results.after (h : Results config adds fs named e) (ops : List Operation) :
    ∃ named', Results config (adds ++ e.additions ops) (fs ++ factories ops) named'
      (e.after ops) := by
  induction ops generalizing adds fs named e with
  | nil => exact ⟨named, by simpa [additions, factories, Engine.after] using h⟩
  | cons op ops ih =>
    obtain ⟨named', hop⟩ := h.perform op
    obtain ⟨named'', hops⟩ := ih hop
    refine ⟨named'', ?_⟩
    rw [List.append_assoc, List.append_assoc] at hops
    have hf : factories (op :: ops) = op.factory?.toList ++ factories ops := by
      rw [factories, List.filterMap_cons]
      cases op.factory? <;> rfl
    rw [hf]
    exact hops

/-- Engines that no operation can tell apart: their registries may differ in what was compiled. -/
structure Alike (named : String → Option Checker) (e e' : Engine) : Prop where
  left : Coherent named e.registry
  right : Coherent named e'.registry
  factory : e.factory = e'.factory
  config : e.config = e'.config

theorem Alike.perform_eq (h : Alike named e e') (op : Operation) :
    (op.perform e).1 = (op.perform e').1 ∧ op.raise? e = op.raise? e' := by
  cases ha : op.attempt? e with
  | some a =>
    have ha' : op.attempt? e' = some a := by rw [← ha, Operation.attempt?_congr h.factory h.config]
    have heq : (a.matching e.registry).1 = (a.matching e'.registry).1 :=
      (Operation.determined_attempt ha).eq h.left h.right
    rw [Operation.perform_attempt ha, Operation.perform_attempt ha', Operation.raise?_attempt ha,
      Operation.raise?_attempt ha', Attempt.raise?, Attempt.raise?, heq]
    exact ⟨rfl, rfl⟩
  | none =>
    cases op with
    | check | checkWith | checkArguments => cases ha
    | assert w condition description place =>
      rw [Operation.perform_assert, Operation.perform_assert, Operation.raise?, Operation.raise?,
        h.factory]
      exact ⟨rfl, rfl⟩
    | checker source =>
      have heq : (Registry.getOrCompile source e.registry).1 =
          (Registry.getOrCompile source e'.registry).1 := by
        rw [(Registry.computes_getOrCompile source _ h.left).2,
          (Registry.computes_getOrCompile source _ h.right).2]
      exact ⟨congrArg Outcome.compiled heq, rfl⟩
    | add a =>
      have heq : (Registry.register a.name a.accepts a.description a.factory e.registry).1 =
          (Registry.register a.name a.accepts a.description a.factory e'.registry).1 := by
        rw [Registry.register_apply, Registry.register_apply]
        cases hn : Registry.isName a.name with
        | false => rfl
        | true =>
          have hk := Registry.isName_of_kebab hn
          have hc : e.registry.contains a.name = e'.registry.contains a.name :=
            congrArg Option.isSome ((h.left.get?_eq hk).trans (h.right.get?_eq hk).symm)
          rw [hc]
          cases e'.registry.contains a.name <;> rfl
      exact ⟨congrArg Outcome.compiled heq, rfl⟩
    | throws factory => exact ⟨rfl, rfl⟩

theorem Results.alike {named' : String → Option Checker} (h : Results config adds fs named e)
    (h' : Results config adds' fs named' e') (hm : ∀ a, a ∈ adds ↔ a ∈ adds') :
    Alike named e e' where
  left := h.coherent
  right := by
    rw [h.names.eq h'.names hm]
    exact h'.coherent
  factory := by rw [h.factory, h'.factory]
  config := by rw [h.config, h'.config]

theorem perform_after (config : Config) {ops ops' : List Operation}
    (hadds : ∀ a, a ∈ (fresh config).additions ops ↔ a ∈ (fresh config).additions ops')
    (hthrows : factories ops = factories ops') (op : Operation) :
    let e := (fresh config).after ops
    let e' := (fresh config).after ops'
    ((op.perform e).1 = (op.perform e').1 ∧ op.raise? e = op.raise? e') ∧
      (∀ err, (op.perform e).1 = .checked (.error (.value err)) ↔
        ∃ x, op.raise? e = some x ∧ err = x.error) ∧
      (op.addition? e = none → op.factory? = none →
        (op.perform (op.perform e).2).1 = (op.perform e).1 ∧
          op.raise? (op.perform e).2 = op.raise? e) := by
  intro e e'
  obtain ⟨named, h⟩ := (results_fresh config).after ops
  obtain ⟨named', h'⟩ := (results_fresh config).after ops'
  rw [List.nil_append, List.nil_append] at h h'
  rw [← hthrows] at h'
  refine ⟨(h.alike h' hadds).perform_eq op, fun _ => Operation.perform_eq_value, ?_⟩
  intro hadd hfactory
  obtain ⟨named'', hop⟩ := h.perform op
  rw [hadd, hfactory, Option.toList_none, Option.toList_none, List.append_nil, List.append_nil]
    at hop
  exact (hop.alike h fun _ => .rfl).perform_eq op

def positive : Registration := ⟨"positive", fun _ v => Builtin.isNonnegative v, none, none⟩

def quiet : ErrorFactory := fun _ f => .custom f.place

def plainly : List Operation := [.add positive, .throws quiet]

def laboriously : List Operation :=
  [.checker "[string+]", .throws quiet, .add positive, .checker "\x7bmissing: positive+\x7d",
    .add positive]

theorem perform_after_laboriously :
    (∀ a, a ∈ (fresh {}).additions plainly ↔ a ∈ (fresh {}).additions laboriously) ∧
    factories plainly = factories laboriously ∧
    ((Operation.checker "[positive+]").perform ((fresh {}).after plainly)).1 =
      ((Operation.checker "[positive+]").perform ((fresh {}).after laboriously)).1 := by
  have h : (fresh {}).additions plainly = [positive] := rfl
  have h' : (fresh {}).additions laboriously = [positive] := by
    simp only [laboriously, additions, Operation.addition?, Option.toList_none, List.nil_append]
    rw [if_pos (by decide +kernel), if_neg (by decide +kernel)]
    rfl
  have hm : ∀ a, a ∈ (fresh {}).additions plainly ↔ a ∈ (fresh {}).additions laboriously := by
    rw [h, h']
    exact fun _ => .rfl
  exact ⟨hm, rfl, (perform_after {} hm rfl _).1.1⟩

end Engine

end ValueCheck
