import ValueCheck.Proofs.Checker.Growth

/-! The names of a registry after any calls are the built-in names and those that were registered;
what was compiled in between takes none of them and lends itself to none. -/

namespace ValueCheck.Registry

open Grammar (Term IsName parse)

inductive Call where
  | register (name : String) (accepts : World → Value → Bool) (description : Option String)
      (factory : Option ErrorFactory)
  | compile (source : String)

namespace Call

def perform (r : Registry) : Call → Except ConfigError Checker × Registry
  | register name accepts description factory =>
    Registry.register name accepts description factory r
  | compile source => getOrCompile source r

def registered? (r : Registry) : Call → Option String
  | register name accepts description factory =>
    if (Registry.register name accepts description factory r).1.isOk then some name else none
  | compile _ => none

end Call

def after (r : Registry) (calls : List Call) : Registry :=
  calls.foldl (fun r call => (call.perform r).2) r

def registeredNames (r : Registry) : List Call → List String
  | [] => []
  | call :: calls => (call.registered? r).toList ++ registeredNames (call.perform r).2 calls

def builtinNames : List String := Builtin.all.flatMap fun b => b.name :: b.aliases

def Taken (calls : List Call) (n : String) : Prop :=
  n ∈ builtinNames ∨ n ∈ builtin.registeredNames calls

variable {r : Registry} {named : String → Option Checker} {n : String}

theorem after_append (r : Registry) (calls more : List Call) :
    r.after (calls ++ more) = (r.after calls).after more := List.foldl_append

theorem isSome_update {m : String} {c : Checker} :
    (Function.update named m (some c) n).isSome = true ↔ n = m ∨ (named n).isSome = true := by
  by_cases h : n = m
  · simp [h]
  · simp [h]

theorem Reachable.perform (h : Reachable r named) (call : Call) :
    Grows r (call.perform r).2 ∧ ∃ named', Reachable (call.perform r).2 named' ∧
      ∀ n, (named' n).isSome = true ↔
        (named n).isSome = true ∨ n ∈ (call.registered? r).toList := by
  cases call with
  | compile source =>
    refine ⟨(grows_getOrCompile h.coherent h.closed source).1, named, h.compiled source, ?_⟩
    simp [Call.registered?]
  | register name accepts description factory =>
    simp only [Call.perform, Call.registered?]
    cases hr : (register name accepts description factory r).1 with
    | ok c =>
      refine ⟨?_, _, h.registered hr, fun n => ?_⟩
      · rw [(register_ok hr).2.2]
        exact grows_insertIfNew r name _
      · rw [isSome_update]
        simp [Except.isOk, Except.toBool, or_comm]
    | error e =>
      refine ⟨?_, named, h.refused hr, ?_⟩
      · rw [register_error hr]
        exact .refl r
      · simp [Except.isOk, Except.toBool]

theorem Reachable.after (h : Reachable r named) (calls : List Call) :
    Grows r (r.after calls) ∧ ∃ named', Reachable (r.after calls) named' ∧
      ∀ n, (named' n).isSome = true ↔
        (named n).isSome = true ∨ n ∈ r.registeredNames calls := by
  induction calls generalizing r named with
  | nil => exact ⟨.refl r, named, h, by simp [registeredNames]⟩
  | cons call calls ih =>
    obtain ⟨hg, named', hr', hn'⟩ := h.perform call
    obtain ⟨hg', named'', hr'', hn''⟩ := ih hr'
    refine ⟨hg.trans hg', named'', hr'', fun n => ?_⟩
    rw [hn'' n, hn' n, registeredNames, List.mem_append, or_assoc]

theorem isSome_builtin : (builtin.get? n).isSome = true ↔ n ∈ builtinNames := by
  have hc : (builtin.get? n).isSome = true ↔ n ∈ builtin.checkers.keys := Keyed.contains_iff _ n
  rw [hc, builtin, Keyed.ofList, Keyed.mem_keys_insertAll]
  simp [builtinNames, List.map_flatMap, Function.comp_def, Keyed.keys, Keyed.empty]

theorem exists_named (calls : List Call) : ∃ named, Reachable (builtin.after calls) named ∧
    ∀ n, (named n).isSome = true ↔ Taken calls n := by
  obtain ⟨-, named, hr, hn⟩ := Reachable.start.after calls
  refine ⟨named, hr, fun n => ?_⟩
  rw [hn n, isSome_builtin]
  rfl

theorem Reachable.parse_of_named (h : Reachable r named) (hn : (named n).isSome = true) :
    parse n = .ok (.name n) := parse_name (h.coherent.isName hn)

theorem Reachable.contains_name (h : Reachable r named) (hn : isName n = true) :
    r.contains n = (named n).isSome :=
  congrArg Option.isSome (h.coherent.get?_eq (isName_of_kebab hn))

theorem register_eq_duplicate {accepts : World → Value → Bool} {description : Option String}
    {factory : Option ErrorFactory} :
    (register n accepts description factory r).1 = .error (.duplicateChecker n) ↔
      isName n = true ∧ r.contains n = true := by
  rw [register_apply]
  cases isName n with
  | false => simp
  | true => cases r.contains n <;> simp

theorem register_eq_invalid {accepts : World → Value → Bool} {description : Option String}
    {factory : Option ErrorFactory} (h : isName n = false) :
    (register n accepts description factory r).1 = .error (.invalidName n) := by
  rw [register_apply, if_pos h]

theorem names_after (calls : List Call) :
    let r := builtin.after calls
    (∀ more key c, r.get? key = some c → (builtin.after (calls ++ more)).get? key = some c) ∧
    (∀ b ∈ Builtin.all, ∀ n ∈ b.name :: b.aliases, r.get? n = some b.checker) ∧
    (∀ key, isName key = true → r.contains key = true → Taken calls key) ∧
    (∀ n accepts description factory, isName n = true →
      ((register n accepts description factory r).1 = .error (.duplicateChecker n) ↔
        Taken calls n)) ∧
    (∀ n accepts description factory, isName n = false →
      (register n accepts description factory r).1 = .error (.invalidName n)) ∧
    (∀ n, Taken calls n → parse n = .ok (.name n)) ∧
    ∀ n accepts description factory e,
      (register n accepts description factory r).1 = .error e →
        (register n accepts description factory r).2 = r := by
  intro r
  obtain ⟨named, hr, hn⟩ := exists_named calls
  refine ⟨?_, ?_, ?_, ?_, fun _ _ _ _ => register_eq_invalid, ?_, fun _ _ _ _ _ => register_error⟩
  · intro more key c hc
    rw [after_append]
    exact (hr.after more).1 key c hc
  · intro b hb n hmem
    exact hr.coherent.get?_name (hr.named_builtin (get?_builtin hb hmem))
  · intro key hk hc
    rw [hr.contains_name hk] at hc
    exact (hn key).1 hc
  · intro n accepts description factory hk
    rw [register_eq_duplicate, hr.contains_name hk, hn n]
    exact and_iff_right hk
  · intro n hmem
    exact hr.parse_of_named ((hn n).2 hmem)

theorem register_signed_name : Taken [] "+int" ∧
    (register "+int" (fun _ _ => true) none none (builtin.after [])).1 =
      .error (.invalidName "+int") ∧
    (register "+int" (fun _ _ => true) none none (builtin.after [])).1 ≠
      .error (.duplicateChecker "+int") := by
  refine ⟨.inl (by decide +kernel), ?_, ?_⟩
  · exact register_eq_invalid (by decide +kernel)
  · rw [register_eq_invalid (by decide +kernel)]
    simp

end ValueCheck.Registry
