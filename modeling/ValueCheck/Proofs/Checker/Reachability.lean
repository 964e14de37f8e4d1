import ValueCheck.Proofs.Checker.Coherence

/-! The registries that registering and compiling lead to. They are coherent, so
what they compile means what the terms mean. -/

namespace ValueCheck.Registry

open Grammar (Term IsName IsTail parse parse_text)

theorem isTail_of_wordsFrom {cs : List Char}
    (h : Text.wordsFrom '-' Text.isLowerOrDigit cs = true) : IsTail cs := by
  have hw {c : Char} (hc : Text.isLowerOrDigit c = true) : Grammar.isWordChar c = true := by
    simp only [Text.isLowerOrDigit, Text.isLower, Text.isDigit, Bool.or_eq_true] at hc
    simp only [Grammar.isWordChar, Grammar.isLetter, Grammar.isDigit, Bool.or_eq_true]
    tauto
  fun_induction Text.wordsFrom '-' Text.isLowerOrDigit cs with
  | case1 => exact .nil
  | case2 c => exact .word (hw h) .nil
  | case3 d cs ih =>
    rw [Bool.and_eq_true] at h
    exact .hyphen (hw h.1) (ih h.2)
  | case4 c d cs hc ih =>
    rw [Bool.and_eq_true] at h
    exact .word (hw h.1) (ih h.2)

theorem isName_of_kebab {name : String} (h : isName name = true) : IsName name.toList := by
  rw [isName] at h
  cases hn : name.toList with
  | nil => simp [hn, Text.Case.accepts, Text.startsThen] at h
  | cons c cs =>
    rw [hn] at h
    obtain ⟨hc, hs⟩ := Bool.and_eq_true_iff.1 h
    refine .letter ?_ (isTail_of_wordsFrom hs)
    simp only [Text.isLower] at hc
    simp [Grammar.isLetter, hc]

theorem isName_of_builtin : ∀ b ∈ Builtin.all, ∀ n ∈ b.name :: b.aliases, IsName n.toList := by
  have h : ∀ b ∈ Builtin.all, ∀ n ∈ b.name :: b.aliases,
      Grammar.lexeme? n.toList = some (.name, n.toList) := by decide +kernel
  exact fun b hb n hn => Grammar.isName_of_lexeme? (h b hb n hn)

theorem nodup_builtin : (Builtin.all.flatMap fun b => b.name :: b.aliases).Nodup := by
  decide +kernel

theorem entries_builtin : builtin.checkers.entries =
    Builtin.all.flatMap fun b => (b.name :: b.aliases).map fun n => (n, b.checker) := by
  apply Keyed.entries_ofList
  have h := nodup_builtin
  simpa [List.map_flatMap, Function.comp_def] using h

theorem get?_builtin {b : Builtin} (hb : b ∈ Builtin.all) {n : String}
    (hn : n ∈ b.name :: b.aliases) : builtin.get? n = some b.checker := by
  apply Keyed.get?_of_mem_entries
  rw [entries_builtin]
  exact List.mem_flatMap.2 ⟨b, hb, List.mem_map_of_mem hn⟩

theorem coherent_builtin : Coherent builtin.get? builtin := by
  have hn {n : String} (h : (builtin.get? n).isSome = true) : IsName n.toList := by
    have hk : n ∈ builtin.checkers.keys := (Keyed.contains_iff _ n).1 h
    rw [builtin, Keyed.ofList] at hk
    rw [Keyed.mem_keys_insertAll] at hk
    rcases hk with hk | hk
    · cases hk
    · obtain ⟨p, hp, rfl⟩ := List.mem_map.1 hk
      obtain ⟨b, hb, hp⟩ := List.mem_flatMap.1 hp
      obtain ⟨m, hm, rfl⟩ := List.mem_map.1 hp
      exact isName_of_builtin b hb m hm
  exact
    { isName := hn
      get?_name := id
      entry := fun {key c} h => ⟨.name key, parse_name (hn (by rw [h]; rfl)), h⟩ }

def made (name : String) (accepts : World → Value → Bool) (description : Option String)
    (factory : Option ErrorFactory) : Checker :=
  ⟨name, (description.filter (· ≠ "")).getD name, accepts, false, false, factory⟩

variable {r : Registry} {named : String → Option Checker} {name : String}
  {accepts : World → Value → Bool} {description : Option String} {factory : Option ErrorFactory}

theorem register_apply : register name accepts description factory r =
    if isName name = false then (.error (.invalidName name), r)
    else if r.contains name = true then (.error (.duplicateChecker name), r)
    else
      let c := made name accepts description factory
      (.ok c, ⟨r.checkers.insertIfNew name c⟩) := by
  cases hn : isName name with
  | false =>
    simp only [register, hn]
    rfl
  | true =>
    have hr : register name accepts description factory r =
        (if r.contains name = true then throw (.duplicateChecker name)
        else do
          modify fun r => ⟨r.checkers.insertIfNew name (made name accepts description factory)⟩
          return made name accepts description factory : Registering Checker) r := by
      simp only [register, hn]
      rfl
    rw [hr]
    cases r.contains name <;> rfl

theorem register_new (hn : isName name = true) (hg : r.get? name = none) :
    register name accepts description factory r =
      (.ok (made name accepts description factory),
        ⟨r.checkers.insertIfNew name (made name accepts description factory)⟩) := by
  have hc : r.contains name = false := congrArg Option.isSome hg
  rw [register_apply, if_neg (by simp [hn]), if_neg (by simp [hc])]

theorem register_ok {c : Checker} (h : (register name accepts description factory r).1 = .ok c) :
    isName name = true ∧ r.get? name = none ∧ (register name accepts description factory r).2 =
      ⟨r.checkers.insertIfNew name (made name accepts description factory)⟩ := by
  rw [register_apply] at h ⊢
  split
  · next hn =>
    rw [if_pos hn] at h
    cases h
  · next hn =>
    rw [if_neg hn] at h
    split
    · next hc =>
      rw [if_pos hc] at h
      cases h
    · next hc =>
      have hg : r.get? name = none := by simpa [contains, Keyed.contains, get?] using hc
      exact ⟨by simpa using hn, hg, rfl⟩

theorem register_error {e : ConfigError}
    (h : (register name accepts description factory r).1 = .error e) :
    (register name accepts description factory r).2 = r := by
  rw [register_apply] at h ⊢
  split
  · rfl
  · next hn =>
    rw [if_neg hn] at h
    split
    · rfl
    · next hc =>
      rw [if_neg hc] at h
      cases h

/-- The registries that calls lead to from the first one, each with the checkers
that the built-in and the registered names stand for. -/
inductive Reachable : Registry → (String → Option Checker) → Prop where
  | start : Reachable builtin builtin.get?
  | registered {r : Registry} {named : String → Option Checker} (h : Reachable r named)
      {name : String} {accepts : World → Value → Bool} {description : Option String}
      {factory : Option ErrorFactory} {c : Checker}
      (hc : (register name accepts description factory r).1 = .ok c) :
      Reachable (register name accepts description factory r).2
        (Function.update named name (some (made name accepts description factory)))
  | refused {r : Registry} {named : String → Option Checker} (h : Reachable r named)
      {name : String} {accepts : World → Value → Bool} {description : Option String}
      {factory : Option ErrorFactory} {e : ConfigError}
      (he : (register name accepts description factory r).1 = .error e) :
      Reachable (register name accepts description factory r).2 named
  | compiled {r : Registry} {named : String → Option Checker} (h : Reachable r named)
      (source : String) : Reachable (getOrCompile source r).2 named

theorem Coherent.registered (h : Coherent named r) {c : Checker} (hn : IsName name.toList)
    (hr : r.get? name = none) : Coherent (Function.update named name (some c))
      ⟨r.checkers.insertIfNew name c⟩ := by
  have hs : (⟨r.checkers.insertIfNew name c⟩ : Registry).get? name = some c := by
    refine (r.checkers.get?_insertIfNew_self name c).trans ?_
    rw [show r.checkers.get? name = none from hr, Option.getD_none]
  have hne {key : String} (hk : key ≠ name) :
      (⟨r.checkers.insertIfNew name c⟩ : Registry).get? key = r.get? key :=
    r.checkers.get?_insertIfNew_ne c hk
  have hmono : ∀ n d, named n = some d → Function.update named name (some c) n = some d := by
    intro n d hd
    have hnn : n ≠ name := by
      rintro rfl
      exact absurd (h.get?_name hd) (by simp [hr])
    rw [Function.update_of_ne hnn, hd]
  constructor
  · intro n hs
    by_cases he : n = name
    · rwa [he]
    · rw [Function.update_of_ne he] at hs
      exact h.isName hs
  · intro n d hd
    by_cases he : n = name
    · subst he
      rw [Function.update_self] at hd
      rw [hs, hd]
    · rw [Function.update_of_ne he] at hd
      rw [hne he, h.get?_name hd]
  · intro key d hd
    by_cases he : key = name
    · subst he
      refine ⟨.name key, parse_name hn, ?_⟩
      rw [Term.build, Function.update_self, ← hd, hs]
    · rw [hne he] at hd
      obtain ⟨t, ht, hb⟩ := h.entry hd
      exact ⟨t, ht, Term.build_mono hmono hb⟩

theorem Reachable.coherent (h : Reachable r named) : Coherent named r := by
  induction h with
  | start => exact coherent_builtin
  | registered _ hc ih =>
    obtain ⟨hn, hg, hr⟩ := register_ok hc
    rw [hr]
    exact ih.registered (isName_of_kebab hn) hg
  | refused _ he ih => rwa [register_error he]
  | compiled _ source ih => exact (computes_getOrCompile source _ ih).1

theorem Reachable.named_builtin (h : Reachable r named) {n : String} {c : Checker}
    (hc : builtin.get? n = some c) : named n = some c := by
  induction h with
  | start => exact hc
  | @registered r named h name accepts description factory d hd ih =>
    have hn : n ≠ name := by
      rintro rfl
      exact absurd (h.coherent.get?_name ih) (by simp [(register_ok hd).2.1])
    rwa [Function.update_of_ne hn]
  | refused _ _ ih | compiled _ _ ih => exact ih

theorem getOrCompile_meaning (h : Reachable r named) (source : String) :
    ((∃ c, (getOrCompile source r).1 = .ok c) ↔
      ∃ t, parse source = .ok t ∧ ∀ n ∈ t.names, (named n).isSome = true) ∧
    ∀ c t, (getOrCompile source r).1 = .ok c → parse source = .ok t →
      ∀ w v, c.accepts w v = true ↔ t.meaning named w v := by
  have hok (c : Checker) : (getOrCompile source r).1 = .ok c ↔
      ∃ t, parse source = .ok t ∧ t.build named = some c := h.coherent.getOrCompile_eq_ok
  constructor
  · constructor
    · rintro ⟨c, hc⟩
      obtain ⟨t, ht, hb⟩ := (hok c).1 hc
      exact ⟨t, ht, Term.isSome_build t |>.1 (by rw [hb]; rfl)⟩
    · rintro ⟨t, ht, hn⟩
      obtain ⟨c, hb⟩ := Option.isSome_iff_exists.1 ((Term.isSome_build t).2 hn)
      exact ⟨c, (hok c).2 ⟨t, ht, hb⟩⟩
  · intro c t hc ht w
    obtain ⟨u, hu, hb⟩ := (hok c).1 hc
    obtain rfl : u = t := Except.ok.inj (hu.symm.trans ht)
    exact Term.decides_build hb

def isPositive (_ : World) (v : Value) : Bool := Builtin.isNonnegative v

def positive : Checker := made "positive" isPositive none none

def used : Registry :=
  let r := (register "positive" isPositive none none builtin).2
  let r := (getOrCompile "[positive+]" r).2
  (getOrCompile "\x7bmissing: positive?\x7d" r).2

def usedNames : String → Option Checker :=
  Function.update builtin.get? "positive" (some positive)

theorem reachable_used : Reachable used usedNames := by
  have hc : (register "positive" isPositive none none builtin).1 = .ok positive := by
    rw [register_new (by decide +kernel) (Option.isNone_iff_eq_none.1 (by decide +kernel))]
    rfl
  exact .compiled (.compiled (.registered .start hc) _) _

theorem getOrCompile_meaning_used :
    Reachable used usedNames ∧
    (∃ c, (getOrCompile "[positive+, !int]" used).1 = .ok c ∧
      ∀ w v, c.accepts w v = true ↔
        (Term.tuple [.nonEmpty (.name "positive"), .inverted (.name "int")]).meaning usedNames
          w v) ∧
    ¬ ∃ c, (getOrCompile "missing" used).1 = .ok c := by
  let t : Term := .tuple [.nonEmpty (.name "positive"), .inverted (.name "int")]
  have ht : parse "[positive+, !int]" = .ok t := by decide +kernel
  have hn : ∀ n ∈ t.names, (usedNames n).isSome = true := by decide +kernel
  have hmissing : ¬ ∃ u, parse "missing" = .ok u ∧ ∀ n ∈ u.names, (usedNames n).isSome = true := by
    rintro ⟨u, hu, hall⟩
    have hname : parse "missing" = .ok (.name "missing") := by decide +kernel
    obtain rfl : u = .name "missing" := Except.ok.inj (hu.symm.trans hname)
    exact absurd (hall "missing" (by simp [Term.names])) (by decide +kernel)
  obtain ⟨hok, hmeaning⟩ := getOrCompile_meaning reachable_used "[positive+, !int]"
  obtain ⟨c, hc⟩ := hok.2 ⟨t, ht, hn⟩
  refine ⟨reachable_used, ⟨c, hc, hmeaning c t hc ht⟩, ?_⟩
  rwa [(getOrCompile_meaning reachable_used "missing").1]

end ValueCheck.Registry
