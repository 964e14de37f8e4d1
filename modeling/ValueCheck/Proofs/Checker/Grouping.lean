import ValueCheck.Proofs.Checker.Reachability
import ValueCheck.Proofs.Grammar.Grouping

/-! Type strings composed of others in parentheses: what they are read as, and what the
modifiers of a group accept. -/

namespace ValueCheck.Registry

open Grammar

variable {r r' : Registry} {named : String → Option Checker} {source : String} {t : Term}

theorem getOrCompile_around {c : Checker} {u : Term} {make : Checker → Checker}
    (hr : Coherent named r) (hb : t.build named = some c) (hp : parse source = .ok u)
    (hu : u.build named = (t.build named).map make) :
    (getOrCompile source r).1 = .ok (make c) := by
  rw [hb] at hu
  exact hr.getOrCompile_eq_ok.2 ⟨u, hp, hu⟩

theorem getOrCompile_grouped (hr : Reachable r named) (hr' : Reachable r' named)
    (hs : parse source = .ok t) :
    (t.hasGroup = false →
      parse ("(" ++ source ++ ")") = .ok (.group t) ∧
      (∀ (n : Nat) (us : List Suffix) (bangs suffixes : String),
        Spells bangs (List.replicate n (.mark .bang)) →
        Spells suffixes (us.flatMap Suffix.symbols) → (∀ u ∈ us, u.Fits) →
        parse (bangs ++ "(" ++ source ++ ")" ++ suffixes) =
          .ok (inverted n (us.foldl Suffix.apply (.group t)))) ∧
      parse ("!(" ++ source ++ ")[]") = .ok (.array (.inverted (.group t))) ∧
      (∀ (source' : String) (t' : Term) (operator : String), parse source' = .ok t' →
        t'.hasGroup = false →
        (Spells operator [.mark .ampersand] →
          parse ("(" ++ source ++ ")" ++ operator ++ "(" ++ source' ++ ")") =
            .ok (.allOf [.group t, .group t'])) ∧
        (Spells operator [.mark .pipe] →
          parse ("(" ++ source ++ ")" ++ operator ++ "(" ++ source' ++ ")") =
            .ok (.anyOf [.group t, .group t']))) ∧
      ∀ c, (getOrCompile source r).1 = .ok c →
        (∃ d, (getOrCompile ("(" ++ source ++ ")?") r').1 = .ok d ∧
          ∀ w v, d.accepts w v = true ↔ v = .undefined ∨ c.accepts w v = true) ∧
        (∃ d, (getOrCompile ("(" ++ source ++ ")+") r').1 = .ok d ∧
          ∀ w v, d.accepts w v = true ↔ c.accepts w v = true ∧ v.isEmpty w = false) ∧
        ∃ d, (getOrCompile ("!(" ++ source ++ ")") r').1 = .ok d ∧
          ∀ w v, d.accepts w v = true ↔ ¬ c.accepts w v = true) ∧
    (t.hasGroup = true → ∃ front back, source = front ++ "(" ++ back ∧ '(' ∉ front.toList ∧
      parse ("(" ++ source ++ ")") =
        .error ⟨.nestedGroup, front.utf8ByteSize + 1, front.utf8ByteSize + 2⟩) := by
  refine ⟨fun hg => ?_, parse_nested hs⟩
  obtain ⟨p, hp⟩ := exists_paren hs hg
  have noBang : Spells "" (List.replicate 0 (.mark .bang)) := by decide +kernel
  have oneBang : Spells "!" (List.replicate 1 (.mark .bang)) := by decide +kernel
  have noSuffix : Spells "" (([] : List Suffix).flatMap Suffix.symbols) := by decide +kernel
  have question : Spells "?" ([Suffix.optional].flatMap Suffix.symbols) := by decide +kernel
  have plus : Spells "+" ([Suffix.nonEmpty].flatMap Suffix.symbols) := by decide +kernel
  have brackets : Spells "[]" ([Suffix.array].flatMap Suffix.symbols) := by decide +kernel
  have optional : parse ("(" ++ source ++ ")?") = .ok (.optional (.group t)) :=
    hp.parse_decorated noBang question (by simp [Suffix.Fits]) (by simp)
  have nonEmpty : parse ("(" ++ source ++ ")+") = .ok (.nonEmpty (.group t)) :=
    hp.parse_decorated noBang plus (by simp [Suffix.Fits]) (by simp)
  have bang : parse ("!(" ++ source ++ ")") = .ok (.inverted (.group t)) :=
    hp.parse_decorated oneBang noSuffix (by simp) (by simp)
  refine ⟨?_, ?_, ?_, ?_, ?_⟩
  · exact hp.parse_decorated noBang noSuffix (by simp) (by simp)
  · intro n us bangs suffixes hb hx hu
    exact hp.parse_decorated hb hx hu (by simp)
  · exact hp.parse_decorated oneBang brackets (by simp [Suffix.Fits]) (by simp)
  · intro source' t' operator hs' hg'
    obtain ⟨p', hp'⟩ := exists_paren hs' hg'
    exact ⟨hp.parse_ampersand hp', hp.parse_pipe hp'⟩
  · intro c hc
    obtain ⟨u, hu, hb⟩ := hr.coherent.getOrCompile_eq_ok.1 hc
    obtain rfl : u = t := Except.ok.inj (hu.symm.trans hs)
    refine ⟨⟨_, getOrCompile_around hr'.coherent hb optional rfl, ?_⟩,
      ⟨_, getOrCompile_around hr'.coherent hb nonEmpty rfl, ?_⟩,
      ⟨_, getOrCompile_around hr'.coherent hb bang rfl, ?_⟩⟩
    · simp [Checker.optional, Value.isUndefined]
    · simp [Checker.nonEmpty]
    · simp [Checker.inverted]

theorem getOrCompile_grouped_union :
    Reachable used usedNames ∧
      parse "positive+ | string" = .ok (.anyOf [.nonEmpty (.name "positive"), .name "string"]) ∧
      parse "!(positive+ | string)[]" = .ok (.array (.inverted
        (.group (.anyOf [.nonEmpty (.name "positive"), .name "string"])))) ∧
      ∃ c d, (getOrCompile "positive+ | string" used).1 = .ok c ∧
        (getOrCompile "(positive+ | string)?" (getOrCompile "positive[]" used).2).1 = .ok d ∧
        ∀ w v, d.accepts w v = true ↔ v = .undefined ∨ c.accepts w v = true := by
  let t : Term := .anyOf [.nonEmpty (.name "positive"), .name "string"]
  have h : parse "positive+ | string" = .ok t := by decide +kernel
  have hb : (t.build usedNames).isSome = true := by decide +kernel
  obtain ⟨c, hb⟩ := Option.isSome_iff_exists.1 hb
  have hc := reachable_used.coherent.getOrCompile_eq_ok.2 ⟨t, h, hb⟩
  have hr : Reachable (getOrCompile "positive[]" used).2 usedNames := reachable_used.compiled _
  obtain ⟨-, -, hinverted, -, hcompiled⟩ := (getOrCompile_grouped reachable_used hr h).1 rfl
  obtain ⟨⟨d, hd, haccepts⟩, -⟩ := hcompiled c hc
  exact ⟨reachable_used, h, hinverted, c, d, hc, hd, haccepts⟩

end ValueCheck.Registry
