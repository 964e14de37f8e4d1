import ValueCheck.Proofs.Checker.Reachability

/-! Error factories of checkers. A modifier hands on the factory of what it modifies, and no
other term has one, so it comes from the name at the core of the term or there is none. -/

namespace ValueCheck

namespace Grammar.Term

/-- What is left of a term without its groups and modifiers. -/
def core : Term → Term
  | group t | inverted t | nonEmpty t | optional t | sized t _ => t.core
  | t => t

def name? : Term → Option String
  | name n => some n
  | _ => none

theorem factory_build {named : String → Option Checker} {t : Term} {c : Checker}
    (h : t.build named = some c) :
    c.factory = t.core.name?.bind fun n => (named n).bind Checker.factory := by
  induction t using core.induct generalizing c with
  | case1 t ih => exact ih h
  | case2 t ih | case3 t ih | case4 t ih | case5 t r ih =>
    obtain ⟨d, hd, rfl⟩ := Option.map_eq_some_iff.1 h
    have hf : d.factory = t.core.name?.bind fun n => (named n).bind Checker.factory := ih hd
    exact hf
  | case6 t hg hi hn ho hs =>
    cases t with
    | name n =>
      have hn : named n = some c := h
      simp [core, name?, hn]
    | entries k t =>
      obtain ⟨d, -, h⟩ := Option.bind_eq_some_iff.1 h
      obtain ⟨e, -, rfl⟩ := Option.map_eq_some_iff.1 h
      rfl
    | allOf ts | anyOf ts | tuple ts | array t | object t =>
      obtain ⟨d, -, rfl⟩ := Option.map_eq_some_iff.1 h
      rfl
    | group t => exact absurd rfl (hg t)
    | inverted t => exact absurd rfl (hi t)
    | nonEmpty t => exact absurd rfl (hn t)
    | optional t => exact absurd rfl (ho t)
    | sized t r => exact absurd rfl (hs t r)

theorem parse_inverted_array {n : String} (hn : IsName n.toList) :
    parse ("!" ++ n ++ "[]") = .ok (.array (.inverted (.name n))) := by
  have hc : Canonical .inversion false (.inverted (.name n)) :=
    .inverted (.operand (.primary (.name hn))) (by simp [IsArray])
  have ht : (array (.inverted (.name n))).text = "!" ++ n ++ "[]" := by simp only [text]
  rw [← ht]
  exact parse_text (.of_inversion (.outerArray hc))

end Grammar.Term

namespace Registry

theorem exists_builtin {n : String} {c : Checker} (h : builtin.get? n = some c) :
    ∃ b : Builtin, c = b.checker := by
  have hc : (n, c) ∈ builtin.checkers.entries := Keyed.mem_entries_of_get? h
  rw [entries_builtin] at hc
  obtain ⟨b, -, hp⟩ := List.mem_flatMap.1 hc
  obtain ⟨m, -, hm⟩ := List.mem_map.1 hp
  exact ⟨b, (congrArg Prod.snd hm).symm⟩

theorem factory_of_builtin {n : String} {c : Checker} (h : builtin.get? n = some c) :
    c.factory = none := by
  obtain ⟨b, rfl⟩ := exists_builtin h
  rfl

end Registry

end ValueCheck
