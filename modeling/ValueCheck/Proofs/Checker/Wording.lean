import ValueCheck.Proofs.Checker.Growth
import ValueCheck.Proofs.Checker.Inheritance

/-! Descriptions of checkers. What stands for an operand is put in parentheses where it would be
misread, in every term but a tuple. -/

namespace ValueCheck

namespace Grammar.Term

def isLoose : Term → Bool
  | allOf _ | anyOf _ | optional _ => true
  | _ => false

def isTuple : Term → Bool
  | tuple _ => true
  | _ => false

def wording : Term → List String → String
  | allOf _, texts => " and ".intercalate texts
  | anyOf _, texts => " or ".intercalate texts
  | tuple _, texts => "plain array tuple containing " ++ ", ".intercalate texts
  | array _, [text] => "plain array containing " ++ text
  | object _, [text] => "plain object containing " ++ text
  | entries _ _, [key, value] => "plain object with " ++ key ++ " keys containing " ++ value
  | inverted _, [text] => "anything except " ++ text
  | nonEmpty _, [text] => "non-empty " ++ text
  | optional _, [text] => text ++ " or empty"
  | sized _ range, [text] => text ++ " " ++ range.phrase
  | _, _ => ""

def parenthesizes : Term → Term → Bool
  | allOf _, u | anyOf _, u => u.bare.isDerived
  | tuple _, _ => false
  | _, u => u.bare.isLoose

def operandText (outer operand : Term) (c : Checker) : String :=
  if outer.parenthesizes operand then Checker.parenthesized c.description else c.description

variable {named : String → Option Checker} {t u : Term} {c : Checker}

theorem isDerived_of_isLoose (h : t.isLoose = true) : t.isDerived = true := by
  cases t with
  | allOf | anyOf | optional => rfl
  | _ => cases h

theorem parenthesizes_iff (ht : t.isDerived = true) (hu : u.bare.isLoose = true) :
    t.parenthesizes u = true ↔ t.isTuple = false := by
  cases t with
  | name | group => cases ht
  | allOf | anyOf => simp [parenthesizes, isTuple, isDerived_of_isLoose hu]
  | tuple => simp [parenthesizes, isTuple]
  | _ => simp [parenthesizes, isTuple, hu]

def Plain (named : String → Option Checker) : Prop :=
  ∀ n c, named n = some c → c.derived = false ∧ c.needsWrapping = false

theorem marks_build (hn : Plain named) (h : u.build named = some c) :
    c.derived = u.bare.isDerived ∧ c.needsWrapping = u.bare.isLoose := by
  rw [← build_bare] at h
  generalize hb : u.bare = b at h
  cases b with
  | name n => exact hn n c h
  | group t =>
    induction u using bare.induct with
    | case1 t ih => exact ih hb
    | case2 t hg =>
      rw [bare.eq_2 t hg] at hb
      exact absurd hb (hg _)
  | entries k t =>
    obtain ⟨d, -, h⟩ := Option.bind_eq_some_iff.1 h
    obtain ⟨e, -, rfl⟩ := Option.map_eq_some_iff.1 h
    exact ⟨rfl, rfl⟩
  | _ =>
    obtain ⟨d, -, rfl⟩ := Option.map_eq_some_iff.1 h
    exact ⟨rfl, rfl⟩

theorem embeddedDescription_build (hn : Plain named) (h : u.build named = some c) :
    c.embeddedDescription =
      if u.bare.isLoose then Checker.parenthesized c.description else c.description := by
  rw [Checker.embeddedDescription, (marks_build hn h).2]

theorem operandDescription_build (hn : Plain named) (h : u.build named = some c) :
    c.operandDescription =
      if u.bare.isDerived then Checker.parenthesized c.description else c.description := by
  rw [Checker.operandDescription, (marks_build hn h).1]

theorem forall₂_build {ts : List Term} {cs : List Checker} (h : builds named ts = some cs) :
    List.Forall₂ (fun u c => u.build named = some c) ts cs := by
  induction ts generalizing cs with
  | nil =>
    cases h
    exact .nil
  | cons t ts ih =>
    obtain ⟨c, hc, h⟩ := Option.bind_eq_some_iff.1 h
    obtain ⟨ds, hds, rfl⟩ := Option.map_eq_some_iff.1 h
    exact .cons hc (ih hds)

def Words (named : String → Option Checker) (outer operand : Term) (text : String) : Prop :=
  ∃ c, operand.build named = some c ∧ text = outer.operandText operand c

theorem forall₂_words {outer : Term} {ts : List Term} {cs : List Checker} {f : Checker → String}
    (h : builds named ts = some cs)
    (hf : ∀ u c, u.build named = some c → f c = outer.operandText u c) :
    List.Forall₂ (Words named outer) ts (cs.map f) := by
  rw [List.forall₂_map_right_iff]
  exact (forall₂_build h).imp fun u c hc => ⟨c, hc, hf u c hc⟩

theorem description_build (hn : Plain named) (h : t.build named = some c)
    (hd : t.isDerived = true) : ∃ texts, c.description = t.wording texts ∧
      List.Forall₂ (Words named t) t.children texts := by
  cases t with
  | name | group => cases hd
  | allOf ts | anyOf ts =>
    obtain ⟨cs, hcs, rfl⟩ := Option.map_eq_some_iff.1 h
    exact ⟨_, rfl, forall₂_words hcs fun u c hc => operandDescription_build hn hc⟩
  | tuple ts =>
    obtain ⟨cs, hcs, rfl⟩ := Option.map_eq_some_iff.1 h
    exact ⟨_, rfl, forall₂_words hcs fun u c hc => rfl⟩
  | entries k t =>
    obtain ⟨d, hv, h⟩ := Option.bind_eq_some_iff.1 h
    obtain ⟨e, hk, rfl⟩ := Option.map_eq_some_iff.1 h
    refine ⟨[e.embeddedDescription, d.embeddedDescription], rfl, ?_⟩
    exact .cons ⟨e, hk, embeddedDescription_build hn hk⟩
      (.cons ⟨d, hv, embeddedDescription_build hn hv⟩ .nil)
  | array t | object t | inverted t | nonEmpty t | optional t | sized t r =>
    obtain ⟨d, ht, rfl⟩ := Option.map_eq_some_iff.1 h
    refine ⟨[d.embeddedDescription], rfl, ?_⟩
    exact .cons ⟨d, ht, embeddedDescription_build hn ht⟩ .nil

end Grammar.Term

namespace Registry

open Grammar (Term parse parse_text canonical_of_parse)

variable {r : Registry} {named : String → Option Checker} {source : String} {t : Term}
  {c : Checker}

theorem Reachable.plain (h : Reachable r named) : Term.Plain named := by
  induction h with
  | start =>
    intro n c hc
    obtain ⟨b, rfl⟩ := exists_builtin hc
    exact ⟨rfl, rfl⟩
  | @registered r named _ name _ _ _ _ _ ih =>
    intro n c hc
    by_cases hn : n = name
    · subst hn
      rw [Function.update_self] at hc
      cases hc
      exact ⟨rfl, rfl⟩
    · rw [Function.update_of_ne hn] at hc
      exact ih n c hc
  | refused _ _ ih | compiled _ _ ih => exact ih

theorem getOrCompile_description (h : Reachable r named) (ht : parse source = .ok t)
    (hc : (getOrCompile source r).1 = .ok c) (hd : t.bare.isDerived = true) :
    (∃ texts, c.description = t.bare.wording texts ∧
      List.Forall₂ (fun u text => ∃ d, (getOrCompile u.text r).1 = .ok d ∧
        text = if t.bare.parenthesizes u then Checker.parenthesized d.description
          else d.description) t.bare.children texts) ∧
    ∀ u ∈ t.bare.children, u.bare.isLoose = true →
      (t.bare.parenthesizes u = true ↔ t.bare.isTuple = false) := by
  have hp : t.bare.build named = some c := by
    obtain ⟨u, hu, hb⟩ := h.coherent.getOrCompile_eq_ok.1 hc
    cases ht.symm.trans hu
    rwa [Term.build_bare]
  obtain ⟨texts, hw, hall⟩ := Term.description_build h.plain hp hd
  refine ⟨⟨texts, hw, ?_⟩, fun u _ hl => Term.parenthesizes_iff hd hl⟩
  have hcanonical := (canonical_of_parse ht).part (Term.isPart_bare t)
  refine (List.forall₂_iff_zip.2 ⟨hall.length_eq, fun {u text} hmem => ?_⟩)
  obtain ⟨d, hb, htext⟩ := (List.forall₂_iff_zip.1 hall).2 hmem
  have hu := parse_text (hcanonical.child (List.of_mem_zip hmem).1)
  exact ⟨d, h.coherent.getOrCompile_eq_ok.2 ⟨u, hu, hb⟩, htext⟩

theorem getOrCompile_description_entries : Reachable used usedNames ∧
    ∃ t c, parse "\x7bupper: (positive+ | str)\x7d" = .ok t ∧
      (getOrCompile "\x7bupper: (positive+ | str)\x7d" used).1 = .ok c ∧
      t.bare.isDerived = true ∧
      (∃ texts, c.description = t.bare.wording texts ∧ texts.length = 2) ∧
      ∀ u ∈ t.bare.children, u.bare.isLoose = true →
        (t.bare.parenthesizes u = true ↔ t.bare.isTuple = false) := by
  let t : Term :=
    .entries (.name "upper") (.group (.anyOf [.nonEmpty (.name "positive"), .name "str"]))
  have ht : parse "\x7bupper: (positive+ | str)\x7d" = .ok t := by decide +kernel
  have hb : (t.build usedNames).isSome = true := by decide +kernel
  obtain ⟨c, hb⟩ := Option.isSome_iff_exists.1 hb
  have hc := reachable_used.coherent.getOrCompile_eq_ok.2 ⟨t, ht, hb⟩
  obtain ⟨⟨texts, hw, hall⟩, hp⟩ := getOrCompile_description reachable_used ht hc rfl
  exact ⟨reachable_used, t, c, ht, hc, rfl, ⟨texts, hw, hall.length_eq.symm⟩, hp⟩

theorem getOrCompile_description_tuple :
    parse "[str?, num?]" = .ok (.tuple [.optional (.name "str"), .optional (.name "num")]) ∧
    (getOrCompile "[str?, num?]" builtin).1.map Checker.description =
      .ok "plain array tuple containing string or empty, finite number or empty" ∧
    (getOrCompile "str?" builtin).1.map Checker.description = .ok "string or empty" := by
  decide +kernel

end Registry

end ValueCheck
