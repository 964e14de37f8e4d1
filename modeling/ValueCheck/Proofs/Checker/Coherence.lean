import ValueCheck.Proofs.Checker.Meaning
import ValueCheck.Proofs.Grammar.RoundTrip

/-! Coherent registries: each entry is the checker that is built for the term its
key reads as. Compiling keeps registries coherent, also where it fails. -/

namespace ValueCheck.Registry

open Grammar (Term Canonical IsName parse parse_text canonical_of_parse)

structure Coherent (named : String → Option Checker) (r : Registry) : Prop where
  isName {n : String} (h : (named n).isSome = true) : IsName n.toList
  get?_name {n : String} {c : Checker} (h : named n = some c) : r.get? n = some c
  entry {key : String} {c : Checker} (h : r.get? key = some c) :
    ∃ t, parse key = .ok t ∧ t.build named = some c

variable {named : String → Option Checker} {ε α β : Type}

/-- In coherent registries, which stay coherent, the result is the expected one,
whatever else they hold. -/
def Computes (named : String → Option Checker) (m : ExceptT ε (StateM Registry) α)
    (expected : Except ε α) : Prop :=
  ∀ r, Coherent named r → Coherent named (m r).2 ∧ (m r).1 = expected

theorem Computes.pure (a : α) :
    Computes named (pure a : ExceptT ε (StateM Registry) α) (.ok a) := fun _ h => ⟨h, rfl⟩

theorem Computes.throw (e : ε) :
    Computes named (throw e : ExceptT ε (StateM Registry) α) (.error e) := fun _ h => ⟨h, rfl⟩

theorem bind_apply {ε σ : Type} (m : ExceptT ε (StateM σ) α) (f : α → ExceptT ε (StateM σ) β)
    (s : σ) : (m >>= f) s =
      match m s with
      | (.ok a, s') => f a s'
      | (.error e, s') => (.error e, s') := by
  simp only [bind, ExceptT.bind, ExceptT.mk, StateT.bind, ExceptT.bindCont]
  cases m s with
  | mk result s' => cases result <;> rfl

theorem adapt_apply {ε ε' σ : Type} (f : ε → ε') (x : ExceptT ε (StateM σ) α) (s : σ) :
    (x.adapt f) s = ((x s).1.mapError f, (x s).2) := rfl

theorem mapError_eq_ok {ε ε' : Type} {f : ε → ε'} {x : Except ε α} {a : α} :
    x.mapError f = .ok a ↔ x = .ok a := by
  constructor
  · intro h
    cases x <;> cases h
    rfl
  · rintro rfl
    rfl

theorem mapError_eq_error {ε ε' : Type} {f : ε → ε'} {x : Except ε α} {e' : ε'} :
    x.mapError f = .error e' ↔ ∃ e, x = .error e ∧ f e = e' := by
  constructor
  · intro h
    cases x with
    | error e => exact ⟨e, rfl, Except.error.inj h⟩
    | ok a => cases h
  · rintro ⟨e, rfl, rfl⟩
    rfl

theorem get_bind_apply (f : Registry → Registering α) (r : Registry) : (get >>= f) r = f r r := rfl

theorem Computes.bind {m : ExceptT ε (StateM Registry) α}
    {f : α → ExceptT ε (StateM Registry) β} {x : Except ε α} {y : α → Except ε β}
    (hm : Computes named m x) (hf : ∀ a, x = .ok a → Computes named (f a) (y a)) :
    Computes named (m >>= f) (x.bind y) := by
  intro r h
  obtain ⟨hr, hx⟩ := hm r h
  rw [bind_apply]
  cases hmr : m r with
  | mk result r' =>
    rw [hmr] at hr hx
    obtain rfl : result = x := hx
    cases result with
    | error e => exact ⟨hr, rfl⟩
    | ok a => exact hf a rfl r' hr

theorem Computes.map {m : ExceptT ε (StateM Registry) α} {x : Except ε α}
    (hm : Computes named m x) (f : α → β) : Computes named (do return f (← m)) (x.map f) := by
  have hb := hm.bind fun a _ => .pure (f a)
  cases x <;> exact hb

theorem Computes.adapt {ε' : Type} {m : ExceptT ε (StateM Registry) α} {x : Except ε α}
    (hm : Computes named m x) (f : ε → ε') : Computes named (m.adapt f) (x.mapError f) := by
  intro r h
  obtain ⟨hr, rfl⟩ := hm r h
  exact ⟨hr, rfl⟩

theorem Coherent.eq_of_entry {r : Registry} (h : Coherent named r) {key : String} {t : Term}
    {c : Checker} (ht : parse key = .ok t) (hc : r.get? key = some c) :
    t.construct named = .ok c := by
  obtain ⟨u, hu, hb⟩ := h.entry hc
  obtain rfl : t = u := Except.ok.inj (ht.symm.trans hu)
  exact Term.construct_eq_ok.2 hb

theorem Coherent.named_eq_none {r : Registry} (h : Coherent named r) {n : String}
    (hg : r.get? n = none) : named n = none := by
  cases hn : named n with
  | none => rfl
  | some c => exact absurd (h.get?_name hn) (by simp [hg])

theorem Coherent.insertIfNew {r : Registry} (h : Coherent named r) {key : String} {t : Term}
    {c : Checker} (ht : parse key = .ok t) (hc : t.construct named = .ok c) :
    Coherent named ⟨r.checkers.insertIfNew key c⟩ where
  isName := h.isName
  get?_name {n d} hn := by
    have hd : r.get? n = some d := h.get?_name hn
    by_cases hk : n = key
    · subst hk
      have hs := r.checkers.get?_insertIfNew_self n c
      rwa [show r.checkers.get? n = some d from hd] at hs
    · exact (r.checkers.get?_insertIfNew_ne c hk).trans hd
  entry {k d} hk := by
    by_cases he : k = key
    · subst he
      have hs := r.checkers.get?_insertIfNew_self k c
      obtain rfl : (r.get? k).getD c = d := Option.some.inj (hs.symm.trans hk)
      refine ⟨t, ht, ?_⟩
      cases hg : r.get? k with
      | none => exact Term.construct_eq_ok.1 hc
      | some d => exact Term.construct_eq_ok.1 (h.eq_of_entry ht hg)
    · exact h.entry ((r.checkers.get?_insertIfNew_ne c he).symm.trans hk)

theorem Computes.cache {key : String} {t : Term} {c : Checker} (ht : parse key = .ok t)
    (hc : t.construct named = .ok c) :
    Computes named (Registry.cache key c : Registering Checker) (.ok c) := by
  intro r h
  refine ⟨h.insertIfNew ht hc, ?_⟩
  change Except.ok ((r.get? key).getD c) = .ok c
  cases hg : r.get? key with
  | none => rfl
  | some d => exact (h.eq_of_entry ht hg).symm.trans hc

theorem Computes.lookup {key : String} {m : Registering Checker} {x : Except ConfigError Checker}
    (hk : ∀ r c, Coherent named r → r.get? key = some c → x = .ok c)
    (hm : ∀ r, Coherent named r → r.get? key = none →
      Coherent named (m r).2 ∧ (m r).1 = x) :
    Computes named (do
      match (← get).get? key with
      | some c => return c
      | none => m) x := by
  intro r h
  rw [get_bind_apply]
  cases hg : r.get? key with
  | some c => exact ⟨h, (hk r c h hg).symm⟩
  | none => exact hm r h hg

theorem parse_name {n : String} (h : IsName n.toList) : parse n = .ok (.name n) :=
  parse_text (.of_operand (.primary (.name (g := false) h)))

theorem Coherent.get?_eq {r : Registry} (h : Coherent named r) {n : String}
    (hn : IsName n.toList) : r.get? n = named n := by
  cases hg : r.get? n with
  | some c => exact (Term.construct_eq_ok.1 (h.eq_of_entry (parse_name hn) hg)).symm
  | none =>
    exact (h.named_eq_none hg).symm

theorem computes_named {n : String} (hn : IsName n.toList) :
    Computes named (Registry.named n) ((Term.name n).construct named) := by
  intro r h
  rw [Registry.named, get_bind_apply, h.get?_eq hn, Term.construct]
  cases named n <;> exact ⟨h, rfl⟩

theorem Computes.kept {key : String} {t : Term} {m : Registering Checker}
    (ht : parse key = .ok t) (hm : Computes named m (t.construct named)) :
    Computes named (do
      match (← get).get? key with
      | some c => return c
      | none => Registry.cache key (← m)) (t.construct named) := by
  have hb := hm.bind fun c hc => .cache ht hc
  have hok : (t.construct named).bind .ok = t.construct named := by
    cases t.construct named <;> rfl
  rw [hok] at hb
  exact .lookup (fun r c h hc => h.eq_of_entry ht hc) fun r h _ => hb r h

theorem Computes.cached {t : Term} {make : String → Registering Checker}
    (ht : Canonical .alternation false t)
    (hm : Computes named (make t.text) (t.construct named)) :
    Computes named (cached t make) (t.construct named) :=
  .kept (parse_text ht) hm

mutual

theorem computes_compile : ∀ {t : Term}, Canonical .alternation false t →
    Computes named (compile t) (t.construct named)
  | .name n, ht => computes_named ht.isName
  | .group t, ht => computes_compile (t := t) (ht.child (by simp [Term.children]))
  | .allOf ts, ht => .cached ht (.map (computes_compileAll fun t h => ht.child h) _)
  | .anyOf ts, ht => .cached ht (.map (computes_compileAll fun t h => ht.child h) _)
  | .tuple ts, ht => .cached ht (.map (computes_compileAll fun t h => ht.child h) _)
  | .array t, ht => .cached ht (.map (computes_compile (ht.child (by simp [Term.children]))) _)
  | .object t, ht => .cached ht (.map (computes_compile (ht.child (by simp [Term.children]))) _)
  | .entries k t, ht =>
    .cached ht ((computes_compile (ht.child (u := t) (by simp [Term.children]))).bind fun _ _ =>
      .map (computes_compile (ht.child (u := k) (by simp [Term.children]))) _)
  | .inverted t, ht => .cached ht (.map (computes_compile (ht.child (by simp [Term.children]))) _)
  | .nonEmpty t, ht => .cached ht (.map (computes_compile (ht.child (by simp [Term.children]))) _)
  | .optional t, ht => .cached ht (.map (computes_compile (ht.child (by simp [Term.children]))) _)
  | .sized t range, ht =>
    .cached ht (.map (computes_compile (ht.child (by simp [Term.children]))) _)

theorem computes_compileAll : ∀ {ts : List Term}, (∀ t ∈ ts, Canonical .alternation false t) →
    Computes named (compileAll ts) (Term.constructs named ts)
  | [], _ => .pure []
  | t :: ts, h => by
    rw [List.forall_mem_cons] at h
    exact (computes_compile h.1).bind fun c _ => .map (computes_compileAll h.2) _

end

def outcome (named : String → Option Checker) (source : String) : Except ConfigError Checker :=
  match parse source with
  | .ok t => t.construct named
  | .error e => .error (.malformed source e)

theorem computes_getOrCompile (source : String) :
    Computes named (getOrCompile source) (outcome named source) := by
  rw [getOrCompile, outcome]
  cases hs : parse source with
  | ok t => exact .kept hs (computes_compile (canonical_of_parse hs))
  | error e =>
    refine .lookup (fun r c h hc => ?_) fun r h _ => ⟨h, rfl⟩
    obtain ⟨t, ht, -⟩ := h.entry hc
    exact absurd (hs.symm.trans ht) (by simp)

theorem outcome_eq_ok {source : String} {c : Checker} : outcome named source = .ok c ↔
    ∃ t, parse source = .ok t ∧ t.build named = some c := by
  rw [outcome]
  cases parse source with
  | ok t => simp [Term.construct_eq_ok]
  | error e => simp

theorem Coherent.getOrCompile_eq_ok {r : Registry} (h : Coherent named r) {source : String}
    {c : Checker} : (getOrCompile source r).1 = .ok c ↔
      ∃ t, parse source = .ok t ∧ t.build named = some c := by
  rw [(computes_getOrCompile source r h).2, outcome_eq_ok]

end ValueCheck.Registry
