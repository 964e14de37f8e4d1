import ValueCheck.Proofs.Checker.Reachability

/-! How registries grow. An entry stays as it is, and a compilation adds keys for the
parts of its term only: for all of them where it succeeds, and where it fails for some
whose names all stand for checkers. -/

namespace ValueCheck

namespace Grammar.Term

variable {named : String → Option Checker} {t u : Term}

def isDerived : Term → Bool
  | name _ | group _ => false
  | _ => true

def bare : Term → Term
  | group t => t.bare
  | t => t

def Known (named : String → Option Checker) (t : Term) : Prop :=
  ∀ n ∈ t.names, (named n).isSome = true

mutual

/-- The names in the order in which they are looked up: the value of an entry before its key. -/
def lookups : Term → List String
  | name n => [n]
  | allOf ts | anyOf ts | tuple ts => lookupsOf ts
  | entries k v => v.lookups ++ k.lookups
  | group t | array t | object t | inverted t | nonEmpty t | optional t | sized t _ => t.lookups

def lookupsOf : List Term → List String
  | [] => []
  | t :: ts => t.lookups ++ lookupsOf ts

end

def firstUnknown? (named : String → Option Checker) (ns : List String) : Option String :=
  ns.find? fun n => (named n).isNone

theorem namesOf_eq (ts : List Term) : namesOf ts = ts.flatMap names := by
  induction ts with
  | nil => rfl
  | cons t ts ih => rw [namesOf, ih, List.flatMap_cons]

theorem names_subset_of_child (hu : u ∈ t.children) : u.names ⊆ t.names := by
  cases t with
  | name n => cases hu
  | allOf ts | anyOf ts | tuple ts =>
    rw [names, namesOf_eq]
    exact fun n hn => List.mem_flatMap.2 ⟨u, hu, hn⟩
  | entries k v =>
    rw [names]
    rcases List.mem_pair.1 hu with rfl | rfl
    · exact List.subset_append_left _ _
    · exact List.subset_append_right _ _
  | group t | array t | object t | inverted t | nonEmpty t | optional t | sized t r =>
    obtain rfl := List.mem_singleton.1 hu
    exact List.Subset.refl _

theorem isPart_iff : u.IsPart t ↔ u = t ∨ ∃ c ∈ t.children, u.IsPart c := by
  rw [IsPart, Relation.ReflTransGen.cases_head_iff, eq_comm]
  rfl

theorem IsPart.of_child {c : Term} (hc : c ∈ t.children) (hu : u.IsPart c) : u.IsPart t :=
  isPart_iff.2 (.inr ⟨c, hc, hu⟩)

theorem isPart_bare (t : Term) : t.bare.IsPart t := by
  induction t using bare.induct with
  | case1 t ih => exact .of_child (List.mem_singleton_self t) ih
  | case2 t hg =>
    rw [bare.eq_2 t hg]
    exact .refl

theorem build_bare (t : Term) : t.bare.build named = t.build named := by
  induction t using bare.induct with
  | case1 t ih => exact ih
  | case2 t hg => rw [bare.eq_2 t hg]

theorem known_of_construct {c : Checker} (h : t.construct named = .ok c) : t.Known named := by
  apply (isSome_build t).1
  rw [construct_eq_ok.1 h]
  rfl

def FailsAt {α : Type} (x : Except ConfigError α) : Option String → Prop
  | some n => x = .error (.unknownChecker n)
  | none => ∃ a, x = .ok a

section FailsAt

variable {α β : Type} {x : Except ConfigError α} {n : Option String}

theorem FailsAt.map (h : FailsAt x n) (f : α → β) : FailsAt (x.map f) n := by
  cases n with
  | some n =>
    rw [FailsAt] at h ⊢
    rw [h]
    rfl
  | none =>
    obtain ⟨a, rfl⟩ := h
    exact ⟨f a, rfl⟩

theorem FailsAt.bind {f : α → Except ConfigError β} {m : Option String} (h : FailsAt x n)
    (hf : ∀ a, FailsAt (f a) m) : FailsAt (x.bind f) (n.or m) := by
  cases n with
  | some n =>
    rw [FailsAt] at h
    rw [h]
    rfl
  | none =>
    obtain ⟨a, rfl⟩ := h
    exact hf a

end FailsAt

theorem firstUnknown?_append (ns ms : List String) :
    firstUnknown? named (ns ++ ms) = (firstUnknown? named ns).or (firstUnknown? named ms) :=
  List.find?_append

mutual

theorem construct_failsAt : ∀ t : Term,
    FailsAt (t.construct named) (firstUnknown? named t.lookups)
  | name n => by
    rw [construct, lookups, firstUnknown?, List.find?_singleton]
    cases named n with
    | some c => exact ⟨c, rfl⟩
    | none => exact rfl
  | group t => construct_failsAt t
  | allOf ts | anyOf ts | tuple ts => (constructs_failsAt ts).map _
  | array t | object t | inverted t | nonEmpty t | optional t | sized t _ =>
    (construct_failsAt t).map _
  | entries k t => by
    rw [construct, lookups, firstUnknown?_append]
    exact (construct_failsAt t).bind fun _ => (construct_failsAt k).map _

theorem constructs_failsAt : ∀ ts : List Term,
    FailsAt (constructs named ts) (firstUnknown? named (lookupsOf ts))
  | [] => ⟨[], rfl⟩
  | t :: ts => by
    rw [constructs, lookupsOf, firstUnknown?_append]
    exact (construct_failsAt t).bind fun _ => (constructs_failsAt ts).map _

end

theorem construct_eq_error {e : ConfigError} (h : t.construct named = .error e) :
    ∃ n, firstUnknown? named t.lookups = some n ∧ e = .unknownChecker n := by
  have hf : FailsAt (t.construct named) (firstUnknown? named t.lookups) := construct_failsAt t
  rw [h] at hf
  cases hn : firstUnknown? named t.lookups with
  | some n =>
    rw [hn] at hf
    exact ⟨n, rfl, Except.error.inj hf⟩
  | none =>
    rw [hn] at hf
    obtain ⟨c, hc⟩ := hf
    cases hc

end Grammar.Term

namespace Registry

open Grammar (Term Canonical parse parse_text canonical_of_parse)

def Grows (r r' : Registry) : Prop := ∀ key c, r.get? key = some c → r'.get? key = some c

def Closed (r : Registry) : Prop :=
  ∀ key t, r.contains key = true → parse key = .ok t →
    ∀ u : Term, u.IsPart t → u.isDerived = true → r.contains u.text = true

variable {r r' r'' : Registry} {key : String} {named : String → Option Checker} {t u : Term}

theorem Grows.refl (r : Registry) : Grows r r := fun _ _ h => h

theorem Grows.trans (h : Grows r r') (h' : Grows r' r'') : Grows r r'' :=
  fun key c hc => h' key c (h key c hc)

theorem contains_iff : r.contains key = true ↔ ∃ c, r.get? key = some c :=
  Option.isSome_iff_exists

theorem get?_eq_none : r.get? key = none ↔ r.contains key = false := by
  simp [contains, Keyed.contains, get?]

theorem Grows.contains (h : Grows r r') (hk : r.contains key = true) : r'.contains key = true := by
  obtain ⟨c, hc⟩ := contains_iff.1 hk
  exact contains_iff.2 ⟨c, h key c hc⟩

theorem grows_insertIfNew (r : Registry) (key : String) (c : Checker) :
    Grows r ⟨r.checkers.insertIfNew key c⟩ := by
  intro k d hd
  by_cases hk : k = key
  · subst hk
    refine (r.checkers.get?_insertIfNew_self k c).trans ?_
    rw [show r.checkers.get? k = some d from hd, Option.getD_some]
  · exact (r.checkers.get?_insertIfNew_ne c hk).trans hd

theorem contains_insertIfNew {other : String} {c : Checker} :
    (⟨r.checkers.insertIfNew key c⟩ : Registry).contains other = true ↔
      other = key ∨ r.contains other = true := by
  by_cases hk : other = key
  · subst hk
    have hs := r.checkers.get?_insertIfNew_self other c
    simp [contains, Keyed.contains, hs]
  · have hs := r.checkers.get?_insertIfNew_ne c hk
    simp [contains, Keyed.contains, hs, hk]

theorem Closed.insertIfNew (h : Closed r) {c : Checker} (ht : parse key = .ok t)
    (hp : ∀ u : Term, u.IsPart t → u.isDerived = true → u.text = key ∨ r.contains u.text = true) :
    Closed ⟨r.checkers.insertIfNew key c⟩ := by
  intro k s hk hs u hu hd
  apply contains_insertIfNew.2
  rcases contains_insertIfNew.1 hk with rfl | hk
  · obtain rfl := Except.ok.inj (ht.symm.trans hs)
    exact hp u hu hd
  · exact .inr (h k s hk hs u hu hd)

def DerivedPart (t u : Term) : Prop := u.IsPart t ∧ u.isDerived = true

/-- From registry to registry, nothing is added but keys of known terms among the given
ones, and all of these where the result is no error. -/
structure Added {ε α : Type} (named : String → Option Checker) (terms : Term → Prop)
    (r : Registry) (result : Except ε α) (r' : Registry) : Prop where
  grows : Grows r r'
  closed : Closed r'
  known {key : String} (hk : r'.contains key = true) :
    r.contains key = true ∨ ∃ u, terms u ∧ u.Known named ∧ u.text = key
  complete {a : α} (ha : result = .ok a) (u : Term) (hu : terms u) : r'.contains u.text = true

def Adds {ε α : Type} (named : String → Option Checker) (m : ExceptT ε (StateM Registry) α)
    (terms : Term → Prop) : Prop :=
  ∀ r, Coherent named r → Closed r → Added named terms r (m r).1 (m r).2

section Adds

variable {ε α β : Type} {m : ExceptT ε (StateM Registry) α} {p q : Term → Prop}

theorem Added.refl {result : Except ε α} (h : Closed r)
    (hp : ∀ a u, result = .ok a → p u → r.contains u.text = true) :
    Added named p r result r where
  grows := .refl r
  closed := h
  known := .inl
  complete ha u hu := hp _ u ha hu

theorem Adds.pure (a : α) :
    Adds named (pure a : ExceptT ε (StateM Registry) α) fun _ => False :=
  fun _ _ h => .refl h fun _ _ _ hu => hu.elim

theorem Adds.imp (h : Adds named m p) (hpq : ∀ u, p u ↔ q u) : Adds named m q := by
  intro r hr hc
  have ha := h r hr hc
  refine ⟨ha.grows, ha.closed, ?_, fun hok u hu => ha.complete hok u ((hpq u).2 hu)⟩
  intro key hk
  rcases ha.known hk with hk | ⟨u, hu, hk⟩
  · exact .inl hk
  · exact .inr ⟨u, (hpq u).1 hu, hk⟩

theorem Adds.bind {f : α → ExceptT ε (StateM Registry) β} {x : Except ε α}
    (hx : Computes named m x) (hm : Adds named m p) (hf : ∀ a, x = .ok a → Adds named (f a) q) :
    Adds named (m >>= f) fun u => p u ∨ q u := by
  intro r hr hc
  have ha := hm r hr hc
  obtain ⟨hr', hx⟩ := hx r hr
  rw [bind_apply]
  cases hmr : m r with
  | mk result r' =>
    rw [hmr] at ha hr' hx
    obtain rfl : result = x := hx
    have hknown {key : String} (hk : r'.contains key = true) :
        r.contains key = true ∨ ∃ u, (p u ∨ q u) ∧ u.Known named ∧ u.text = key := by
      rcases ha.known hk with hk | ⟨u, hu, hk⟩
      · exact .inl hk
      · exact .inr ⟨u, .inl hu, hk⟩
    cases result with
    | error e => exact ⟨ha.grows, ha.closed, hknown, fun he => by cases he⟩
    | ok a =>
      have hb := hf a rfl r' hr' ha.closed
      refine ⟨ha.grows.trans hb.grows, hb.closed, ?_, ?_⟩
      · intro key hk
        rcases hb.known hk with hk | ⟨u, hu, hk⟩
        · exact hknown hk
        · exact .inr ⟨u, .inr hu, hk⟩
      · intro b hok u hu
        rcases hu with hu | hu
        · exact hb.grows.contains (ha.complete rfl u hu)
        · exact hb.complete hok u hu

theorem Adds.map {x : Except ε α} (hx : Computes named m x) (hm : Adds named m p) (f : α → β) :
    Adds named (do return f (← m)) p :=
  (Adds.bind hx hm fun a _ => .pure (f a)).imp fun _ => by rw [or_false]

end Adds

theorem adds_named (n : String) : Adds named (Registry.named n) (DerivedPart (.name n)) := by
  intro r _ h
  have hr : (Registry.named n r).2 = r := by
    rw [Registry.named, get_bind_apply]
    cases r.get? n <;> rfl
  rw [hr]
  refine .refl h fun _ u _ hu => ?_
  rcases Term.isPart_iff.1 hu.1 with rfl | ⟨c, hc, -⟩
  · cases hu.2
  · cases hc

def PartOfAny (ts : List Term) (u : Term) : Prop := ∃ t ∈ ts, DerivedPart t u

theorem DerivedPart.eq_or_below (h : DerivedPart t u) : u = t ∨ PartOfAny t.children u := by
  rcases Term.isPart_iff.1 h.1 with rfl | ⟨c, hc, hu⟩
  · exact .inl rfl
  · exact .inr ⟨c, hc, hu, h.2⟩

theorem PartOfAny.part (h : PartOfAny t.children u) : DerivedPart t u := by
  obtain ⟨c, hc, hu⟩ := h
  exact ⟨.of_child hc hu.1, hu.2⟩

theorem bind_cache_apply (key : String) (m : Registering Checker) (r : Registry) :
    (m >>= fun c => Registry.cache key c : Registering Checker) r =
      match m r with
      | (.ok c, r') => (.ok ((r'.get? key).getD c), ⟨r'.checkers.insertIfNew key c⟩)
      | (.error e, r') => (.error e, r') := by
  rw [bind_apply]
  cases m r with
  | mk result r' => cases result <;> rfl

theorem Added.cached {r' : Registry} (ht : Canonical .alternation false t)
    (hd : t.isDerived = true)
    (ha : Added named (PartOfAny t.children) r (t.construct named) r') :
    match t.construct named with
    | .ok c => Added (ε := ConfigError) named (DerivedPart t) r (.ok ((r'.get? t.text).getD c))
        ⟨r'.checkers.insertIfNew t.text c⟩
    | .error e => Added (α := Checker) named (DerivedPart t) r (.error e) r' := by
  have hknown {key : String} (hk : r'.contains key = true) :
      r.contains key = true ∨ ∃ u, DerivedPart t u ∧ u.Known named ∧ u.text = key := by
    rcases ha.known hk with hk | ⟨u, hu, hk⟩
    · exact .inl hk
    · exact .inr ⟨u, hu.part, hk⟩
  cases hcon : t.construct named with
  | error e => exact ⟨ha.grows, ha.closed, hknown, fun he => by cases he⟩
  | ok c =>
    have hin (u : Term) (hu : DerivedPart t u) :
        u.text = t.text ∨ r'.contains u.text = true := by
      rcases hu.eq_or_below with rfl | hu
      · exact .inl rfl
      · exact .inr (ha.complete hcon u hu)
    refine ⟨ha.grows.trans (grows_insertIfNew r' t.text c),
      ha.closed.insertIfNew (parse_text ht) fun u hu hd => hin u ⟨hu, hd⟩, ?_, ?_⟩
    · intro key hk
      rcases contains_insertIfNew.1 hk with rfl | hk
      · exact .inr ⟨t, ⟨.refl, hd⟩, Term.known_of_construct hcon, rfl⟩
      · exact hknown hk
    · exact fun _ u hu => contains_insertIfNew.2 (hin u hu)

theorem adds_cached {make : String → Registering Checker} (ht : Canonical .alternation false t)
    (hd : t.isDerived = true) (hx : Computes named (make t.text) (t.construct named))
    (hm : Adds named (make t.text) (PartOfAny t.children)) :
    Adds named (cached t make) (DerivedPart t) := by
  intro r hr hc
  rw [cached, get_bind_apply]
  cases hg : r.get? t.text with
  | some c =>
    refine .refl hc fun _ u _ hu => ?_
    exact hc t.text t (contains_iff.2 ⟨c, hg⟩) (parse_text ht) u hu.1 hu.2
  | none =>
    have ha := hm r hr hc
    obtain ⟨-, hx⟩ := hx r hr
    change Added named _ r ((make t.text >>= fun c => Registry.cache t.text c) r).1
      ((make t.text >>= fun c => Registry.cache t.text c) r).2
    rw [bind_cache_apply]
    cases hmr : make t.text r with
    | mk result r' =>
      rw [hmr] at ha hx
      obtain rfl : result = t.construct named := hx
      have hcached := ha.cached ht hd
      cases hcon : t.construct named <;> rwa [hcon] at hcached

theorem Adds.single {α : Type} {m : Registering α} (h : Adds named m (DerivedPart t)) :
    Adds named m (PartOfAny [t]) :=
  h.imp fun u => by simp [PartOfAny]

mutual

theorem adds_compile : ∀ {t : Term}, Canonical .alternation false t →
    Adds named (compile t) (DerivedPart t)
  | .name n, _ => adds_named n
  | .group t, ht => by
    refine (adds_compile (t := t) (ht.child (by simp [Term.children]))).imp fun u => ?_
    constructor
    · exact fun hu => ⟨.of_child (by simp [Term.children]) hu.1, hu.2⟩
    · intro hu
      rcases hu.eq_or_below with rfl | ⟨c, hc, hp⟩
      · cases hu.2
      · obtain rfl := List.mem_singleton.1 hc
        exact hp
  | .allOf ts, ht | .anyOf ts, ht | .tuple ts, ht =>
    have hc := fun t h => ht.child (u := t) h
    adds_cached ht rfl (.map (computes_compileAll hc) _)
      (.map (computes_compileAll hc) (adds_compileAll hc) _)
  | .array t, ht | .object t, ht | .inverted t, ht | .nonEmpty t, ht | .optional t, ht
  | .sized t _, ht =>
    have hc := ht.child (u := t) (by simp [Term.children])
    adds_cached ht rfl (.map (computes_compile hc) _)
      (.map (computes_compile hc) (adds_compile hc).single _)
  | .entries k t, ht => by
    have hk := ht.child (u := k) (by simp [Term.children])
    have hv := ht.child (u := t) (by simp [Term.children])
    apply adds_cached ht rfl
    · exact (computes_compile hv).bind fun _ _ => .map (computes_compile hk) _
    · refine (Adds.bind (computes_compile hv) (adds_compile hv) fun _ _ =>
        .map (computes_compile hk) (adds_compile hk) _).imp fun u => ?_
      simp [PartOfAny, Term.children, or_comm]

theorem adds_compileAll : ∀ {ts : List Term}, (∀ t ∈ ts, Canonical .alternation false t) →
    Adds named (compileAll ts) (PartOfAny ts)
  | [], _ => (Adds.pure []).imp fun u => by simp [PartOfAny]
  | t :: ts, h => by
    rw [List.forall_mem_cons] at h
    refine (Adds.bind (computes_compile h.1) (adds_compile h.1) fun _ _ =>
      .map (computes_compileAll h.2) (adds_compileAll h.2) _).imp fun u => ?_
    simp [PartOfAny]

end

theorem getOrCompile_of_get? {source : String} {c : Checker} (h : r.get? source = some c) :
    getOrCompile source r = (.ok c, r) := by
  rw [getOrCompile, get_bind_apply, h]
  rfl

theorem getOrCompile_malformed {source : String} {e : Grammar.GrammarError}
    (h : r.get? source = none) (he : parse source = .error e) :
    getOrCompile source r = (.error (.malformed source e), r) := by
  rw [getOrCompile, get_bind_apply, h, he]
  rfl

theorem getOrCompile_new {source : String} (h : r.get? source = none) (ht : parse source = .ok t) :
    getOrCompile source r =
      match compile t r with
      | (.ok c, r') => (.ok ((r'.get? source).getD c), ⟨r'.checkers.insertIfNew source c⟩)
      | (.error e, r') => (.error e, r') := by
  rw [getOrCompile, get_bind_apply, h, ht]
  exact bind_cache_apply source (compile t) r

theorem grows_getOrCompile (hr : Coherent named r) (hc : Closed r) (source : String) :
    Grows r (getOrCompile source r).2 ∧ Closed (getOrCompile source r).2 := by
  cases hg : r.get? source with
  | some c =>
    rw [getOrCompile_of_get? hg]
    exact ⟨.refl r, hc⟩
  | none =>
    cases ht : parse source with
    | error e =>
      rw [getOrCompile_malformed hg ht]
      exact ⟨.refl r, hc⟩
    | ok t =>
      have ha := adds_compile (canonical_of_parse ht) r hr hc
      rw [getOrCompile_new hg ht]
      cases hm : compile t r with
      | mk result r' =>
        rw [hm] at ha
        cases result with
        | error e => exact ⟨ha.grows, ha.closed⟩
        | ok c =>
          refine ⟨ha.grows.trans (grows_insertIfNew r' source c),
            ha.closed.insertIfNew ht fun u hu hd => .inr (ha.complete rfl u ⟨hu, hd⟩)⟩

theorem closed_of_names (h : ∀ key, r.contains key = true → parse key = .ok (.name key)) :
    Closed r := by
  intro key t hk ht u hu hd
  obtain rfl := Except.ok.inj ((h key hk).symm.trans ht)
  rcases Term.isPart_iff.1 hu with rfl | ⟨c, hc, -⟩
  · cases hd
  · cases hc

theorem closed_builtin : Closed builtin := by
  apply closed_of_names
  intro key hk
  exact parse_name (coherent_builtin.isName hk)

theorem Closed.registered (h : Closed r) {name : String} (hn : Grammar.IsName name.toList)
    (c : Checker) : Closed ⟨r.checkers.insertIfNew name c⟩ := by
  apply h.insertIfNew (parse_name hn)
  intro u hu hd
  rcases Term.isPart_iff.1 hu with rfl | ⟨c, hc, -⟩
  · cases hd
  · cases hc

theorem Reachable.closed (h : Reachable r named) : Closed r := by
  induction h with
  | start => exact closed_builtin
  | registered _ hc ih =>
    obtain ⟨hn, -, hr⟩ := register_ok hc
    rw [hr]
    exact ih.registered (isName_of_kebab hn) _
  | refused _ he ih => rwa [register_error he]
  | compiled h source ih => exact (grows_getOrCompile h.coherent ih source).2

theorem text_ne_source {source : String} (ht : parse source = .ok t) (hu : u.IsPart t)
    (hne : u ≠ t) : u.text ≠ source := by
  rintro rfl
  have hp := parse_text ((canonical_of_parse ht).part hu)
  exact hne (Except.ok.inj (hp.symm.trans ht))

section Source

variable {source : String}

theorem contains_getOrCompile (h : Reachable r named) (hg : r.get? source = none)
    (ht : parse source = .ok t) {c : Checker} (hc : (getOrCompile source r).1 = .ok c) :
    (getOrCompile source r).2.contains key = true ↔
      r.contains key = true ∨ key = source ∨ ∃ u, DerivedPart t u ∧ u.text = key := by
  have ha := adds_compile (canonical_of_parse ht) r h.coherent h.closed
  rw [getOrCompile_new hg ht] at hc ⊢
  cases hm : compile t r with
  | mk result r' =>
    rw [hm] at ha hc
    cases result with
    | error e => cases hc
    | ok d =>
      rw [contains_insertIfNew]
      constructor
      · rintro (rfl | hk)
        · exact .inr (.inl rfl)
        · rcases ha.known hk with hk | ⟨u, hu, -, hk⟩
          · exact .inl hk
          · exact .inr (.inr ⟨u, hu, hk⟩)
      · rintro (hk | rfl | ⟨u, hu, rfl⟩)
        · exact .inr (ha.grows.contains hk)
        · exact .inl rfl
        · exact .inr (ha.complete rfl u hu)

theorem known_of_getOrCompile (h : Reachable r named) (hg : r.get? source = none)
    (ht : parse source = .ok t) {e : ConfigError} (he : (getOrCompile source r).1 = .error e)
    (hk : (getOrCompile source r).2.contains key = true) :
    r.contains key = true ∨
      ∃ u, DerivedPart t u ∧ u ≠ t ∧ u.Known named ∧ u.text = key := by
  have ha := adds_compile (canonical_of_parse ht) r h.coherent h.closed
  have hx := (computes_compile (canonical_of_parse ht) r h.coherent).2
  rw [getOrCompile_new hg ht] at he hk
  cases hm : compile t r with
  | mk result r' =>
    rw [hm] at ha hx he hk
    cases result with
    | ok c => cases he
    | error e' =>
      rcases ha.known hk with hk | ⟨u, hu, hn, hk⟩
      · exact .inl hk
      · refine .inr ⟨u, hu, ?_, hn, hk⟩
        -- The whole term is not known, as its construction fails.
        rintro rfl
        obtain ⟨c, hc⟩ := Option.isSome_iff_exists.1 ((Term.isSome_build u).2 hn)
        rw [Term.construct_eq_ok.2 hc] at hx
        cases hx

theorem unknown_of_getOrCompile (h : Reachable r named) (ht : parse source = .ok t)
    {e : ConfigError} (he : (getOrCompile source r).1 = .error e) :
    ∃ n, Term.firstUnknown? named t.lookups = some n ∧ e = .unknownChecker n := by
  rw [(computes_getOrCompile source r h.coherent).2, outcome, ht] at he
  exact Term.construct_eq_error he

theorem getOrCompile_keys (h : Reachable r named) (hs : r.contains source = false) :
    (∀ c, (getOrCompile source r).1 = .ok c →
      ∃ t, parse source = .ok t ∧ ∀ key, (getOrCompile source r).2.contains key = true ↔
        r.contains key = true ∨ key = source ∨
          ∃ u : Term, u.IsPart t ∧ u.isDerived = true ∧ u.text = key) ∧
    (∀ e, parse source = .error e →
      getOrCompile source r = (.error (.malformed source e), r)) ∧
    ∀ e t, parse source = .ok t → (getOrCompile source r).1 = .error e →
      (∃ n, t.lookups.find? (fun n => (named n).isNone) = some n ∧ e = .unknownChecker n) ∧
      (getOrCompile source r).2.contains source = false ∧
      (∀ key c, r.get? key = some c → (getOrCompile source r).2.get? key = some c) ∧
      ∀ key, (getOrCompile source r).2.contains key = true → r.contains key = true ∨
        ∃ u : Term, u.IsPart t ∧ u ≠ t ∧ u.isDerived = true ∧
          (∀ n ∈ u.names, (named n).isSome = true) ∧ u.text = key := by
  have hg : r.get? source = none := get?_eq_none.2 hs
  refine ⟨?_, fun e he => getOrCompile_malformed hg he, ?_⟩
  · intro c hc
    obtain ⟨t, ht, -⟩ := h.coherent.getOrCompile_eq_ok.1 hc
    refine ⟨t, ht, fun key => ?_⟩
    simpa only [DerivedPart, and_assoc] using contains_getOrCompile h hg ht hc
  · intro e t ht he
    refine ⟨unknown_of_getOrCompile h ht he, ?_, (grows_getOrCompile h.coherent h.closed source).1,
      ?_⟩
    · by_contra hin
      rcases known_of_getOrCompile h hg ht he (eq_true_of_ne_false hin) with
        hk | ⟨u, hu, hne, -, hk⟩
      · rw [hs] at hk
        cases hk
      · exact text_ne_source ht hu.1 hne hk
    · intro key hk
      rcases known_of_getOrCompile h hg ht he hk with hk | ⟨u, hu, hne, hn, hk⟩
      · exact .inl hk
      · exact .inr ⟨u, hu.1, hne, hu.2, hn, hk⟩

theorem getOrCompile_keys_missing :
    Reachable used usedNames ∧ used.contains "positive+" = true ∧
      used.contains "[(positive+)[],missing]" = false ∧
      (getOrCompile "[(positive+)[],missing]" used).1 = .error (.unknownChecker "missing") ∧
      (getOrCompile "[(positive+)[],missing]" used).2.contains "[(positive+)[],missing]" =
        false := by
  have hs : used.contains "[(positive+)[],missing]" = false := by decide +kernel
  have ht : parse "[(positive+)[],missing]" =
      .ok (.tuple [.array (.group (.nonEmpty (.name "positive"))), .name "missing"]) := by
    decide +kernel
  have he : (getOrCompile "[(positive+)[],missing]" used).1 =
      .error (.unknownChecker "missing") := by
    rw [(computes_getOrCompile _ used reachable_used.coherent).2, outcome, ht]
    rfl
  exact ⟨reachable_used, by decide +kernel, hs, he,
    ((getOrCompile_keys reachable_used hs).2.2 _ _ ht he).2.1⟩

end Source

end Registry

end ValueCheck
