import ValueCheck.Proofs.Checker.Growth
import ValueCheck.Proofs.Matching.Correctness

/-! Terms as schemas. Arrays, tuples and objects can be written in type strings and as
nodes, and a value passes the one exactly where it passes the other. -/

namespace ValueCheck

open Relation
open Grammar (Term Canonical parse parse_text canonical_of_parse)
open Registry (Coherent Reachable)

def Shape.ofMarkers (keys values : Option Schema) : Shape := ⟨.empty, none, keys, values⟩

namespace Grammar.Term

mutual

def translate : Term → StateM SchemaStore Schema
  | group t => t.translate
  | array t => do Schema.newList [← t.translate]
  | tuple ts => do
    if 2 ≤ ts.length then Schema.newList (← translateAll ts)
    else return .typeString (tuple ts).text
  | object t => do Schema.newShape (.ofMarkers none (← t.translate))
  | entries k t => do
    let keys ← k.translate
    let values ← t.translate
    Schema.newShape (.ofMarkers keys values)
  | t => return .typeString t.text

def translateAll : List Term → StateM SchemaStore (List Schema)
  | [] => return []
  | t :: ts => return (← t.translate) :: (← translateAll ts)

end

variable (named : String → Option Checker) (w : World)

mutual

def ExactTuples : Term → Prop
  | group t | array t | object t => t.ExactTuples
  | entries k t => k.ExactTuples ∧ t.ExactTuples
  | tuple ts =>
    2 ≤ ts.length → (∀ t ∈ ts.getLast?, ¬ t.meaning named w .undefined) ∧ AllExactTuples ts
  | _ => True

def AllExactTuples : List Term → Prop
  | [] => True
  | t :: ts => t.ExactTuples ∧ AllExactTuples ts

end

structure Compiles (t : Term) : Prop where
  canonical : Canonical .alternation false t
  known : ∀ n ∈ t.names, (named n).isSome = true

variable {named w} {t u : Term}

theorem meanings_eq (ts : List Term) : meanings named w ts = ts.map (meaning named w) := by
  induction ts with
  | nil => rfl
  | cons t ts ih => rw [meanings, ih, List.map_cons]

theorem allExactTuples_iff (ts : List Term) :
    AllExactTuples named w ts ↔ ∀ t ∈ ts, t.ExactTuples named w := by
  induction ts with
  | nil => simp [AllExactTuples]
  | cons t ts ih => rw [AllExactTuples, ih, List.forall_mem_cons]

theorem Compiles.child (h : t.Compiles named) (hu : u ∈ t.children) : u.Compiles named where
  canonical := h.canonical.child hu
  known n hn := h.known n (names_subset_of_child hu hn)

theorem Compiles.exists_checker (h : t.Compiles named) {r : Registry} (hr : Coherent named r) :
    ∃ c, (Registry.getOrCompile t.text r).1 = .ok c ∧ Decides w c (t.meaning named w) := by
  obtain ⟨c, hb⟩ := Option.isSome_iff_exists.1 ((isSome_build t).2 h.known)
  exact ⟨c, hr.getOrCompile_eq_ok.2 ⟨t, parse_text h.canonical, hb⟩, decides_build hb⟩

end Grammar.Term

def SchemaStore.Extends (store store' : SchemaStore) : Prop :=
  ∀ id, store.node id ≠ .list [] → store'.node id = store.node id

namespace SchemaStore.Extends

variable {a b c : SchemaStore}

theorem refl (a : SchemaStore) : a.Extends a := fun _ _ => rfl

theorem trans (h : a.Extends b) (h' : b.Extends c) : a.Extends c := by
  intro id hid
  have hb := h id hid
  rw [h' id (by rwa [hb]), hb]

theorem add (a : SchemaStore) (n : SchemaNode) : a.Extends (SchemaStore.add n a).2 :=
  fun _ hid => a.node_add_of_ne n hid

end SchemaStore.Extends

/-- What the schema says in the store is what the term says, container by container. -/
inductive Translates (store : SchemaStore) : Term → Schema → Prop where
  | text (t : Term) : Translates store t (.typeString t.text)
  | group {t : Term} {s : Schema} (h : Translates store t s) : Translates store (.group t) s
  | array {t : Term} {id : NodeId} {s : Schema} (hs : store.node id = .list [s])
      (h : Translates store t s) : Translates store (.array t) (.node id)
  | tuple {ts : List Term} {id : NodeId} {ss : List Schema} (hs : store.node id = .list ss)
      (h2 : 2 ≤ ts.length) (hl : ts.length = ss.length)
      (h : ∀ (i : Nat) (t : Term) (s : Schema), ts[i]? = some t → ss[i]? = some s →
        Translates store t s) : Translates store (.tuple ts) (.node id)
  | object {t : Term} {id : NodeId} {s : Schema}
      (hs : store.node id = .shape (.ofMarkers none s)) (h : Translates store t s) :
      Translates store (.object t) (.node id)
  | entries {k t : Term} {id : NodeId} {q s : Schema}
      (hs : store.node id = .shape (.ofMarkers q s))
      (hk : Translates store k q) (h : Translates store t s) :
      Translates store (.entries k t) (.node id)

namespace Translates

variable {store store' : SchemaStore} {t : Term} {s : Schema}

theorem list_ne_nil {ts : List Term} {ss : List Schema} (h2 : 2 ≤ ts.length)
    (hl : ts.length = ss.length) : SchemaNode.list ss ≠ .list [] := by
  rintro ⟨⟩
  rw [hl] at h2
  simp at h2

theorem extend (he : store.Extends store') (h : Translates store t s) :
    Translates store' t s := by
  induction h with
  | text t => exact .text t
  | group _ ih => exact .group ih
  | array hs _ ih => exact .array ((he _ (by simp [hs])).trans hs) ih
  | tuple hs h2 hl _ ih => exact .tuple ((he _ (hs ▸ list_ne_nil h2 hl)).trans hs) h2 hl ih
  | object hs _ ih => exact .object ((he _ (by simp [hs])).trans hs) ih
  | entries hs _ _ ihk ih => exact .entries ((he _ (by simp [hs])).trans hs) ihk ih

theorem child {u : Schema} {named : String → Option Checker} (h : Translates store t s)
    (ht : t.Compiles named) (hu : Schema.Child store s u) :
    ∃ t' : Term, sizeOf t' < sizeOf t ∧ t'.Compiles named ∧ Translates store t' u := by
  rw [Schema.Child] at hu
  induction h with
  | text t => simp [Schema.children] at hu
  | @group t s _ ih =>
    obtain ⟨t', hlt, ht', h⟩ := ih (ht.child (List.mem_singleton_self t)) hu
    exact ⟨t', by rw [Term.group.sizeOf_spec]; omega, ht', h⟩
  | @array t id s hs h _ =>
    rw [Schema.children, hs, SchemaNode.children, List.mem_singleton] at hu
    subst hu
    exact ⟨t, by simp, ht.child (List.mem_singleton_self t), h⟩
  | @tuple ts id ss hs h2 hl h _ =>
    rw [Schema.children, hs, SchemaNode.children] at hu
    obtain ⟨i, hi⟩ := List.mem_iff_getElem?.1 hu
    have hlt : i < ts.length := by
      rw [hl]
      exact (List.getElem?_eq_some_iff.1 hi).1
    have hmem : ts[i] ∈ ts := List.getElem_mem hlt
    have hsize := List.sizeOf_lt_of_mem hmem
    refine ⟨ts[i], ?_, ht.child hmem, h i _ u (List.getElem?_eq_getElem hlt) hi⟩
    rw [Term.tuple.sizeOf_spec]
    omega
  | @object t id s hs h _ =>
    obtain rfl : u = s := by simpa [Schema.children, hs, SchemaNode.children, Shape.ofMarkers,
        Keyed.values, Keyed.empty] using hu
    exact ⟨t, by simp, ht.child (List.mem_singleton_self t), h⟩
  | @entries k t id q s hs hk h _ _ =>
    have hu : u = q ∨ u = s := by
      simpa [Schema.children, hs, SchemaNode.children, Shape.ofMarkers,
        Keyed.values, Keyed.empty] using hu
    have hsize : sizeOf k < sizeOf (Term.entries k t) ∧ sizeOf t < sizeOf (Term.entries k t) := by
      rw [Term.entries.sizeOf_spec]
      omega
    rcases hu with rfl | rfl
    · exact ⟨k, hsize.1, ht.child (u := k) (by simp [Term.children]), hk⟩
    · exact ⟨t, hsize.2, ht.child (u := t) (by simp [Term.children]), h⟩

theorem reachable {u : Schema} {named : String → Option Checker} (h : Translates store t s)
    (ht : t.Compiles named) (hu : ReflTransGen (Schema.Child store) s u) :
    ∃ t' : Term, t'.Compiles named ∧ Translates store t' u := by
  induction hu with
  | refl => exact ⟨t, ht, h⟩
  | tail _ hc ih =>
    obtain ⟨t', ht', h'⟩ := ih
    obtain ⟨t'', -, ht'', h''⟩ := h'.child ht' hc
    exact ⟨t'', ht'', h''⟩

theorem smaller {u : Schema} {named : String → Option Checker} (h : Translates store t s)
    (ht : t.Compiles named) (hu : TransGen (Schema.Child store) s u) :
    ∃ t' : Term, sizeOf t' < sizeOf t ∧ t'.Compiles named ∧ Translates store t' u := by
  induction hu with
  | single hc => exact h.child ht hc
  | tail _ hc ih =>
    obtain ⟨t', hlt, ht', h'⟩ := ih
    obtain ⟨t'', hlt', ht'', h''⟩ := h'.child ht' hc
    exact ⟨t'', by omega, ht'', h''⟩

theorem not_below_itself {named : String → Option Checker} (h : Translates store t s)
    (ht : t.Compiles named) : ¬ TransGen (Schema.Child store) s s := by
  intro hs
  induction hn : sizeOf t using Nat.strong_induction_on generalizing t with
  | _ n ih =>
    obtain ⟨t', hlt, ht', h'⟩ := h.smaller ht hs
    exact ih _ (hn ▸ hlt) h' ht' rfl

theorem filled {id : NodeId} (h : Translates store t (.node id)) : store.node id ≠ .list [] := by
  generalize hs : Schema.node id = s at h
  induction h with
  | text t => cases hs
  | group _ ih => exact ih hs
  | array hn _ _ =>
    cases hs
    simp [hn]
  | tuple hn h2 hl _ _ =>
    cases hs
    exact hn ▸ list_ne_nil h2 hl
  | object hn _ _ | entries hn _ _ _ _ =>
    cases hs
    simp [hn]

theorem exists_text {named : String → Option Checker} {source : String}
    (h : Translates store t (.typeString source)) (ht : t.Compiles named) :
    ∃ t' : Term, t'.Compiles named ∧ t'.text = source := by
  generalize hs : Schema.typeString source = s at h
  induction h with
  | text t =>
    cases hs
    exact ⟨t, ht, rfl⟩
  | @group t _ _ ih => exact ih (ht.child (List.mem_singleton_self t)) hs
  | array | tuple | object | entries => cases hs

theorem wellFormed {named : String → Option Checker} {r : Registry} (hr : Coherent named r)
    (h : Translates store t s) (ht : t.Compiles named) : Schema.WellFormed store r s where
  acyclic hu := by
    obtain ⟨t', ht', h'⟩ := h.reachable ht hu
    exact h'.not_below_itself ht'
  filled hu := by
    obtain ⟨t', -, h'⟩ := h.reachable ht hu
    exact h'.filled
  compiles hu := by
    obtain ⟨t', ht', h'⟩ := h.reachable ht hu
    obtain ⟨t'', ht'', rfl⟩ := h'.exists_text ht'
    obtain ⟨c, hc, -⟩ := ht''.exists_checker (w := {}) hr
    exact ⟨c, hc⟩

variable {m : Matcher} {r : Registry} {named : String → Option Checker}

theorem conforms_text (hr : Coherent named r) (ht : t.Compiles named) (v : Value) :
    m.Conforms r (.typeString t.text) v ↔ t.meaning named m.world v := by
  obtain ⟨c, hc, hd⟩ := ht.exists_checker (w := m.world) hr
  rw [← hd v]
  constructor
  · intro h
    cases h with
    | typeString hc' h =>
      obtain rfl := Except.ok.inj (hc.symm.trans hc')
      exact h
  · exact .typeString hc

theorem forall₂_iff_items {p : Schema → Value → Prop} {q : Term → Value → Prop} {ts : List Term}
    {ss : List Schema} (hl : ts.length = ss.length) (hne : ts ≠ [])
    (hpq : ∀ (i : Nat) (t : Term) (s : Schema), ts[i]? = some t → ss[i]? = some s →
      ∀ v, p s v ↔ q t v)
    (hlast : ∀ t ∈ ts.getLast?, ¬ q t .undefined) (items : List Value) :
    (∀ (i : Nat) (s : Schema), ss[i]? = some s → p s (items[i]?.getD .undefined)) ∧
      items.length ≤ ss.length ↔ List.Forall₂ q ts items := by
  rw [List.forall₂_iff_get]
  constructor
  · rintro ⟨h, hle⟩
    have hq (i : Nat) (hi : i < ts.length) : q ts[i] (items[i]?.getD .undefined) := by
      have hs : i < ss.length := by omega
      exact (hpq i _ _ (List.getElem?_eq_getElem hi) (List.getElem?_eq_getElem hs) _).1
        (h i _ (List.getElem?_eq_getElem hs))
    have hpos := List.length_pos_of_ne_nil hne
    have hge : ts.length ≤ items.length := by
      by_contra hlt
      have hmiss := hq (ts.length - 1) (by omega)
      have hnone : items[ts.length - 1]? = none := List.getElem?_eq_none (by omega)
      rw [hnone, Option.getD_none] at hmiss
      refine hlast _ ?_ hmiss
      rw [List.getLast?_eq_getElem?, Option.mem_def]
      exact List.getElem?_eq_getElem (by omega)
    refine ⟨by omega, fun i hi hv => ?_⟩
    have hitem := hq i hi
    rwa [List.getElem?_eq_getElem hv, Option.getD_some] at hitem
  · rintro ⟨hlen, h⟩
    refine ⟨fun i s hs => ?_, by omega⟩
    obtain ⟨hi, -⟩ := List.getElem?_eq_some_iff.1 hs
    have ht : i < ts.length := by omega
    have hv : i < items.length := by omega
    rw [List.getElem?_eq_getElem hv, Option.getD_some]
    exact (hpq i _ s (List.getElem?_eq_getElem ht) hs _).2 (h i ht hv)

theorem conforms_iff (hr : Coherent named r) (h : Translates m.schemas t s)
    (ht : t.Compiles named) (hx : t.ExactTuples named m.world) (v : Value) :
    m.Conforms r s v ↔ t.meaning named m.world v := by
  induction h generalizing v with
  | text t => exact conforms_text hr ht v
  | @group t s _ ih => exact ih (ht.child (List.mem_singleton_self t)) hx v
  | @array t id s hs _ ih =>
    have ih := ih (ht.child (List.mem_singleton_self t)) hx
    simp only [Matcher.conforms_array hs, ih, Term.meaning]
  | @tuple ts id ss hs h2 hl _ ih =>
    obtain ⟨hlast, hall⟩ := hx h2
    rw [Matcher.conforms_tuple hs (by omega), Term.meaning, Term.meanings_eq]
    refine exists_congr fun items => and_congr_right fun _ => ?_
    rw [List.forall₂_map_left_iff]
    refine forall₂_iff_items hl (List.ne_nil_of_length_pos (by omega)) ?_ hlast items
    intro i t s hi hs
    have hmem := List.mem_of_getElem? hi
    exact ih i t s hi hs (ht.child hmem) ((Term.allExactTuples_iff ts).1 hall t hmem)
  | @object t id s hs _ ih =>
    have ih := ih (ht.child (List.mem_singleton_self t)) hx
    rw [Matcher.conforms_shape hs, Term.meaning]
    simp [Shape.ofMarkers, Shape.admits, Fulfils, Shape.declares, Shape.hasMarkers, ih,
      Keyed.contains, Keyed.get?, Keyed.empty]
  | @entries k t id q s hs _ _ ihk ih =>
    have ihk := ihk (ht.child (u := k) (by simp [Term.children])) hx.1
    have ih := ih (ht.child (u := t) (by simp [Term.children])) hx.2
    rw [Matcher.conforms_shape hs, Term.meaning]
    simp [Shape.ofMarkers, Shape.admits, Fulfils, Shape.declares, Shape.hasMarkers, ih, ihk,
      Keyed.contains, Keyed.get?, Keyed.empty]

end Translates

mutual

theorem translates_translate : ∀ (t : Term) (store : SchemaStore),
    store.Extends (t.translate store).2 ∧
      Translates (t.translate store).2 t (t.translate store).1
  | .group t, store => by
    obtain ⟨he, h⟩ := translates_translate t store
    exact ⟨he, .group h⟩
  | .array t, store => by
    obtain ⟨he, h⟩ := translates_translate t store
    have hadd := SchemaStore.Extends.add (t.translate store).2 (.list [(t.translate store).1])
    exact ⟨he.trans hadd, .array (SchemaStore.node_add_self _ _) (h.extend hadd)⟩
  | .tuple ts, store => by
    obtain ⟨he, hl, h⟩ := translates_translateAll ts store
    rw [Term.translate]
    split
    · next h2 =>
      have hadd := SchemaStore.Extends.add (Term.translateAll ts store).2
        (.list (Term.translateAll ts store).1)
      exact ⟨he.trans hadd, .tuple (SchemaStore.node_add_self _ _) h2 hl
        fun i t s ht hs => (h i t s ht hs).extend hadd⟩
    · exact ⟨.refl store, .text (.tuple ts)⟩
  | .object t, store => by
    obtain ⟨he, h⟩ := translates_translate t store
    have hadd := SchemaStore.Extends.add (t.translate store).2
      (.shape (.ofMarkers none (t.translate store).1))
    exact ⟨he.trans hadd, .object (SchemaStore.node_add_self _ _) (h.extend hadd)⟩
  | .entries k t, store => by
    obtain ⟨hk, hks⟩ := translates_translate k store
    obtain ⟨he, h⟩ := translates_translate t (k.translate store).2
    have hadd := SchemaStore.Extends.add (t.translate (k.translate store).2).2
      (.shape (.ofMarkers (k.translate store).1 (t.translate (k.translate store).2).1))
    exact ⟨hk.trans (he.trans hadd), .entries (SchemaStore.node_add_self _ _)
      (hks.extend (he.trans hadd)) (h.extend hadd)⟩
  | .name n, store => ⟨.refl store, .text (.name n)⟩
  | .allOf ts, store => ⟨.refl store, .text (.allOf ts)⟩
  | .anyOf ts, store => ⟨.refl store, .text (.anyOf ts)⟩
  | .inverted t, store => ⟨.refl store, .text (.inverted t)⟩
  | .nonEmpty t, store => ⟨.refl store, .text (.nonEmpty t)⟩
  | .optional t, store => ⟨.refl store, .text (.optional t)⟩
  | .sized t range, store => ⟨.refl store, .text (.sized t range)⟩

theorem translates_translateAll : ∀ (ts : List Term) (store : SchemaStore),
    store.Extends (Term.translateAll ts store).2 ∧
      ts.length = (Term.translateAll ts store).1.length ∧
      ∀ (i : Nat) (t : Term) (s : Schema), ts[i]? = some t →
        (Term.translateAll ts store).1[i]? = some s →
          Translates (Term.translateAll ts store).2 t s
  | [], store => ⟨.refl store, rfl, by simp⟩
  | t :: ts, store => by
    obtain ⟨he, h⟩ := translates_translate t store
    obtain ⟨he', hl, h'⟩ := translates_translateAll ts (t.translate store).2
    refine ⟨he.trans he', congrArg (· + 1) hl, fun i u s hu hs => ?_⟩
    cases i with
    | zero =>
      cases hu
      cases hs
      exact h.extend he'
    | succ i => exact h' i u s hu hs

end

theorem matchSchema_translate {r : Registry} {named : String → Option Checker}
    (hr : Reachable r named) {source : String} {t : Term} (hp : parse source = .ok t)
    (hn : ∀ n ∈ t.names, (named n).isSome = true) {w : World} (hx : t.ExactTuples named w)
    {v : Value} (hv : v.Acyclic w) {config : Config} (hd : config.maxDepth = none)
    (store : SchemaStore) :
    ((⟨w, store, config⟩ : Matcher).matchSchema (.typeString t.text) v r).1 = .ok () ↔
      ((⟨w, (t.translate store).2, config⟩ : Matcher).matchSchema (t.translate store).1 v r).1 =
        .ok () := by
  have ht : t.Compiles named := ⟨canonical_of_parse hp, hn⟩
  obtain ⟨-, h⟩ := translates_translate t store
  have hstring : Translates store t (.typeString t.text) := .text t
  let m : Matcher := ⟨w, store, config⟩
  let m' : Matcher := ⟨w, (t.translate store).2, config⟩
  calc (m.matchSchema (.typeString t.text) v r).1 = .ok ()
    _ ↔ m.Conforms r (.typeString t.text) v :=
      Matcher.matchSchema_eq_ok hr hd (hstring.wellFormed hr.coherent ht) hv
    _ ↔ t.meaning named w v := Translates.conforms_text hr.coherent ht v
    _ ↔ m'.Conforms r (t.translate store).1 v :=
      (Translates.conforms_iff (m := m') hr.coherent h ht hx v).symm
    _ ↔ (m'.matchSchema (t.translate store).1 v r).1 = .ok () :=
      (Matcher.matchSchema_eq_ok hr hd (h.wellFormed hr.coherent ht) hv).symm

def pairs : World :=
  { cells := #[.array [.str "a", .container 1], .array [.container 2],
      .object none (.ofList [("n", .number (.finite 1))])] }

theorem acyclic_pairs : (Value.container 0).Acyclic pairs := by
  have hleaf {v : Value} (h : v.children pairs = []) : v.Acyclic pairs :=
    .of_children (by simp [h])
  have h2 : (Value.container 2).Acyclic pairs := by
    refine .of_children fun u hu => ?_
    obtain rfl : u = .number (.finite 1) := List.mem_singleton.1 hu
    exact hleaf rfl
  have h1 : (Value.container 1).Acyclic pairs := by
    refine .of_children fun u hu => ?_
    obtain rfl : u = .container 2 := List.mem_singleton.1 hu
    exact h2
  refine .of_children fun u hu => ?_
  obtain rfl | rfl : u = .str "a" ∨ u = .container 1 := List.mem_pair.1 hu
  · exact hleaf rfl
  · exact h1

def pairing : Term := .tuple [.name "string", .array (.object (.name "int"))]

theorem matchSchema_translate_pairs :
    parse "[string, \x7bint\x7d[]]" = .ok pairing ∧
      (∀ n ∈ pairing.names, (Registry.builtin.get? n).isSome = true) ∧
      pairing.ExactTuples Registry.builtin.get? pairs ∧ (Value.container 0).Acyclic pairs ∧
      ((⟨pairs, (pairing.translate {}).2, {}⟩ : Matcher).matchSchema (pairing.translate {}).1
        (.container 0) Registry.builtin).1 = .ok () := by
  have hp : parse "[string, \x7bint\x7d[]]" = .ok pairing := by decide +kernel
  have hn : ∀ n ∈ pairing.names, (Registry.builtin.get? n).isSome = true := by decide +kernel
  have hx : pairing.ExactTuples Registry.builtin.get? pairs := by
    intro _
    refine ⟨?_, by simp [Term.AllExactTuples, Term.ExactTuples]⟩
    intro t ht
    obtain rfl : t = .array (.object (.name "int")) := by simpa [eq_comm] using ht
    rintro ⟨items, hi, -⟩
    cases hi
  refine ⟨hp, hn, hx, acyclic_pairs, ?_⟩
  refine (matchSchema_translate .start hp hn hx acyclic_pairs rfl {}).1 ?_
  have hpass : ((⟨pairs, {}, {}⟩ : Matcher).matchSchema (.typeString pairing.text) (.container 0)
      Registry.builtin).1.isOk = true := by decide +kernel
  rcases hm : ((⟨pairs, {}, {}⟩ : Matcher).matchSchema (.typeString pairing.text) (.container 0)
      Registry.builtin).1 with e | u
  · rw [hm] at hpass
    cases hpass
  · rfl

end ValueCheck
