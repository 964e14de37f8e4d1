import ValueCheck.Engine
import ValueCheck.Proofs.Matching.Isolation
import ValueCheck.Proofs.Matching.Refusal

/-! Where values fail. The place of a failure spells how to get from the value to what is
reported, and for acyclic values nothing in front of it fails. -/

namespace ValueCheck

open Matching
open Registry (Coherent Reachable bind_apply adapt_apply mapError_eq_ok mapError_eq_error)

inductive Accessor where
  | key (key : String)
  | index (index : Nat)

namespace Accessor

def extend (place : String) : Accessor → String
  | key k => if place = "" then k else place ++ "." ++ k
  | index i => place ++ "[" ++ toString i ++ "]"

def place (p : String) (as : List Accessor) : String := as.foldl extend p

def get (w : World) (v : Value) : Accessor → Value
  | key k => v.property w k
  | index i => v.item w i

def navigate (w : World) (v : Value) (as : List Accessor) : Value := as.foldl (get w) v

def step : Accessor → Step
  | key k => .key k
  | index i => .index i

end Accessor

def SchemaNode.inner : SchemaNode → Accessor → Option Schema
  | .list [s], .index _ => some s
  | .list ss, .index i => ss[i]?
  | .shape s, .key k => (s.fields.get? k).or s.values
  | _, _ => none

namespace Schema

variable (store : SchemaStore)

def inner : Schema → Accessor → Option Schema
  | node id, a => (store.node id).inner a
  | _, _ => none

def reached (s : Schema) (as : List Accessor) : Option Schema := as.foldlM (inner store) s

end Schema

namespace Matcher

variable (m : Matcher)

/-- What a failure reports at a place whose value was matched with a schema: the value
itself, one of its keys, or how many items it has. -/
inductive Reported (r : Registry) : Schema → Value → String → ValueFailure → Prop where
  | value {s : Schema} {v : Value} {place : String} {reason : Reason}
      {factory : Option ErrorFactory} (hr : m.Refuses r s v reason factory) :
      Reported r s v place ⟨reason, some v, place⟩
  | key {id : NodeId} {v : Value} {place : String} {shape : Shape} {properties : Keyed Value}
      {k : String} {s : Schema} {reason : Reason} {factory : Option ErrorFactory}
      (hn : m.schemas.node id = .shape shape) (hm : shape.keys = some s)
      (hp : v.properties? m.world = some properties) (hk : k ∈ properties.keys)
      (hu : shape.declares k = false) (hr : m.Refuses r s (.str k) reason factory) :
      Reported r (.node id) v place
        ⟨reason, some (.str k), Accessor.extend place (.key k) ++ ": Key"⟩
  | itemCount {id : NodeId} {v : Value} {place : String} {ss : List Schema} {items : List Value}
      (hn : m.schemas.node id = .list ss) (hi : v.items? m.world = some items)
      (hl : ss.length < items.length) : Reported r (.node id) v place
        ⟨.itemCount ss.length, some (.number (.ofNat items.length)), place⟩
  | unexpectedKey {id : NodeId} {v : Value} {place : String} {shape : Shape}
      {properties : Keyed Value} {k : String} (hn : m.schemas.node id = .shape shape)
      (hp : v.properties? m.world = some properties) (hk : k ∈ properties.keys)
      (hu : shape.declares k = false) :
      Reported r (.node id) v place ⟨.unexpectedKey, some (.str k), place⟩

/-- Accessors lead from the value to what is reported, and their text from `p` to its place. -/
def Located (r : Registry) (s : Schema) (v : Value) (p : String) (f : ValueFailure) : Prop :=
  ∃ (as : List Accessor) (t : Schema), s.reached m.schemas as = some t ∧
    m.Reported r t (Accessor.navigate m.world v as) (Accessor.place p as) f

end Matcher

def Demand.Passes (alone : Schema → Value → Except Halt Unit → Prop) : Demand → Prop
  | part _ s v => alone s v (.ok ())
  | refusal _ _ => False

namespace Matcher

/-- A mismatch that is the first one on the way: what is demanded before it passes. What
parts come to when they are matched on their own is told by `alone`. -/
inductive FirstFailure (m : Matcher) (r : Registry)
    (alone : Schema → Value → Except Halt Unit → Prop) : Schema → Value → Mismatch → Prop where
  | own {s : Schema} {v : Value} {reason : Reason} {factory : Option ErrorFactory}
      (hr : m.Refuses r s v reason factory) : FirstFailure m r alone s v ⟨reason, v, [], factory⟩
  | refusal {id : NodeId} {v u : Value} {before after : List Demand} {reason : Reason}
      (hds : m.demands (m.schemas.node id) v = some (before ++ .refusal reason u :: after))
      (hb : ∀ d ∈ before, d.Passes alone) :
      FirstFailure m r alone (.node id) v ⟨reason, u, [], none⟩
  | part {id : NodeId} {v u : Value} {before after : List Demand} {step : Step} {s : Schema}
      {mm : Mismatch}
      (hds : m.demands (m.schemas.node id) v = some (before ++ .part step s u :: after))
      (hb : ∀ d ∈ before, d.Passes alone) (ha : alone s u (.error (.mismatch mm)))
      (h : FirstFailure m r alone s u mm) :
      FirstFailure m r alone (.node id) v { mm with steps := step :: mm.steps }

variable {m : Matcher} {budget : Nat} {path : List Visit} {id : NodeId} {s : Schema}
  {v : Value} {r : Registry} {mm : Mismatch} {alone : Schema → Value → Except Halt Unit → Prop}

theorem FirstFailure.of_own (h : m.Own r s v mm) : m.FirstFailure r alone s v mm := by
  obtain ⟨reason, factory, hr, rfl⟩ := h
  exact .own hr

theorem firstFailure_matchBelow {r' : Registry} (hl : r.Later r')
    (h : (m.matchBelow budget path s v r').1 = .error (.mismatch mm)) :
    m.FirstFailure r (fun _ _ _ => True) s v mm := by
  induction budget generalizing path s v r' mm with
  | zero =>
    cases s with
    | node id =>
      rw [matchBelow] at h
      cases h
    | _ => exact .of_own (own_leaf (by simp) hl h)
  | succ budget ih =>
    cases s with
    | node id =>
      obtain hown | ⟨cell, before, d, after, -, hds, ⟨r'', hl', hd⟩, hb⟩ := mismatch_node hl h
      · exact .of_own hown
      have hpass : ∀ b ∈ before, b.Passes fun _ _ _ => True := by
        intro b hmem
        obtain ⟨_, -, hok⟩ := hb b hmem
        obtain ⟨step, t, u, rfl, -⟩ := ok_meet hok
        exact trivial
      cases d with
      | part step t u =>
        obtain ⟨mm', hmm, rfl⟩ := mismatch_part hd
        exact .part hds hpass trivial (ih hl' hmm)
      | refusal reason u =>
        cases hd
        exact .refusal hds hpass
    | _ => exact .of_own (own_leaf (by simp) hl h)

theorem firstFailure_matchSchema {named : String → Option Checker} (hr : Coherent named r)
    (hv : v.Acyclic m.world) (h : (m.matchSchema s v r).1 = .error (.mismatch mm)) :
    m.FirstFailure r (fun s v out => (m.matchSchema s v r).1 = out) s v mm := by
  -- On the steps and not on the budget, as each part is matched anew with the whole budget.
  induction hn : mm.steps.length using Nat.strong_induction_on generalizing s v mm with
  | _ n ih =>
    cases s with
    | node id =>
      obtain hown | ⟨cell, before, d, after, rfl, hds, ⟨r', hl, hd⟩, hb⟩ := mismatch_node .refl h
      · exact .of_own hown
      have hclear : m.Clear [] (.container cell) := by simp [Clear]
      have hpass : ∀ b ∈ before, b.Passes fun s v out => (m.matchSchema s v r).1 = out := by
        intro b hmem
        obtain ⟨r'', hl', hok⟩ := hb b hmem
        obtain ⟨step, t, u, rfl, hin⟩ := ok_meet hok
        obtain ⟨-, rfl⟩ := part_of_demands hds (List.mem_append_left _ hmem)
        obtain ⟨hu, hc⟩ := hclear.follow id hv step
        exact matchSchema_of_below hu hc hr (hl'.coherent hr) hin (by simp)
      cases d with
      | part step t u =>
        obtain ⟨mm', hmm, rfl⟩ := mismatch_part hd
        obtain ⟨-, rfl⟩ := part_of_demands hds (List.mem_append_right _ List.mem_cons_self)
        obtain ⟨hu, hc⟩ := hclear.follow id hv step
        have halone := matchSchema_of_below hu hc hr (hl.coherent hr) hmm (by simp)
        refine .part hds hpass halone (ih _ ?_ hu halone rfl)
        rw [← hn]
        exact Nat.lt_succ_self _
      | refusal reason u =>
        cases hd
        exact .refusal hds hpass
    | _ => exact .of_own (own_leaf (by simp) .refl h)

theorem inner_of_getElem? {ss : List Schema} {i : Nat} (hs : ss[i]? = some s) :
    (SchemaNode.list ss).inner (.index i) = some s := by
  match ss, i with
  | [t], 0 | s :: t :: ts, _ => exact hs

theorem inner_of_part {n : SchemaNode} {ds : List Demand} {step : Step} {u : Value}
    (h : m.demands n v = some ds) (hd : .part step s u ∈ ds) :
    (∃ a : Accessor, step = a.step ∧ n.inner a = some s) ∨
      ∃ k shape properties, step = .keyItself k ∧ n = .shape shape ∧
        shape.keys = some s ∧ v.properties? m.world = some properties ∧
          k ∈ properties.keys ∧ shape.declares k = false := by
  cases n with
  | list ss =>
    obtain ⟨items, -, ⟨t, rfl, rfl⟩ | rfl⟩ := items?_of_demands h
    · obtain ⟨i, x, -, he⟩ := Demand.mem_ofItems.1 hd
      cases he
      exact .inl ⟨.index i, rfl, rfl⟩
    · obtain ⟨i, t, ht, he⟩ | ⟨-, he⟩ := Demand.mem_ofTuple.1 hd <;> cases he
      exact .inl ⟨.index i, rfl, inner_of_getElem? ht⟩
  | shape shape =>
    obtain ⟨properties, hp, rfl⟩ := properties?_of_demands h
    obtain ⟨f, hf, he⟩ | ⟨-, e, hmem, hu, hd⟩ := Demand.mem_ofShape.1 hd
    · cases he
      refine .inl ⟨.key f.1, rfl, ?_⟩
      simp [SchemaNode.inner, shape.fields.get?_of_mem_entries hf]
    · obtain ⟨t, ht, he⟩ | ⟨t, ht, he⟩ | ⟨-, he⟩ := Demand.mem_ofUndeclared.1 hd <;> cases he
      · exact .inr ⟨e.1, shape, properties, rfl, rfl, ht, hp, List.mem_map_of_mem hmem, hu⟩
      · have hnone : shape.fields.get? e.1 = none := by
          simpa [Shape.declares, Keyed.contains] using hu
        exact .inl ⟨.key e.1, rfl, by simp [SchemaNode.inner, hnone, ht]⟩

theorem Located.below {a : Accessor} {t : Schema} {p : String} {f : ValueFailure}
    (hs : Schema.inner m.schemas s a = some t)
    (h : m.Located r t (a.get m.world v) (a.extend p) f) : m.Located r s v p f := by
  obtain ⟨as, u, hu, h⟩ := h
  refine ⟨a :: as, u, ?_, h⟩
  rw [Schema.reached, List.foldlM_cons, hs]
  exact hu

theorem Reported.located {p : String} {f : ValueFailure} (h : m.Reported r s v p f) :
    m.Located r s v p f := ⟨[], s, rfl, h⟩

theorem FirstFailure.own_of_str {k : String} (h : m.FirstFailure r alone s (.str k) mm) :
    m.Own r s (.str k) mm := by
  cases h with
  | own hr => exact ⟨_, _, hr, rfl⟩
  | refusal hds | part hds =>
    obtain ⟨cell, hv⟩ := container_of_demands hds
    cases hv

theorem FirstFailure.of_part {n : SchemaNode} {u : Value} {before after : List Demand} {step : Step}
    (h : m.FirstFailure r alone s u mm)
    (hds : m.demands n v = some (before ++ .part step s u :: after)) :
    (∃ a : Accessor, step = a.step ∧ n.inner a = some s ∧ a.get m.world v = u) ∨
      ∃ k shape properties, step = .keyItself k ∧ n = .shape shape ∧ shape.keys = some s ∧
        v.properties? m.world = some properties ∧ k ∈ properties.keys ∧
          shape.declares k = false ∧ m.Own r s (.str k) mm := by
  have hmem : Demand.part step s u ∈ before ++ .part step s u :: after :=
    List.mem_append_right _ List.mem_cons_self
  obtain ⟨-, rfl⟩ := part_of_demands hds hmem
  obtain ⟨a, rfl, hs⟩ | ⟨k, shape, properties, rfl, hn, hm, hp, hk, hu⟩ := inner_of_part hds hmem
  · refine .inl ⟨a, rfl, hs, ?_⟩
    cases a <;> rfl
  · exact .inr ⟨k, shape, properties, rfl, hn, hm, hp, hk, hu, h.own_of_str⟩

theorem FirstFailure.located (h : m.FirstFailure r alone s v mm) (p : String) :
    m.Located r s v p ⟨mm.reason, some mm.value, placeBelow p mm.steps⟩ := by
  induction h generalizing p with
  | own hr => exact Reported.located (.value hr)
  | @refusal id v u before after reason hds hb =>
    have hmem : Demand.refusal reason u ∈ before ++ .refusal reason u :: after :=
      List.mem_append_right _ List.mem_cons_self
    obtain ⟨ss, items, hn, hi, hl, rfl, rfl⟩ |
      ⟨shape, properties, k, hn, hp, hk, hu, rfl, rfl⟩ := refusal_of_demands hds hmem
    · exact Reported.located (.itemCount hn hi hl)
    · exact Reported.located (.unexpectedKey hn hp hk hu)
  | part hds hb ha h ih =>
    obtain ⟨a, rfl, hs, rfl⟩ | ⟨k, shape, properties, rfl, hn, hm, hp, hk, hu, reason, factory, hr,
      rfl⟩ := h.of_part hds
    · cases a with
      | key k => exact Located.below (a := .key k) hs (ih (Accessor.extend p (.key k)))
      | index i => exact Located.below (a := .index i) hs (ih (Accessor.extend p (.index i)))
    · exact Reported.located (.key hn hm hp hk hu hr)

end Matcher

namespace Engine

theorem checkWith_eq_value {w : World} {schemas : SchemaStore} {factory : ErrorFactory}
    {v : Value} {s : Schema} {place : String} {e : Engine} {err : RaisedError}
    (h : (checkWith w schemas factory v s place e).1 = .error (.value err)) :
    ∃ mm : Mismatch,
      ((⟨w, schemas, e.config⟩ : Matcher).matchSchema s v e.registry).1 = .error (.mismatch mm) ∧
        err = (mm.factory.getD factory) w
          ⟨mm.reason, some mm.value, placeBelow place mm.steps⟩ := by
  change (((⟨w, schemas, e.config⟩ : Matcher).matchSchema s v e.registry).1).mapError
    (raised w factory place) = .error (.value err) at h
  obtain ⟨c | mm, hm, hraised⟩ := mapError_eq_error.1 h <;> cases hraised
  exact ⟨mm, hm, rfl⟩

theorem checkWith_located {w : World} {schemas : SchemaStore} {factory : ErrorFactory}
    {v : Value} {s : Schema} {place : String} {e : Engine} {err : RaisedError}
    (h : (checkWith w schemas factory v s place e).1 = .error (.value err)) :
    let m : Matcher := ⟨w, schemas, e.config⟩
    ∃ mm : Mismatch, (m.matchSchema s v e.registry).1 = .error (.mismatch mm) ∧
      err = (mm.factory.getD factory) w ⟨mm.reason, some mm.value, placeBelow place mm.steps⟩ ∧
      m.Located e.registry s v place ⟨mm.reason, some mm.value, placeBelow place mm.steps⟩ ∧
      ∀ named, Reachable e.registry named → v.Acyclic w →
        m.FirstFailure e.registry (fun s v out => (m.matchSchema s v e.registry).1 = out)
          s v mm := by
  intro m
  obtain ⟨mm, hm, rfl⟩ := checkWith_eq_value h
  exact ⟨mm, hm, rfl, (Matcher.firstFailure_matchBelow .refl hm).located place,
    fun named hr hv => Matcher.firstFailure_matchSchema hr.coherent hv hm⟩

def profile : World :=
  { cells := #[.object none (.ofList [("user", .container 1)]),
      .object none (.ofList [("tags", .container 2)]),
      .array [.str "a", .number (.finite 5)]] }

def profileSchemas : SchemaStore :=
  ⟨#[.shape { fields := .ofList [("user", .node 1)] },
    .shape { fields := .ofList [("tags", .node 2)] }, .list [.literal .string]]⟩

theorem acyclic_profile : (Value.container 0).Acyclic profile := by
  have h2 : (Value.container 2).Acyclic profile := by
    refine .of_children fun u hu => ?_
    obtain rfl | rfl : u = .str "a" ∨ u = .number (.finite 5) := List.mem_pair.1 hu
    · exact .of_children (by simp [Value.children, Value.cell?])
    · exact .of_children (by simp [Value.children, Value.cell?])
  have h1 : (Value.container 1).Acyclic profile := by
    refine .of_children fun u hu => ?_
    obtain rfl : u = .container 2 := List.mem_singleton.1 hu
    exact h2
  refine .of_children fun u hu => ?_
  obtain rfl : u = .container 1 := List.mem_singleton.1 hu
  exact h1

theorem checkWith_located_profile :
    (checkWith profile profileSchemas (fun _ f => .custom f.place) (.container 0) (.node 0) "me"
      (fresh {})).1 = .error (.value (.custom "me.user.tags[1]")) ∧
    Reachable Registry.builtin Registry.builtin.get? ∧ (Value.container 0).Acyclic profile ∧
    ∃ mm : Mismatch,
      (⟨profile, profileSchemas, {}⟩ : Matcher).Located .builtin (.node 0) (.container 0) "me"
        ⟨mm.reason, some mm.value, placeBelow "me" mm.steps⟩ ∧
      (⟨profile, profileSchemas, {}⟩ : Matcher).FirstFailure .builtin
        (fun s v out => ((⟨profile, profileSchemas, {}⟩ : Matcher).matchSchema s v
          Registry.builtin).1 = out) (.node 0) (.container 0) mm := by
  have h : (checkWith profile profileSchemas (fun _ f => .custom f.place) (.container 0) (.node 0)
      "me" (fresh {})).1 = .error (.value (.custom "me.user.tags[1]")) := rfl
  obtain ⟨mm, -, -, hl, hf⟩ := checkWith_located h
  exact ⟨h, .start, acyclic_profile, mm, hl, hf _ .start acyclic_profile⟩

end Engine

end ValueCheck
