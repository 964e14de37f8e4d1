import ValueCheck.Proofs.Matching.Verdict

/-! Matching decides conformance. On acyclic schemas the path never holds a schema
twice, and on acyclic values it never holds a value twice. -/

namespace ValueCheck.Matcher

open Relation Matching
open Registry (Coherent Computes Reachable)

variable {m : Matcher} {budget : Nat} {path : List Visit} {id : NodeId} {v : Value}

variable (m) in
def Clear (path : List Visit) (v : Value) : Prop :=
  ∀ u ∈ path, ¬ ReflTransGen (Value.Child m.world) v (.container u.cell)

theorem Above.node_ne {r : Registry} (h : m.Above path (.node id))
    (hw : Schema.WellFormed m.schemas r (.node id)) : ∀ u ∈ path, u.node ≠ id := by
  rintro u hu rfl
  exact hw.acyclic .refl (h.reaches u hu)

theorem Clear.enter {cell : CellId} {u : Value} (h : m.Clear path (.container cell))
    (ha : (Value.container cell).Acyclic m.world)
    (hu : u ∈ (Value.container cell).children m.world) :
    m.Clear (⟨id, cell⟩ :: path) u := by
  have hc : Value.Child m.world (.container cell) u := hu
  rw [Clear]
  rw [List.forall_mem_cons]
  exact ⟨fun hr => ha _ .refl (.head' hc hr), fun x hx hr => h x hx (.head hc hr)⟩

theorem Clear.of_scalar (hv : v.children m.world = []) (hc : ∀ cell, v ≠ .container cell) :
    m.Clear path v := by
  intro u _ hr
  rcases ReflTransGen.cases_head hr with he | ⟨x, hx, -⟩
  · exact hc _ he
  · rw [Value.Child] at hx
    rw [hv] at hx
    cases hx

theorem acyclic_of_scalar (hv : v.children m.world = []) : v.Acyclic m.world :=
  .of_children (by simp [hv])

theorem enter_eq (hd : m.config.maxDepth = none) (hid : ∀ u ∈ path, u.node ≠ id) (cell : CellId) :
    m.enter path ⟨id, cell⟩ =
      if path.any (·.cell == cell) then return none else return some (⟨id, cell⟩ :: path) := by
  have hn : ¬ path.any (·.node == id) = true := by simpa using hid
  rw [enter, if_neg hn]
  simp only [hd]

variable {named : String → Option Checker}

theorem settles_inside {α : Type} {content : Option α} {name : String} {c : Checker}
    {body : List Visit → α → Matching Unit} {p : α → Prop} {q : CellId → α → Prop}
    (hd : m.config.maxDepth = none) (hid : ∀ u ∈ path, u.node ≠ id) (hn : named name = some c)
    (hs : ∀ a, content = some a → ∃ cell, v = .container cell)
    (hc : content = none → c.accepts m.world v = false)
    (hb : ∀ cell a, Settles named (body (⟨id, cell⟩ :: path) a) (p a) (q cell a)) :
    Settles named (m.inside path id v content name body) (∃ a, content = some a ∧ p a)
      ((∀ u ∈ path, v ≠ .container u.cell) →
        ∃ cell a, v = .container cell ∧ content = some a ∧ q cell a) := by
  cases content with
  | none =>
    have hi : m.inside path id v none name body = m.requireNamed name v := by cases v <;> rfl
    rw [hi]
    refine (settles_requireNamed hn).imp ?_ ?_
    · rintro ⟨a, ha, -⟩
      cases ha
    · intro ha
      rw [hc rfl] at ha
      cases ha
  | some a =>
    obtain ⟨cell, rfl⟩ := hs a rfl
    rw [inside]
    simp only [enter_eq hd hid]
    split
    · next hany =>
      refine Settles.pass fun hclear => ?_
      obtain ⟨u, hu, he⟩ := List.any_eq_true.1 hany
      exact absurd (congrArg Value.container (by simpa using he)).symm (hclear u hu)
    · refine (hb cell a).imp ?_ fun hq _ => ⟨cell, a, rfl, rfl, hq⟩
      rintro ⟨b, hb, hp⟩
      cases hb
      exact hp

theorem Clear.ne (h : m.Clear path v) : ∀ u ∈ path, v ≠ .container u.cell := by
  intro u hu he
  exact h u hu (by rw [he])

variable {r : Registry}

/-- What a pass tells: the value conforms, unless the path or a cycle cut the matching short. -/
def Sure (m : Matcher) (r : Registry) (path : List Visit) (s : Schema) (v : Value) : Prop :=
  v.Acyclic m.world → m.Clear path v → m.Conforms r s v

theorem Sure.below {s : Schema} {u : Value} {cell : CellId} (h : m.Sure r (⟨id, cell⟩ :: path) s u)
    (ha : (Value.container cell).Acyclic m.world) (hp : m.Clear path (.container cell))
    (hu : u ∈ (Value.container cell).children m.world) : m.Conforms r s u :=
  h (ha.child hu) (hp.enter ha hu)

theorem Sure.scalar {s : Schema} (h : m.Sure r path s v) (hv : v.children m.world = [])
    (hc : ∀ cell, v ≠ .container cell) : m.Conforms r s v :=
  h (acyclic_of_scalar hv) (.of_scalar hv hc)

theorem settles_typeString (hr : Coherent named r) {source : String}
    (hc : ∃ c, (Registry.getOrCompile source r).1 = .ok c) :
    Settles named (m.matchBelow budget path (.typeString source) v)
      (m.Conforms r (.typeString source) v) (m.Conforms r (.typeString source) v) := by
  obtain ⟨c, hc⟩ := hc
  have hx : Computes named (Registry.getOrCompile source) (.ok c) := by
    rw [← hc, (Registry.computes_getOrCompile source r hr).2]
    exact Registry.computes_getOrCompile source
  rw [matchBelow]
  refine (Settles.compiling hx settles_require).imp ?_ fun h => .typeString hc h
  intro h
  cases h with
  | typeString hd h =>
    obtain rfl := Except.ok.inj (hc.symm.trans hd)
    exact h

theorem settles_literal (hr : Reachable r named) (l : Literal) :
    Settles named (m.matchBelow budget path (.literal l) v)
      (m.Conforms r (.literal l) v) (m.Conforms r (.literal l) v) := by
  have hl : (Registry.builtin.get? l.checkerName).isSome = true := by cases l <;> decide +kernel
  obtain ⟨c, hc⟩ := Option.isSome_iff_exists.1 hl
  have hn := hr.named_builtin hc
  have hg := hr.coherent.get?_name hn
  rw [matchBelow]
  refine (settles_requireNamed hn).imp ?_ fun h => .literal hg h
  intro h
  cases h with
  | literal hd h =>
    obtain rfl := Option.some.inj (hg.symm.trans hd)
    exact h

theorem settles_instanceOf (c : Class) : Settles named (m.matchBelow budget path (.instanceOf c) v)
    (m.Conforms r (.instanceOf c) v) (m.Conforms r (.instanceOf c) v) := by
  rw [matchBelow]
  refine settles_requireInstance.imp ?_ fun h => .instanceOf h
  intro h
  cases h with
  | instanceOf h => exact h

theorem mem_children_of_items? {items : List Value} {u : Value}
    (h : v.items? m.world = some items) (hu : u ∈ items) : u ∈ v.children m.world := by
  rw [Value.items?] at h
  split at h
  · next hv =>
    cases h
    simpa [Value.children, hv, Cell.children] using hu
  · cases h

theorem mem_children_of_properties? {properties : Keyed Value} {u : Value}
    (h : v.properties? m.world = some properties) (hu : u ∈ properties.values) :
    u ∈ v.children m.world := by
  rw [Value.properties?] at h
  split at h
  · next hv =>
    cases h
    simpa [Value.children, hv, Cell.children] using hu
  · cases h

section Nodes

variable (hr : Reachable r named) (hd : m.config.maxDepth = none)
  (hid : ∀ u ∈ path, u.node ≠ id)
  (hb : ∀ cell, ∀ s ∈ (m.schemas.node id).children, ∀ u,
    Settles named (m.matchBelow budget (⟨id, cell⟩ :: path) s u) (m.Conforms r s u)
      (m.Sure r (⟨id, cell⟩ :: path) s u))

include hr hd hid hb

theorem settles_list {ss : List Schema} (hs : m.schemas.node id = .list ss) (hne : ss ≠ []) :
    Settles named (m.matchBelow (budget + 1) path (.node id) v) (m.Conforms r (.node id) v)
      (m.Sure r path (.node id) v) := by
  have harray : named "array" = some (Builtin.checker
      ⟨"array", ["arr"], "plain array", fun w v => v.isArray w⟩) :=
    hr.named_builtin (Registry.get?_builtin (by simp [Builtin.all, Builtin.objects]) (by simp))
  have hno : v.items? m.world = none →
      (Builtin.checker ⟨"array", ["arr"], "plain array", fun w v => v.isArray w⟩).accepts
        m.world v = false := by
    intro h
    simp [Builtin.checker, Value.isArray, h]
  rw [hs] at hb
  match ss, hne with
  | [s], _ =>
    rw [matchBelow_array hs]
    have hi : Settles named
        (m.inside path id v (v.items? m.world) "array" fun path items =>
          matchItems (m.matchBelow budget path) s items)
        (∃ items, v.items? m.world = some items ∧ ∀ item ∈ items, m.Conforms r s item)
        ((∀ u ∈ path, v ≠ .container u.cell) → ∃ cell items, v = .container cell ∧
          v.items? m.world = some items ∧
            ∀ item ∈ items, m.Sure r (⟨id, cell⟩ :: path) s item) :=
      settles_inside hd hid harray (fun _ => container_of_items?) hno
        fun cell items => settles_matchItems (hb cell s (by simp [SchemaNode.children]))
    refine hi.imp (conforms_array hs).1 fun h hacyclic hclear => (conforms_array hs).2 ?_
    obtain ⟨cell, items, rfl, hv, hitems⟩ := h hclear.ne
    exact ⟨items, hv, fun item hitem =>
      (hitems item hitem).below hacyclic hclear (mem_children_of_items? hv hitem)⟩
  | s :: t :: ts, _ =>
    have h2 : 2 ≤ (s :: t :: ts).length := by simp
    rw [matchBelow_tuple hs h2]
    have hi : Settles named
        (m.inside path id v (v.items? m.world) "array" fun path items =>
          matchTuple (m.matchBelow budget path) (s :: t :: ts) items)
        (∃ items, v.items? m.world = some items ∧
          (∀ (i : Nat) (u : Schema), (s :: t :: ts)[i]? = some u →
            m.Conforms r u (items[i]?.getD .undefined)) ∧ items.length ≤ (s :: t :: ts).length)
        ((∀ u ∈ path, v ≠ .container u.cell) → ∃ cell items, v = .container cell ∧
          v.items? m.world = some items ∧
            (∀ (i : Nat) (u : Schema), (s :: t :: ts)[i]? = some u →
              m.Sure r (⟨id, cell⟩ :: path) u (items[i]?.getD .undefined)) ∧
            items.length ≤ (s :: t :: ts).length) :=
      settles_inside hd hid harray (fun _ => container_of_items?) hno
        fun cell items => settles_matchTuple (hb cell)
    refine hi.imp (conforms_tuple hs h2).1 fun h hacyclic hclear => (conforms_tuple hs h2).2 ?_
    obtain ⟨cell, items, rfl, hv, hitems, hl⟩ := h hclear.ne
    refine ⟨items, hv, fun i u hu => ?_, hl⟩
    have hsure := hitems i u hu
    cases hitem : items[i]? with
    | none =>
      rw [hitem] at hsure
      exact hsure.scalar rfl (by simp)
    | some item =>
      rw [hitem] at hsure
      exact hsure.below hacyclic hclear (mem_children_of_items? hv (List.mem_of_getElem? hitem))

theorem settles_shape {shape : Shape} (hs : m.schemas.node id = .shape shape) :
    Settles named (m.matchBelow (budget + 1) path (.node id) v) (m.Conforms r (.node id) v)
      (m.Sure r path (.node id) v) := by
  have hobject : named "object" = some (Builtin.checker
      ⟨"object", ["obj"], "plain object", fun w v => v.isPlainObject w⟩) :=
    hr.named_builtin (Registry.get?_builtin (by simp [Builtin.all, Builtin.objects]) (by simp))
  have hno : v.properties? m.world = none →
      (Builtin.checker ⟨"object", ["obj"], "plain object", fun w v => v.isPlainObject w⟩).accepts
        m.world v = false := by
    intro h
    simp [Builtin.checker, Value.isPlainObject, h]
  have hadmits : Settles named (m.requireKind shape v) (shape.admits m.world v = true)
      (shape.admits m.world v = true) := by
    rw [requireKind, Shape.admits]
    cases shape.cls with
    | some c => exact settles_requireInstance
    | none => exact settles_requireNamed hobject
  rw [hs] at hb
  rw [matchBelow_shape hs]
  have hi : Settles named
      (m.inside path id v (v.properties? m.world) "object" fun path properties =>
        m.matchProperties (m.matchBelow budget path) shape properties)
      (∃ properties, v.properties? m.world = some properties ∧
        Fulfils m.config.denyExcess (m.Conforms r) shape properties)
      ((∀ u ∈ path, v ≠ .container u.cell) → ∃ cell properties, v = .container cell ∧
        v.properties? m.world = some properties ∧
          Fulfils m.config.denyExcess (m.Sure r (⟨id, cell⟩ :: path)) shape properties) :=
    settles_inside hd hid hobject (fun _ => container_of_properties?) hno
      fun cell properties => settles_matchProperties (hb cell)
  refine (hadmits.bind hi).imp (conforms_shape hs).1 ?_
  rintro ⟨ha, h⟩ hacyclic hclear
  obtain ⟨cell, properties, rfl, hv, hfields, hothers⟩ := h hclear.ne
  refine (conforms_shape hs).2 ⟨ha, properties, hv, ?_, ?_⟩
  · intro f hf
    have hsure := hfields f hf
    cases hp : properties.get? f.1 with
    | none =>
      rw [hp] at hsure
      exact hsure.scalar rfl (by simp)
    | some u =>
      rw [hp] at hsure
      exact hsure.below hacyclic hclear
        (mem_children_of_properties? hv (Keyed.mem_values_of_get? hp))
  · intro e he hundeclared
    obtain ⟨hx, hk, hu⟩ := hothers e he hundeclared
    refine ⟨hx, fun s hs => (hk s hs).scalar rfl (by simp), fun s hs => ?_⟩
    exact (hu s hs).below hacyclic hclear
      (mem_children_of_properties? hv (List.mem_map_of_mem he))

end Nodes

theorem settles_matchBelow (hr : Reachable r named) (hd : m.config.maxDepth = none) {s : Schema}
    (hw : Schema.WellFormed m.schemas r s) (ha : m.Above path s)
    (hb : budget + path.length = m.schemas.nodes.size + 1) :
    Settles named (m.matchBelow budget path s v) (m.Conforms r s v) (m.Sure r path s v) := by
  induction budget generalizing path s v with
  | zero =>
    have hl := ha.length_le
    omega
  | succ budget ih =>
    cases s with
    | typeString source =>
      exact (settles_typeString hr.coherent (hw.compiles .refl)).imp id fun h _ _ => h
    | literal l => exact (settles_literal hr l).imp id fun h _ _ => h
    | instanceOf c => exact (settles_instanceOf c).imp id fun h _ _ => h
    | node id =>
      have hin (cell : CellId) (s : Schema) (hs : s ∈ (m.schemas.node id).children) (u : Value) :
          Settles named (m.matchBelow budget (⟨id, cell⟩ :: path) s u) (m.Conforms r s u)
            (m.Sure r (⟨id, cell⟩ :: path) s u) :=
        ih (hw.child hs) (ha.enter (ha.node_ne hw) (hw.filled .refl) hs)
          (by rw [List.length_cons]; omega)
      cases hs : m.schemas.node id with
      | list ss =>
        refine settles_list hr hd (ha.node_ne hw) hin hs ?_
        rintro rfl
        exact hw.filled .refl hs
      | shape shape => exact settles_shape hr hd (ha.node_ne hw) hin hs

theorem matchSchema_eq_ok (hr : Reachable r named) (hd : m.config.maxDepth = none) {s : Schema}
    (hw : Schema.WellFormed m.schemas r s) (hacyclic : v.Acyclic m.world) :
    (m.matchSchema s v r).1 = .ok () ↔ m.Conforms r s v := by
  have hv : Verdict (m.Conforms r s v) (m.Sure r [] s v) (m.matchSchema s v r).1 :=
    (settles_matchBelow hr hd hw ⟨by simp, by simp, by simp⟩ rfl r hr.coherent).2
  rcases hm : (m.matchSchema s v r).1 with (e | mismatch) | u
  · rw [hm] at hv
    exact hv.elim
  · rw [hm] at hv
    exact iff_of_false (by simp) hv
  · rw [hm] at hv
    exact iff_of_true rfl (hv hacyclic (by simp [Clear]))

theorem matchSchema_conforms (hr : Reachable r named) (hd : m.config.maxDepth = none) {s : Schema}
    (hw : Schema.WellFormed m.schemas r s) (v : Value) :
    (∀ e, (m.matchSchema s v r).1 ≠ .error (.config e)) ∧
      (m.Conforms r s v → (m.matchSchema s v r).1 = .ok ()) ∧
      (v.Acyclic m.world → ((m.matchSchema s v r).1 = .ok () ↔ m.Conforms r s v)) := by
  have ha : m.Above [] s := ⟨by simp, by simp, by simp⟩
  have hv : Verdict (m.Conforms r s v) (m.Sure r [] s v) (m.matchSchema s v r).1 :=
    (settles_matchBelow hr hd hw ha rfl r hr.coherent).2
  have hclear : m.Clear [] v := by simp [Clear]
  rcases hm : (m.matchSchema s v r).1 with (e | mismatch) | u
  · rw [hm] at hv
    exact hv.elim
  · rw [hm] at hv
    refine ⟨by simp, fun hc => absurd hc hv, fun _ => ⟨by simp, fun hc => absurd hc hv⟩⟩
  · rw [hm] at hv
    exact ⟨by simp, fun _ => rfl, fun hacyclic => ⟨fun _ => hv hacyclic hclear, fun _ => rfl⟩⟩

def amounts : Matcher :=
  ⟨{ cells := #[.array [.number (.finite 1), .number (.finite 2)]] },
    ⟨#[.list [.typeString "positive+"]]⟩, {}⟩

theorem getOrCompile_positive :
    ∃ c, (Registry.getOrCompile "positive+" Registry.used).1 = .ok c ∧
      ∀ w, c.accepts w (.number (.finite 1)) = true ∧ c.accepts w (.number (.finite 2)) = true := by
  have hs : Grammar.parse "positive+" = .ok (.nonEmpty (.name "positive")) := by decide +kernel
  exact ⟨_, Registry.reachable_used.coherent.getOrCompile_eq_ok.2 ⟨_, hs, rfl⟩,
    fun _ => ⟨rfl, rfl⟩⟩

theorem wellFormed_amounts :
    Schema.WellFormed amounts.schemas Registry.used (.node 0) := by
  have hnode (u : Schema) (h : Schema.Child amounts.schemas (.node 0) u) :
      u = .typeString "positive+" := by
    simpa [Schema.Child, Schema.children, SchemaNode.children, SchemaStore.node, amounts] using h
  have hleaf (u : Schema) : ¬ Schema.Child amounts.schemas (.typeString "positive+") u := by
    simp [Schema.Child, Schema.children]
  have hall {u : Schema} (h : ReflTransGen (Schema.Child amounts.schemas) (.node 0) u) :
      u = .node 0 ∨ u = .typeString "positive+" := by
    induction h with
    | refl => exact .inl rfl
    | tail _ hc ih =>
      rcases ih with rfl | rfl
      · exact .inr (hnode _ hc)
      · exact absurd hc (hleaf _)
  constructor
  · intro u h ht
    obtain ⟨x, hx, hxu⟩ := TransGen.head'_iff.1 ht
    rcases hall h with rfl | rfl
    · obtain rfl := hnode x hx
      rcases ReflTransGen.cases_head hxu with he | ⟨y, hy, -⟩
      · cases he
      · exact hleaf y hy
    · exact hleaf x hx
  · intro id h
    rcases hall h with he | he <;> cases he
    simp [SchemaStore.node, amounts]
  · intro source h
    rcases hall h with he | he <;> cases he
    obtain ⟨c, hc, -⟩ := getOrCompile_positive
    exact ⟨c, hc⟩

theorem matchSchema_conforms_amounts :
    Reachable Registry.used Registry.usedNames ∧ amounts.config.maxDepth = none ∧
      Schema.WellFormed amounts.schemas Registry.used (.node 0) ∧
      (amounts.matchSchema (.node 0) (.container 0) Registry.used).1 = .ok () := by
  refine ⟨Registry.reachable_used, rfl, wellFormed_amounts, ?_⟩
  refine (matchSchema_conforms Registry.reachable_used rfl wellFormed_amounts _).2.1 ?_
  obtain ⟨c, hc, haccepts⟩ := getOrCompile_positive
  refine @Conforms.array _ _ 0 (.typeString "positive+") _
    [.number (.finite 1), .number (.finite 2)] rfl rfl ?_
  intro item hitem
  rcases List.mem_pair.1 hitem with rfl | rfl
  · exact .typeString hc (haccepts _).1
  · exact .typeString hc (haccepts _).2

end ValueCheck.Matcher
