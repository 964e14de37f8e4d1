import ValueCheck.Proofs.Matching.Conformance

/-! What one list or shape asks of a value, as a list of demands in the order in
which they are made. Matching a node is meeting its demands one after the other. -/

namespace ValueCheck

open Relation Matching

/-- A value one step below has to match a schema, or nothing would do. -/
inductive Demand where
  | part (step : Step) (schema : Schema) (value : Value)
  | refusal (reason : Reason) (value : Value)

namespace Demand

def meet (inner : Schema → Value → Matching Unit) : Demand → Matching Unit
  | part step s v => below step (inner s v)
  | refusal reason v => refuse reason v

def ofItems (s : Schema) (items : List Value) : List Demand :=
  items.zipIdx.map fun (v, i) => part (.index i) s v

def ofTuple (ss : List Schema) (items : List Value) : List Demand :=
  (ss.zipIdx.map fun (s, i) => part (.index i) s (items[i]?.getD .undefined)) ++
    if ss.length < items.length then
      [refusal (.itemCount ss.length) (.number (.ofNat items.length))]
    else []

def ofFields (shape : Shape) (properties : Keyed Value) : List Demand :=
  shape.fields.entries.map fun (key, s) =>
    part (.key key) s ((properties.get? key).getD .undefined)

def ofUndeclared (shape : Shape) (key : String) (v : Value) : List Demand :=
  if shape.hasMarkers then
    shape.keys.toList.map (fun s => part (.keyItself key) s (.str key)) ++
      shape.values.toList.map fun s => part (.key key) s v
  else [refusal .unexpectedKey (.str key)]

def ofShape (denyExcess : Bool) (shape : Shape) (properties : Keyed Value) : List Demand :=
  ofFields shape properties ++
    if shape.hasMarkers || denyExcess then
      (properties.entries.filter fun p => !shape.declares p.1).flatMap fun (key, v) =>
        ofUndeclared shape key v
    else []

variable {d : Demand}

theorem mem_ofItems {s : Schema} {items : List Value} :
    d ∈ ofItems s items ↔ ∃ i u, items[i]? = some u ∧ d = part (.index i) s u := by
  simp only [ofItems, List.mem_map, Prod.exists, List.mem_zipIdx_iff_getElem?]
  constructor
  · rintro ⟨u, i, hu, rfl⟩
    exact ⟨i, u, hu, rfl⟩
  · rintro ⟨i, u, hu, rfl⟩
    exact ⟨u, i, hu, rfl⟩

theorem mem_ofTuple {ss : List Schema} {items : List Value} : d ∈ ofTuple ss items ↔
    (∃ i s, ss[i]? = some s ∧ d = part (.index i) s (items[i]?.getD .undefined)) ∨
      ss.length < items.length ∧
        d = refusal (.itemCount ss.length) (.number (.ofNat items.length)) := by
  rw [ofTuple, List.mem_append]
  refine or_congr ?_ ?_
  · simp only [List.mem_map, Prod.exists, List.mem_zipIdx_iff_getElem?]
    constructor
    · rintro ⟨s, i, hs, rfl⟩
      exact ⟨i, s, hs, rfl⟩
    · rintro ⟨i, s, hs, rfl⟩
      exact ⟨s, i, hs, rfl⟩
  · split
    · next hl => simp [hl]
    · next hl => simp [hl]

theorem mem_ofUndeclared {shape : Shape} {key : String} {v : Value} :
    d ∈ ofUndeclared shape key v ↔
      (∃ s, shape.keys = some s ∧ d = part (.keyItself key) s (.str key)) ∨
        (∃ s, shape.values = some s ∧ d = part (.key key) s v) ∨
          shape.hasMarkers = false ∧ d = refusal .unexpectedKey (.str key) := by
  rw [ofUndeclared]
  split
  · next hm => simp [hm, eq_comm]
  · next hm =>
    have hn : shape.keys = none ∧ shape.values = none := by simpa [Shape.hasMarkers] using hm
    simp [hm, hn.1, hn.2]

theorem mem_ofShape {denyExcess : Bool} {shape : Shape} {properties : Keyed Value} :
    d ∈ ofShape denyExcess shape properties ↔
      (∃ f ∈ shape.fields.entries,
        d = part (.key f.1) f.2 ((properties.get? f.1).getD .undefined)) ∨
        (shape.hasMarkers || denyExcess) = true ∧ ∃ e ∈ properties.entries,
          shape.declares e.1 = false ∧ d ∈ ofUndeclared shape e.1 e.2 := by
  rw [ofShape, List.mem_append]
  refine or_congr ?_ ?_
  · simp only [ofFields, List.mem_map, eq_comm]
  · split
    · next hm => simp [hm, and_assoc]
    · next hm => simp [hm]

end Demand

def SchemaNode.containerName : SchemaNode → String
  | .list _ => "array"
  | .shape _ => "object"

namespace Matcher

variable (m : Matcher)

def inside {α : Type} (path : List Visit) (id : NodeId) (v : Value) (content : Option α)
    (name : String) (body : List Visit → α → Matching Unit) : Matching Unit :=
  match v, content with
  | .container cell, some a => do
    if let some path ← m.enter path ⟨id, cell⟩ then body path a
  | v, _ => m.requireNamed name v

def requireKind (shape : Shape) (v : Value) : Matching Unit :=
  match shape.cls with
  | some c => m.requireInstance c v
  | none => m.requireNamed "object" v

def requireFirst (n : SchemaNode) (v : Value) : Matching Unit :=
  match n with
  | .list [] => throw (.config (.invalidType "[]"))
  | .list _ => return ()
  | .shape shape => m.requireKind shape v

def demands (n : SchemaNode) (v : Value) : Option (List Demand) :=
  match n with
  | .list [s] => (v.items? m.world).map (Demand.ofItems s)
  | .list ss => (v.items? m.world).map (Demand.ofTuple ss)
  | .shape shape => (v.properties? m.world).map (Demand.ofShape m.config.denyExcess shape)

variable {m} {budget : Nat} {path : List Visit} {id : NodeId} {v : Value}

theorem matchBelow_array {s : Schema} (hs : m.schemas.node id = .list [s]) :
    m.matchBelow (budget + 1) path (.node id) v =
      m.inside path id v (v.items? m.world) "array" fun path items =>
        matchItems (m.matchBelow budget path) s items := by
  rw [matchBelow, hs]
  generalize v.items? m.world = content
  cases v <;> cases content <;> rfl

theorem matchBelow_tuple {ss : List Schema} (hs : m.schemas.node id = .list ss)
    (hl : 2 ≤ ss.length) : m.matchBelow (budget + 1) path (.node id) v =
      m.inside path id v (v.items? m.world) "array" fun path items =>
        matchTuple (m.matchBelow budget path) ss items := by
  rw [matchBelow, hs]
  generalize v.items? m.world = content
  match ss, hl with
  | s :: t :: ts, _ => cases v <;> cases content <;> rfl

theorem matchBelow_shape {shape : Shape} (hs : m.schemas.node id = .shape shape) :
    m.matchBelow (budget + 1) path (.node id) v = (do
      m.requireKind shape v
      m.inside path id v (v.properties? m.world) "object" fun path properties =>
        m.matchProperties (m.matchBelow budget path) shape properties) := by
  rw [matchBelow, hs]
  generalize v.properties? m.world = content
  obtain ⟨fields, cls, keys, values⟩ := shape
  cases cls <;> cases v <;> cases content <;> rfl

section Inner

variable {inner : Schema → Value → Matching Unit}

theorem matchItems_eq (s : Schema) (items : List Value) :
    matchItems inner s items = (Demand.ofItems s items).forM (Demand.meet inner) := by
  simp only [matchItems, Demand.ofItems, List.forM_eq_forM, List.forM_map]
  rfl

theorem matchTuple_eq (ss : List Schema) (items : List Value) :
    matchTuple inner ss items = (Demand.ofTuple ss items).forM (Demand.meet inner) := by
  simp only [matchTuple, Demand.ofTuple, List.forM_eq_forM, List.forM_append, List.forM_map]
  split
  · simp only [List.forM_cons, List.forM_nil, bind_pure_unit]
    rfl
  · rfl

theorem matchUndeclared_eq (shape : Shape) (key : String) (v : Value) :
    matchUndeclared inner shape key v =
      (Demand.ofUndeclared shape key v).forM (Demand.meet inner) := by
  rw [matchUndeclared, Demand.ofUndeclared]
  split
  · cases shape.keys <;> cases shape.values <;> simp [Demand.meet]
  · simp [Demand.meet]

theorem forM_flatMap {α : Type} (f : α → List Demand) (l : List α) :
    forM (l.flatMap f) (Demand.meet inner) = forM l fun a => forM (f a) (Demand.meet inner) := by
  induction l with
  | nil => rfl
  | cons a l ih => rw [List.flatMap_cons, List.forM_append, ih, List.forM_cons]

theorem matchProperties_eq (shape : Shape) (properties : Keyed Value) :
    m.matchProperties inner shape properties =
      (Demand.ofShape m.config.denyExcess shape properties).forM (Demand.meet inner) := by
  simp only [matchProperties, Demand.ofShape, Demand.ofFields, matchUndeclared_eq,
    List.forM_eq_forM, List.forM_append, List.forM_map]
  split
  · rw [forM_flatMap]
    rfl
  · rfl

end Inner

theorem inside_none {α : Type} (name : String) (body : List Visit → α → Matching Unit) :
    m.inside path id v none name body = m.requireNamed name v := by
  cases v <;> rfl

theorem inside_map {α β : Type} (content : Option α) (name : String) (f : α → β)
    (body : List Visit → β → Matching Unit) :
    m.inside path id v (content.map f) name body =
      m.inside path id v content name fun path a => body path (f a) := by
  cases v <;> cases content <;> rfl

theorem matchBelow_node : m.matchBelow (budget + 1) path (.node id) v = (do
    m.requireFirst (m.schemas.node id) v
    m.inside path id v (m.demands (m.schemas.node id) v) (m.schemas.node id).containerName
      fun path ds => ds.forM (Demand.meet (m.matchBelow budget path))) := by
  cases hs : m.schemas.node id with
  | list ss =>
    match ss with
    | [] =>
      rw [matchBelow, hs]
      rfl
    | [s] =>
      rw [matchBelow_array hs, demands, inside_map]
      simp only [matchItems_eq]
      rfl
    | s :: t :: ts =>
      rw [matchBelow_tuple hs (by simp), demands, inside_map]
      · simp only [matchTuple_eq]
        rfl
      · simp
  | shape shape =>
    rw [matchBelow_shape hs, demands, inside_map]
    simp only [matchProperties_eq]
    rfl

theorem items?_of_demands {ss : List Schema} {ds : List Demand}
    (h : m.demands (.list ss) v = some ds) : ∃ items, v.items? m.world = some items ∧
      ((∃ s, ss = [s] ∧ ds = Demand.ofItems s items) ∨ ds = Demand.ofTuple ss items) := by
  match ss with
  | [s] =>
    obtain ⟨items, hi, rfl⟩ := Option.map_eq_some_iff.1 h
    exact ⟨items, hi, .inl ⟨s, rfl, rfl⟩⟩
  | [] | s :: t :: ts =>
    obtain ⟨items, hi, rfl⟩ := Option.map_eq_some_iff.1 h
    exact ⟨items, hi, .inr rfl⟩

theorem properties?_of_demands {shape : Shape} {ds : List Demand}
    (h : m.demands (.shape shape) v = some ds) : ∃ properties,
      v.properties? m.world = some properties ∧
        ds = Demand.ofShape m.config.denyExcess shape properties := by
  obtain ⟨properties, hp, rfl⟩ := Option.map_eq_some_iff.1 h
  exact ⟨properties, hp, rfl⟩

theorem part_of_demands {n : SchemaNode} {ds : List Demand} (h : m.demands n v = some ds)
    {step : Step} {s : Schema} {u : Value} (hd : .part step s u ∈ ds) :
    s ∈ n.children ∧ step.follow m.world v = u := by
  cases n with
  | list ss =>
    obtain ⟨items, hi, ⟨t, rfl, rfl⟩ | rfl⟩ := items?_of_demands h
    · obtain ⟨i, x, hx, he⟩ := Demand.mem_ofItems.1 hd
      cases he
      exact ⟨by simp [SchemaNode.children], by simp [Step.follow, Value.item, hi, hx]⟩
    · obtain ⟨i, t, ht, he⟩ | ⟨-, he⟩ := Demand.mem_ofTuple.1 hd <;> cases he
      exact ⟨List.mem_of_getElem? ht, by simp [Step.follow, Value.item, hi]⟩
  | shape shape =>
    obtain ⟨properties, hp, rfl⟩ := properties?_of_demands h
    obtain ⟨f, hf, he⟩ | ⟨-, e, hmem, -, hd⟩ := Demand.mem_ofShape.1 hd
    · cases he
      exact ⟨List.mem_append_left _ (List.mem_map_of_mem hf),
        by simp [Step.follow, Value.property, hp]⟩
    · obtain ⟨t, ht, he⟩ | ⟨t, ht, he⟩ | ⟨-, he⟩ := Demand.mem_ofUndeclared.1 hd <;> cases he
      · exact ⟨by simp [SchemaNode.children, ht], rfl⟩
      · exact ⟨by simp [SchemaNode.children, ht],
          by simp [Step.follow, Value.property, hp, properties.get?_of_mem_entries hmem]⟩

theorem refusal_of_demands {n : SchemaNode} {ds : List Demand} (h : m.demands n v = some ds)
    {reason : Reason} {u : Value} (hd : .refusal reason u ∈ ds) :
    (∃ ss items, n = .list ss ∧ v.items? m.world = some items ∧ ss.length < items.length ∧
      reason = .itemCount ss.length ∧ u = .number (.ofNat items.length)) ∨
    ∃ shape properties key, n = .shape shape ∧ v.properties? m.world = some properties ∧
      key ∈ properties.keys ∧ shape.declares key = false ∧
        reason = .unexpectedKey ∧ u = .str key := by
  cases n with
  | list ss =>
    obtain ⟨items, hi, ⟨t, rfl, rfl⟩ | rfl⟩ := items?_of_demands h
    · obtain ⟨i, x, hx, he⟩ := Demand.mem_ofItems.1 hd
      cases he
    · obtain ⟨i, t, ht, he⟩ | ⟨hl, he⟩ := Demand.mem_ofTuple.1 hd <;> cases he
      exact .inl ⟨ss, items, rfl, hi, hl, rfl, rfl⟩
  | shape shape =>
    obtain ⟨properties, hp, rfl⟩ := properties?_of_demands h
    obtain ⟨f, hf, he⟩ | ⟨-, e, hmem, hu, hd⟩ := Demand.mem_ofShape.1 hd
    · cases he
    · obtain ⟨t, ht, he⟩ | ⟨t, ht, he⟩ | ⟨-, he⟩ := Demand.mem_ofUndeclared.1 hd <;> cases he
      exact .inr ⟨shape, properties, e.1, rfl, hp, List.mem_map_of_mem hmem, hu, rfl, rfl⟩

variable (m) in
inductive Entering (path : List Visit) (visit : Visit) : Matching (Option (List Visit)) → Prop where
  | circular (h : ∃ u ∈ path, u.node = visit.node) :
      Entering path visit (throw (.config .circularType))
  | known (hn : ∀ u ∈ path, u.node ≠ visit.node) (hc : ∃ u ∈ path, u.cell = visit.cell) :
      Entering path visit (return none)
  | tooDeep (hn : ∀ u ∈ path, u.node ≠ visit.node) (hc : ∀ u ∈ path, u.cell ≠ visit.cell)
      {limit : Nat} (hl : m.config.maxDepth = some limit) (hd : limit < path.length + 1) :
      Entering path visit (throw (.config (.depthExceeded limit)))
  | entered (hn : ∀ u ∈ path, u.node ≠ visit.node) (hc : ∀ u ∈ path, u.cell ≠ visit.cell)
      (hd : ∀ limit, m.config.maxDepth = some limit → path.length + 1 ≤ limit) :
      Entering path visit (return some (visit :: path))

variable (m) in
theorem entering (path : List Visit) (visit : Visit) :
    m.Entering path visit (m.enter path visit) := by
  rw [Matcher.enter]
  split
  · next h => exact .circular (by simpa using h)
  · next hn =>
    have hn : ∀ u ∈ path, u.node ≠ visit.node := by simpa using hn
    split
    · next h => exact .known hn (by simpa using h)
    · next hc =>
      have hc : ∀ u ∈ path, u.cell ≠ visit.cell := by simpa using hc
      split
      · next limit hl =>
        split
        · next hd => exact .tooDeep hn hc hl hd
        · next hd =>
          refine .entered hn hc fun l h => ?_
          rw [hl] at h
          cases h
          omega
      · next hl =>
        refine .entered hn hc fun l h => ?_
        rw [hl] at h
        cases h

theorem container_of_items? {items : List Value} (h : v.items? m.world = some items) :
    ∃ cell, v = .container cell := by
  cases v with
  | container cell => exact ⟨cell, rfl⟩
  | _ => cases h

theorem container_of_properties? {properties : Keyed Value}
    (h : v.properties? m.world = some properties) : ∃ cell, v = .container cell := by
  cases v with
  | container cell => exact ⟨cell, rfl⟩
  | _ => cases h

theorem container_of_demands {n : SchemaNode} {ds : List Demand} (h : m.demands n v = some ds) :
    ∃ cell, v = .container cell := by
  cases n with
  | list ss =>
    obtain ⟨items, hi, -⟩ := items?_of_demands h
    exact container_of_items? hi
  | shape shape =>
    obtain ⟨properties, hp, -⟩ := properties?_of_demands h
    exact container_of_properties? hp

variable (m) in
inductive Looking (path : List Visit) (id : NodeId) (v : Value)
    (body : List Visit → List Demand → Matching Unit) : Matching Unit → Prop where
  | outside (hds : m.demands (m.schemas.node id) v = none) :
      Looking path id v body (m.requireNamed (m.schemas.node id).containerName v)
  | circular (h : ∃ u ∈ path, u.node = id) :
      Looking path id v body (throw (.config .circularType))
  | known {cell : CellId} (hv : v = .container cell) (hc : ∃ u ∈ path, u.cell = cell) :
      Looking path id v body (return ())
  | tooDeep (hn : ∀ u ∈ path, u.node ≠ id) {limit : Nat}
      (hl : m.config.maxDepth = some limit) (hd : limit < path.length + 1) :
      Looking path id v body (throw (.config (.depthExceeded limit)))
  | entered {cell : CellId} {ds : List Demand} (hv : v = .container cell)
      (hds : m.demands (m.schemas.node id) v = some ds) (hn : ∀ u ∈ path, u.node ≠ id)
      (hc : ∀ u ∈ path, u.cell ≠ cell)
      (hd : ∀ limit, m.config.maxDepth = some limit → path.length + 1 ≤ limit) :
      Looking path id v body (body (⟨id, cell⟩ :: path) ds)

variable (m) in
theorem looking (path : List Visit) (id : NodeId) (v : Value)
    (body : List Visit → List Demand → Matching Unit) :
    m.Looking path id v body (m.inside path id v (m.demands (m.schemas.node id) v)
      (m.schemas.node id).containerName body) := by
  cases hds : m.demands (m.schemas.node id) v with
  | none =>
    rw [inside_none]
    exact .outside hds
  | some ds =>
    obtain ⟨cell, rfl⟩ := container_of_demands hds
    have he := m.entering path ⟨id, cell⟩
    rw [inside]
    generalize m.enter path ⟨id, cell⟩ = entered at he
    cases he with
    | circular h => exact .circular h
    | known _ hc => exact .known rfl hc
    | tooDeep hn _ hl hd => exact .tooDeep hn hl hd
    | entered hn hc hd => exact .entered rfl hds hn hc hd

variable (m) in
structure Above (path : List Visit) (s : Schema) : Prop where
  reaches : ∀ u ∈ path, TransGen (Schema.Child m.schemas) (.node u.node) s
  nodup : (path.map Visit.node).Nodup
  stored : ∀ u ∈ path, u.node < m.schemas.nodes.size

theorem Above.length_le {s : Schema} (h : m.Above path s) :
    path.length ≤ m.schemas.nodes.size := by
  have hs : path.map Visit.node ⊆ List.range m.schemas.nodes.size := by
    intro id hid
    obtain ⟨u, hu, rfl⟩ := List.mem_map.1 hid
    exact List.mem_range.2 (h.stored u hu)
  simpa using List.Nodup.length_le_of_subset h.nodup hs

theorem lt_size_of_node_ne (h : m.schemas.node id ≠ .list []) : id < m.schemas.nodes.size := by
  by_contra hid
  exact h (by simp [SchemaStore.node, Array.getElem?_eq_none (Nat.le_of_not_lt hid)])

theorem Above.enter {s : Schema} {cell : CellId} (h : m.Above path (.node id))
    (hid : ∀ u ∈ path, u.node ≠ id) (hne : m.schemas.node id ≠ .list [])
    (hs : s ∈ (m.schemas.node id).children) : m.Above (⟨id, cell⟩ :: path) s where
  reaches := by
    have hc : TransGen (Schema.Child m.schemas) (.node id) s := .single hs
    rw [List.forall_mem_cons]
    exact ⟨hc, fun u hu => (h.reaches u hu).trans hc⟩
  nodup := by
    rw [List.map_cons, List.nodup_cons]
    refine ⟨?_, h.nodup⟩
    intro hmem
    obtain ⟨u, hu, he⟩ := List.mem_map.1 hmem
    exact hid u hu he
  stored := by
    rw [List.forall_mem_cons]
    exact ⟨lt_size_of_node_ne hne, h.stored⟩

end Matcher

end ValueCheck
