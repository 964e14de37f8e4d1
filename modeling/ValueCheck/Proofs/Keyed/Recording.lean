import Mathlib.Data.List.Basic
import ValueCheck.Schema.Basic
import ValueCheck.Value.Basic

/-! Keyed stores as ordered maps: keys in the order in which they came first, each with the value
that came with it last. Objects and shapes are such stores, whatever is changed beside them. -/

namespace ValueCheck

namespace Keyed

variable {α : Type} {s : Keyed α} {ps : List (String × α)}

/-- The store is the ordered map of the pairs that were put into it, one after the other. -/
structure Records (s : Keyed α) (ps : List (String × α)) : Prop where
  nodup : s.keys.Nodup
  keys : s.keys = (ps.map Prod.fst).eraseDups
  get? (key : String) : s.get? key = ps.reverse.lookup key
  contains (key : String) : s.contains key = true ↔ key ∈ ps.map Prod.fst
  size : s.size = (ps.map Prod.fst).eraseDups.length
  entries : s.entries = (ps.map Prod.fst).eraseDups.filterMap fun key =>
    (ps.reverse.lookup key).map (key, ·)

theorem entries_eq_filterMap (s : Keyed α) :
    s.entries = s.keys.filterMap fun key => (s.get? key).map (key, ·) := by
  have hentry : ∀ p ∈ s.entries, (s.get? p.1).map (p.1, ·) = some p := by
    intro p hp
    rw [s.get?_of_mem_entries hp, Option.map_some]
  rw [keys, List.filterMap_map, Function.comp_def, List.filterMap_congr hentry,
    List.filterMap_some]

theorem Records.of_get? (hkeys : s.keys = (ps.map Prod.fst).eraseDups)
    (hget : ∀ key, s.get? key = ps.reverse.lookup key) : s.Records ps where
  nodup := s.nodup
  keys := hkeys
  get? := hget
  contains key := by rw [s.contains_iff, hkeys, List.mem_eraseDups]
  size := by
    have hlength : s.keys.length = s.size := List.length_map _
    rw [← hkeys, hlength]
  entries := by
    rw [s.entries_eq_filterMap, hkeys]
    simp only [hget]

theorem Records.empty : (empty : Keyed α).Records [] := .of_get? rfl fun _ => rfl

theorem Records.insert (h : s.Records ps) (key : String) (a : α) :
    (s.insert key a).Records (ps ++ [(key, a)]) := by
  apply Records.of_get?
  · rw [keys_insert, h.keys, List.map_append, List.eraseDups_append]
    by_cases hk : key ∈ ps.map Prod.fst
    · rw [if_pos (List.mem_eraseDups.2 hk)]
      simp [List.removeAll, hk]
    · rw [if_neg (mt List.mem_eraseDups.1 hk)]
      simp [List.removeAll, hk, List.eraseDups_cons]
  · intro other
    rw [List.reverse_append, List.reverse_singleton, List.singleton_append, List.lookup_cons]
    by_cases ho : other = key
    · rw [ho, get?_insert_self, beq_self_eq_true]
    · rw [get?_insert_ne s a ho, h.get?, beq_false_of_ne ho]

theorem Records.insertAll (h : s.Records ps) (more : List (String × α)) :
    (s.insertAll more).Records (ps ++ more) := by
  induction more generalizing s ps with
  | nil => rwa [List.append_nil]
  | cons p more ih =>
    rw [List.append_cons]
    exact ih (h.insert p.1 p.2)

theorem records_ofList (ps : List (String × α)) : (ofList ps).Records ps :=
  Records.empty.insertAll ps

example : (ofList [("b", 1), ("a", 2), ("b", 3)]).entries = [("b", 3), ("a", 2)] := by decide

theorem getElem?_put_of_ne {key other : String} (h : other ≠ key) (a b : α)
    (ps : List (String × α)) (i : Nat) :
    (put key a ps)[i]? = some (other, b) ↔ ps[i]? = some (other, b) := by
  induction ps generalizing i with
  | nil => cases i <;> simp [put, h.symm]
  | cons p ps ih =>
    obtain ⟨k, c⟩ := p
    rw [put]
    split
    · next hk =>
      cases i with
      | zero => simp [hk, h.symm]
      | succ i => exact Iff.rfl
    · cases i with
      | zero => exact Iff.rfl
      | succ i => exact ih i

theorem recorded_foldl {State Change : Type} {apply : State → Change → State}
    {given? : Change → Option (String × α)} (Holds : State → List (String × α) → Prop)
    (hstep : ∀ state ps change, Holds state ps →
      Holds (apply state change) (ps ++ (given? change).toList))
    {state : State} (h : Holds state ps) (changes : List Change) :
    Holds (changes.foldl apply state) (ps ++ changes.filterMap given?) := by
  induction changes generalizing state ps with
  | nil => simpa using h
  | cons change changes ih =>
    have hrest := ih (hstep state ps change h)
    rw [List.append_assoc] at hrest
    cases hg : given? change <;> simpa [hg] using hrest

end Keyed

namespace World

inductive Change where
  | make (c : Cell)
  | insert (target : Value) (key : String) (v : Value)
  | push (target v : Value)
  | append (target v : Value)
  | appendPair (target key v : Value)

namespace Change

def apply (w : World) : Change → World
  | make c => (Value.newCell c w).2
  | insert target key v => (w.insert target key v).getD w
  | push target v => (w.push target v).getD w
  | append target v => w.append target v
  | appendPair target key v => w.appendPair target key v

def insertion? (target : Value) : Change → Option (String × Value)
  | insert t key v => if t = target then some (key, v) else none
  | _ => none

end Change

def after (w : World) (changes : List Change) : World := changes.foldl Change.apply w

def insertions (target : Value) (changes : List Change) : List (String × Value) :=
  changes.filterMap (Change.insertion? target)

def IsObject (w : World) (id : CellId) (cls : Option Class) (ps : List (String × Value)) : Prop :=
  id < w.cells.size ∧ ∃ properties, w.cell id = .object cls properties ∧ properties.Records ps

variable {w : World} {id : CellId} {cls : Option Class} {ps : List (String × Value)}

theorem IsObject.write {c : Cell} {other : CellId} (h : w.IsObject id cls ps)
    (hc : id = other → ∃ properties, c = .object cls properties ∧ properties.Records ps) :
    (w.write other c).IsObject id cls ps := by
  obtain ⟨hlt, hcell⟩ := h
  refine ⟨by rwa [World.write, Array.size_setIfInBounds], ?_⟩
  by_cases ho : id = other
  · obtain ⟨properties, rfl, hp⟩ := hc ho
    subst ho
    exact ⟨properties, cell_write_self w _ hlt, hp⟩
  · rwa [cell_write_ne w c (Ne.symm ho)]

theorem IsObject.write_of_ne {c : Cell} {other : CellId} (h : w.IsObject id cls ps)
    (hother : ∀ properties, w.cell other ≠ .object cls properties) :
    (w.write other c).IsObject id cls ps := by
  apply h.write
  rintro rfl
  obtain ⟨-, properties, hcell, -⟩ := h
  exact absurd hcell (hother properties)

theorem IsObject.make (h : w.IsObject id cls ps) (c : Cell) :
    (Value.newCell c w).2.IsObject id cls ps := by
  obtain ⟨hlt, properties, hcell, hp⟩ := h
  have hsize : (w.cells.push c).size = w.cells.size + 1 := Array.size_push c
  refine ⟨hsize ▸ Nat.lt_succ_of_lt hlt, properties, ?_, hp⟩
  rw [← hcell]
  change (w.cells.push c)[id]?.getD (.array []) = w.cells[id]?.getD (.array [])
  rw [Array.getElem?_push_lt hlt, Array.getElem?_eq_getElem hlt]

theorem IsObject.insert (h : w.IsObject id cls ps) (key : String) (v : Value) :
    ∃ w', w.insert (.container id) key v = some w' ∧ w'.IsObject id cls (ps ++ [(key, v)]) := by
  obtain ⟨hlt, properties, hcell, hp⟩ := h
  refine ⟨w.write id (.object cls (properties.insert key v)), ?_, ?_⟩
  · simp only [World.insert, hcell]
  · refine ⟨by rwa [World.write, Array.size_setIfInBounds], _, cell_write_self w _ hlt, ?_⟩
    exact hp.insert key v

theorem IsObject.insert_of_ne {target v : Value} {key : String} (h : w.IsObject id cls ps)
    (ht : target ≠ .container id) : ((w.insert target key v).getD w).IsObject id cls ps := by
  unfold World.insert
  split
  · next other =>
    split
    · exact h.write fun he => absurd (congrArg Value.container he.symm) ht
    · exact h
  · exact h

theorem IsObject.apply (h : w.IsObject id cls ps) (change : Change) :
    (change.apply w).IsObject id cls (ps ++ (change.insertion? (.container id)).toList) := by
  cases change with
  | insert target key v =>
    by_cases ht : target = .container id
    · subst ht
      obtain ⟨w', hw, h'⟩ := h.insert key v
      simpa [Change.apply, Change.insertion?, hw] using h'
    · simpa [Change.apply, Change.insertion?, ht] using h.insert_of_ne ht
  | make c => simpa [Change.apply, Change.insertion?] using h.make c
  | push target v =>
    simp only [Change.apply, World.push, Change.insertion?, Option.toList_none, List.append_nil]
    split
    · split
      · next items hc => exact h.write_of_ne (by simp [hc])
      · exact h
    · exact h
  | append target v =>
    simp only [Change.apply, World.append, Change.insertion?, Option.toList_none, List.append_nil]
    split
    · split
      · next items hc => exact h.write_of_ne (by simp [hc])
      · next items hc => exact h.write_of_ne (by simp [hc])
      · exact h
    · exact h
  | appendPair target key v =>
    simp only [Change.apply, World.appendPair, Change.insertion?, Option.toList_none,
      List.append_nil]
    split
    · split
      · next pairs hc => exact h.write_of_ne (by simp [hc])
      · exact h
    · exact h

theorem IsObject.after (h : w.IsObject id cls ps) (changes : List Change) :
    (w.after changes).IsObject id cls (ps ++ insertions (.container id) changes) :=
  Keyed.recorded_foldl (fun w ps => IsObject w id cls ps) (fun _ _ change h => h.apply change) h
    changes

theorem isObject_newCell (w : World) (cls : Option Class) (ps : List (String × Value)) :
    (Value.newCell (.object cls (.ofList ps)) w).2.IsObject w.cells.size cls ps := by
  refine ⟨?_, .ofList ps, ?_, Keyed.records_ofList ps⟩
  · exact Array.size_push _ ▸ Nat.lt_succ_self _
  · change (w.cells.push (.object cls (.ofList ps)))[w.cells.size]?.getD (.array []) = _
    rw [Array.getElem?_push_size, Option.getD_some]

end World

namespace Value

/-- What can be asked of an object is answered by the class it was made with and by the pairs
that were put into it. -/
structure Bears (w : World) (v : Value) (cls : Option Class) (ps : List (String × Value)) :
    Prop where
  class? : v.class? w = cls
  properties? : ∃ properties, v.properties? w = some properties ∧ properties.Records ps
  property (key : String) : v.property w key = (ps.reverse.lookup key).getD .undefined
  size? : v.size? w = some (.ofNat (ps.map Prod.fst).eraseDups.length)

end Value

theorem World.IsObject.bears {w : World} {id : CellId} {cls : Option Class}
    {ps : List (String × Value)} (h : w.IsObject id cls ps) :
    (Value.container id).Bears w cls ps := by
  obtain ⟨-, properties, hcell, hp⟩ := h
  have hproperties : (Value.container id).properties? w = some properties := by
    simp only [Value.properties?, Value.cell?, hcell]
  refine ⟨by simp only [Value.class?, Value.cell?, hcell], ⟨properties, hproperties, hp⟩, ?_, ?_⟩
  · intro key
    rw [Value.property, hproperties, Option.bind_some, hp.get?]
  · rw [← hp.size]
    simp only [Value.size?, Value.cell?, Option.map_some, hcell, Cell.size]

namespace SchemaStore

inductive Change where
  | make (n : SchemaNode)
  | push (id : NodeId) (item : Schema)
  | insertField (id : NodeId) (key : String) (field : Schema)
  | mark (id : NodeId) (cls : Option Class) (keys values : Option Schema)

namespace Change

def apply (store : SchemaStore) : Change → SchemaStore
  | make n => (SchemaStore.add n store).2
  | push id item => store.push id item
  | insertField id key field => store.insertField id key field
  | mark id cls keys values => store.updateShape id fun shape =>
    ⟨shape.fields, cls <|> shape.cls, keys <|> shape.keys, values <|> shape.values⟩

def insertion? (target : Schema) : Change → Option (String × Schema)
  | insertField id key field => if .node id = target then some (key, field) else none
  | _ => none

end Change

def after (store : SchemaStore) (changes : List Change) : SchemaStore :=
  changes.foldl Change.apply store

def insertions (target : Schema) (changes : List Change) : List (String × Schema) :=
  changes.filterMap (Change.insertion? target)

def IsShape (store : SchemaStore) (id : NodeId) (ps : List (String × Schema)) : Prop :=
  id < store.nodes.size ∧ ∃ shape, store.node id = .shape shape ∧ shape.fields.Records ps

variable {store : SchemaStore} {id other : NodeId} {ps : List (String × Schema)}

theorem IsShape.write {n : SchemaNode} (h : store.IsShape id ps)
    (hn : id = other → ∃ shape, n = .shape shape ∧ shape.fields.Records ps) :
    (store.write other n).IsShape id ps := by
  obtain ⟨hlt, hnode⟩ := h
  refine ⟨by rwa [SchemaStore.write, Array.size_setIfInBounds], ?_⟩
  by_cases ho : id = other
  · obtain ⟨shape, rfl, hp⟩ := hn ho
    subst ho
    exact ⟨shape, node_write_self store _ hlt, hp⟩
  · rwa [node_write_ne store n (Ne.symm ho)]

theorem IsShape.make (h : store.IsShape id ps) (n : SchemaNode) :
    (SchemaStore.add n store).2.IsShape id ps := by
  obtain ⟨hlt, shape, hnode, hp⟩ := h
  have hsize : (store.nodes.push n).size = store.nodes.size + 1 := Array.size_push n
  refine ⟨hsize ▸ Nat.lt_succ_of_lt hlt, shape, ?_, hp⟩
  rw [node_add_of_ne store n (by simp [hnode]), hnode]

theorem IsShape.updateShape {change : Shape → Shape} {more : List (String × Schema)}
    (h : store.IsShape id ps)
    (hc : ∀ shape, shape.fields.Records ps → (change shape).fields.Records more) :
    (store.updateShape id change).IsShape id more := by
  obtain ⟨hlt, shape, hnode, hp⟩ := h
  rw [SchemaStore.updateShape, hnode]
  refine ⟨?_, change shape, node_write_self store _ hlt, hc shape hp⟩
  exact (Array.size_setIfInBounds ..).symm ▸ hlt

theorem IsShape.updateShape_of_ne {change : Shape → Shape} (h : store.IsShape id ps)
    (ho : other ≠ id) : (store.updateShape other change).IsShape id ps := by
  unfold SchemaStore.updateShape
  split
  · exact h.write fun he => absurd he.symm ho
  · exact h

theorem IsShape.apply (h : store.IsShape id ps) (change : Change) :
    (change.apply store).IsShape id (ps ++ (change.insertion? (.node id)).toList) := by
  cases change with
  | insertField other key field =>
    by_cases ho : other = id
    · subst ho
      simp only [Change.insertion?, if_true, Option.toList_some]
      exact h.updateShape fun shape hp => hp.insert key field
    · simpa [Change.apply, Change.insertion?, ho, insertField] using h.updateShape_of_ne ho
  | make n => simpa [Change.apply, Change.insertion?] using h.make n
  | push other item =>
    simp only [Change.apply, SchemaStore.push, Change.insertion?, Option.toList_none,
      List.append_nil]
    split
    · next items hn =>
      apply h.write
      rintro rfl
      obtain ⟨-, shape, hnode, -⟩ := h
      cases hn.symm.trans hnode
    · exact h
  | mark other cls keys values =>
    simp only [Change.apply, Change.insertion?, Option.toList_none, List.append_nil]
    by_cases ho : other = id
    · subst ho
      exact h.updateShape fun shape hp => hp
    · exact h.updateShape_of_ne ho

theorem IsShape.after (h : store.IsShape id ps) (changes : List Change) :
    (store.after changes).IsShape id (ps ++ insertions (.node id) changes) :=
  Keyed.recorded_foldl (fun store ps => IsShape store id ps)
    (fun _ _ change h => h.apply change) h changes

end SchemaStore

namespace Schema

def Declares (store : SchemaStore) (s : Schema) (ps : List (String × Schema)) : Prop :=
  ∃ id shape, s = .node id ∧ store.node id = .shape shape ∧ shape.fields.Records ps ∧
    ∀ key, shape.declares key = true ↔ key ∈ ps.map Prod.fst

end Schema

theorem SchemaStore.IsShape.declares {store : SchemaStore} {id : NodeId}
    {ps : List (String × Schema)} (h : store.IsShape id ps) :
    (Schema.node id).Declares store ps := by
  obtain ⟨-, shape, hnode, hp⟩ := h
  exact ⟨id, shape, rfl, hnode, hp, hp.contains⟩

theorem SchemaStore.isShape_newShape (store : SchemaStore) (fields : List (String × Schema))
    (cls : Option Class) (keys values : Option Schema) :
    (Schema.newShape ⟨.ofList fields, cls, keys, values⟩ store).2.IsShape store.nodes.size
      fields := by
  refine ⟨?_, _, node_add_self store _, Keyed.records_ofList fields⟩
  exact Array.size_push _ ▸ Nat.lt_succ_self _

theorem insertions_recorded :
    (∀ (w : World) (pairs : List (String × Value)) (changes : List World.Change),
      let (object, made) := Value.newObject pairs w
      object.Bears (made.after changes) none (pairs ++ World.insertions object changes)) ∧
    (∀ (w : World) (c : Class) (pairs : List (String × Value)) (changes : List World.Change),
      let (object, made) := Value.newInstance c pairs w
      object.Bears (made.after changes) (some c) (pairs ++ World.insertions object changes)) ∧
    (∀ (store : SchemaStore) (fields : List (String × Schema)) (cls : Option Class)
      (keys values : Option Schema) (changes : List SchemaStore.Change),
      let (shape, made) := Schema.newShape ⟨.ofList fields, cls, keys, values⟩ store
      shape.Declares (made.after changes) (fields ++ SchemaStore.insertions shape changes)) ∧
    ∀ (α : Type) (s : Keyed α) (key other : String) (a b : α) (i : Nat), other ≠ key →
      ((s.insert key a).entries[i]? = some (other, b) ↔ s.entries[i]? = some (other, b)) := by
  refine ⟨?_, ?_, ?_, ?_⟩
  · intro w pairs changes
    exact ((World.isObject_newCell w none pairs).after changes).bears
  · intro w c pairs changes
    exact ((World.isObject_newCell w (some c) pairs).after changes).bears
  · intro store fields cls keys values changes
    exact ((store.isShape_newShape fields cls keys values).after changes).declares
  · intro α s key other a b i hne
    exact Keyed.getElem?_put_of_ne hne a b s.entries i

end ValueCheck
