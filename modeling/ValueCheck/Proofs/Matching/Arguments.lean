import ValueCheck.Proofs.Engine.Operation
import ValueCheck.Proofs.Matching.Isolation

/-! Arguments by position, and the array of them. Where nothing leads back to the array or to
the list of the schemas, that both are on the path makes no difference to what is matched below. -/

namespace ValueCheck

open Relation Matching
open Registry (bind_apply adapt_apply)

def Value.Intact (w : World) (v : Value) : Prop :=
  ∀ id, ReflTransGen (Child w) v (.container id) → id < w.cells.size

def Schema.Intact (store : SchemaStore) (s : Schema) : Prop :=
  ∀ id, ReflTransGen (Child store) s (.node id) → id < store.nodes.size

theorem reaches_of_agree {α : Type} {p q : α → α → Prop} {a b : α}
    (h : ∀ x y, ReflTransGen p a x → q x y → p x y) (hb : ReflTransGen q a b) :
    ReflTransGen p a b := by
  induction hb with
  | refl => exact .refl
  | tail _ hxy ih => exact ih.tail (h _ _ ih hxy)

theorem Value.intact_of_cells {w : World} {v : Value}
    (hw : ∀ id id', .container id' ∈ (w.cell id).children → id' < w.cells.size)
    (hv : ∀ id, v = .container id → id < w.cells.size) : v.Intact w := by
  intro id hr
  obtain h | ⟨u, -, hu⟩ := ReflTransGen.cases_tail hr
  · exact hv id h.symm
  · obtain ⟨id', rfl⟩ := exists_container_of_child hu
    exact hw id' id hu

theorem Value.Intact.not_reaches_new {w : World} {v : Value} (h : v.Intact w) (c : Cell) :
    ¬ ReflTransGen (Child (newCell c w).2) v (newCell c w).1 := by
  intro hr
  suffices hw : ReflTransGen (Child w) v (.container w.cells.size) from
    Nat.lt_irrefl _ (h _ hw)
  refine reaches_of_agree ?_ hr
  intro x y hx hxy
  obtain ⟨id, rfl⟩ := exists_container_of_child hxy
  have hid := h id hx
  have hcell : (newCell c w).2.cell id = w.cell id := by
    change (w.cells.push c)[id]?.getD _ = w.cells[id]?.getD _
    rw [Array.getElem?_push_lt hid, Array.getElem?_eq_getElem hid]
  change y ∈ ((newCell c w).2.cell id).children at hxy
  rwa [hcell] at hxy

theorem Schema.intact_of_nodes {store : SchemaStore} {s : Schema}
    (hn : ∀ id id', .node id' ∈ (store.node id).children → id' < store.nodes.size)
    (hs : ∀ id, s = .node id → id < store.nodes.size) : s.Intact store := by
  intro id hr
  obtain h | ⟨u, -, hu⟩ := ReflTransGen.cases_tail hr
  · exact hs id h.symm
  · cases u with
    | node id' => exact hn id' id hu
    | _ => cases hu

theorem Schema.Intact.not_reaches_new {store : SchemaStore} {s : Schema} (h : s.Intact store)
    (n : SchemaNode) : ¬ ReflTransGen (Child (SchemaStore.add n store).2) s
      (.node (SchemaStore.add n store).1) := by
  intro hr
  suffices hw : ReflTransGen (Child store) s (.node store.nodes.size) from
    Nat.lt_irrefl _ (h _ hw)
  refine reaches_of_agree ?_ hr
  intro x y hx hxy
  cases x with
  | node id =>
    have hid := h id hx
    have hnode : (SchemaStore.add n store).2.node id = store.node id := by
      change (store.nodes.push n)[id]?.getD _ = store.nodes[id]?.getD _
      rw [Array.getElem?_push_lt hid, Array.getElem?_eq_getElem hid]
    change y ∈ ((SchemaStore.add n store).2.node id).children at hxy
    rwa [hnode] at hxy
  | _ => cases hxy

theorem forM_congr {α : Type} {l : List α} {f g : α → Matching Unit} (h : ∀ a ∈ l, f a = g a) :
    l.forM f = l.forM g := by
  induction l with
  | nil => rfl
  | cons a l ih =>
    rw [List.forall_mem_cons] at h
    change (do f a; l.forM f) = do g a; l.forM g
    rw [h.1, ih h.2]

namespace Matcher

variable {m : Matcher} {budget : Nat} {inner outer path : List Visit} {id : NodeId} {s : Schema}
  {v : Value}

variable (m) in
def Untouched (path : List Visit) (s : Schema) : Prop :=
  ∀ u ∈ path, ¬ ReflTransGen (Schema.Child m.schemas) s (.node u.node)

theorem Untouched.child {u : Schema} (h : m.Untouched path s) (hu : Schema.Child m.schemas s u) :
    m.Untouched path u :=
  fun x hx hr => h x hx (.head hu hr)

theorem Clear.part (h : m.Clear path v) (step : Step) :
    m.Clear path (step.follow m.world v) := by
  rcases @follow_cases m v step with hu | hu
  · have hc : Value.Child m.world v (step.follow m.world v) := hu
    exact fun x hx hr => h x hx (.head hc hr)
  · exact .of_scalar (children_of_scalar hu) hu

theorem enter_append {visit : Visit} (hd : m.config.maxDepth = none)
    (hn : ∀ u ∈ outer, u.node ≠ visit.node) (hc : ∀ u ∈ outer, u.cell ≠ visit.cell) :
    m.enter (inner ++ outer) visit =
      (do return (← m.enter inner visit).map (· ++ outer)) := by
  have hnode : outer.any (·.node == visit.node) = false := by simpa using hn
  have hcell : outer.any (·.cell == visit.cell) = false := by simpa using hc
  rw [enter, enter, List.any_append, List.any_append, hnode, hcell, Bool.or_false,
    Bool.or_false, hd]
  split
  · rfl
  · split <;> rfl

theorem matchBelow_append (hd : m.config.maxDepth = none) (ha : m.Above (inner ++ outer) s)
    (hs : m.Untouched outer s) (hv : m.Clear outer v)
    (hb : budget + (inner ++ outer).length = m.schemas.nodes.size + 1) :
    m.matchBelow budget (inner ++ outer) s v = m.matchBelow (budget + outer.length) inner s v := by
  induction budget generalizing inner s v with
  | zero =>
    have hl := ha.length_le
    omega
  | succ budget ih =>
    cases s with
    | node id =>
      rw [Nat.add_right_comm, matchBelow_node, matchBelow_node]
      by_cases hne : m.schemas.node id = .list []
      · rw [hne]
        rfl
      refine bind_congr fun _ => ?_
      cases hds : m.demands (m.schemas.node id) v with
      | none => rw [inside_none, inside_none]
      | some ds =>
        obtain ⟨cell, rfl⟩ := container_of_demands hds
        have hn : ∀ u ∈ outer, u.node ≠ id := by
          rintro u hu rfl
          exact hs u hu .refl
        have hc : ∀ u ∈ outer, u.cell ≠ cell := by
          rintro u hu rfl
          exact hv u hu .refl
        rw [inside, inside, enter_append hd hn hc]
        have he := m.entering inner ⟨id, cell⟩
        generalize m.enter inner ⟨id, cell⟩ = entered at he
        cases he with
        | circular | known | tooDeep => rfl
        | entered hi _ _ =>
          have hid : ∀ u ∈ inner ++ outer, u.node ≠ id := by
            rw [List.forall_mem_append]
            exact ⟨hi, hn⟩
          -- The list or shape was entered on both sides, so its parts are matched alike.
          refine forM_congr fun d hmem => ?_
          cases d with
          | part step s u =>
            obtain ⟨hchild, rfl⟩ := part_of_demands hds hmem
            have hu := @ih (⟨id, cell⟩ :: inner) s (step.follow m.world (.container cell))
              (ha.enter hid hne hchild) (hs.child hchild) (hv.part step)
              (by simp only [List.cons_append, List.length_cons]; omega)
            exact congrArg (below step) hu
          | refusal reason u => rfl
    | _ => exact matchBelow_leaf (by simp)

theorem matchBelow_argument {cell : CellId} {ss : List Schema} (hd : m.config.maxDepth = none)
    (hid : m.schemas.node id = .list ss) (hs : s ∈ ss) (hu : m.Untouched [⟨id, cell⟩] s)
    (hv : m.Clear [⟨id, cell⟩] v) :
    m.matchBelow m.schemas.nodes.size [⟨id, cell⟩] s v = m.matchSchema s v := by
  have hne : m.schemas.node id ≠ .list [] := by
    rw [hid]
    rintro ⟨⟩
    cases hs
  have hroot : m.Above [] (.node id) := ⟨by simp, by simp, by simp⟩
  have ha : m.Above ([] ++ [⟨id, cell⟩]) s := hroot.enter (by simp) hne (by rw [hid]; exact hs)
  exact matchBelow_append hd ha hu hv rfl

theorem matchSchema_tuple {cell : CellId} {ss : List Schema} {vs : List Value}
    (hd : m.config.maxDepth = none) (hid : m.schemas.node id = .list ss) (h2 : 2 ≤ ss.length)
    (hcell : m.world.cell cell = .array vs) (hs : ∀ s ∈ ss, m.Untouched [⟨id, cell⟩] s)
    (hv : ∀ v ∈ vs, m.Clear [⟨id, cell⟩] v) :
    m.matchSchema (.node id) (.container cell) = matchTuple m.matchSchema ss vs := by
  have hi : (Value.container cell).items? m.world = some vs := by
    simp only [Value.items?, Value.cell?, hcell]
  have he : m.enter [] ⟨id, cell⟩ = return some [⟨id, cell⟩] := by
    rw [enter, hd]
    rfl
  have hitem (i : Nat) : m.Clear [⟨id, cell⟩] (vs[i]?.getD .undefined) := by
    cases hvi : vs[i]? with
    | none => exact .of_scalar rfl (by simp)
    | some v => exact hv v (List.mem_of_getElem? hvi)
  rw [matchSchema, matchBelow_tuple hid h2, hi, inside]
  simp only [he, pure_bind, matchTuple]
  refine congrArg (· >>= _) (forM_congr ?_)
  rintro ⟨s, i⟩ hmem
  have hss := List.fst_mem_of_mem_zipIdx hmem
  exact congrArg (below (.index i)) (matchBelow_argument hd hid hss (hs s hss) (hitem i))

theorem matchSchema_newList {w : World} {schemas : SchemaStore} {config : Config} {ss : List Schema}
    {vs : List Value} (h2 : 2 ≤ ss.length) (hv : ∀ v ∈ vs, v.Intact w)
    (hs : ∀ s ∈ ss, s.Intact schemas) (hd : config.maxDepth = none) :
    let m : Matcher := ⟨(Value.newArray vs w).2, (Schema.newList ss schemas).2, config⟩
    m.matchSchema (.node schemas.nodes.size) (.container w.cells.size) =
      matchTuple m.matchSchema ss vs := by
  intro m
  have hid : m.schemas.node schemas.nodes.size = .list ss := schemas.node_add_self (.list ss)
  have hcell : m.world.cell w.cells.size = .array vs := by
    change (w.cells.push (.array vs))[w.cells.size]?.getD _ = .array vs
    simp
  refine matchSchema_tuple hd hid h2 hcell ?_ ?_
  · intro s hmem u hu
    obtain rfl := List.mem_singleton.1 hu
    exact (hs s hmem).not_reaches_new (.list ss)
  · intro v hmem u hu
    obtain rfl := List.mem_singleton.1 hu
    exact (hv v hmem).not_reaches_new (.array vs)

theorem matchArguments_cases (ss : List Schema) (vs : List Value) (r : Registry) :
    m.matchArguments ss vs r = matchTuple m.matchSchema ss vs r ∨
      ss.length < vs.length ∧ ∃ r',
        m.matchArguments ss vs r =
          refuse (.argumentCount ss.length) (.number (.ofNat vs.length)) r' ∧
        matchTuple m.matchSchema ss vs r =
          refuse (.itemCount ss.length) (.number (.ofNat vs.length)) r' := by
  rw [matchArguments, matchTuple, bind_apply, bind_apply]
  generalize (ss.zipIdx.forM fun a => below (.index a.2) (m.matchSchema a.1
    (vs[a.2]?.getD .undefined)) : Matching Unit) r = inTurn
  obtain ⟨e | u, r'⟩ := inTurn
  · exact .inl rfl
  · by_cases hl : ss.length < vs.length
    · simp only [if_pos hl]
      exact .inr ⟨hl, r', rfl, rfl⟩
    · rw [if_neg hl, if_neg hl]
      exact .inl rfl

end Matcher

namespace Engine

theorem checkArguments_tuple {w : World} {schemas : SchemaStore} {vs : List Value}
    {ss : List Schema} {e : Engine} (h2 : 2 ≤ ss.length) (hv : ∀ v ∈ vs, v.Intact w)
    (hs : ∀ s ∈ ss, s.Intact schemas) (hd : e.config.maxDepth = none) (place : String) :
    let (array, w) := Value.newArray vs w
    let (list, schemas) := Schema.newList ss schemas
    let arguments : Operation := .checkArguments w schemas vs ss place
    let tuple : Operation := .check w schemas array list place
    let excess (reason : Reason) : Raise :=
      ⟨e.factory, w, ⟨reason, some (.number (.ofNat vs.length)), place⟩⟩
    arguments.perform e = tuple.perform e ∧ arguments.raise? e = tuple.raise? e ∨
      ss.length < vs.length ∧
        arguments.raise? e = some (excess (.argumentCount ss.length)) ∧
        tuple.raise? e = some (excess (.itemCount ss.length)) ∧
        ∃ e',
          arguments.perform e =
            (.checked (.error (.value (excess (.argumentCount ss.length)).error)), e') ∧
          tuple.perform e =
            (.checked (.error (.value (excess (.itemCount ss.length)).error)), e') := by
  let w' := (Value.newArray vs w).2
  let schemas' := (Schema.newList ss schemas).2
  let m : Matcher := ⟨w', schemas', e.config⟩
  let arguments : Operation := .checkArguments w' schemas' vs ss place
  let tuple : Operation :=
    .check w' schemas' (.container w.cells.size) (.node schemas.nodes.size) place
  have harguments : arguments.attempt? e = some ⟨w', e.factory, place, m.matchArguments ss vs⟩ :=
    rfl
  have hitems : tuple.attempt? e =
      some ⟨w', e.factory, place, Matcher.matchTuple m.matchSchema ss vs⟩ := by
    rw [← Matcher.matchSchema_newList h2 hv hs hd]
    rfl
  have hperform := Operation.perform_attempt harguments
  have hperform' := Operation.perform_attempt hitems
  have hraise := Operation.raise?_attempt harguments
  have hraise' := Operation.raise?_attempt hitems
  rw [Attempt.raise?] at hraise hraise'
  dsimp only at hperform hperform' hraise hraise'
  obtain h | ⟨hl, r', ha, ht⟩ := m.matchArguments_cases ss vs e.registry
  · rw [h] at hperform hraise
    exact .inl ⟨hperform.trans hperform'.symm, hraise.trans hraise'.symm⟩
  · rw [ha] at hperform hraise
    rw [ht] at hperform' hraise'
    exact .inr ⟨hl, hraise, hraise', { e with registry := r' }, hperform, hperform'⟩

def ringed : World := { cells := #[.array [.container 0]] }

def anyArrays : SchemaStore := ⟨#[.list [.typeString "array"]]⟩

def threeArguments : List Value := [.container 0, .str "a", .null]

def twoSchemas : List Schema := [.node 0, .literal .string]

theorem checkArguments_tuple_loop :
    let (array, w) := Value.newArray threeArguments ringed
    let (list, schemas) := Schema.newList twoSchemas anyArrays
    let arguments : Operation := .checkArguments w schemas threeArguments twoSchemas "value"
    let tuple : Operation := .check w schemas array list "value"
    arguments.raise? fresh =
        some ⟨defaultFactory, w, ⟨.argumentCount 2, some (.number (.ofNat 3)), "value"⟩⟩ ∧
      tuple.raise? fresh =
        some ⟨defaultFactory, w, ⟨.itemCount 2, some (.number (.ofNat 3)), "value"⟩⟩ := by
  have hv : ∀ v ∈ threeArguments, v.Intact ringed := by
    intro v hv
    refine Value.intact_of_cells ?_ ?_
    · rintro (_ | id) id' h
      · simp_all [ringed, World.cell, Cell.children]
      · simp_all [ringed, World.cell, Cell.children]
    · rintro id rfl
      simp_all [ringed, threeArguments]
  have hs : ∀ s ∈ twoSchemas, s.Intact anyArrays := by
    intro s hs
    refine Schema.intact_of_nodes ?_ ?_
    · rintro (_ | id) id' h
      · simp_all [anyArrays, SchemaStore.node, SchemaNode.children]
      · simp_all [anyArrays, SchemaStore.node, SchemaNode.children]
    · rintro id rfl
      simp_all [anyArrays, twoSchemas]
  have hexcess : ((Operation.checkArguments (Value.newArray threeArguments ringed).2
      (Schema.newList twoSchemas anyArrays).2 threeArguments twoSchemas "value").raise?
        fresh).map (·.failure.reason) = some (.argumentCount 2) := by
    decide +kernel
  have hitems : ((Operation.check (Value.newArray threeArguments ringed).2
      (Schema.newList twoSchemas anyArrays).2 (.container 1) (.node 1) "value").raise?
        fresh).map (·.failure.reason) = some (.itemCount 2) := by
    decide +kernel
  obtain ⟨-, he⟩ | ⟨-, ha, ht, -⟩ :=
    checkArguments_tuple (e := fresh) (by decide) hv hs rfl "value"
  · have hreasons := congrArg (Option.map fun x => x.failure.reason) he
    cases hexcess.symm.trans (hreasons.trans hitems)
  · exact ⟨ha, ht⟩

end Engine

end ValueCheck
