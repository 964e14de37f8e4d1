import Mathlib.Data.Finset.Card
import ValueCheck.Proofs.Schema.Image

/-! Copying a value graph, depth first. A container stands for its node from the moment it is
entered, and its node is filled when the last of its parts was copied. -/

namespace ValueCheck.Schema

namespace Copying

def Made (c : Copying) (cell : CellId) (id : NodeId) : Prop := (cell, id) ∈ c.copies

def enter (c : Copying) (cell : CellId) (n : SchemaNode) : Copying :=
  ⟨⟨c.store.nodes.push n⟩, (cell, c.store.nodes.size) :: c.copies⟩

def fill (c : Copying) (id : NodeId) (n : SchemaNode) : Copying :=
  { c with store := c.store.write id n }

end Copying

/-- The nodes made from `start` on, one for each cell; all are filled but those of the
containers being copied. -/
structure Sound (w : World) (start : Nat) (opened : List CellId) (c : Copying) : Prop where
  cells : (c.copies.map Prod.fst).Nodup
  ids : (c.copies.map Prod.snd).Nodup
  base : start ≤ c.store.nodes.size
  range (id : NodeId) : (∃ cell, c.Made cell id) ↔ start ≤ id ∧ id < c.store.nodes.size
  entered (cell : CellId) (h : cell ∈ opened) : ∃ id, c.Made cell id
  copyable (cell : CellId) (id : NodeId) (h : c.Made cell id) : (w.cell cell).Copyable
  filled (cell : CellId) (id : NodeId) (h : c.Made cell id) (ho : cell ∉ opened) :
    IsNode c.Made (w.cell cell) (c.store.node id)

structure Grows (w : World) (vs : List Value) (c c' : Copying) : Prop where
  made (cell : CellId) (id : NodeId) (h : c.Made cell id) : c'.Made cell id
  size : c.store.nodes.size ≤ c'.store.nodes.size
  kept (id : NodeId) (h : id < c.store.nodes.size) : c'.store.node id = c.store.node id
  reached (cell : CellId) (id : NodeId) (h : c'.Made cell id) :
    c.Made cell id ∨ ∃ v ∈ vs, v.Reaches w (.container cell)

variable {w : World} {start : Nat} {opened : List CellId} {c c' : Copying} {v : Value}
  {vs : List Value} {cell : CellId} {id : NodeId} {n : SchemaNode}

theorem Grows.refl (w : World) (vs : List Value) (c : Copying) : Grows w vs c c :=
  ⟨fun _ _ h => h, Nat.le_refl _, fun _ _ => rfl, fun _ _ h => .inl h⟩

theorem Grows.trans {us : List Value} {c'' : Copying} (h : Grows w vs c c')
    (h' : Grows w us c' c'') : Grows w (vs ++ us) c c'' := by
  refine ⟨?_, h.size.trans h'.size, ?_, ?_⟩
  · intro cell id hm
    exact h'.made cell id (h.made cell id hm)
  · intro id hi
    rw [h'.kept id (Nat.lt_of_lt_of_le hi h.size), h.kept id hi]
  · intro cell id hm
    rcases h'.reached cell id hm with hm | ⟨v, hv, hr⟩
    · rcases h.reached cell id hm with hm | ⟨v, hv, hr⟩
      · exact .inl hm
      · exact .inr ⟨v, List.mem_append_left us hv, hr⟩
    · exact .inr ⟨v, List.mem_append_right vs hv, hr⟩

theorem made_of_lookup (h : c.copies.lookup cell = some id) : c.Made cell id := by
  obtain ⟨l, r, hs, -⟩ := List.lookup_eq_some_iff.1 h
  simp [Copying.Made, hs]

theorem not_made_of_lookup (h : c.copies.lookup cell = none) : ¬ c.Made cell id := by
  intro hm
  have hne := List.lookup_eq_none_iff.1 h _ hm
  simp at hne

theorem Sound.made_inj {id' : NodeId} (hs : Sound w start opened c) (h : c.Made cell id)
    (h' : c.Made cell id') : id = id' :=
  congrArg Prod.snd (List.inj_on_of_nodup_map hs.cells h h' rfl)

theorem Sound.cell_inj {cell' : CellId} (hs : Sound w start opened c) (h : c.Made cell id)
    (h' : c.Made cell' id) : cell = cell' :=
  congrArg Prod.fst (List.inj_on_of_nodup_map hs.ids h h' rfl)

theorem Sound.lt_size (hs : Sound w start opened c) (h : c.Made cell id) :
    id < c.store.nodes.size :=
  ((hs.range id).1 ⟨cell, h⟩).2

@[simp] theorem size_enter (c : Copying) (cell : CellId) (n : SchemaNode) :
    (c.enter cell n).store.nodes.size = c.store.nodes.size + 1 :=
  Array.size_push ..

@[simp] theorem size_fill (c : Copying) (id : NodeId) (n : SchemaNode) :
    (c.fill id n).store.nodes.size = c.store.nodes.size :=
  Array.size_setIfInBounds ..

@[simp] theorem made_fill (c : Copying) (id : NodeId) (n : SchemaNode) :
    (c.fill id n).Made = c.Made := rfl

theorem node_enter_of_lt (h : id < c.store.nodes.size) :
    (c.enter cell n).store.node id = c.store.node id := by
  simp only [Copying.enter, SchemaStore.node, Array.getElem?_push]
  rw [if_neg (Nat.ne_of_lt h)]

theorem made_enter {cell' : CellId} {id' : NodeId} : (c.enter cell n).Made cell' id' ↔
    cell' = cell ∧ id' = c.store.nodes.size ∨ c.Made cell' id' := by
  simp [Copying.Made, Copying.enter]

theorem Sound.enter (hs : Sound w start opened c) (hc : ∀ id, ¬ c.Made cell id)
    (hw : (w.cell cell).Copyable) (n : SchemaNode) :
    Sound w start (cell :: opened) (c.enter cell n) where
  cells := by
    refine List.nodup_cons.2 ⟨?_, hs.cells⟩
    intro hm
    obtain ⟨p, hp, rfl⟩ := List.mem_map.1 hm
    exact hc p.2 hp
  ids := by
    refine List.nodup_cons.2 ⟨?_, hs.ids⟩
    intro hm
    obtain ⟨p, hp, he⟩ := List.mem_map.1 hm
    exact absurd he (Nat.ne_of_lt (hs.lt_size hp))
  base := by
    rw [size_enter]
    exact Nat.le_succ_of_le hs.base
  range id := by
    simp only [made_enter, exists_or, exists_eq_left, hs.range, size_enter,
      Nat.lt_succ_iff_lt_or_eq]
    constructor
    · rintro (rfl | ⟨hl, hr⟩)
      · exact ⟨hs.base, .inr rfl⟩
      · exact ⟨hl, .inl hr⟩
    · rintro ⟨hl, hr | rfl⟩
      · exact .inr ⟨hl, hr⟩
      · exact .inl rfl
  entered cell' h := by
    simp only [made_enter]
    rcases List.mem_cons.1 h with rfl | h
    · exact ⟨_, .inl ⟨rfl, rfl⟩⟩
    · obtain ⟨id, hm⟩ := hs.entered cell' h
      exact ⟨id, .inr hm⟩
  copyable cell' id h := by
    rcases made_enter.1 h with ⟨rfl, -⟩ | h
    · exact hw
    · exact hs.copyable cell' id h
  filled cell' id h ho := by
    rw [List.mem_cons, not_or] at ho
    rcases made_enter.1 h with ⟨rfl, -⟩ | h
    · exact absurd rfl ho.1
    · rw [node_enter_of_lt (hs.lt_size h)]
      exact (hs.filled cell' id h ho.2).mono fun _ _ hm => made_enter.2 (.inr hm)

theorem Sound.fill (hs : Sound w start (cell :: opened) c) (hm : c.Made cell id)
    (hn : IsNode c.Made (w.cell cell) n) : Sound w start opened (c.fill id n) where
  cells := hs.cells
  ids := hs.ids
  base := by simpa using hs.base
  range id' := by simpa using hs.range id'
  entered cell' h := hs.entered cell' (List.mem_cons_of_mem cell h)
  copyable := hs.copyable
  filled cell' id' h ho := by
    by_cases he : id = id'
    · subst he
      obtain rfl := hs.cell_inj h hm
      rw [Copying.fill, SchemaStore.node_write_self _ _ (hs.lt_size h)]
      exact hn
    · have hne : cell' ≠ cell := by
        rintro rfl
        exact he (hs.made_inj hm h)
      rw [Copying.fill, SchemaStore.node_write_ne _ _ he]
      exact hs.filled cell' id' h (by simp [hne, ho])

theorem Grows.entered (h : Grows w (w.cell cell).parts (c.enter cell n) c') (n' : SchemaNode) :
    Grows w [.container cell] c (c'.fill c.store.nodes.size n') := by
  have hsize : c.store.nodes.size + 1 ≤ c'.store.nodes.size := by
    rw [← size_enter c cell n]
    exact h.size
  refine ⟨?_, ?_, ?_, ?_⟩
  · intro cell' id hm
    exact h.made cell' id (made_enter.2 (.inr hm))
  · rw [size_fill]
    exact Nat.le_of_succ_le hsize
  · intro id hi
    have hi' : id < (c.enter cell n).store.nodes.size := by
      rw [size_enter]
      exact Nat.lt_succ_of_lt hi
    rw [Copying.fill, SchemaStore.node_write_ne _ _ (Nat.ne_of_gt hi), h.kept id hi',
      node_enter_of_lt hi]
  · intro cell' id hm
    rcases h.reached cell' id hm with hm | ⟨v, hv, hr⟩
    · rcases made_enter.1 hm with ⟨rfl, -⟩ | hm
      · exact .inr ⟨_, List.mem_singleton_self _, .refl⟩
      · exact .inl hm
    · exact .inr ⟨_, List.mem_singleton_self _, .head hv hr⟩

theorem Sound.exists_image_of_leads {u : Value} {steps : List Nat} {s : Schema}
    (hs : Sound w start opened c) (hv : IsImage c.Made v s) {avoided : List CellId}
    (ha : ∀ cell ∈ opened, cell ∈ avoided) (h : Leads w avoided v steps u) :
    ∃ s, IsImage c.Made u s := by
  induction h generalizing s with
  | here => exact ⟨s, hv⟩
  | @part avoided cell i v u steps hc hp _ ih =>
    cases hv with
    | container hm =>
      have hn := hs.filled cell _ hm fun ho => hc (ha cell ho)
      obtain ⟨s', hs'⟩ := hn.exists_image (List.mem_of_getElem? hp)
      exact ih hs' fun cell' ho => List.mem_cons_of_mem cell (ha cell' ho)

theorem Sound.admissible_of_leads {u : Value} {steps : List Nat} {s : Schema}
    (hs : Sound w start opened c) (hv : IsImage c.Made v s)
    (h : Leads w opened v steps u) : u.Admissible w := by
  obtain ⟨s', hu⟩ := hs.exists_image_of_leads hv (fun _ ho => ho) h
  exact hu.admissible hs.copyable

def Copying.room (w : World) (c : Copying) : Nat :=
  ((Finset.range w.cells.size).filter (· ∉ c.copies.map Prod.fst)).card

theorem Grows.room_le (h : Grows w vs c c') : c'.room w ≤ c.room w := by
  apply Finset.card_le_card
  apply Finset.monotone_filter_right
  intro cell _ hn hm
  obtain ⟨p, hp, rfl⟩ := List.mem_map.1 hm
  exact hn (List.mem_map_of_mem (h.made p.1 p.2 hp))

theorem room_enter (hc : ∀ id, ¬ c.Made cell id) (hlt : cell < w.cells.size) :
    (c.enter cell n).room w < c.room w := by
  apply Finset.card_lt_card
  refine Finset.ssubset_iff_subset_ne.2 ⟨?_, ?_⟩
  · apply Finset.monotone_filter_right
    intro cell' _ hn hm
    exact hn (List.mem_cons_of_mem cell hm)
  · intro he
    have hm : cell ∈ (Finset.range w.cells.size).filter (· ∉ c.copies.map Prod.fst) := by
      rw [Finset.mem_filter, Finset.mem_range]
      refine ⟨hlt, fun hm => ?_⟩
      obtain ⟨p, hp, rfl⟩ := List.mem_map.1 hm
      exact hc p.2 hp
    rw [← he, Finset.mem_filter] at hm
    exact hm.2 (List.mem_cons_self ..)

abbrev BoundedM := StateT Copying (ExceptT ConfigError Option)

def bounded {α : Type} (x : CopyM α) : BoundedM α := fun c => some (x c)

def copyWithin (w : World) : Nat → Value → BoundedM Schema
  | 0, _ => fun _ => none
  | _ + 1, .str source => return .typeString source
  | _ + 1, .bool b => return .literal (if b then .isTrue else .isFalse)
  | _ + 1, .null => return .literal .isNull
  | _ + 1, .undefined => return .literal .isUndefined
  | budget + 1, .container cell => do
    match (← get).copies.lookup cell with
    | some id => return .node id
    | none =>
      match w.cell cell with
      | .array items => do
        let id ← bounded (addCopy cell (.list []))
        let schemas ← items.mapM (copyWithin w budget)
        bounded (fillCopy id (.list schemas))
        return .node id
      | .object none properties => do
        let id ← bounded (addCopy cell (.shape { fields := .empty }))
        let fields ← properties.entries.mapM fun p => do return (p.1, ← copyWithin w budget p.2)
        bounded (fillCopy id (.shape { fields := .ofList fields }))
        return .node id
      | _ => throw (inadmissible w (.container cell))
  | _ + 1, v => throw (inadmissible w v)

theorem mapM_entries {m : Type → Type} [Monad m] [LawfulMonad m] {α β : Type} (f : α → m β)
    (ps : List (String × α)) : (ps.mapM fun p => do return (p.1, ← f p.2)) =
      (fun bs => (ps.map Prod.fst).zip bs) <$> (ps.map Prod.snd).mapM f := by
  induction ps with
  | nil => simp
  | cons p ps ih =>
    rw [List.mapM_cons, ih]
    simp [List.mapM_cons]

def filledIn (id : NodeId) (node : List Schema → SchemaNode) (r : List Schema × Copying) :
    Schema × Copying :=
  (.node id, r.2.fill id (node r.1))

theorem copyParts_apply (f : Value → CopyM Schema) (cell : CellId) (blank : SchemaNode)
    (vs : List Value) (node : List Schema → SchemaNode) (c : Copying) :
    (do
      let id ← addCopy cell blank
      let schemas ← vs.mapM f
      fillCopy id (node schemas)
      return .node id : CopyM Schema) c =
      (vs.mapM f (c.enter cell blank)).map (filledIn c.store.nodes.size node) := by
  change Except.bind (vs.mapM f (c.enter cell blank)) _ = _
  cases vs.mapM f (c.enter cell blank) <;> rfl

theorem boundedParts_apply (f : Value → BoundedM Schema) (cell : CellId) (blank : SchemaNode)
    (vs : List Value) (node : List Schema → SchemaNode) (c : Copying) :
    (do
      let id ← bounded (addCopy cell blank)
      let schemas ← vs.mapM f
      bounded (fillCopy id (node schemas))
      return .node id : BoundedM Schema) c =
      Option.map (Except.map (filledIn c.store.nodes.size node))
        (vs.mapM f (c.enter cell blank)) := by
  change ExceptT.bind (vs.mapM f (c.enter cell blank)) _ = _
  rcases vs.mapM f (c.enter cell blank) with _ | _ | _ <;> rfl

theorem nodeOf_nil (cls : Option Class) (properties : Keyed Value) :
    nodeOf (.object cls properties) [] = .shape { fields := .empty } := by
  rw [nodeOf, List.zip_nil_right]
  rfl

theorem get_bind {m : Type → Type} [Monad m] [LawfulMonad m] {σ α : Type} (g : σ → StateT σ m α)
    (s : σ) : (get >>= g) s = g s s :=
  pure_bind (s, s) fun p => g p.1 p.2

theorem copy_container {budget : Nat} (hl : c.copies.lookup cell = none)
    (hc : (w.cell cell).Copyable) : copy w (budget + 1) (.container cell) c =
      ((w.cell cell).parts.mapM (copy w budget) (c.enter cell (nodeOf (w.cell cell) []))).map
        (filledIn c.store.nodes.size (nodeOf (w.cell cell))) := by
  rcases Cell.copyable_iff.1 hc with ⟨items, hw⟩ | ⟨properties, hw⟩
  · rw [copy.eq_5 w cell budget items hw, get_bind, hl, hw]
    exact copyParts_apply ..
  · rw [copy.eq_6 w cell budget properties hw, get_bind, hl, hw]
    simp only [mapM_entries, bind_map_left, nodeOf_nil]
    exact copyParts_apply _ cell _ _ (nodeOf (.object none properties)) c

theorem copyWithin_container {budget : Nat} (hl : c.copies.lookup cell = none)
    (hc : (w.cell cell).Copyable) : copyWithin w (budget + 1) (.container cell) c =
      Option.map (Except.map (filledIn c.store.nodes.size (nodeOf (w.cell cell))))
        ((w.cell cell).parts.mapM (copyWithin w budget)
          (c.enter cell (nodeOf (w.cell cell) []))) := by
  rw [copyWithin, get_bind, hl]
  rcases Cell.copyable_iff.1 hc with ⟨items, hw⟩ | ⟨properties, hw⟩
  · rw [hw]
    exact boundedParts_apply ..
  · rw [hw]
    simp only [mapM_entries, bind_map_left, nodeOf_nil]
    exact boundedParts_apply _ cell _ _ (nodeOf (.object none properties)) c

end ValueCheck.Schema
