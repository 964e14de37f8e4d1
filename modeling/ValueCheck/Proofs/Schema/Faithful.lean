import ValueCheck.Proofs.Schema.Copying

/-! Copies are faithful. By induction on the budget: what is copied grows by sound nodes, or the
copy stops at the first value that is inadmissible. -/

namespace ValueCheck.Schema

variable {w : World} {start budget : Nat} {opened : List CellId} {c c' : Copying} {v : Value}
  {vs : List Value} {cell : CellId} {id : NodeId}

def Outcome (w : World) (start : Nat) (opened : List CellId) (c : Copying) (v : Value) :
    Except ConfigError (Schema × Copying) → Prop
  | .ok (s, c') => Sound w start opened c' ∧ Grows w [v] c c' ∧ IsImage c'.Made v s
  | .error e => ∃ steps bad, e = inadmissible w bad ∧ IsFirst w opened v steps bad

def OutcomeAll (w : World) (start : Nat) (opened : List CellId) (c : Copying) (vs : List Value) :
    Except ConfigError (List Schema × Copying) → Prop
  | .ok (ss, c') =>
    Sound w start opened c' ∧ Grows w vs c c' ∧ List.Forall₂ (IsImage c'.Made) vs ss
  | .error e => ∃ (i : Nat) (v : Value) (steps : List Nat) (bad : Value),
      e = inadmissible w bad ∧ vs[i]? = some v ∧
      IsFirst w opened v steps bad ∧
      ∀ j < i, ∀ x, vs[j]? = some x → ∀ steps' y, Leads w opened x steps' y → y.Admissible w

structure Copies (w : World) (start budget : Nat) : Prop where
  outcome {opened : List CellId} {c : Copying} (v : Value) (hs : Sound w start opened c)
    (hr : c.room w < budget) : Outcome w start opened c v (copy w budget v c)
  within {opened : List CellId} {c : Copying} (v : Value) (extra : Nat)
    (hs : Sound w start opened c) (hr : c.room w < budget) :
    copyWithin w (budget + extra) v c = some (copy w budget v c)

theorem mapM_cons_apply (f : Value → CopyM Schema) (v : Value) (vs : List Value) (c : Copying) :
    (v :: vs).mapM f c =
      (f v c).bind fun r => (vs.mapM f r.2).map fun q => (r.1 :: q.1, q.2) := by
  rw [List.mapM_cons]
  change Except.bind (f v c) _ = _
  rcases f v c with _ | r
  · rfl
  · change Except.bind (vs.mapM f r.2) _ = Except.map _ (vs.mapM f r.2)
    cases vs.mapM f r.2 <;> rfl

theorem Copies.mapM (hf : Copies w start budget) (hs : Sound w start opened c)
    (hr : c.room w < budget) : OutcomeAll w start opened c vs (vs.mapM (copy w budget) c) := by
  induction vs generalizing c with
  | nil => exact ⟨hs, .refl w [] c, .nil⟩
  | cons v vs ih =>
    rw [mapM_cons_apply]
    have hv := hf.outcome v hs hr
    cases hfv : copy w budget v c with
    | error e =>
      rw [hfv] at hv
      obtain ⟨steps, bad, rfl, hfirst⟩ := hv
      exact ⟨0, v, steps, bad, rfl, rfl, hfirst, fun j hj => absurd hj (Nat.not_lt_zero j)⟩
    | ok r =>
      obtain ⟨s, c'⟩ := r
      rw [hfv] at hv
      obtain ⟨hs', hg, hi⟩ := hv
      have hvs := ih hs' (Nat.lt_of_le_of_lt hg.room_le hr)
      rw [Except.bind]
      cases hfvs : vs.mapM (copy w budget) c' with
      | ok q =>
        obtain ⟨ss, c''⟩ := q
        rw [hfvs] at hvs
        obtain ⟨hs'', hg', his⟩ := hvs
        exact ⟨hs'', hg.trans hg', .cons (hi.mono hg'.made) his⟩
      | error e =>
        rw [hfvs] at hvs
        obtain ⟨i, u, steps, bad, rfl, hu, hfirst, hbefore⟩ := hvs
        refine ⟨i + 1, u, steps, bad, rfl, hu, hfirst, ?_⟩
        intro j hj x hx steps' y hl
        cases j with
        | zero =>
          obtain rfl : v = x := Option.some.inj hx
          exact hs'.admissible_of_leads hi hl
        | succ j => exact hbefore j (Nat.lt_of_succ_lt_succ hj) x hx steps' y hl

theorem Copies.mapM_within (hf : Copies w start budget) (extra : Nat)
    (hs : Sound w start opened c) (hr : c.room w < budget) :
    vs.mapM (copyWithin w (budget + extra)) c = some (vs.mapM (copy w budget) c) := by
  induction vs generalizing c with
  | nil => rfl
  | cons v vs ih =>
    rw [mapM_cons_apply, List.mapM_cons]
    change ExceptT.bind (copyWithin w (budget + extra) v c) _ = _
    rw [hf.within v extra hs hr]
    have hv := hf.outcome v hs hr
    cases hfv : copy w budget v c with
    | error e => rfl
    | ok r =>
      obtain ⟨s, c'⟩ := r
      rw [hfv] at hv
      have hvs := ih hv.1 (Nat.lt_of_le_of_lt hv.2.1.room_le hr)
      change ExceptT.bind (vs.mapM (copyWithin w (budget + extra)) c') _ =
        some (Except.map _ (vs.mapM (copy w budget) c'))
      rw [hvs]
      cases vs.mapM (copy w budget) c' <;> rfl

-- A cell that was never made reads as an empty array, and costs no budget.
theorem parts_of_not_lt (h : ¬ cell < w.cells.size) : (w.cell cell).parts = [] := by
  simp [World.cell, Array.getElem?_eq_none (Nat.le_of_not_lt h), Cell.parts]

theorem Copies.parts (hf : Copies w start budget) (hs : Sound w start opened c)
    (hr : c.room w < budget + 1) (hl : c.copies.lookup cell = none)
    (hc : (w.cell cell).Copyable) :
    let entered := c.enter cell (nodeOf (w.cell cell) [])
    let copied := (w.cell cell).parts.mapM (copy w budget) entered
    OutcomeAll w start (cell :: opened) entered (w.cell cell).parts copied ∧
      ∀ extra, (w.cell cell).parts.mapM (copyWithin w (budget + extra)) entered =
        some copied := by
  intro entered copied
  have hnew : ∀ id, ¬ c.Made cell id := fun id => not_made_of_lookup hl
  have hs' := hs.enter hnew hc (nodeOf (w.cell cell) [])
  by_cases hlt : cell < w.cells.size
  · have hr' : entered.room w < budget :=
      Nat.lt_of_lt_of_le (room_enter hnew hlt) (Nat.le_of_lt_succ hr)
    exact ⟨hf.mapM hs' hr', fun extra => hf.mapM_within extra hs' hr'⟩
  · simp only [copied, parts_of_not_lt hlt]
    exact ⟨⟨hs', .refl w [] _, .nil⟩, fun _ => rfl⟩

theorem copy_of_lookup (budget : Nat) (hl : c.copies.lookup cell = some id) :
    copy w budget (.container cell) c = .ok (.node id, c) := by
  rw [copy.eq_def]
  simp only []
  rw [get_bind, hl]
  rfl

theorem copyWithin_of_lookup (budget : Nat) (hl : c.copies.lookup cell = some id) :
    copyWithin w (budget + 1) (.container cell) c = some (.ok (.node id, c)) := by
  rw [copyWithin, get_bind, hl]
  rfl

theorem copy_of_not_copyable (budget : Nat) (hl : c.copies.lookup cell = none)
    (hc : ¬ (w.cell cell).Copyable) :
    copy w budget (.container cell) c = .error (inadmissible w (.container cell)) := by
  rw [Cell.copyable_iff, not_or] at hc
  rw [copy.eq_7, get_bind, hl]
  · rfl
  · intro n items _ hw
    exact hc.1 ⟨items, hw⟩
  · intro n properties _ hw
    exact hc.2 ⟨properties, hw⟩

theorem copyWithin_of_not_copyable (budget : Nat) (hl : c.copies.lookup cell = none)
    (hc : ¬ (w.cell cell).Copyable) : copyWithin w (budget + 1) (.container cell) c =
      some (.error (inadmissible w (.container cell))) := by
  rw [Cell.copyable_iff, not_or] at hc
  rw [copyWithin, get_bind, hl]
  cases hw : w.cell cell with
  | array items => exact absurd ⟨items, hw⟩ hc.1
  | object cls properties =>
    cases cls with
    | none => exact absurd ⟨properties, hw⟩ hc.2
    | some => rfl
  | _ => rfl

theorem Copies.container (hf : Copies w start budget) (hs : Sound w start opened c)
    (hr : c.room w < budget + 1) (hl : c.copies.lookup cell = none)
    (hc : (w.cell cell).Copyable) :
    Outcome w start opened c (.container cell) (copy w (budget + 1) (.container cell) c) := by
  rw [copy_container hl hc]
  have hparts := (hf.parts hs hr hl hc).1
  have hnew : cell ∉ opened := by
    intro ho
    obtain ⟨id, hm⟩ := hs.entered cell ho
    exact not_made_of_lookup hl hm
  cases hp : (w.cell cell).parts.mapM (copy w budget)
      (c.enter cell (nodeOf (w.cell cell) [])) with
  | ok r =>
    obtain ⟨ss, c'⟩ := r
    rw [hp] at hparts
    obtain ⟨hs', hg, hi⟩ := hparts
    have hm : c'.Made cell c.store.nodes.size :=
      hg.made _ _ (made_enter.2 (.inl ⟨rfl, rfl⟩))
    exact ⟨hs'.fill hm (isNode_nodeOf hc hi), hg.entered _, .container hm⟩
  | error e =>
    rw [hp] at hparts
    obtain ⟨i, u, steps, bad, rfl, hu, hfirst, hbefore⟩ := hparts
    exact ⟨i :: steps, bad, rfl, hfirst.part hnew hu hbefore⟩

theorem Copies.container_within (hf : Copies w start budget) (extra : Nat)
    (hs : Sound w start opened c) (hr : c.room w < budget + 1)
    (hl : c.copies.lookup cell = none) (hc : (w.cell cell).Copyable) :
    copyWithin w (budget + extra + 1) (.container cell) c =
      some (copy w (budget + 1) (.container cell) c) := by
  rw [copy_container hl hc, copyWithin_container hl hc, (hf.parts hs hr hl hc).2]
  rfl

theorem Copies.outcome_succ (hf : Copies w start budget) (hs : Sound w start opened c)
    (hr : c.room w < budget + 1) : Outcome w start opened c v (copy w (budget + 1) v c) := by
  cases v with
  | str source => exact ⟨hs, .refl .., .str source⟩
  | null => exact ⟨hs, .refl .., .isNull⟩
  | undefined => exact ⟨hs, .refl .., .isUndefined⟩
  | bool b =>
    cases b with
    | true => exact ⟨hs, .refl .., .isTrue⟩
    | false => exact ⟨hs, .refl .., .isFalse⟩
  | container cell =>
    cases hl : c.copies.lookup cell with
    | some id =>
      rw [copy_of_lookup _ hl]
      exact ⟨hs, .refl .., .container (made_of_lookup hl)⟩
    | none =>
      by_cases hc : (w.cell cell).Copyable
      · exact hf.container hs hr hl hc
      · rw [copy_of_not_copyable _ hl hc]
        exact ⟨[], _, rfl, isFirst_here hc⟩
  | _ => exact ⟨[], _, rfl, isFirst_here fun h => h.elim⟩

theorem Copies.within_succ (hf : Copies w start budget) (extra : Nat)
    (hs : Sound w start opened c) (hr : c.room w < budget + 1) :
    copyWithin w (budget + extra + 1) v c = some (copy w (budget + 1) v c) := by
  cases v with
  | container cell =>
    cases hl : c.copies.lookup cell with
    | some id => rw [copy_of_lookup _ hl, copyWithin_of_lookup _ hl]
    | none =>
      by_cases hc : (w.cell cell).Copyable
      · exact hf.container_within extra hs hr hl hc
      · rw [copy_of_not_copyable _ hl hc, copyWithin_of_not_copyable _ hl hc]
  | _ => rfl

theorem copies (w : World) (start budget : Nat) : Copies w start budget := by
  induction budget with
  | zero =>
    constructor
    · intro _ c _ _ hr
      exact absurd hr (Nat.not_lt_zero _)
    · intro _ c _ _ _ hr
      exact absurd hr (Nat.not_lt_zero _)
  | succ budget ih =>
    constructor
    · intro _ c v hs hr
      exact ih.outcome_succ hs hr
    · intro _ c v extra hs hr
      rw [Nat.add_right_comm]
      exact ih.within_succ extra hs hr

theorem sound_start (w : World) (store : SchemaStore) :
    Sound w store.nodes.size [] ⟨store, []⟩ where
  cells := .nil
  ids := .nil
  base := Nat.le_refl _
  range id := by
    constructor
    · rintro ⟨_, h⟩
      cases h
    · rintro ⟨hl, hr⟩
      exact absurd hr (Nat.not_lt_of_le hl)
  entered _ h := by cases h
  copyable _ _ h := by cases h
  filled _ _ h := by cases h

theorem room_lt (w : World) (c : Copying) : c.room w < w.cells.size + 1 := by
  have h : c.room w ≤ (Finset.range w.cells.size).card := Finset.card_filter_le _ _
  rw [Finset.card_range] at h
  exact Nat.lt_succ_of_le h

theorem Sound.image_of_reaches {s : Schema} {u : Value} (hs : Sound w start [] c)
    (hv : IsImage c.Made v s) (h : v.Reaches w u) : ∃ s, IsImage c.Made u s := by
  obtain ⟨steps, hl⟩ := exists_leads_iff.2 h
  exact hs.exists_image_of_leads hv (fun _ ho => ho) hl

def Copying.made (c : Copying) (cell : CellId) : NodeId := (c.copies.lookup cell).getD 0

theorem Sound.made_eq (hs : Sound w start opened c) (h : c.Made cell id) : c.made cell = id := by
  cases hl : c.copies.lookup cell with
  | none => exact absurd h (not_made_of_lookup hl)
  | some id' =>
    rw [Copying.made, hl, Option.getD_some]
    exact hs.made_inj (made_of_lookup hl) h

theorem isCopy_of_sound {store : SchemaStore} {s : Schema}
    (hs : Sound w store.nodes.size [] c) (hg : Grows w [v] ⟨store, []⟩ c)
    (hi : IsImage c.Made v s) : IsCopy w v store c.made s c.store := by
  have hmade : ∀ cell, v.Reaches w (.container cell) → c.Made cell (c.made cell) := by
    intro cell h
    obtain ⟨_, hc⟩ := hs.image_of_reaches hi h
    cases hc with
    | container hm => rwa [hs.made_eq hm]
  have heq : ∀ cell id, c.Made cell id → c.made cell = id := fun _ _ => hs.made_eq
  refine ⟨⟨?_, ?_, ?_⟩, hi.mono heq, ?_, hg.kept⟩
  · intro cell h
    exact (hs.range _).1 ⟨cell, hmade cell h⟩
  · intro cell h cell' h' he
    have hm := hmade cell h
    rw [he] at hm
    exact hs.cell_inj hm (hmade cell' h')
  · intro id hid
    obtain ⟨cell, hm⟩ := (hs.range id).2 hid
    refine ⟨cell, ?_, hs.made_eq hm⟩
    rcases hg.reached cell id hm with hnone | ⟨u, hu, hr⟩
    · cases hnone
    · obtain rfl := List.mem_singleton.1 hu
      exact hr
  · intro cell h
    exact (hs.filled cell _ (hmade cell h) List.not_mem_nil).mono heq

def ofValueWithin (budget : Nat) (w : World) (v : Value) (store : SchemaStore) :
    ExceptT ConfigError Option (Schema × SchemaStore) := do
  let (schema, copying) ← (copyWithin w budget v).run ⟨store, []⟩
  return (schema, copying.store)

theorem ofValue_cases (w : World) (v : Value) (store : SchemaStore) :
    (∃ s c, ofValue w v store = .ok (s, c.store) ∧ Sound w store.nodes.size [] c ∧
        Grows w [v] ⟨store, []⟩ c ∧ IsImage c.Made v s) ∨
      ∃ steps bad, ofValue w v store = .error (inadmissible w bad) ∧ IsFirst w [] v steps bad := by
  have h := (copies w store.nodes.size (w.cells.size + 1)).outcome v (sound_start w store)
    (room_lt w _)
  change (∃ s c, Except.bind (copy w (w.cells.size + 1) v ⟨store, []⟩) _ = _ ∧ _) ∨
    ∃ steps bad, Except.bind (copy w (w.cells.size + 1) v ⟨store, []⟩) _ = _ ∧ _
  cases hc : copy w (w.cells.size + 1) v ⟨store, []⟩ with
  | ok r =>
    rw [hc] at h
    exact .inl ⟨r.1, r.2, rfl, h⟩
  | error e =>
    rw [hc] at h
    obtain ⟨steps, bad, rfl, hfirst⟩ := h
    exact .inr ⟨steps, bad, rfl, hfirst⟩

theorem ofValueWithin_eq (w : World) (v : Value) (store : SchemaStore) (extra : Nat) :
    (ofValueWithin (w.cells.size + 1 + extra) w v store).run = some (ofValue w v store) := by
  have h := (copies w store.nodes.size (w.cells.size + 1)).within v extra (sound_start w store)
    (room_lt w _)
  change ExceptT.bind (copyWithin w (w.cells.size + 1 + extra) v ⟨store, []⟩) _ =
    some (Except.bind (copy w (w.cells.size + 1) v ⟨store, []⟩) _)
  rw [h]
  cases copy w (w.cells.size + 1) v ⟨store, []⟩ <;> rfl

theorem ofValue_faithful (w : World) (v : Value) (store : SchemaStore) :
    (∀ extra, (ofValueWithin (w.cells.size + 1 + extra) w v store).run =
      some (ofValue w v store)) ∧
    ((∃ r, ofValue w v store = .ok r) ↔ ∀ u, v.Reaches w u → u.Admissible w) ∧
    (∀ schema store', ofValue w v store = .ok (schema, store') →
      ∃ made, IsCopy w v store made schema store') ∧
    ∀ e, ofValue w v store = .error e →
      ∃ steps bad, e = .invalidType (bad.text w) ∧ IsFirst w [] v steps bad := by
  refine ⟨ofValueWithin_eq w v store, ?_⟩
  rcases ofValue_cases w v store with ⟨s, c, hv, hs, hg, hi⟩ | ⟨steps, bad, hv, hfirst⟩
  · rw [hv]
    refine ⟨iff_of_true ⟨_, rfl⟩ ?_, ?_, ?_⟩
    · intro u hu
      obtain ⟨_, hu⟩ := hs.image_of_reaches hi hu
      exact hu.admissible hs.copyable
    · intro schema store' he
      cases he
      exact ⟨c.made, isCopy_of_sound hs hg hi⟩
    · intro e he
      cases he
  · rw [hv]
    refine ⟨iff_of_false ?_ ?_, ?_, ?_⟩
    · rintro ⟨_, he⟩
      cases he
    · intro hall
      exact hfirst.inadmissible (hall bad hfirst.leads.reaches)
    · intro schema store' he
      cases he
    · intro e he
      cases he
      exact ⟨steps, bad, rfl, hfirst⟩

example : ofValue { cells := #[.array [.container 0, .str "a", .container 1], .array []] }
    (.container 0) {} =
      .ok (.node 0, ⟨#[.list [.node 0, .typeString "a", .node 1], .list []]⟩) := by cbv

end ValueCheck.Schema
