import Mathlib.Data.List.Basic
import ValueCheck.Proofs.Value.Graph
import ValueCheck.Value.Unfolding

/-! Walks through value graphs. They end, whether or not they remember what they finished, and
pass just the values that unfold to finite trees of admitted values. -/

namespace ValueCheck.Value

open Relation

def remembered (remembers : Bool) (id : CellId) (done : List CellId) : List CellId :=
  if remembers then id :: done else done

/-- A walk over values in order that has no budget. It ends with the finished containers, or with
nothing at the first value that does not pass. -/
inductive Walks (w : World) (admits : Value → Bool) (remembers : Bool) :
    List CellId → List CellId → List Value → Option (List CellId) → Prop where
  | done {path done : List CellId} : Walks w admits remembers path done [] (some done)
  | refused {path done : List CellId} {v : Value} {vs : List Value} (ha : admits v = false) :
      Walks w admits remembers path done (v :: vs) none
  | scalar {path done : List CellId} {v : Value} {vs : List Value} {out : Option (List CellId)}
      (ha : admits v = true) (hv : ∀ id, v ≠ .container id)
      (hs : Walks w admits remembers path done vs out) :
      Walks w admits remembers path done (v :: vs) out
  | known {path done : List CellId} {id : CellId} {vs : List Value} {out : Option (List CellId)}
      (ha : admits (.container id) = true) (hd : id ∈ done)
      (hs : Walks w admits remembers path done vs out) :
      Walks w admits remembers path done (.container id :: vs) out
  | again {path done : List CellId} {id : CellId} {vs : List Value}
      (ha : admits (.container id) = true) (hd : id ∉ done) (hp : id ∈ path) :
      Walks w admits remembers path done (.container id :: vs) none
  | failed {path done : List CellId} {id : CellId} {vs : List Value}
      (ha : admits (.container id) = true) (hd : id ∉ done) (hp : id ∉ path)
      (hc : Walks w admits remembers (id :: path) done (w.cell id).children none) :
      Walks w admits remembers path done (.container id :: vs) none
  | passed {path done done' : List CellId} {id : CellId} {vs : List Value}
      {out : Option (List CellId)}
      (ha : admits (.container id) = true) (hd : id ∉ done) (hp : id ∉ path)
      (hc : Walks w admits remembers (id :: path) done (w.cell id).children (some done'))
      (hs : Walks w admits remembers path (remembered remembers id done') vs out) :
      Walks w admits remembers path done (.container id :: vs) out

variable {w : World} {admits : Value → Bool} {remembers : Bool} {path done : List CellId}
  {id : CellId} {v : Value} {vs : List Value} {budget : Nat}

structure Room (w : World) (path : List CellId) (budget : Nat) : Prop where
  nodup : path.Nodup
  inside : ∀ id ∈ path, id < w.cells.size
  enough : w.cells.size < path.length + budget

theorem Room.start (w : World) : Room w [] (w.cells.size + 1) where
  nodup := .nil
  inside := by simp
  enough := by simp

theorem Room.length_le (h : Room w path budget) : path.length ≤ w.cells.size := by
  have hs : path ⊆ List.range w.cells.size := fun id hid => List.mem_range.2 (h.inside id hid)
  simpa using List.Nodup.length_le_of_subset h.nodup hs

theorem Room.enter (h : Room w path (budget + 1)) (hp : id ∉ path) (hi : id < w.cells.size) :
    Room w (id :: path) budget where
  nodup := List.nodup_cons.2 ⟨hp, h.nodup⟩
  inside := List.forall_mem_cons.2 ⟨hi, h.inside⟩
  enough := by
    have he := h.enough
    rw [List.length_cons]
    omega

theorem walk_scalar (hv : ∀ id, v ≠ .container id) :
    walk w admits budget path done v = if admits v then some done else none := by
  cases v with
  | container id => exact absurd rfl (hv id)
  | _ => cases budget <;> rfl

theorem walk_container (ha : admits (.container id) = true) (hd : id ∉ done) (hp : id ∉ path) :
    walk w admits (budget + 1) path done (.container id) =
      ((w.cell id).children.foldlM (walk w admits budget (id :: path)) done).map (id :: ·) := by
  rw [walk, if_pos ha, if_neg (by simpa using hd), if_neg (by simpa using hp)]

theorem walk_known (ha : admits (.container id) = true) (hd : id ∈ done) :
    walk w admits budget path done (.container id) = some done := by
  rw [walk.eq_def]
  simp [ha, hd]

theorem walk_again (ha : admits (.container id) = true) (hd : id ∉ done) (hp : id ∈ path) :
    walk w admits budget path done (.container id) = none := by
  rw [walk.eq_def]
  simp [ha, hd, hp]

theorem walk_refused (ha : admits v = false) : walk w admits budget path done v = none := by
  rw [walk.eq_def]
  split <;> simp [ha]

def Ends (w : World) (admits : Value → Bool) (remembers : Bool) (budget : Nat)
    (path done : List CellId) (vs : List Value) : Prop :=
  ∃ out, Walks w admits remembers path done vs out ∧
    (remembers = true → vs.foldlM (walk w admits budget path) done = out)

theorem Ends.refuse (ha : admits v = false) :
    Ends w admits remembers budget path done (v :: vs) := by
  refine ⟨none, .refused ha, fun _ => ?_⟩
  rw [List.foldlM_cons, walk_refused ha]
  rfl

theorem Ends.pass_scalar (ha : admits v = true) (hv : ∀ id, v ≠ .container id)
    (hs : Ends w admits remembers budget path done vs) :
    Ends w admits remembers budget path done (v :: vs) := by
  obtain ⟨out, hs, he⟩ := hs
  refine ⟨out, .scalar ha hv hs, fun hr => ?_⟩
  rw [List.foldlM_cons, walk_scalar hv, if_pos ha]
  exact he hr

theorem Ends.skip (ha : admits (.container id) = true) (hd : id ∈ done)
    (hs : Ends w admits remembers budget path done vs) :
    Ends w admits remembers budget path done (.container id :: vs) := by
  obtain ⟨out, hs, he⟩ := hs
  refine ⟨out, .known ha hd hs, fun hr => ?_⟩
  rw [List.foldlM_cons, walk_known ha hd]
  exact he hr

theorem Ends.close (ha : admits (.container id) = true) (hd : id ∉ done) (hp : id ∈ path) :
    Ends w admits remembers budget path done (.container id :: vs) := by
  refine ⟨none, .again ha hd hp, fun _ => ?_⟩
  rw [List.foldlM_cons, walk_again ha hd hp]
  rfl

theorem Ends.enter (ha : admits (.container id) = true) (hd : id ∉ done) (hp : id ∉ path)
    (hc : Ends w admits remembers budget (id :: path) done (w.cell id).children)
    (hs : ∀ done, Ends w admits remembers (budget + 1) path done vs) :
    Ends w admits remembers (budget + 1) path done (.container id :: vs) := by
  rw [Ends, List.foldlM_cons, walk_container ha hd hp]
  obtain ⟨out, hc, he⟩ := hc
  cases out with
  | none =>
    refine ⟨none, .failed ha hd hp hc, fun hr => ?_⟩
    rw [he hr]
    rfl
  | some done' =>
    obtain ⟨out, hs, he'⟩ := hs (remembered remembers id done')
    refine ⟨out, .passed ha hd hp hc hs, fun hr => ?_⟩
    subst hr
    rw [he rfl]
    exact he' rfl

theorem Ends.cons (hc : ∀ id ∉ path, Ends w admits remembers budget (id :: path) done
      (w.cell id).children)
    (hs : ∀ done, Ends w admits remembers (budget + 1) path done vs) (v : Value) :
    Ends w admits remembers (budget + 1) path done (v :: vs) := by
  by_cases ha : admits v = true
  · by_cases hv : ∀ id, v ≠ .container id
    · exact .pass_scalar ha hv (hs done)
    push Not at hv
    obtain ⟨id, rfl⟩ := hv
    by_cases hd : id ∈ done
    · exact .skip ha hd (hs done)
    by_cases hp : id ∈ path
    · exact .close ha hd hp
    exact .enter ha hd hp (hc id hp) hs
  · exact .refuse (Bool.eq_false_iff.2 ha)

theorem ends (w : World) (admits : Value → Bool) (remembers : Bool) (h : Room w path budget)
    (done : List CellId) (vs : List Value) : Ends w admits remembers budget path done vs := by
  induction budget generalizing path done vs with
  | zero =>
    have hl := h.length_le
    have he := h.enough
    omega
  | succ budget ihb =>
    induction vs generalizing done with
    | nil => exact ⟨some done, .done, fun _ => rfl⟩
    | cons v vs ih =>
      refine .cons (fun id hp => ?_) ih v
      by_cases hi : id < w.cells.size
      · exact ihb (h.enter hp hi) done _
      -- A container that is none of the world has nothing below it to walk.
      · have hn : (w.cell id).children = [] := children_of_not_lt hi
        rw [hn]
        exact ⟨some done, .done, fun _ => rfl⟩

theorem Walks.isTree {out : Option (List CellId)} {done' : List CellId}
    (h : Walks w admits remembers path done vs out) (ho : out = some done')
    (hd : ∀ id ∈ done, (Value.container id).IsTree w (admits · = true)) :
    (∀ v ∈ vs, v.IsTree w (admits · = true)) ∧
      ∀ id ∈ done', (Value.container id).IsTree w (admits · = true) := by
  induction h generalizing done' with
  | done =>
    cases ho
    exact ⟨by simp, hd⟩
  | refused | again | failed => cases ho
  | @scalar _ _ v _ _ ha hv _ ih =>
    obtain ⟨hvs, hd'⟩ := ih ho hd
    have ht : v.IsTree w (admits · = true) := by
      apply IsTree.node ha
      intro u hu
      obtain ⟨id, rfl⟩ := exists_container_of_child hu
      exact absurd rfl (hv id)
    exact ⟨List.forall_mem_cons.2 ⟨ht, hvs⟩, hd'⟩
  | @known _ _ id _ _ _ hm _ ih =>
    obtain ⟨hvs, hd'⟩ := ih ho hd
    exact ⟨List.forall_mem_cons.2 ⟨hd id hm, hvs⟩, hd'⟩
  | @passed _ _ done₁ id _ _ ha _ _ _ _ ihc ihs =>
    obtain ⟨hchildren, hd₁⟩ := ihc rfl hd
    have ht : (Value.container id).IsTree w (admits · = true) := .node ha hchildren
    have hr : ∀ i ∈ remembered remembers id done₁,
        (Value.container i).IsTree w (admits · = true) := by
      rw [remembered]
      split
      · exact List.forall_mem_cons.2 ⟨ht, hd₁⟩
      · exact hd₁
    obtain ⟨hvs, hd'⟩ := ihs ho hr
    exact ⟨List.forall_mem_cons.2 ⟨ht, hvs⟩, hd'⟩

def Sane (w : World) (p : Value → Prop) (v : Value) : Prop :=
  (∀ u, ReflTransGen (Child w) v u → p u) ∧ v.Acyclic w

theorem IsTree.sane {p : Value → Prop} (h : v.IsTree w p) : v.Sane w p :=
  ⟨fun _ hr => (h.reaches hr).property, h.acyclic⟩

theorem Sane.child {u : Value} {p : Value → Prop} (h : v.Sane w p) (hu : Child w v u) :
    u.Sane w p :=
  ⟨fun x hx => h.1 x (.head hu hx), h.2.child hu⟩

theorem Walks.exists_not_sane {out : Option (List CellId)}
    (h : Walks w admits remembers path done vs out) (ho : out = none)
    (hp : ∀ id ∈ path, ∀ v ∈ vs, TransGen (Child w) (.container id) v) :
    ∃ v ∈ vs, ¬ v.Sane w (admits · = true) := by
  induction h with
  | done => cases ho
  | @refused _ _ v _ ha =>
    refine ⟨v, List.mem_cons_self, fun hs => ?_⟩
    rw [hs.1 v .refl] at ha
    cases ha
  | again ha hd hm =>
    refine ⟨_, List.mem_cons_self, fun hs => ?_⟩
    exact hs.2 _ .refl (hp _ hm _ List.mem_cons_self)
  | @failed path _ id _ _ _ _ _ ih =>
    have hbelow : ∀ i ∈ id :: path, ∀ u ∈ (w.cell id).children,
        TransGen (Child w) (.container i) u := by
      intro i hi u hu
      have hc : Child w (.container id) u := hu
      rcases List.mem_cons.1 hi with rfl | hi
      · exact .single hc
      · exact (hp i hi _ List.mem_cons_self).tail hc
    obtain ⟨u, hu, hs⟩ := ih ho hbelow
    exact ⟨.container id, List.mem_cons_self, fun h => hs (h.child hu)⟩
  | scalar _ _ _ ih | known _ _ _ ih | passed _ _ _ _ _ _ ih =>
    obtain ⟨u, hu, hs⟩ := ih ho fun i hi u hu => hp i hi u (List.mem_cons_of_mem _ hu)
    exact ⟨u, List.mem_cons_of_mem _ hu, hs⟩

theorem Walks.isSome_iff {out : Option (List CellId)}
    (h : Walks w admits remembers [] [] [v] out) :
    out.isSome = true ↔ v.IsTree w (admits · = true) := by
  constructor
  · intro ho
    obtain ⟨done', rfl⟩ := Option.isSome_iff_exists.1 ho
    exact (h.isTree rfl (by simp)).1 v (List.mem_singleton_self v)
  · intro ht
    by_contra ho
    obtain ⟨u, hu, hs⟩ := h.exists_not_sane (Option.not_isSome_iff_eq_none.1 ho) (by simp)
    obtain rfl := List.mem_singleton.1 hu
    exact hs ht.sane

theorem isTree_iff : v.IsTree w (admits · = true) ↔ v.Sane w (admits · = true) := by
  refine ⟨IsTree.sane, fun h => ?_⟩
  obtain ⟨out, hw, -⟩ := ends w admits true (.start w) [] [v]
  apply hw.isSome_iff.1
  by_contra ho
  obtain ⟨u, hu, hs⟩ := hw.exists_not_sane (Option.not_isSome_iff_eq_none.1 ho) (by simp)
  obtain rfl := List.mem_singleton.1 hu
  exact hs h

theorem unfolds_iff : unfolds w admits v = true ↔ v.IsTree w (admits · = true) := by
  obtain ⟨out, hw, he⟩ := ends w admits true (.start w) [] [v]
  rw [← hw.isSome_iff, ← he rfl, unfolds]
  rw [List.foldlM_cons]
  cases walk w admits (w.cells.size + 1) [] [] v <;> rfl

theorem unfolds_walks (w : World) (admits : Value → Bool) (v : Value) (remembers : Bool) :
    (∃ out, Walks w admits remembers [] [] [v] out) ∧
      ∀ out, Walks w admits remembers [] [] [v] out → unfolds w admits v = out.isSome := by
  constructor
  · obtain ⟨out, hw, -⟩ := ends w admits remembers (.start w) [] [v]
    exact ⟨out, hw⟩
  · intro out hw
    rw [Bool.eq_iff_iff, unfolds_iff, hw.isSome_iff]

theorem isCircular_iff : v.isCircular w = true ↔ ¬ v.Acyclic w := by
  rw [isCircular, Bool.not_eq_true', ← Bool.not_eq_true, unfolds_iff, isTree_iff, Sane]
  simp

theorem isCircular_exact (w : World) (v : Value) :
    (∀ remembers, (∃ out, Walks w (fun _ => true) remembers [] [] [v] out) ∧
      ∀ out, Walks w (fun _ => true) remembers [] [] [v] out → v.isCircular w = out.isNone) ∧
    (v.isCircular w = true ↔ ∃ id, ReflTransGen (Child w) v (.container id) ∧
      TransGen (Child w) (.container id) (.container id)) := by
  constructor
  · intro remembers
    obtain ⟨hex, hall⟩ := unfolds_walks w (fun _ => true) v remembers
    refine ⟨hex, fun out hw => ?_⟩
    rw [isCircular, hall out hw, Option.not_isSome]
  · rw [isCircular_iff, acyclic_iff]
    push Not
    rfl

inductive IsJsonKind (w : World) : Value → Prop where
  | null : IsJsonKind w .null
  | bool (b : Bool) : IsJsonKind w (.bool b)
  | number (q : Rat) : IsJsonKind w (.number (.finite q))
  | str (s : String) : IsJsonKind w (.str s)
  | array {id : CellId} {items : List Value} (h : w.cell id = .array items) :
      IsJsonKind w (.container id)
  | object {id : CellId} {properties : Keyed Value} (h : w.cell id = .object none properties) :
      IsJsonKind w (.container id)

theorem isJsonNode_iff : isJsonNode w v = true ↔ IsJsonKind w v := by
  constructor
  · intro h
    cases v with
    | null => exact .null
    | bool b => exact .bool b
    | str s => exact .str s
    | number n =>
      cases n with
      | finite q => exact .number q
      | _ => cases h
    | container id =>
      cases hc : w.cell id with
      | array items => exact .array hc
      | object cls properties =>
        cases cls with
        | none => exact .object hc
        | some c =>
          simp [isJsonNode, isArray, items?, isPlainObject, properties?, class?, cell?, hc] at h
      | _ => simp [isJsonNode, isArray, items?, isPlainObject, properties?, class?, cell?, hc] at h
    | _ => cases h
  · intro h
    cases h with
    | array h | object h =>
      simp [isJsonNode, isArray, items?, isPlainObject, properties?, class?, cell?, h]
    | _ => rfl

theorem isJsonable_exact (w : World) (v : Value) :
    (∀ remembers, (∃ out, Walks w (isJsonNode w) remembers [] [] [v] out) ∧
      ∀ out, Walks w (isJsonNode w) remembers [] [] [v] out → v.isJsonable w = out.isSome) ∧
    (v.isJsonable w = true ↔ v.IsTree w (IsJsonKind w)) ∧
    (v.isJsonable w = true ↔
      (∀ u, ReflTransGen (Child w) v u → IsJsonKind w u) ∧
        ∀ id, ReflTransGen (Child w) v (.container id) →
          ¬ TransGen (Child w) (.container id) (.container id)) ∧
    (v.isJsonable w = true → v.isCircular w = false) := by
  have hkind : (isJsonNode w · = true) = IsJsonKind w := by
    funext u
    exact propext isJsonNode_iff
  have htree : v.isJsonable w = true ↔ v.IsTree w (IsJsonKind w) := by
    rw [← hkind]
    exact unfolds_iff
  refine ⟨unfolds_walks w (isJsonNode w) v, htree, ?_, ?_⟩
  · rw [htree, ← hkind, isTree_iff, Sane, acyclic_iff]
  · intro h
    have ha := (htree.1 h).acyclic
    simpa [← Bool.not_eq_true, isCircular_iff] using ha

end ValueCheck.Value
