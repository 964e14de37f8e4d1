import ValueCheck.Proofs.Matching.Correctness
import ValueCheck.Proofs.Matching.Determinacy

/-! Parts of acyclic values match below their wholes as they match on their own. Only an
error in the configuration can come of the path that leads to them. -/

namespace ValueCheck

open Matching
open Registry (Computes)

/-- The second computation repeats the first, unless that stops at the configuration. -/
def Repeats {α : Type} (named : String → Option Checker) (x y : Matching α) : Prop :=
  ∃ out out', Computes named x out ∧ Computes named y out' ∧
    ((∀ e, out ≠ .error (.config e)) → out' = out)

namespace Repeats

variable {α β : Type} {named : String → Option Checker} {x y : Matching α}

theorem refl (h : Determined named x) : Repeats named x x := by
  obtain ⟨out, hout⟩ := h
  exact ⟨out, out, hout, hout, fun _ => rfl⟩

theorem config (e : ConfigError) (h : Determined named y) :
    Repeats named (throw (.config e)) y := by
  obtain ⟨out, hout⟩ := h
  exact ⟨_, out, .throw _, hout, fun hne => absurd rfl (hne e)⟩

theorem bind {f g : α → Matching β} (hx : Repeats named x y)
    (hf : ∀ a, Repeats named (f a) (g a)) : Repeats named (x >>= f) (y >>= g) := by
  obtain ⟨out, out', hout, hout', hsame⟩ := hx
  choose p q hp hq hpq using hf
  refine ⟨_, _, hout.bind fun a _ => hp a, hout'.bind fun a _ => hq a, fun hne => ?_⟩
  have hne' : ∀ e, out ≠ .error (.config e) := by
    rintro e rfl
    exact hne e rfl
  rw [hsame hne']
  cases out with
  | error e => rfl
  | ok a => exact hpq a hne

theorem below {x y : Matching Unit} (h : Repeats named x y) (step : Step) :
    Repeats named (below step x) (below step y) := by
  obtain ⟨out, out', hout, hout', hsame⟩ := h
  refine ⟨_, _, hout.adapt _, hout'.adapt _, fun hne => ?_⟩
  rw [hsame]
  rintro e rfl
  exact hne e rfl

theorem forM {l : List α} {f g : α → Matching Unit} (h : ∀ a ∈ l, Repeats named (f a) (g a)) :
    Repeats named (l.forM f) (l.forM g) := by
  induction l with
  | nil => exact .refl ⟨_, .pure ()⟩
  | cons a l ih =>
    rw [List.forall_mem_cons] at h
    exact h.1.bind fun _ => ih h.2

end Repeats

namespace Matcher

variable {m : Matcher} {named : String → Option Checker} {budget budget' : Nat}
  {inner outer : List Visit} {id : NodeId} {s : Schema} {v : Value}

theorem follow_cases (v : Value) (step : Step) :
    step.follow m.world v ∈ v.children m.world ∨
      ∀ cell, step.follow m.world v ≠ .container cell := by
  cases step with
  | key k =>
    rw [Step.follow, Value.property]
    cases hp : v.properties? m.world with
    | none => exact .inr (by simp)
    | some properties =>
      rw [Option.bind_some]
      cases hk : properties.get? k with
      | none => exact .inr (by simp)
      | some u => exact .inl (mem_children_of_properties? hp (Keyed.mem_values_of_get? hk))
  | index i =>
    rw [Step.follow, Value.item]
    cases hi : v.items? m.world with
    | none => exact .inr (by simp)
    | some items =>
      rw [Option.bind_some]
      cases hu : items[i]? with
      | none => exact .inr (by simp)
      | some u => exact .inl (mem_children_of_items? hi (List.mem_of_getElem? hu))
  | keyItself k => exact .inr (by simp [Step.follow])

theorem children_of_scalar (h : ∀ cell, v ≠ .container cell) : v.children m.world = [] := by
  cases v with
  | container cell => exact absurd rfl (h cell)
  | _ => rfl

theorem Clear.follow {path : List Visit} {cell : CellId} (h : m.Clear path (.container cell))
    (id : NodeId) (ha : (Value.container cell).Acyclic m.world) (step : Step) :
    (step.follow m.world (.container cell)).Acyclic m.world ∧
      m.Clear (⟨id, cell⟩ :: path) (step.follow m.world (.container cell)) := by
  rcases @follow_cases m (.container cell) step with hu | hu
  · exact ⟨ha.child hu, h.enter ha hu⟩
  · have hc := @children_of_scalar m _ hu
    exact ⟨acyclic_of_scalar hc, .of_scalar hc hu⟩

theorem matchBelow_leaf {path path' : List Visit} (hs : ∀ id, s ≠ .node id) :
    m.matchBelow budget path s v = m.matchBelow budget' path' s v := by
  cases s with
  | node id => exact absurd rfl (hs id)
  | _ => rw [matchBelow, matchBelow]

theorem repeats_inside {run run' : List Visit → List Demand → Matching Unit}
    (hc : m.Clear (inner ++ outer) v) (hdet : ∀ path ds, Determined named (run' path ds))
    (hrun : ∀ cell ds, v = .container cell → m.demands (m.schemas.node id) v = some ds →
      Repeats named (run (⟨id, cell⟩ :: (inner ++ outer)) ds) (run' (⟨id, cell⟩ :: inner) ds)) :
    Repeats named
      (m.inside (inner ++ outer) id v (m.demands (m.schemas.node id) v)
        (m.schemas.node id).containerName run)
      (m.inside inner id v (m.demands (m.schemas.node id) v)
        (m.schemas.node id).containerName run') := by
  have hd' : Determined named (m.inside inner id v (m.demands (m.schemas.node id) v)
      (m.schemas.node id).containerName run') := closed_determined.inside hdet
  by_cases hds : m.demands (m.schemas.node id) v = none
  · rw [hds, inside_none, inside_none]
    exact .refl (closed_determined.requireNamed (SchemaNode.lexeme?_containerName _))
  have hl := m.looking (inner ++ outer) id v run
  have hl' := m.looking inner id v run'
  generalize m.inside (inner ++ outer) id v _ _ _ = looked at hl
  generalize m.inside inner id v _ _ _ = looked' at hl' hd'
  cases hl with
  | outside h => exact absurd h hds
  | circular | tooDeep => exact .config _ hd'
  | known hv h =>
    obtain ⟨u, hu, rfl⟩ := h
    exact absurd hv (hc.ne u hu)
  | @entered cell ds hv hds hn hcell hd =>
    -- A shorter path refuses nothing that the longer one lets in.
    cases hl' with
    | outside h => exact absurd h (by simp [hds])
    | circular h =>
      obtain ⟨u, hu, he⟩ := h
      exact absurd he (hn u (List.mem_append_left _ hu))
    | known hv' h =>
      obtain ⟨u, hu, he⟩ := h
      obtain rfl := Value.container.inj (hv.symm.trans hv')
      exact absurd he (hcell u (List.mem_append_left _ hu))
    | tooDeep _ hl hlt =>
      have hle := hd _ hl
      rw [List.length_append] at hle
      omega
    | entered hv' hds' =>
      obtain rfl := Value.container.inj (hv.symm.trans hv')
      obtain rfl := Option.some.inj (hds.symm.trans hds')
      exact hrun _ _ hv hds

theorem repeats_matchBelow (ha : v.Acyclic m.world) (hc : m.Clear (inner ++ outer) v)
    (hb : budget ≤ budget') : Repeats named (m.matchBelow budget (inner ++ outer) s v)
      (m.matchBelow budget' inner s v) := by
  induction budget generalizing budget' inner s v with
  | zero =>
    cases s with
    | node id =>
      rw [matchBelow]
      exact .config _ closed_determined.matchBelow
    | _ =>
      rw [matchBelow_leaf (by simp)]
      exact .refl closed_determined.matchBelow
  | succ budget ih =>
    cases s with
    | node id =>
      obtain ⟨budget', rfl⟩ := Nat.exists_eq_add_one_of_ne_zero (by omega : budget' ≠ 0)
      rw [matchBelow_node, matchBelow_node]
      refine (Repeats.refl (closed_determined.requireFirst _)).bind fun _ => ?_
      refine repeats_inside hc ?_ ?_
      · exact fun path ds => closed_determined.forM fun d _ =>
          closed_determined.meet (fun _ _ => closed_determined.matchBelow) d
      · rintro cell ds rfl hds
        refine .forM fun d hd => ?_
        cases d with
        | part step s u =>
          obtain ⟨-, rfl⟩ := part_of_demands hds hd
          obtain ⟨ha', hc'⟩ := hc.follow id ha step
          have hu : Repeats named (m.matchBelow budget ((⟨id, cell⟩ :: inner) ++ outer) s _)
              (m.matchBelow budget' (⟨id, cell⟩ :: inner) s _) := ih ha' hc' (by omega)
          exact hu.below step
        | refusal reason u => exact .refl (closed_determined.refuse reason u)
    | _ =>
      rw [matchBelow_leaf (by simp)]
      exact .refl closed_determined.matchBelow

variable {r r' : Registry}

theorem matchSchema_of_below {visit : Visit} {out : Except Halt Unit} (ha : v.Acyclic m.world)
    (hc : m.Clear [visit] v) (hr : Registry.Coherent named r) (hr' : Registry.Coherent named r')
    (h : (m.matchBelow m.schemas.nodes.size [visit] s v r').1 = out)
    (hout : ∀ e, out ≠ .error (.config e)) : (m.matchSchema s v r).1 = out := by
  have hrep : Repeats named (m.matchBelow m.schemas.nodes.size ([] ++ [visit]) s v)
      (m.matchBelow (m.schemas.nodes.size + 1) [] s v) :=
    repeats_matchBelow ha hc (Nat.le_succ _)
  obtain ⟨o, o', ho, ho', hsame⟩ := hrep
  have hoo : o = out := (ho r' hr').2.symm.trans h
  rw [matchSchema, (ho' r hr).2, hsame (hoo ▸ hout), hoo]

end Matcher

end ValueCheck
