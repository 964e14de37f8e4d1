import ValueCheck.Proofs.Matching.Demands

/-! Two matchings side by side. The first does what the second does, registry included,
unless it halts for a reason that the second has not. -/

namespace ValueCheck

open Matching
open Registry (bind_apply adapt_apply)

def Follows {α : Type} (p : Halt → Prop) (x y : Matching α) : Prop :=
  ∀ r, x r = y r ∨ ∃ e, (x r).1 = .error e ∧ p e

namespace Follows

variable {α β : Type} {p : Halt → Prop} {x y : Matching α}

theorem refl (x : Matching α) : Follows p x x := fun _ => .inl rfl

theorem bind {f g : α → Matching β} (hx : Follows p x y) (hf : ∀ a, Follows p (f a) (g a)) :
    Follows p (x >>= f) (y >>= g) := by
  intro r
  rw [bind_apply, bind_apply]
  rcases hx r with he | ⟨e, he, hp⟩
  · rw [he]
    rcases y r with ⟨e | a, r'⟩
    · exact .inl rfl
    · exact hf a r'
  · refine .inr ⟨e, ?_, hp⟩
    rcases hxr : x r with ⟨e' | a, r'⟩ <;> rw [hxr] at he <;> cases he
    rfl

theorem adapt (h : Follows p x y) {f : Halt → Halt} (hf : ∀ e, p e → p (f e)) :
    Follows p (x.adapt f) (y.adapt f) := by
  intro r
  rw [adapt_apply, adapt_apply]
  rcases h r with he | ⟨e, he, hp⟩
  · rw [he]
    exact .inl rfl
  · exact .inr ⟨f e, by rw [he]; rfl, hf e hp⟩

theorem forM {l : List α} {f g : α → Matching Unit} (h : ∀ a ∈ l, Follows p (f a) (g a)) :
    Follows p (l.forM f) (l.forM g) := by
  induction l with
  | nil => exact .refl _
  | cons a l ih =>
    rw [List.forall_mem_cons] at h
    exact h.1.bind fun _ => ih h.2

theorem meet {inner inner' : Schema → Value → Matching Unit}
    (hbelow : ∀ (mm : Mismatch) (step : Step), p (.mismatch mm) →
      p (.mismatch { mm with steps := step :: mm.steps }))
    (hi : ∀ s v, Follows p (inner s v) (inner' s v)) (d : Demand) :
    Follows p (d.meet inner) (d.meet inner') := by
  cases d with
  | part step s v =>
    apply (hi s v).adapt
    rintro (e | mm) he
    · exact he
    · exact hbelow mm step he
  | refusal reason v => exact .refl _

end Follows

def Demand.Refuses (p : Halt → Prop) (d : Demand) : Prop :=
  ∃ reason v, d = .refusal reason v ∧ p (.mismatch ⟨reason, v, [], none⟩)

namespace Matcher

def under (m : Matcher) (c : Config) : Matcher := { m with config := c }

theorem demands_list_under {m : Matcher} {c : Config} {ss : List Schema} {v : Value} :
    (m.under c).demands (.list ss) v = m.demands (.list ss) v := by
  rcases ss with _ | ⟨s, _ | ⟨t, ss⟩⟩ <;> rfl

/-- The other configuration lets the same values be entered and more, and makes the same
demands but for some at the end. -/
structure Stricter (m : Matcher) (c : Config) (p : Halt → Prop) : Prop where
  enter (path : List Visit) (visit : Visit) :
    Follows p (m.enter path visit) ((m.under c).enter path visit)
  demands (n : SchemaNode) (v : Value) : ∃ more : List Demand,
    m.demands n v = ((m.under c).demands n v).map (· ++ more) ∧ ∀ d ∈ more, d.Refuses p
  below {mm : Mismatch} (h : p (.mismatch mm)) (step : Step) :
    p (.mismatch { mm with steps := step :: mm.steps })

namespace Stricter

variable {m : Matcher} {c : Config} {p : Halt → Prop}

theorem meet_refusals {more : List Demand} (h : ∀ d ∈ more, d.Refuses p)
    (inner : Schema → Value → Matching Unit) :
    Follows p (more.forM (Demand.meet inner)) (return ()) := by
  cases more with
  | nil => exact .refl _
  | cons d more =>
    obtain ⟨reason, v, rfl, hp⟩ := h d List.mem_cons_self
    exact fun r => .inr ⟨_, rfl, hp⟩

theorem meet_all (h : m.Stricter c p) {inner inner' : Schema → Value → Matching Unit}
    (hi : ∀ s v, Follows p (inner s v) (inner' s v)) (ds : List Demand) {more : List Demand}
    (hmore : ∀ d ∈ more, d.Refuses p) :
    Follows p ((ds ++ more).forM (Demand.meet inner)) (ds.forM (Demand.meet inner')) := by
  have hds : Follows p (ds.forM (Demand.meet inner)) (ds.forM (Demand.meet inner')) :=
    .forM fun d _ => .meet (fun _ step hp => h.below hp step) hi d
  have hall := hds.bind fun _ => meet_refusals hmore inner
  rw [bind_pure_unit] at hall
  simp only [List.forM_eq_forM, List.forM_append] at hall ⊢
  exact hall

theorem inside (h : m.Stricter c p) {path : List Visit} {id : NodeId} {v : Value} {n : SchemaNode}
    {name : String} {run run' : List Visit → List Demand → Matching Unit}
    (hrun : ∀ path ds more, (∀ d ∈ more, d.Refuses p) →
      Follows p (run path (ds ++ more)) (run' path ds)) :
    Follows p (m.inside path id v (m.demands n v) name run)
      ((m.under c).inside path id v ((m.under c).demands n v) name run') := by
  obtain ⟨more, hd, hmore⟩ := h.demands n v
  rw [hd]
  cases hds : (m.under c).demands n v with
  | none =>
    rw [Option.map_none, inside_none, inside_none]
    exact .refl _
  | some ds =>
    obtain ⟨cell, rfl⟩ := container_of_demands hds
    apply (h.enter path ⟨id, cell⟩).bind
    rintro (_ | path)
    · exact .refl _
    · exact hrun path ds more hmore

theorem matchBelow (h : m.Stricter c p) (budget : Nat) (path : List Visit) (s : Schema)
    (v : Value) :
    Follows p (m.matchBelow budget path s v) ((m.under c).matchBelow budget path s v) := by
  -- Both descend through the same containers, so one path serves the two of them.
  induction budget generalizing path s v with
  | zero => cases s <;> rw [Matcher.matchBelow, Matcher.matchBelow] <;> exact .refl _
  | succ budget ih =>
    cases s with
    | node id =>
      rw [matchBelow_node, matchBelow_node]
      apply (Follows.refl (m.requireFirst (m.schemas.node id) v)).bind
      intro _
      apply h.inside
      intro path ds more hmore
      exact h.meet_all (ih path) ds hmore
    | _ =>
      rw [Matcher.matchBelow, Matcher.matchBelow]
      exact .refl _

theorem matchSchema (h : m.Stricter c p) (s : Schema) (v : Value) :
    Follows p (m.matchSchema s v) ((m.under c).matchSchema s v) :=
  h.matchBelow _ _ s v

end Stricter

end Matcher

end ValueCheck
