import Mathlib.Logic.Relation
import ValueCheck.Proofs.Matching.Closure

/-! Where a mismatch comes from: the schema itself refuses the value, by a checker that the
registry gave when it was asked, or one of its demands is not met. -/

namespace ValueCheck

open Relation Matching
open Registry (Coherent bind_apply adapt_apply get_bind_apply mapError_eq_ok mapError_eq_error)

namespace Registry

def Later : Registry → Registry → Prop :=
  ReflTransGen fun r r' => ∃ source, r' = (getOrCompile source r).2

/-- Asked for by the matchings of one check, the checker is what the registry has to give. -/
def Gives (r : Registry) (x : Registering Checker) (c : Checker) : Prop :=
  ∃ r', r.Later r' ∧ (x r').1 = .ok c

theorem Later.coherent {r r' : Registry} {named : String → Option Checker} (h : r.Later r')
    (hr : Coherent named r) : Coherent named r' := by
  induction h with
  | refl => exact hr
  | tail _ hc ih =>
    obtain ⟨source, rfl⟩ := hc
    exact (computes_getOrCompile source _ ih).1

theorem named_registry (name : String) (r : Registry) : (named name r).2 = r := by
  rw [Registry.named, get_bind_apply]
  cases r.get? name <;> rfl

end Registry

def OnlyCompiles {α : Type} (x : Matching α) : Prop := ∀ r : Registry, r.Later (x r).2

theorem closed_onlyCompiles : Closed fun _ x => OnlyCompiles x where
  pure a r := .refl
  throw e r := .refl
  bind {α β x f} hx hf r := by
    have hl := hx r
    rw [bind_apply]
    rcases hxr : x r with ⟨e | a, r'⟩ <;> rw [hxr] at hl
    · exact hl
    · exact hl.trans (hf a r')
  below hx _ r := hx r
  named {name} _ r := by
    rw [compiling, adapt_apply, Registry.named_registry]
    exact .refl
  compiled source r := .single ⟨source, rfl⟩

namespace Matcher

variable (m : Matcher)

/-- The schema's own check of the value fails. -/
inductive Refuses (r : Registry) : Schema → Value → Reason → Option ErrorFactory → Prop where
  | typeString {source : String} {v : Value} {c : Checker}
      (hc : r.Gives (Registry.getOrCompile source) c) (hv : c.accepts m.world v = false) :
      Refuses r (.typeString source) v (.mustBe c.description) c.factory
  | literal {l : Literal} {v : Value} {c : Checker}
      (hc : r.Gives (Registry.named l.checkerName) c) (hv : c.accepts m.world v = false) :
      Refuses r (.literal l) v (.mustBe c.description) c.factory
  | instanceOf {c : Class} {v : Value} (hv : v.instanceOf m.world c = false) :
      Refuses r (.instanceOf c) v (.mustBeInstance c.displayName) none
  | list {id : NodeId} {ss : List Schema} {v : Value} {c : Checker}
      (hn : m.schemas.node id = .list ss) (hss : ss ≠ []) (hi : v.items? m.world = none)
      (hc : r.Gives (Registry.named "array") c) (hv : c.accepts m.world v = false) :
      Refuses r (.node id) v (.mustBe c.description) c.factory
  | shape {id : NodeId} {shape : Shape} {v : Value} {c : Checker}
      (hn : m.schemas.node id = .shape shape)
      (hp : shape.cls = none ∨ v.properties? m.world = none)
      (hc : r.Gives (Registry.named "object") c) (hv : c.accepts m.world v = false) :
      Refuses r (.node id) v (.mustBe c.description) c.factory
  | shapeOf {id : NodeId} {shape : Shape} {v : Value} {c : Class}
      (hn : m.schemas.node id = .shape shape) (hs : shape.cls = some c)
      (hv : v.instanceOf m.world c = false) :
      Refuses r (.node id) v (.mustBeInstance c.displayName) none

def Own (r : Registry) (s : Schema) (v : Value) (mm : Mismatch) : Prop :=
  ∃ reason factory, m.Refuses r s v reason factory ∧ mm = ⟨reason, v, [], factory⟩

variable {m} {budget : Nat} {path : List Visit} {id : NodeId} {s : Schema} {v : Value}
  {r r' : Registry} {mm : Mismatch}

theorem mismatch_require {c : Checker} (h : (m.require c v r).1 = .error (.mismatch mm)) :
    c.accepts m.world v = false ∧ mm = ⟨.mustBe c.description, v, [], c.factory⟩ := by
  rw [require] at h
  split at h <;> cases h
  next hv => exact ⟨eq_false_of_ne_true hv, rfl⟩

theorem mismatch_requireInstance {c : Class}
    (h : (m.requireInstance c v r).1 = .error (.mismatch mm)) :
    v.instanceOf m.world c = false ∧ mm = ⟨.mustBeInstance c.displayName, v, [], none⟩ := by
  rw [requireInstance] at h
  split at h <;> cases h
  next hv => exact ⟨eq_false_of_ne_true hv, rfl⟩

theorem mismatch_compiling {x : Registering Checker} (hl : r.Later r')
    (h : ((do m.require (← compiling x) v : Matching Unit) r').1 = .error (.mismatch mm)) :
    ∃ c, r.Gives x c ∧ c.accepts m.world v = false ∧
      mm = ⟨.mustBe c.description, v, [], c.factory⟩ := by
  rw [bind_apply, compiling, adapt_apply] at h
  rcases hx : (x r').1 with e | c <;> rw [hx] at h
  · cases h
  · exact ⟨c, ⟨r', hl, hx⟩, mismatch_require h⟩

theorem own_leaf (hs : ∀ id, s ≠ .node id) (hl : r.Later r')
    (h : (m.matchBelow budget path s v r').1 = .error (.mismatch mm)) : m.Own r s v mm := by
  cases s with
  | typeString source =>
    rw [matchBelow] at h
    obtain ⟨c, hc, hv, rfl⟩ := mismatch_compiling hl h
    exact ⟨_, _, .typeString hc hv, rfl⟩
  | literal l =>
    rw [matchBelow] at h
    obtain ⟨c, hc, hv, rfl⟩ := mismatch_compiling hl h
    exact ⟨_, _, .literal hc hv, rfl⟩
  | instanceOf c =>
    rw [matchBelow] at h
    obtain ⟨hv, rfl⟩ := mismatch_requireInstance h
    exact ⟨_, _, .instanceOf hv, rfl⟩
  | node id => exact absurd rfl (hs id)

theorem own_requireFirst (hl : r.Later r')
    (h : (m.requireFirst (m.schemas.node id) v r').1 = .error (.mismatch mm)) :
    m.Own r (.node id) v mm := by
  cases hn : m.schemas.node id with
  | list ss =>
    rw [hn] at h
    cases ss <;> cases h
  | shape shape =>
    rw [hn, requireFirst, requireKind] at h
    cases hs : shape.cls with
    | some c =>
      rw [hs] at h
      obtain ⟨hv, rfl⟩ := mismatch_requireInstance h
      exact ⟨_, _, .shapeOf hn hs hv, rfl⟩
    | none =>
      rw [hs] at h
      obtain ⟨c, hc, hv, rfl⟩ := mismatch_compiling hl h
      exact ⟨_, _, .shape hn (.inl hs) hc hv, rfl⟩

theorem own_outside (hl : r.Later r') (hne : m.schemas.node id ≠ .list [])
    (hds : m.demands (m.schemas.node id) v = none)
    (h : (m.requireNamed (m.schemas.node id).containerName v r').1 = .error (.mismatch mm)) :
    m.Own r (.node id) v mm := by
  obtain ⟨c, hc, hv, rfl⟩ := mismatch_compiling hl h
  cases hn : m.schemas.node id with
  | list ss =>
    rw [hn] at hne hds hc
    have hss : ss ≠ [] := fun he => hne (by rw [he])
    have hi : v.items? m.world = none := by
      match ss with
      | [] => exact absurd rfl hss
      | [s] | s :: t :: ts => exact Option.map_eq_none_iff.1 hds
    exact ⟨_, _, .list hn hss hi hc hv, rfl⟩
  | shape shape =>
    rw [hn] at hds hc
    exact ⟨_, _, .shape hn (.inr (Option.map_eq_none_iff.1 hds)) hc hv, rfl⟩

theorem forM_eq_error {α : Type} {l : List α} {f : α → Matching Unit}
    (hf : ∀ a, OnlyCompiles (f a)) (hl : r.Later r') {e : Halt}
    (h : (l.forM f r').1 = .error e) : ∃ before a after, l = before ++ a :: after ∧
      (∃ r', r.Later r' ∧ (f a r').1 = .error e) ∧
        ∀ b ∈ before, ∃ r', r.Later r' ∧ (f b r').1 = .ok () := by
  induction l generalizing r' with
  | nil => cases h
  | cons a l ih =>
    change ((f a >>= fun _ => l.forM f) r').1 = .error e at h
    rw [bind_apply] at h
    rcases ha : f a r' with ⟨e' | u, r''⟩
    · rw [ha] at h
      cases h
      exact ⟨[], a, l, rfl, ⟨r', hl, by rw [ha]⟩, by simp⟩
    · rw [ha] at h
      have hl' : r'.Later r'' := by simpa [ha] using hf a r'
      obtain ⟨before, b, after, rfl, hb, hbefore⟩ := ih (hl.trans hl') h
      refine ⟨a :: before, b, after, rfl, hb, ?_⟩
      rw [List.forall_mem_cons]
      exact ⟨⟨r', hl, by rw [ha]⟩, hbefore⟩

theorem mismatch_node (hl : r.Later r')
    (h : (m.matchBelow (budget + 1) path (.node id) v r').1 = .error (.mismatch mm)) :
    m.Own r (.node id) v mm ∨
    ∃ cell before d after, v = .container cell ∧
      m.demands (m.schemas.node id) v = some (before ++ d :: after) ∧
        (∃ r', r.Later r' ∧
          (d.meet (m.matchBelow budget (⟨id, cell⟩ :: path)) r').1 = .error (.mismatch mm)) ∧
        ∀ b ∈ before, ∃ r', r.Later r' ∧
          (b.meet (m.matchBelow budget (⟨id, cell⟩ :: path)) r').1 = .ok () := by
  rw [matchBelow_node, bind_apply] at h
  have hfirst : r'.Later (m.requireFirst (m.schemas.node id) v r').2 :=
    closed_onlyCompiles.requireFirst _ r'
  rcases hq : m.requireFirst (m.schemas.node id) v r' with ⟨e | u, r''⟩
  · rw [hq] at h
    cases h
    exact .inl (own_requireFirst hl (by rw [hq]))
  · rw [hq] at h hfirst
    have hl' : r.Later r'' := hl.trans hfirst
    have hne : m.schemas.node id ≠ .list [] := by
      intro hn
      rw [hn] at hq
      cases hq
    have hlook := m.looking path id v fun path ds =>
      ds.forM (Demand.meet (m.matchBelow budget path))
    generalize m.inside path id v _ _ _ = looked at hlook h
    cases hlook with
    | outside hds => exact .inl (own_outside hl' hne hds h)
    | circular | known | tooDeep => cases h
    | @entered cell ds hv hds =>
      have hmeet (d : Demand) : OnlyCompiles (d.meet (m.matchBelow budget (⟨id, cell⟩ :: path))) :=
        closed_onlyCompiles.meet (fun _ _ => closed_onlyCompiles.matchBelow) d
      obtain ⟨before, d, after, rfl, hd, hb⟩ := forM_eq_error hmeet hl' h
      exact .inr ⟨cell, before, d, after, hv, hds, hd, hb⟩

theorem mismatch_matchArguments {ss : List Schema} {vs : List Value}
    (h : (m.matchArguments ss vs r).1 = .error (.mismatch mm)) :
    mm = ⟨.argumentCount ss.length, .number (.ofNat vs.length), [], none⟩ ∨
    ∃ i s r' mm', ss[i]? = some s ∧ r.Later r' ∧
      (m.matchSchema s (vs[i]?.getD .undefined) r').1 = .error (.mismatch mm') ∧
        mm = { mm' with steps := .index i :: mm'.steps } := by
  rw [matchArguments, bind_apply] at h
  rcases hf : ss.zipIdx.forM (fun a => Matching.below (.index a.2)
      (m.matchSchema a.1 (vs[a.2]?.getD .undefined))) r with ⟨e | u, r'⟩
  · rw [hf] at h
    cases h
    have hbelow (a : Schema × Nat) : OnlyCompiles (Matching.below (.index a.2)
        (m.matchSchema a.1 (vs[a.2]?.getD .undefined))) :=
      closed_onlyCompiles.below (closed_onlyCompiles.matchSchema a.1 _) _
    obtain ⟨before, ⟨s, i⟩, after, hss, ⟨r'', hl, hd⟩, -⟩ :=
      forM_eq_error hbelow .refl (congrArg Prod.fst hf)
    rw [Matching.below, adapt_apply] at hd
    obtain ⟨e | mm', he, hstep⟩ := mapError_eq_error.1 hd <;> cases hstep
    have hmem : (s, i) ∈ ss.zipIdx := by simp [hss]
    exact .inr ⟨i, s, r'', mm', List.mem_zipIdx_iff_getElem?.1 hmem, hl, he, rfl⟩
  · rw [hf] at h
    dsimp only at h
    split at h <;> cases h
    exact .inl rfl

section Meet

variable {inner : Schema → Value → Matching Unit} {step : Step} {u : Value} {d : Demand}

theorem mismatch_part (h : ((Demand.part step s u).meet inner r).1 = .error (.mismatch mm)) :
    ∃ mm', (inner s u r).1 = .error (.mismatch mm') ∧
      mm = { mm' with steps := step :: mm'.steps } := by
  rw [Demand.meet, Matching.below, adapt_apply] at h
  obtain ⟨e | mm', he, hstep⟩ := mapError_eq_error.1 h <;> cases hstep
  exact ⟨mm', he, rfl⟩

theorem ok_meet (h : (d.meet inner r).1 = .ok ()) :
    ∃ step s u, d = .part step s u ∧ (inner s u r).1 = .ok () := by
  cases d with
  | part step s u =>
    rw [Demand.meet, Matching.below, adapt_apply] at h
    exact ⟨step, s, u, rfl, mapError_eq_ok.1 h⟩
  | refusal reason u => cases h

end Meet

end Matcher

end ValueCheck
