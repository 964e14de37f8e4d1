import Mathlib.Data.List.Chain
import Mathlib.Data.List.Nodup
import ValueCheck.Engine
import ValueCheck.Proofs.Matching.Halting
import ValueCheck.Proofs.Matching.Following

/-! Limits of depth. A limit cuts a matching off where more lists and shapes would be open,
and a matching that is not cut off does not depend on it. -/

namespace ValueCheck

open Relation Matching

/-- Lists and shapes from a schema downwards, each inside the one in front of it and none
of them twice. -/
structure Schema.IsSimplePath (store : SchemaStore) (s : Schema) (ids : List NodeId) : Prop where
  start : ∀ id ∈ ids.head?, s = .node id
  chain : ids.IsChain fun outer inner => Schema.Child store (.node outer) (.node inner)
  nodup : ids.Nodup
  stored : ∀ id ∈ ids, id < store.nodes.size

def LimitLE : Option Nat → Option Nat → Prop
  | _, none => True
  | none, some _ => False
  | some limit, some limit' => limit ≤ limit'

def Halt.IsDepthExceeded : Halt → Prop
  | .config (.depthExceeded _) => True
  | _ => False

namespace Schema.IsSimplePath

variable {store : SchemaStore} {s : Schema} {ids : List NodeId} {id : NodeId}

theorem nil : IsSimplePath store s [] := ⟨by simp, by simp, by simp, by simp⟩

theorem snoc (h : IsSimplePath store s ids) (hs : ids = [] → s = .node id)
    (hl : ∀ last ∈ ids.getLast?, Child store (.node last) (.node id)) (hn : id ∉ ids)
    (hid : id < store.nodes.size) : IsSimplePath store s (ids ++ [id]) where
  start := by
    cases ids with
    | nil => simpa using hs rfl
    | cons first ids => exact h.start
  chain := by
    rw [List.isChain_append]
    refine ⟨h.chain, .singleton id, ?_⟩
    intro last hlast inner hi
    obtain rfl : id = inner := by simpa using hi
    exact hl last hlast
  nodup := by
    rw [List.nodup_append]
    refine ⟨h.nodup, List.nodup_singleton id, ?_⟩
    rintro a ha b hb rfl
    exact hn (List.mem_singleton.1 hb ▸ ha)
  stored := by
    rw [List.forall_mem_append]
    exact ⟨h.stored, by simpa using hid⟩

end Schema.IsSimplePath

namespace Matcher

variable {m : Matcher} {budget : Nat} {path : List Visit} {root s : Schema} {id : NodeId}
  {v : Value}

variable (m) in
structure Trail (root : Schema) (path : List Visit) (s : Schema) : Prop where
  simple : root.IsSimplePath m.schemas (path.reverse.map Visit.node)
  start : path = [] → root = s
  last : ∀ u ∈ path.head?, Schema.Child m.schemas (.node u.node) s

theorem Trail.node (h : m.Trail root path (.node id)) (hid : ∀ u ∈ path, u.node ≠ id)
    (hne : m.schemas.node id ≠ .list []) :
    root.IsSimplePath m.schemas (path.reverse.map Visit.node ++ [id]) := by
  apply h.simple.snoc _ _ _ (lt_size_of_node_ne hne)
  · intro hp
    exact h.start (by simpa using hp)
  · intro last hlast
    rw [List.map_reverse, List.getLast?_reverse, List.head?_map] at hlast
    obtain ⟨u, hu, rfl⟩ := Option.map_eq_some_iff.1 hlast
    exact h.last u hu
  · intro hmem
    obtain ⟨u, hu, he⟩ := List.mem_map.1 hmem
    exact hid u (List.mem_reverse.1 hu) he

theorem Trail.enter {cell : CellId} (h : m.Trail root path (.node id))
    (hid : ∀ u ∈ path, u.node ≠ id) (hne : m.schemas.node id ≠ .list [])
    (hs : s ∈ (m.schemas.node id).children) : m.Trail root (⟨id, cell⟩ :: path) s where
  simple := by simpa using h.node hid hne
  start := nofun
  last := by simpa [Schema.Child, Schema.children] using hs

variable (m) in
def CutOff (root : Schema) : Halt → Prop
  | .config (.depthExceeded limit) => m.config.maxDepth = some limit ∧
      ∃ ids, root.IsSimplePath m.schemas ids ∧ limit < ids.length
  | _ => True

theorem cutOff_config (e : ConfigError) (he : ¬ e.OfPath) : m.CutOff root (.config e) := by
  cases e with
  | depthExceeded => exact absurd trivial he
  | _ => trivial

theorem halts_cutOff (h : m.Trail root path s) :
    Halts (m.CutOff root) (m.matchBelow budget path s v) := by
  have hleaf (budget : Nat) (path : List Visit) {s : Schema} (v : Value)
      (hs : ∀ id, s ≠ .node id) : Halts (m.CutOff root) (m.matchBelow budget path s v) :=
    halts_leaf cutOff_config (fun _ _ => trivial) (fun _ => trivial) hs
  -- The trail grows by each container that is entered, so it measures the depth.
  induction budget generalizing path s v with
  | zero =>
    cases s with
    | node id =>
      rw [matchBelow]
      exact .throw trivial
    | _ => exact hleaf _ _ _ (by simp)
  | succ budget ih =>
    cases s with
    | node id =>
      apply halts_node cutOff_config (fun _ _ => trivial) (fun _ => trivial) (fun _ => trivial)
      · intro limit hl hd hne hid
        exact ⟨hl, _, h.node hid hne, by simpa using hd⟩
      · intro cell ds _ hds hne hid d hd
        cases d with
        | part step t u =>
          have ht : m.Trail root (⟨id, cell⟩ :: path) t :=
            h.enter hid hne (part_of_demands hds hd).1
          refine .adapt ((ih ht).imp ?_)
          rintro (e | mm) he
          · exact he
          · trivial
        | refusal reason u => exact .throw trivial
    | _ => exact hleaf _ _ _ (by simp)

theorem stricter_maxDepth {limit : Option Nat} (h : LimitLE m.config.maxDepth limit) :
    m.Stricter { m.config with maxDepth := limit } Halt.IsDepthExceeded where
  enter path visit := by
    have he := m.entering path visit
    generalize m.enter path visit = entered at he
    rw [enter]
    cases he with
    | circular h =>
      rw [if_pos (by simpa using h)]
      exact .refl _
    | known hn hc =>
      rw [if_neg (by simpa using hn), if_pos (by simpa using hc)]
      exact .refl _
    -- The only step where the larger limit may go on.
    | tooDeep hn hc hl hd => exact fun _ => .inr ⟨_, rfl, trivial⟩
    | entered hn hc hd =>
      rw [if_neg (by simpa using hn), if_neg (by simpa using hc)]
      cases limit with
      | none => exact .refl _
      | some limit' =>
        cases hl : m.config.maxDepth with
        | none =>
          rw [hl] at h
          exact h.elim
        | some limit =>
          rw [hl] at h
          have hle : path.length + 1 ≤ limit' := (hd limit hl).trans h
          simp only [under]
          rw [if_neg (by omega)]
          exact .refl _
  demands n v := by
    refine ⟨[], ?_, by simp⟩
    simp only [List.append_nil, Option.map_id']
    cases n with
    | list ss => exact demands_list_under.symm
    | shape shape => rfl
  below h _ := h

end Matcher

namespace Engine

theorem checkWith_limit (w : World) (schemas : SchemaStore) (factory : ErrorFactory) (v : Value)
    (s : Schema) (place : String) (e : Engine) (denyExcess : Bool) {limit limit' : Option Nat}
    (h : LimitLE limit limit') :
    let under (limit : Option Nat) :=
      checkWith w schemas factory v s place { e with config := ⟨denyExcess, limit⟩ }
    ((∀ n, (under limit).1 ≠ .error (.config (.depthExceeded n))) →
      (under limit').1 = (under limit).1 ∧ (under limit').2.registry = (under limit).2.registry) ∧
    (∀ n, (under limit).1 = .error (.config (.depthExceeded n)) → limit = some n) ∧
    ∀ l, limit = some l → (∀ ids, s.IsSimplePath schemas ids → ids.length ≤ l) →
      ∀ n, (under limit).1 ≠ .error (.config (.depthExceeded n)) := by
  intro under
  let m : Matcher := ⟨w, schemas, ⟨denyExcess, limit⟩⟩
  have hcut (n : Nat) (hn : (under limit).1 = .error (.config (.depthExceeded n))) :
      limit = some n ∧ ∃ ids, s.IsSimplePath schemas ids ∧ n < ids.length := by
    simp only [under, checkWith_apply] at hn
    obtain ⟨c | mm, hm, hraised⟩ := Registry.mapError_eq_error.1 hn <;> cases hraised
    have ht : m.Trail s [] s := ⟨.nil, fun _ => rfl, by simp⟩
    exact Matcher.halts_cutOff ht e.registry _ hm
  refine ⟨?_, fun n hn => (hcut n hn).1, ?_⟩
  · intro hne
    simp only [under, checkWith_apply] at hne ⊢
    have hs : m.Stricter ⟨denyExcess, limit'⟩ Halt.IsDepthExceeded := Matcher.stricter_maxDepth h
    rcases hs.matchSchema s v e.registry with he | ⟨c | mm, he, hd⟩
    · have he : m.matchSchema s v e.registry =
          (⟨w, schemas, ⟨denyExcess, limit'⟩⟩ : Matcher).matchSchema s v e.registry := he
      rw [← he]
      exact ⟨rfl, rfl⟩
    · cases c with
      | depthExceeded n => exact absurd (by rw [he]; rfl) (hne n)
      | _ => exact hd.elim
    · exact hd.elim
  · rintro l rfl hshort n hn
    obtain ⟨hl, ids, hids, hlt⟩ := hcut n hn
    cases hl
    exact absurd (hshort ids hids) (Nat.not_le.2 hlt)

def nested : World := { cells := #[.array [.container 1], .array []] }

def nestedLists : SchemaStore := ⟨#[.list [.node 1], .list [.literal .string]]⟩

theorem length_le_of_nestedLists {ids : List NodeId}
    (h : (Schema.node 0).IsSimplePath nestedLists ids) : ids.length ≤ 2 := by
  have hs : ids ⊆ List.range 2 := fun id hid => List.mem_range.2 (h.stored id hid)
  exact h.nodup.length_le_of_subset hs

theorem checkWith_limit_nested :
    let under (limit : Option Nat) := (checkWith nested nestedLists defaultFactory (.container 0)
      (.node 0) "me" (fresh ⟨false, limit⟩)).1
    LimitLE (some 2) none ∧ under (some 1) = .error (.config (.depthExceeded 1)) ∧
      (∀ n, under (some 2) ≠ .error (.config (.depthExceeded n))) ∧
      under none = under (some 2) := by
  intro under
  obtain ⟨hsame, -, hshort⟩ := checkWith_limit nested nestedLists defaultFactory (.container 0)
    (.node 0) "me" (fresh {}) false (show LimitLE (some 2) none from trivial)
  have hne := hshort 2 rfl fun ids h => length_le_of_nestedLists h
  exact ⟨trivial, rfl, hne, (hsame hne).1⟩

end Engine

end ValueCheck
