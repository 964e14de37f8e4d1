import Mathlib.Data.Set.Card
import ValueCheck.Proofs.Matching.Halting

/-! Matching as a machine that works off a stack of tasks and has no budget. Every
execution ends with the result of the matching, and at no moment are more lists
and shapes open than the schema reaches. -/

namespace ValueCheck

open Relation Matching
open Registry (bind_apply adapt_apply)

inductive Task where
  | call (path : List Visit) (place : List Step) (schema : Schema) (value : Value)
  | refusal (place : List Step) (reason : Reason) (value : Value)
  | leave

def Task.isLeave : Task → Bool
  | leave => true
  | _ => false

def openSteps (tasks : List Task) : Nat := tasks.countP Task.isLeave

def Demand.task (path : List Visit) (place : List Step) : Demand → Task
  | part step s v => .call path (place ++ [step]) s v
  | refusal reason v => .refusal place reason v

def Halt.below (place : List Step) : Halt → Halt
  | .mismatch m => .mismatch { m with steps := place ++ m.steps }
  | .config e => .config e

def Matching.located {α : Type} (place : List Step) (x : Matching α) : Matching α :=
  x.adapt (Halt.below place)

namespace Matcher

variable (m : Matcher)

def opened (path : List Visit) (place : List Step) (id : NodeId) (v : Value)
    (content : Option (List Demand)) (name : String) : Matching (List Task) :=
  match v, content with
  | .container cell, some ds => do
    match ← m.enter path ⟨id, cell⟩ with
    | some path => return ds.map (Demand.task path place) ++ [.leave]
    | none => return []
  | v, _ => do
    m.requireNamed name v
    return []

def expand (path : List Visit) (place : List Step) : Schema → Value → Matching (List Task)
  | .typeString source, v => do
    m.require (← compiling (Registry.getOrCompile source)) v
    return []
  | .literal l, v => do
    m.requireNamed l.checkerName v
    return []
  | .instanceOf c, v => do
    m.requireInstance c v
    return []
  | .node id, v => do
    m.requireFirst (m.schemas.node id) v
    m.opened path place id v (m.demands (m.schemas.node id) v) (m.schemas.node id).containerName

def next : Task → Matching (List Task)
  | .call path place s v => located place (m.expand path place s v)
  | .refusal place reason v => located place (do refuse reason v; return [])
  | .leave => return []

/-- An execution from a stack of tasks to its end, one task after the other. At no
moment are more than `limit` lists and shapes open. -/
inductive Executes (limit : Nat) : List Task → Registry → Except Halt Unit × Registry → Prop where
  | done {r : Registry} : Executes limit [] r (.ok (), r)
  | halted {t : Task} {ts : List Task} {r r' : Registry} {e : Halt}
      (hl : openSteps (t :: ts) ≤ limit) (h : m.next t r = (.error e, r')) :
      Executes limit (t :: ts) r (.error e, r')
  | step {t : Task} {ts new : List Task} {r r' : Registry} {out : Except Halt Unit × Registry}
      (hl : openSteps (t :: ts) ≤ limit) (h : m.next t r = (.ok new, r'))
      (hr : Executes limit (new ++ ts) r' out) : Executes limit (t :: ts) r out

def reachableNodes (s : Schema) : Set NodeId :=
  {id | id < m.schemas.nodes.size ∧ ReflTransGen (Schema.Child m.schemas) s (.node id)}

def attempt (budget : Nat) : Task → Matching Unit
  | .call path place s v => located place (m.matchBelow budget path s v)
  | .refusal place reason v => located place (refuse reason v)
  | .leave => return ()

variable {m} {α β : Type} {budget : Nat} {path : List Visit} {place : List Step} {id : NodeId}
  {v : Value}

theorem located_bind (x : Matching α) (f : α → Matching β) :
    located place (x >>= f) = located place x >>= fun a => located place (f a) := by
  funext r
  rw [located, adapt_apply, bind_apply, bind_apply, located, adapt_apply]
  rcases x r with ⟨e | a, r'⟩ <;> rfl

theorem located_below (step : Step) (x : Matching Unit) :
    located place (below step x) = located (place ++ [step]) x := by
  funext r
  rw [located, below, located, adapt_apply, adapt_apply, adapt_apply]
  rcases x r with ⟨(e | mismatch) | a, r'⟩
  · rfl
  · change (Except.error (Halt.mismatch { mismatch with steps := place ++ step :: mismatch.steps }),
      r') = (.error (.mismatch { mismatch with steps := place ++ [step] ++ mismatch.steps }), r')
    rw [List.append_assoc, List.singleton_append]
  · rfl

theorem attempt_demand (d : Demand) :
    m.attempt budget (d.task path place) = located place (d.meet (m.matchBelow budget path)) := by
  cases d with
  | part step s v => exact (located_below step _).symm
  | refusal reason v => rfl

theorem attempt_demands (ds : List Demand) :
    (ds.map (Demand.task path place)).forM (m.attempt budget) =
      located place (ds.forM (Demand.meet (m.matchBelow budget path))) := by
  simp only [List.forM_eq_forM, List.forM_map]
  induction ds with
  | nil => rfl
  | cons d ds ih => rw [List.forM_cons, List.forM_cons, located_bind, attempt_demand, ih]

theorem attempt_leave (ts : List Task) :
    (ts ++ [Task.leave]).forM (m.attempt budget) = ts.forM (m.attempt budget) := by
  simp only [List.forM_eq_forM, List.forM_append]
  exact bind_pure_unit

theorem located_done (x : Matching Unit) (f : Task → Matching Unit) :
    (do (← located place (do x; return [])).forM f) = located place x := by
  rw [located_bind, bind_assoc]
  exact bind_pure_unit

theorem attempt_opened (content : Option (List Demand)) (name : String) :
    located place (m.inside path id v content name fun path ds =>
        ds.forM (Demand.meet (m.matchBelow budget path))) = (do
      (← located place (m.opened path place id v content name)).forM (m.attempt budget)) := by
  cases content with
  | none => cases v <;> exact (located_done _ _).symm
  | some ds =>
    cases v with
    | container cell =>
      rw [inside, opened]
      simp only [located_bind, bind_assoc]
      refine bind_congr fun entered => ?_
      cases entered with
      | none => rfl
      | some path =>
        simp only [← attempt_demands]
        exact (attempt_leave _).symm
    | _ => exact (located_done _ _).symm

theorem attempt_call (s : Schema) :
    m.attempt (budget + 1) (.call path place s v) = (do
      (← m.next (.call path place s v)).forM (m.attempt budget)) := by
  rw [attempt, next]
  cases s with
  | typeString source =>
    rw [matchBelow, expand]
    have h := @located_done place
      (do m.require (← compiling (Registry.getOrCompile source)) v) (m.attempt budget)
    rw [bind_assoc] at h
    exact h.symm
  | literal l =>
    rw [matchBelow, expand, located_done]
  | instanceOf c =>
    rw [matchBelow, expand, located_done]
  | node id =>
    rw [matchBelow_node, expand, located_bind, located_bind, bind_assoc]
    exact bind_congr fun _ => attempt_opened _ _

def Returns (p : α → Prop) (x : Matching α) : Prop := ∀ r a, (x r).1 = .ok a → p a

theorem Returns.pure {p : α → Prop} {a : α} (h : p a) : Returns p (return a) := by
  intro r b hb
  cases hb
  exact h

theorem Returns.throw {p : α → Prop} (e : Halt) : Returns p (throw e) := by
  intro r b hb
  cases hb

theorem Returns.bind {p : β → Prop} {x : Matching α} {f : α → Matching β}
    (h : ∀ a, Returns p (f a)) : Returns p (x >>= f) := by
  intro r b hb
  rw [bind_apply] at hb
  rcases hx : x r with ⟨e | a, r'⟩
  · rw [hx] at hb
    cases hb
  · rw [hx] at hb
    exact h a r' b hb

theorem Returns.located {p : α → Prop} {x : Matching α} (h : Returns p x) :
    Returns p (located place x) := by
  intro r a ha
  rw [Matching.located, adapt_apply] at ha
  rcases hx : (x r).1 with e | b
  · rw [hx] at ha
    cases ha
  · rw [hx] at ha
    cases ha
    exact h r a hx

variable (m) in
def Expansion (path : List Visit) (place : List Step) (s : Schema) (v : Value)
    (new : List Task) : Prop :=
  new = [] ∨ ∃ id cell ds, s = .node id ∧ m.schemas.node id ≠ .list [] ∧
    (∀ u ∈ path, u.node ≠ id) ∧ m.demands (m.schemas.node id) v = some ds ∧
      new = ds.map (Demand.task (⟨id, cell⟩ :: path) place) ++ [.leave]

theorem returns_next (s : Schema) :
    Returns (m.Expansion path place s v) (m.next (.call path place s v)) := by
  refine .located ?_
  have hdone (x : Matching Unit) : Returns (m.Expansion path place s v) (do x; return []) :=
    .bind fun _ => .pure (.inl rfl)
  cases s with
  | typeString source => exact .bind fun c => hdone (m.require c v)
  | literal l => exact hdone _
  | instanceOf c => exact hdone _
  | node id =>
    rw [expand]
    by_cases hne : m.schemas.node id = .list []
    · rw [hne]
      exact .throw _
    refine .bind fun _ => ?_
    cases hds : m.demands (m.schemas.node id) v with
    | none => cases v <;> exact hdone _
    | some ds =>
      cases v with
      | container cell =>
        have he := m.entering path ⟨id, cell⟩
        rw [opened]
        generalize m.enter path ⟨id, cell⟩ = entered at he
        cases he with
        | circular h => exact .throw _
        | known => exact .pure (.inl rfl)
        | tooDeep => exact .throw _
        | entered hn => exact .pure (.inr ⟨id, cell, ds, rfl, hne, hn, hds, rfl⟩)
      | _ => exact hdone _

variable {limit : Nat} {before between after : List Task} {x y : Matching Unit}

variable (m) in
/-- Working off `before` down to `after` does what `x` does. -/
def Resumes (limit : Nat) (before after : List Task) (x : Matching Unit) : Prop :=
  ∀ r, (∀ e, (x r).1 = .error e → m.Executes limit before r (.error e, (x r).2)) ∧
    ((x r).1 = .ok () → ∀ out, m.Executes limit after (x r).2 out → m.Executes limit before r out)

theorem Resumes.refl : m.Resumes limit before before (return ()) :=
  fun _ => ⟨nofun, fun _ _ h => h⟩

theorem Resumes.trans (hx : m.Resumes limit before between x)
    (hy : m.Resumes limit between after y) : m.Resumes limit before after (do x; y) := by
  intro r
  obtain ⟨hxe, hxo⟩ := hx r
  rw [bind_apply]
  rcases hxr : x r with ⟨e | u, r'⟩ <;> rw [hxr] at hxe hxo
  · exact ⟨fun e' he => by cases he; exact hxe e rfl, nofun⟩
  · obtain ⟨hye, hyo⟩ := hy r'
    exact ⟨fun e he => hxo rfl _ (hye e he), fun hu out h => hxo rfl _ (hyo hu out h)⟩

theorem Resumes.next {t : Task} {f : List Task → Matching Unit}
    (hl : openSteps (t :: after) ≤ limit)
    (hf : ∀ r new, (m.next t r).1 = .ok new → m.Resumes limit (new ++ after) after (f new)) :
    m.Resumes limit (t :: after) after (do f (← m.next t)) := by
  intro r
  rw [bind_apply]
  rcases hn : m.next t r with ⟨e | new, r'⟩
  · exact ⟨fun e' he => by cases he; exact .halted hl hn, nofun⟩
  · obtain ⟨he, ho⟩ := hf r new (by rw [hn]) r'
    exact ⟨fun e h => .step hl hn (he e h), fun hu out h => .step hl hn (ho hu out h)⟩

theorem resumes_leave (hl : openSteps (.leave :: after) ≤ limit) :
    m.Resumes limit (.leave :: after) after (return ()) :=
  .next (t := .leave) (f := fun _ => return ()) hl fun r new h => by
    cases h
    exact .refl

theorem resumes_refusal {reason : Reason} (hl : openSteps after ≤ limit) :
    m.Resumes limit (.refusal place reason v :: after) after
      (m.attempt budget (.refusal place reason v)) := by
  intro r
  refine ⟨fun e he => ?_, nofun⟩
  cases he
  exact .halted (by simpa [openSteps, Task.isLeave] using hl) rfl

theorem resumes_demands {ds : List Demand} {n : Nat} (hn : openSteps after = n)
    (hd : ∀ d ∈ ds, ∀ after, openSteps after = n →
      m.Resumes limit (d.task path place :: after) after (m.attempt budget (d.task path place))) :
    m.Resumes limit (ds.map (Demand.task path place) ++ after) after
      ((ds.map (Demand.task path place)).forM (m.attempt budget)) := by
  induction ds with
  | nil => exact .refl
  | cons d ds ih =>
    rw [List.forall_mem_cons] at hd
    have hleaves : (ds.map (Demand.task path place)).countP Task.isLeave = 0 := by
      rw [List.countP_map, List.countP_eq_zero]
      intro d _
      cases d <;> simp [Demand.task, Task.isLeave]
    have hopen : openSteps (ds.map (Demand.task path place) ++ after) = n := by
      rw [openSteps, List.countP_append, hleaves, Nat.zero_add, ← hn, openSteps]
    exact (hd.1 _ hopen).trans (ih hd.2)

variable {root s : Schema}

variable (m) in
structure OnPath (root : Schema) (path : List Visit) (s : Schema) : Prop extends
    m.Above path s where
  reached : ReflTransGen (Schema.Child m.schemas) root s
  visited : ∀ u ∈ path, u.node ∈ m.reachableNodes root

theorem OnPath.enter {cell : CellId} (h : m.OnPath root path (.node id))
    (hid : ∀ u ∈ path, u.node ≠ id) (hne : m.schemas.node id ≠ .list [])
    (hs : s ∈ (m.schemas.node id).children) : m.OnPath root (⟨id, cell⟩ :: path) s where
  toAbove := h.toAbove.enter hid hne hs
  reached := h.reached.tail hs
  visited := by
    rw [List.forall_mem_cons]
    exact ⟨⟨lt_size_of_node_ne hne, h.reached⟩, h.visited⟩

theorem length_le_ncard (hn : (path.map Visit.node).Nodup)
    (hv : ∀ u ∈ path, u.node ∈ m.reachableNodes root) :
    path.length ≤ (m.reachableNodes root).ncard := by
  have hf : (m.reachableNodes root).Finite :=
    (Set.finite_lt_nat m.schemas.nodes.size).subset fun id h => h.1
  have hs : (((path.map Visit.node).toFinset : Finset NodeId) : Set NodeId) ⊆
      m.reachableNodes root := by
    intro id hid
    obtain ⟨u, hu, rfl⟩ := List.mem_map.1 (List.mem_toFinset.1 hid)
    exact hv u hu
  have hc := Set.ncard_le_ncard hs hf
  rwa [Set.ncard_coe_finset, List.toFinset_card_of_nodup hn, List.length_map] at hc

theorem OnPath.length_lt_ncard (h : m.OnPath root path (.node id))
    (hid : ∀ u ∈ path, u.node ≠ id) (hne : m.schemas.node id ≠ .list []) :
    path.length < (m.reachableNodes root).ncard := by
  suffices h' : (⟨id, 0⟩ :: path : List Visit).length ≤ (m.reachableNodes root).ncard from h'
  refine length_le_ncard ?_ ?_
  · rw [List.map_cons, List.nodup_cons]
    refine ⟨?_, h.nodup⟩
    intro hmem
    obtain ⟨u, hu, he⟩ := List.mem_map.1 hmem
    exact hid u hu he
  · rw [List.forall_mem_cons]
    exact ⟨⟨lt_size_of_node_ne hne, h.reached⟩, h.visited⟩

theorem resumes_call (h : m.OnPath root path s)
    (hb : budget + path.length = m.schemas.nodes.size + 1) (ho : openSteps after = path.length) :
    m.Resumes (m.reachableNodes root).ncard (.call path place s v :: after) after
      (m.attempt budget (.call path place s v)) := by
  induction budget generalizing path place s v after with
  | zero =>
    have hl := h.length_le
    omega
  | succ budget ih =>
    rw [attempt_call]
    have hl : openSteps (.call path place s v :: after) ≤ (m.reachableNodes root).ncard := by
      have hle := length_le_ncard h.nodup h.visited
      simpa [openSteps, Task.isLeave, ← ho] using hle
    refine .next hl fun r new hn => ?_
    rcases returns_next s r new hn with rfl | ⟨id, cell, ds, rfl, hne, hid, hds, rfl⟩
    · exact .refl
    · rw [attempt_leave, List.append_assoc, List.singleton_append]
      have hleave : openSteps (.leave :: after) = path.length + 1 := by
        rw [openSteps, List.countP_cons_of_pos rfl, ← ho, openSteps]
      have hlt := h.length_lt_ncard hid hne
      have hall : m.Resumes (m.reachableNodes root).ncard
          (ds.map (Demand.task (⟨id, cell⟩ :: path) place) ++ .leave :: after) (.leave :: after)
          ((ds.map (Demand.task (⟨id, cell⟩ :: path) place)).forM (m.attempt budget)) := by
        refine resumes_demands hleave fun d hd after' ho' => ?_
        cases d with
        | part step u x =>
          have hu := (part_of_demands hds hd).1
          exact ih (h.enter hid hne hu) (by rw [List.length_cons]; omega) ho'
        | refusal reason x => exact resumes_refusal (by omega)
      have hdone := hall.trans (resumes_leave (by omega))
      rwa [bind_pure_unit] at hdone

theorem Executes.unique {ts : List Task} {r : Registry} {out out' : Except Halt Unit × Registry}
    (h : m.Executes limit ts r out) (h' : m.Executes limit ts r out') : out' = out := by
  induction h with
  | done =>
    cases h'
    rfl
  | halted hl h =>
    cases h' with
    | halted hl' h' =>
      rw [h] at h'
      cases h'
      rfl
    | step hl' h' hr' =>
      rw [h] at h'
      cases h'
  | step hl h hr ih =>
    cases h' with
    | halted hl' h' =>
      rw [h] at h'
      cases h'
    | step hl' h' hr' =>
      rw [h] at h'
      cases h'
      exact ih hr'

theorem located_nil (x : Matching α) : located [] x = x := by
  funext r
  rw [located, adapt_apply]
  rcases x r with ⟨(e | mismatch) | a, r'⟩ <;> rfl

theorem executes_matchSchema (s : Schema) (v : Value) (r : Registry) :
    m.Executes (m.reachableNodes s).ncard [.call [] [] s v] r (m.matchSchema s v r) := by
  have h : m.OnPath s [] s := ⟨⟨by simp, by simp, by simp⟩, .refl, by simp⟩
  have hc : m.Resumes (m.reachableNodes s).ncard [.call [] [] s v] []
      (m.attempt (m.schemas.nodes.size + 1) (.call [] [] s v)) := resumes_call h rfl rfl
  obtain ⟨he, ho⟩ := hc r
  rw [attempt, located_nil] at he ho
  rcases hm : m.matchSchema s v r with ⟨e | u, r'⟩ <;> rw [matchSchema] at hm <;> rw [hm] at he ho
  · exact he e rfl
  · exact ho rfl _ .done

theorem halts_circular (h : m.OnPath root path s)
    (hb : budget + path.length = m.schemas.nodes.size + 1) :
    Halts (fun e => e = .config .circularType → ∃ id ∈ m.reachableNodes root,
      TransGen (Schema.Child m.schemas) (.node id) (.node id)) (m.matchBelow budget path s v) := by
  have hother (e : ConfigError) (he : ¬ e.OfPath) : Halt.config e ≠ .config .circularType := by
    rintro ⟨⟩
    exact he trivial
  induction budget generalizing path s v with
  | zero =>
    have hl := h.length_le
    omega
  | succ budget ih =>
    by_cases hs : ∃ id, s = .node id
    · obtain ⟨id, rfl⟩ := hs
      refine halts_node (fun e he hc => absurd hc (hother e he)) (by simp) (by simp) ?_
        (by simp) ?_
      · rintro ⟨u, hu, rfl⟩ -
        exact ⟨u.node, h.visited u hu, h.reaches u hu⟩
      · intro cell ds _ hds hne hid d hd
        cases d with
        | part step t x =>
          have ht := (part_of_demands hds hd).1
          have hpath : m.OnPath root (⟨id, cell⟩ :: path) t := h.enter hid hne ht
          refine .adapt ((ih hpath (by rw [List.length_cons]; omega)).imp ?_)
          rintro (e | mismatch) he hc
          · exact he hc
          · cases hc
        | refusal reason x => exact .throw nofun
    · exact halts_leaf (fun e he hc => absurd hc (hother e he)) (by simp) (by simp)
        fun id he => hs ⟨id, he⟩

theorem matchSchema_halts (s : Schema) (v : Value) (r : Registry) :
    (∀ out, m.Executes (m.reachableNodes s).ncard [.call [] [] s v] r out ↔
      out = m.matchSchema s v r) ∧
    ((m.matchSchema s v r).1 = .error (.config .circularType) →
      ∃ id ∈ m.reachableNodes s, TransGen (Schema.Child m.schemas) (.node id) (.node id)) := by
  have h : m.OnPath s [] s := ⟨⟨by simp, by simp, by simp⟩, .refl, by simp⟩
  have hx := executes_matchSchema (m := m) s v r
  refine ⟨fun out => ⟨hx.unique, ?_⟩, fun he => halts_circular h rfl r _ he rfl⟩
  rintro rfl
  exact hx

def loop : Matcher :=
  ⟨{ cells := #[.array [.container 1], .array []] }, ⟨#[.list [.node 0]]⟩, {}⟩

theorem matchSchema_halts_loop :
    (loop.matchSchema (.node 0) (.container 0) .builtin).1 = .error (.config .circularType) ∧
      ∃ id ∈ loop.reachableNodes (.node 0),
        TransGen (Schema.Child loop.schemas) (.node id) (.node id) :=
  ⟨rfl, (matchSchema_halts (.node 0) (.container 0) .builtin).2 rfl⟩

end Matcher

end ValueCheck
