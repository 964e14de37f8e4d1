import ValueCheck.Engine
import ValueCheck.Proofs.Matching.Demands

/-! Matching that hands the place and the depth down from call to call and raises an error where
a value is refused. It does what the matching that collects steps does. -/

namespace ValueCheck

open Matching
open Registry (bind_apply adapt_apply)

abbrev Raising := ExceptT CheckError (StateM Registry)

structure RaisingMatcher extends Matcher where
  factory : ErrorFactory

def Matcher.raising (m : Matcher) (factory : ErrorFactory) : RaisingMatcher := ⟨m, factory⟩

namespace RaisingMatcher

def compiling (r : Registering Checker) : Raising Checker := r.adapt CheckError.config

def keyPlace (place key : String) : String := if place = "" then key else place ++ "." ++ key

def indexPlace (place : String) (i : Nat) : String := place ++ "[" ++ toString i ++ "]"

def link (path : List Visit) (visit : Visit) : Raising (Option (List Visit)) :=
  if path.any (·.node == visit.node) then throw (.config .circularType)
  else if path.any (·.cell == visit.cell) then return none
  else return some (visit :: path)

variable (m : RaisingMatcher)

def fail (own : Option ErrorFactory) (reason : Reason) (v : Value) (place : String) :
    Raising Unit :=
  throw (.value ((own.getD m.factory) m.world ⟨reason, some v, place⟩))

def run (c : Checker) (v : Value) (place : String) : Raising Unit :=
  if c.accepts m.world v then return () else m.fail c.factory (.mustBe c.description) v place

def runNamed (name : String) (v : Value) (place : String) : Raising Unit := do
  m.run (← compiling (Registry.named name)) v place

def matchInstance (c : Class) (v : Value) (place : String) : Raising Unit :=
  if v.instanceOf m.world c then return ()
  else m.fail none (.mustBeInstance c.displayName) v place

def descend (depth : Nat) : Raising Nat :=
  match m.config.maxDepth with
  | some limit =>
    if limit < depth + 1 then throw (.config (.depthExceeded limit)) else return depth + 1
  | none => return depth + 1

variable (inner : Schema → Value → String → Raising Unit)

def matchItems (s : Schema) (items : List Value) (place : String) : Raising Unit :=
  items.zipIdx.forM fun (v, i) => inner s v (indexPlace place i)

def matchTuple (ss : List Schema) (items : List Value) (place : String) : Raising Unit := do
  ss.zipIdx.forM fun (s, i) => inner s (items[i]?.getD .undefined) (indexPlace place i)
  if ss.length < items.length then
    m.fail none (.itemCount ss.length) (.number (.ofNat items.length)) place

def matchExcess (shape : Shape) (key : String) (v : Value) (place : String) : Raising Unit := do
  if shape.hasMarkers then
    if let some s := shape.keys then inner s (.str key) (keyPlace place key ++ ": Key")
    if let some s := shape.values then inner s v (keyPlace place key)
  else m.fail none .unexpectedKey (.str key) place

def matchProperties (shape : Shape) (properties : Keyed Value) (place : String) :
    Raising Unit := do
  shape.fields.entries.forM fun (key, s) =>
    inner s ((properties.get? key).getD .undefined) (keyPlace place key)
  if shape.hasMarkers || m.config.denyExcess then
    (properties.entries.filter fun p => !shape.declares p.1).forM fun (key, v) =>
      m.matchExcess inner shape key v place

def matchType : Nat → List Visit → Nat → Schema → Value → String → Raising Unit
  | _, _, _, .typeString source, v, place => do
    m.run (← compiling (Registry.getOrCompile source)) v place
  | _, _, _, .literal l, v, place => m.runNamed l.checkerName v place
  | _, _, _, .instanceOf c, v, place => m.matchInstance c v place
  | 0, _, _, .node _, _, _ => throw (.config .circularType)
  | budget + 1, path, depth, .node id, v, place => do
    match m.schemas.node id with
    | .list [] => throw (.config (.invalidType "[]"))
    | .list schemas =>
      match v, v.items? m.world with
      | .container cell, some items =>
        if let some path ← link path ⟨id, cell⟩ then
          let depth ← m.descend depth
          match schemas with
          | [schema] => matchItems (matchType budget path depth) schema items place
          | schemas => m.matchTuple (matchType budget path depth) schemas items place
      | v, _ => m.runNamed "array" v place
    | .shape shape =>
      match shape.cls with
      | some c => m.matchInstance c v place
      | none => m.runNamed "object" v place
      match v, v.properties? m.world with
      | .container cell, some properties =>
        if let some path ← link path ⟨id, cell⟩ then
          let depth ← m.descend depth
          m.matchProperties (matchType budget path depth) shape properties place
      | v, _ => m.runNamed "object" v place

def check (s : Schema) (v : Value) (place : String) : Raising Unit :=
  m.matchType (m.schemas.nodes.size + 1) [] 0 s v place

def checkArguments (schemas : List Schema) (vs : List Value) (place : String) : Raising Unit := do
  schemas.zipIdx.forM fun (s, i) => m.check s (vs[i]?.getD .undefined) (indexPlace place i)
  if schemas.length < vs.length then
    m.fail none (.argumentCount schemas.length) (.number (.ofNat vs.length)) place

end RaisingMatcher

namespace Matching

def told {α : Type} (m : RaisingMatcher) (place : String) (x : Matching α) : Raising α :=
  x.adapt (Engine.raised m.world m.factory place)

end Matching

namespace RaisingMatcher

variable {m : RaisingMatcher} {α β : Type} {place : String} {v : Value}

theorem told_bind (x : Matching α) (f : α → Matching β) :
    told m place (x >>= f) = told m place x >>= fun a => told m place (f a) := by
  funext r
  rw [told, adapt_apply, bind_apply, bind_apply, told, adapt_apply]
  rcases x r with ⟨e | a, r'⟩ <;> rfl

theorem told_forM (l : List α) (f : α → Matching Unit) :
    told m place (l.forM f) = l.forM fun a => told m place (f a) := by
  induction l with
  | nil => rfl
  | cons a l ih =>
    calc told m place (f a >>= fun _ => l.forM f)
      _ = told m place (f a) >>= fun _ => told m place (l.forM f) := told_bind _ _
      _ = told m place (f a) >>= fun _ => l.forM fun a => told m place (f a) := by rw [ih]

theorem told_below (step : Step) (x : Matching Unit) :
    told m place (below step x) = told m (step.below place) x := by
  funext r
  rw [told, told, below, adapt_apply, adapt_apply, adapt_apply]
  rcases x r with ⟨(e | mm) | u, r'⟩ <;> rfl

theorem told_require (c : Checker) : told m place (m.require c v) = m.run c v place := by
  rw [Matcher.require, run]
  split <;> rfl

theorem told_compiling (x : Registering Checker) :
    told m place (Matching.compiling x) = compiling x := by
  funext r
  rw [told, Matching.compiling, compiling, adapt_apply, adapt_apply, adapt_apply]
  rcases x r with ⟨e | c, r'⟩ <;> rfl

theorem told_requireNamed (name : String) :
    told m place (m.requireNamed name v) = m.runNamed name v place := by
  rw [Matcher.requireNamed, told_bind, told_compiling]
  simp only [told_require]
  rfl

theorem told_requireInstance (c : Class) :
    told m place (m.requireInstance c v) = m.matchInstance c v place := by
  rw [Matcher.requireInstance, matchInstance]
  split <;> rfl

variable (place) in
theorem linked {path : List Visit} {visit : Visit} (f : List Visit → Nat → Raising Unit) :
    (do if let some path' ← told m place (m.enter path visit) then f path' path'.length) = (do
      if let some path' ← link path visit then
        let depth ← m.descend path.length
        f path' depth) := by
  rw [Matcher.enter, link]
  split
  · rfl
  · split
    · rfl
    · rw [descend]
      cases m.config.maxDepth with
      | none => rfl
      | some limit =>
        dsimp only
        split <;> rfl

variable (m) in
def requireKind (shape : Shape) (v : Value) (place : String) : Raising Unit :=
  match shape.cls with
  | some c => m.matchInstance c v place
  | none => m.runNamed "object" v place

variable (m) in
def inside (path : List Visit) (depth : Nat) (id : NodeId) (v : Value) (content : Option α)
    (name place : String) (body : List Visit → Nat → α → Raising Unit) : Raising Unit :=
  match v, content with
  | .container cell, some a => do
    if let some path ← link path ⟨id, cell⟩ then
      let depth ← m.descend depth
      body path depth a
  | v, _ => m.runNamed name v place

theorem told_inside {path : List Visit} {id : NodeId} {content : Option α} {name : String}
    {body : List Visit → α → Matching Unit} {body' : List Visit → Nat → α → Raising Unit}
    (hb : ∀ path a, told m place (body path a) = body' path path.length a) :
    told m place (m.toMatcher.inside path id v content name body) =
      m.inside path path.length id v content name place body' := by
  cases content with
  | none => cases v <;> exact told_requireNamed name
  | some a =>
    cases v with
    | container cell =>
      rw [Matcher.inside, inside, told_bind, ← linked place]
      congr 1
      funext entered
      cases entered with
      | none => rfl
      | some path => exact hb path a
    | _ => exact told_requireNamed name

section Inner

variable {inner : Schema → Value → Matching Unit} {inner' : Schema → Value → String → Raising Unit}
  (h : ∀ s v place, told m place (inner s v) = inner' s v place)

include h

theorem told_matchItems (s : Schema) (items : List Value) :
    told m place (Matcher.matchItems inner s items) = matchItems inner' s items place := by
  rw [Matcher.matchItems, told_forM]
  simp only [told_below, h]
  rfl

theorem told_matchTuple (ss : List Schema) (items : List Value) :
    told m place (Matcher.matchTuple inner ss items) = m.matchTuple inner' ss items place := by
  rw [Matcher.matchTuple, told_bind, told_forM]
  simp only [told_below, h]
  rw [matchTuple]
  congr 1
  funext _
  split <;> rfl

theorem told_matchUndeclared (shape : Shape) (key : String) (v : Value) :
    told m place (Matcher.matchUndeclared inner shape key v) =
      m.matchExcess inner' shape key v place := by
  rw [Matcher.matchUndeclared, matchExcess]
  split
  · cases shape.keys <;> cases shape.values <;>
      simp only [told_bind, told_below, h] <;> rfl
  · rfl

theorem told_matchProperties (shape : Shape) (properties : Keyed Value) :
    told m place (m.toMatcher.matchProperties inner shape properties) =
      m.matchProperties inner' shape properties place := by
  rw [Matcher.matchProperties, told_bind, told_forM, matchProperties]
  simp only [told_below, h]
  congr 1
  funext _
  split
  · rw [told_forM]
    simp only [told_matchUndeclared h]
  · rfl

end Inner

section Node

variable {budget depth : Nat} {path : List Visit} {id : NodeId}

theorem matchType_array {s : Schema} (hs : m.schemas.node id = .list [s]) :
    m.matchType (budget + 1) path depth (.node id) v place =
      m.inside path depth id v (v.items? m.world) "array" place fun path depth items =>
        matchItems (m.matchType budget path depth) s items place := by
  rw [matchType, hs]
  generalize v.items? m.world = content
  cases v <;> cases content <;> rfl

theorem matchType_tuple {ss : List Schema} (hs : m.schemas.node id = .list ss)
    (hl : 2 ≤ ss.length) : m.matchType (budget + 1) path depth (.node id) v place =
      m.inside path depth id v (v.items? m.world) "array" place fun path depth items =>
        m.matchTuple (m.matchType budget path depth) ss items place := by
  rw [matchType, hs]
  generalize v.items? m.world = content
  match ss, hl with
  | s :: t :: ts, _ => cases v <;> cases content <;> rfl

theorem matchType_shape {shape : Shape} (hs : m.schemas.node id = .shape shape) :
    m.matchType (budget + 1) path depth (.node id) v place = (do
      m.requireKind shape v place
      m.inside path depth id v (v.properties? m.world) "object" place
        fun path depth properties =>
          m.matchProperties (m.matchType budget path depth) shape properties place) := by
  rw [matchType, hs]
  generalize v.properties? m.world = content
  obtain ⟨fields, cls, keys, values⟩ := shape
  cases cls <;> cases v <;> cases content <;> rfl

end Node

theorem told_requireKind (shape : Shape) :
    told m place (m.toMatcher.requireKind shape v) = m.requireKind shape v place := by
  rw [Matcher.requireKind, requireKind]
  cases shape.cls with
  | some c => exact told_requireInstance c
  | none => exact told_requireNamed "object"

theorem matchType_leaf {budget depth : Nat} {path : List Visit} {s : Schema}
    (hs : ∀ id, s ≠ .node id) :
    m.matchType budget path depth s v place = told m place (m.matchBelow budget path s v) := by
  cases s with
  | typeString source =>
    rw [matchType, Matcher.matchBelow, told_bind, told_compiling]
    simp only [told_require]
  | literal l =>
    rw [matchType, Matcher.matchBelow, told_requireNamed]
  | instanceOf c =>
    rw [matchType, Matcher.matchBelow, told_requireInstance]
  | node id => exact absurd rfl (hs id)

theorem matchType_eq (m : RaisingMatcher) (budget : Nat) (path : List Visit) (s : Schema)
    (v : Value) (place : String) : m.matchType budget path path.length s v place =
      told m place (m.matchBelow budget path s v) := by
  -- What is handed down as the depth stays the length of the path.
  induction budget generalizing path s v place with
  | zero =>
    cases s with
    | node id =>
      rw [matchType, Matcher.matchBelow]
      rfl
    | _ => exact matchType_leaf (by simp)
  | succ budget ih =>
    cases s with
    | node id =>
      have hbelow (path : List Visit) (s : Schema) (v : Value) (place : String) :
          told m place (m.matchBelow budget path s v) =
            m.matchType budget path path.length s v place := (ih path s v place).symm
      cases hn : m.schemas.node id with
      | list ss =>
        rcases ss with _ | ⟨s, _ | ⟨t, ts⟩⟩
        · rw [matchType, Matcher.matchBelow, hn]
          rfl
        · rw [matchType_array hn, Matcher.matchBelow_array hn]
          exact (told_inside fun path items => told_matchItems (hbelow path) s items).symm
        · rw [matchType_tuple hn (by simp), Matcher.matchBelow_tuple hn (by simp)]
          exact (told_inside fun path items => told_matchTuple (hbelow path) _ items).symm
      | shape shape =>
        rw [matchType_shape hn, Matcher.matchBelow_shape hn, told_bind, told_requireKind]
        congr 1
        funext _
        exact (told_inside fun path properties =>
          told_matchProperties (hbelow path) shape properties).symm
    | _ => exact matchType_leaf (by simp)

theorem check_eq (s : Schema) (v : Value) (place : String) :
    m.check s v place = told m place (m.matchSchema s v) :=
  m.matchType_eq _ [] s v place

theorem checkArguments_eq (ss : List Schema) (vs : List Value) (place : String) :
    m.checkArguments ss vs place = told m place (m.matchArguments ss vs) := by
  rw [checkArguments, Matcher.matchArguments, told_bind, told_forM]
  simp only [told_below, check_eq]
  congr 1
  funext _
  split <;> rfl

end RaisingMatcher

end ValueCheck
