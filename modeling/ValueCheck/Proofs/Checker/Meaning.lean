import Mathlib.Data.List.Forall2
import ValueCheck.Checker.Compile

/-! What terms mean over given names: the values that satisfy a term, and the
checker that is made for it where nothing is kept, or the first name on the way
that stands for none. -/

namespace ValueCheck.Grammar.Term

mutual

def names : Term → List String
  | name n => [n]
  | allOf ts | anyOf ts | tuple ts => namesOf ts
  | entries k v => k.names ++ v.names
  | group t | array t | object t | inverted t | nonEmpty t | optional t | sized t _ => t.names

def namesOf : List Term → List String
  | [] => []
  | t :: ts => t.names ++ namesOf ts

end

variable (named : String → Option Checker)

mutual

def meaning (w : World) : Term → Value → Prop
  | name n, v => ∃ c, named n = some c ∧ c.accepts w v = true
  | group t, v => t.meaning w v
  | allOf ts, v => ∀ p ∈ meanings w ts, p v
  | anyOf ts, v => ∃ p ∈ meanings w ts, p v
  | tuple ts, v =>
    ∃ items, v.items? w = some items ∧ List.Forall₂ (fun p item => p item) (meanings w ts) items
  | array t, v => ∃ items, v.items? w = some items ∧ ∀ item ∈ items, t.meaning w item
  | object t, v =>
    v.isPlainObject w = true ∧
      ∃ ps, v.properties? w = some ps ∧ ∀ p ∈ ps.entries, t.meaning w p.2
  | entries k t, v =>
    v.isPlainObject w = true ∧
      ∃ ps, v.properties? w = some ps ∧
        ∀ p ∈ ps.entries, k.meaning w (.str p.1) ∧ t.meaning w p.2
  | inverted t, v => ¬ t.meaning w v
  | nonEmpty t, v => t.meaning w v ∧ v.isEmpty w = false
  | optional t, v => v = .undefined ∨ t.meaning w v
  | sized t range, v => t.meaning w v ∧ ∃ size, v.size? w = some size ∧ range.contains size = true

def meanings (w : World) : List Term → List (Value → Prop)
  | [] => []
  | t :: ts => t.meaning w :: meanings w ts

end

mutual

def build : Term → Option Checker
  | name n => named n
  | group t => t.build
  | allOf ts => (builds ts).map (.allOf (allOf ts).text)
  | anyOf ts => (builds ts).map (.anyOf (anyOf ts).text)
  | tuple ts => (builds ts).map (.tuple (tuple ts).text)
  | array t => t.build.map (.arrayOf (array t).text)
  | object t => t.build.map (.objectOf (object t).text)
  | entries k t => t.build.bind fun value => k.build.map (.entriesOf (entries k t).text · value)
  | inverted t => t.build.map (.inverted (inverted t).text)
  | nonEmpty t => t.build.map (.nonEmpty (nonEmpty t).text)
  | optional t => t.build.map (.optional (optional t).text)
  | sized t range => t.build.map (.sized (sized t range).text · range)

def builds : List Term → Option (List Checker)
  | [] => some []
  | t :: ts => t.build.bind fun c => (builds ts).map (c :: ·)

end

mutual

def construct : Term → Except ConfigError Checker
  | name n =>
    match named n with
    | some c => .ok c
    | none => .error (.unknownChecker n)
  | group t => t.construct
  | allOf ts => (constructs ts).map (.allOf (allOf ts).text)
  | anyOf ts => (constructs ts).map (.anyOf (anyOf ts).text)
  | tuple ts => (constructs ts).map (.tuple (tuple ts).text)
  | array t => t.construct.map (.arrayOf (array t).text)
  | object t => t.construct.map (.objectOf (object t).text)
  | entries k t =>
    t.construct.bind fun value => k.construct.map (.entriesOf (entries k t).text · value)
  | inverted t => t.construct.map (.inverted (inverted t).text)
  | nonEmpty t => t.construct.map (.nonEmpty (nonEmpty t).text)
  | optional t => t.construct.map (.optional (optional t).text)
  | sized t range => t.construct.map (.sized (sized t range).text · range)

def constructs : List Term → Except ConfigError (List Checker)
  | [] => .ok []
  | t :: ts => t.construct.bind fun c => (constructs ts).map (c :: ·)

end

section Except

variable {ε α β : Type}

theorem toOption_eq_some {x : Except ε α} {a : α} : x.toOption = some a ↔ x = .ok a := by
  cases x <;> simp [Except.toOption]

theorem toOption_map (x : Except ε α) (f : α → β) : (x.map f).toOption = x.toOption.map f := by
  cases x <;> rfl

theorem toOption_bind (x : Except ε α) (f : α → Except ε β) :
    (x.bind f).toOption = x.toOption.bind fun a => (f a).toOption := by
  cases x <;> rfl

end Except

variable {named}

mutual

theorem toOption_construct : ∀ t : Term, (t.construct named).toOption = t.build named
  | name n => by
    rw [construct, build]
    cases named n <;> rfl
  | group t => toOption_construct t
  | allOf ts | anyOf ts | tuple ts => by
    rw [construct, build, toOption_map, toOption_constructs ts]
  | array t | object t | inverted t | nonEmpty t | optional t | sized t _ => by
    rw [construct, build, toOption_map, toOption_construct t]
  | entries k t => by
    simp only [construct, build, toOption_bind, toOption_map, toOption_construct k,
      toOption_construct t]

theorem toOption_constructs : ∀ ts : List Term,
    (constructs named ts).toOption = builds named ts
  | [] => rfl
  | t :: ts => by
    simp only [constructs, builds, toOption_bind, toOption_map, toOption_construct t,
      toOption_constructs ts]

end

theorem construct_eq_ok {t : Term} {c : Checker} :
    t.construct named = .ok c ↔ t.build named = some c := by
  rw [← toOption_construct, toOption_eq_some]

mutual

theorem isSome_build : ∀ t : Term,
    (t.build named).isSome = true ↔ ∀ n ∈ t.names, (named n).isSome = true
  | name n => by simp [build, names]
  | group t => by simpa [build, names] using isSome_build t
  | allOf ts | anyOf ts | tuple ts => by simpa [build, names] using isSome_builds ts
  | array t | object t | inverted t | nonEmpty t | optional t | sized t _ => by
    simpa [build, names] using isSome_build t
  | entries k v => by
    have hk := isSome_build k
    have hv := isSome_build v
    simp only [build, names, List.forall_mem_append, ← hk, ← hv]
    cases v.build named <;> cases k.build named <;> simp

theorem isSome_builds : ∀ ts : List Term,
    (builds named ts).isSome = true ↔ ∀ n ∈ namesOf ts, (named n).isSome = true
  | [] => by simp [builds, namesOf]
  | t :: ts => by
    have ht := isSome_build t
    have hts := isSome_builds ts
    simp only [builds, namesOf, List.forall_mem_append, ← ht, ← hts]
    cases t.build named <;> cases builds named ts <;> simp

end

variable {known : String → Option Checker}

mutual

theorem build_mono (hn : ∀ n c, named n = some c → known n = some c) :
    ∀ {t : Term} {c : Checker}, t.build named = some c → t.build known = some c
  | name n, c, h => hn n c h
  | group t, c, h => build_mono hn (t := t) h
  | allOf ts, c, h | anyOf ts, c, h | tuple ts, c, h => by
    obtain ⟨cs, hcs, rfl⟩ := Option.map_eq_some_iff.1 h
    exact Option.map_eq_some_iff.2 ⟨cs, builds_mono hn hcs, rfl⟩
  | array t, c, h | object t, c, h | inverted t, c, h | nonEmpty t, c, h | optional t, c, h
  | sized t _, c, h => by
    obtain ⟨d, hd, rfl⟩ := Option.map_eq_some_iff.1 h
    exact Option.map_eq_some_iff.2 ⟨d, build_mono hn hd, rfl⟩
  | entries k t, c, h => by
    obtain ⟨d, hd, h⟩ := Option.bind_eq_some_iff.1 h
    obtain ⟨e, he, rfl⟩ := Option.map_eq_some_iff.1 h
    exact Option.bind_eq_some_iff.2
      ⟨d, build_mono hn hd, Option.map_eq_some_iff.2 ⟨e, build_mono hn he, rfl⟩⟩

theorem builds_mono (hn : ∀ n c, named n = some c → known n = some c) :
    ∀ {ts : List Term} {cs : List Checker}, builds named ts = some cs → builds known ts = some cs
  | [], cs, h => h
  | t :: ts, cs, h => by
    obtain ⟨c, hc, h⟩ := Option.bind_eq_some_iff.1 h
    obtain ⟨ds, hds, rfl⟩ := Option.map_eq_some_iff.1 h
    exact Option.bind_eq_some_iff.2
      ⟨c, build_mono hn hc, Option.map_eq_some_iff.2 ⟨ds, builds_mono hn hds, rfl⟩⟩

end

variable {w : World}

def Decides (w : World) (c : Checker) (p : Value → Prop) : Prop :=
  ∀ v, c.accepts w v = true ↔ p v

theorem allOf_decides {cs : List Checker} {ps : List (Value → Prop)}
    (h : List.Forall₂ (Decides w) cs ps) (v : Value) :
    (cs.all fun c => c.accepts w v) = true ↔ ∀ p ∈ ps, p v := by
  induction h with
  | nil => simp
  | cons hc _ ih => rw [List.all_cons, Bool.and_eq_true, ih, hc v, List.forall_mem_cons]

theorem anyOf_decides {cs : List Checker} {ps : List (Value → Prop)}
    (h : List.Forall₂ (Decides w) cs ps) (v : Value) :
    (cs.any fun c => c.accepts w v) = true ↔ ∃ p ∈ ps, p v := by
  induction h with
  | nil => simp
  | cons hc _ ih => rw [List.any_cons, Bool.or_eq_true, ih, hc v, List.exists_mem_cons_iff]

theorem tuple_decides {cs : List Checker} {ps : List (Value → Prop)}
    (h : List.Forall₂ (Decides w) cs ps) (items : List Value) :
    Checker.allAccept w cs items = true ↔ List.Forall₂ (fun p item => p item) ps items := by
  induction h generalizing items with
  | nil => cases items <;> simp [Checker.allAccept]
  | cons hc _ ih =>
    cases items with
    | nil => simp [Checker.allAccept]
    | cons v vs => rw [Checker.allAccept, Bool.and_eq_true, hc v, ih, List.forall₂_cons]

theorem plainProperties?_eq_some {v : Value} {ps : Keyed Value} :
    Checker.plainProperties? w v = some ps ↔
      v.isPlainObject w = true ∧ v.properties? w = some ps := by
  simp [Checker.plainProperties?]

mutual

theorem decides_build : ∀ {t : Term} {c : Checker}, t.build named = some c →
    Decides w c (t.meaning named w)
  | name n, c, h => fun v => by simp [meaning, show named n = some c from h]
  | group t, c, h => decides_build (t := t) h
  | allOf ts, c, h => by
    obtain ⟨cs, hcs, rfl⟩ := Option.map_eq_some_iff.1 h
    exact allOf_decides (decides_builds hcs)
  | anyOf ts, c, h => by
    obtain ⟨cs, hcs, rfl⟩ := Option.map_eq_some_iff.1 h
    exact anyOf_decides (decides_builds hcs)
  | tuple ts, c, h => by
    obtain ⟨cs, hcs, rfl⟩ := Option.map_eq_some_iff.1 h
    intro v
    simp only [Checker.tuple, Option.any_eq_true, tuple_decides (decides_builds hcs), meaning]
  | array t, c, h => by
    obtain ⟨d, hd, rfl⟩ := Option.map_eq_some_iff.1 h
    intro v
    have ht : Decides w d (t.meaning named w) := decides_build hd
    simp only [Checker.arrayOf, Option.any_eq_true, List.all_eq_true, ht _, meaning]
  | object t, c, h => by
    obtain ⟨d, hd, rfl⟩ := Option.map_eq_some_iff.1 h
    intro v
    have ht : Decides w d (t.meaning named w) := decides_build hd
    simp only [Checker.objectOf, Option.any_eq_true, List.all_eq_true, plainProperties?_eq_some,
      ht _, meaning, and_assoc, exists_and_left]
  | entries k t, c, h => by
    obtain ⟨d, hd, h⟩ := Option.bind_eq_some_iff.1 h
    obtain ⟨e, he, rfl⟩ := Option.map_eq_some_iff.1 h
    intro v
    have ht : Decides w d (t.meaning named w) := decides_build hd
    have hk : Decides w e (k.meaning named w) := decides_build he
    simp only [Checker.entriesOf, Option.any_eq_true, List.all_eq_true, plainProperties?_eq_some,
      Bool.and_eq_true, ht _, hk _, meaning, and_assoc, exists_and_left]
  | inverted t, c, h => by
    obtain ⟨d, hd, rfl⟩ := Option.map_eq_some_iff.1 h
    intro v
    have ht : Decides w d (t.meaning named w) := decides_build hd
    simp only [Checker.inverted, Bool.not_eq_true', ← Bool.not_eq_true, ht _, meaning]
  | nonEmpty t, c, h => by
    obtain ⟨d, hd, rfl⟩ := Option.map_eq_some_iff.1 h
    intro v
    have ht : Decides w d (t.meaning named w) := decides_build hd
    simp only [Checker.nonEmpty, Bool.and_eq_true, Bool.not_eq_true', ht _, meaning]
  | optional t, c, h => by
    obtain ⟨d, hd, rfl⟩ := Option.map_eq_some_iff.1 h
    intro v
    have ht : Decides w d (t.meaning named w) := decides_build hd
    simp only [Checker.optional, Bool.or_eq_true, Value.isUndefined, decide_eq_true_eq, ht _,
      meaning]
  | sized t range, c, h => by
    obtain ⟨d, hd, rfl⟩ := Option.map_eq_some_iff.1 h
    intro v
    have ht : Decides w d (t.meaning named w) := decides_build hd
    simp only [Checker.sized, Bool.and_eq_true, Option.any_eq_true, ht _, meaning]

theorem decides_builds : ∀ {ts : List Term} {cs : List Checker}, builds named ts = some cs →
    List.Forall₂ (Decides w) cs (meanings named w ts)
  | [], cs, h => by
    cases h
    exact .nil
  | t :: ts, cs, h => by
    obtain ⟨c, hc, h⟩ := Option.bind_eq_some_iff.1 h
    obtain ⟨ds, hds, rfl⟩ := Option.map_eq_some_iff.1 h
    exact .cons (decides_build hc) (decides_builds hds)

end

end ValueCheck.Grammar.Term
