import ValueCheck.Proofs.Checker.Naming

/-! Checkers as objects, each with a serial number. Without the numbers these registries do what
registries do, and a term has one checker however often and in whatever form it is asked for. -/

namespace ValueCheck

open Grammar (Term parse)

structure Numbered where
  checker : Checker
  serial : Nat

structure NumberedRegistry where
  checkers : Keyed Numbered
  issued : Nat

abbrev Numbering := ExceptT ConfigError (StateM NumberedRegistry)

namespace NumberedRegistry

def builtinEntries : List (String × Numbered) :=
  Builtin.all.zipIdx.flatMap fun b => (b.1.name :: b.1.aliases).map fun n => (n, ⟨b.1.checker, b.2⟩)

def builtin : NumberedRegistry := ⟨.ofList builtinEntries, Builtin.all.length⟩

def get? (r : NumberedRegistry) (key : String) : Option Numbered := r.checkers.get? key

def plain (r : NumberedRegistry) : Registry := ⟨r.checkers.map Numbered.checker⟩

def make (c : Checker) : Numbering Numbered := fun r =>
  (.ok ⟨c, r.issued⟩, { r with issued := r.issued + 1 })

def insert (r : NumberedRegistry) (key : String) (c : Numbered) : NumberedRegistry :=
  { r with checkers := r.checkers.insertIfNew key c }

def cache (key : String) (c : Numbered) : Numbering Numbered := fun r =>
  (.ok ((r.get? key).getD c), r.insert key c)

def named (name : String) : Numbering Numbered := do
  match (← get).get? name with
  | some c => return c
  | none => throw (.unknownChecker name)

def cached (t : Term) (build : String → Numbering Checker) : Numbering Numbered := do
  match (← get).get? t.text with
  | some c => return c
  | none => cache t.text (← make (← build t.text))

mutual

def compile : Term → Numbering Numbered
  | .name n => named n
  | .group t => compile t
  | .allOf ts => cached (.allOf ts) fun key => return .allOf key (← compileAll ts)
  | .anyOf ts => cached (.anyOf ts) fun key => return .anyOf key (← compileAll ts)
  | .tuple ts => cached (.tuple ts) fun key => return .tuple key (← compileAll ts)
  | .array t => cached (.array t) fun key => return .arrayOf key (← compile t).checker
  | .object t => cached (.object t) fun key => return .objectOf key (← compile t).checker
  | .entries k t => cached (.entries k t) fun key => do
      let value ← compile t
      let name ← compile k
      return .entriesOf key name.checker value.checker
  | .inverted t => cached (.inverted t) fun key => return .inverted key (← compile t).checker
  | .nonEmpty t => cached (.nonEmpty t) fun key => return .nonEmpty key (← compile t).checker
  | .optional t => cached (.optional t) fun key => return .optional key (← compile t).checker
  | .sized t range => cached (.sized t range) fun key =>
      return .sized key (← compile t).checker range

def compileAll : List Term → Numbering (List Checker)
  | [] => return []
  | t :: ts => return (← compile t).checker :: (← compileAll ts)

end

def getOrCompile (source : String) : Numbering Numbered := do
  match (← get).get? source with
  | some c => return c
  | none =>
    match parse source with
    | .ok t => cache source (← compile t)
    | .error e => throw (.malformed source e)

def register (name : String) (accepts : World → Value → Bool) (description : Option String)
    (factory : Option ErrorFactory) : Numbering Numbered := fun r =>
  match (Registry.register name accepts description factory r.plain).1 with
  | .ok c => (do cache name (← make c) : Numbering Numbered) r
  | .error e => (.error e, r)

def perform (r : NumberedRegistry) : Registry.Call → Except ConfigError Numbered × NumberedRegistry
  | .register name accepts description factory => register name accepts description factory r
  | .compile source => getOrCompile source r

def after (r : NumberedRegistry) (calls : List Registry.Call) : NumberedRegistry :=
  calls.foldl (fun r call => (r.perform call).2) r

structure Sound (r : NumberedRegistry) : Prop where
  home {key : String} {c : Numbered} (h : r.get? key = some c) : r.get? c.checker.key = some c
  issued {key : String} {c : Numbered} (h : r.get? key = some c) : c.serial < r.issued
  distinct {key key' : String} {c d : Numbered} (h : r.get? key = some c)
    (h' : r.get? key' = some d) (hs : c.serial = d.serial) : c = d

def Grows (r r' : NumberedRegistry) : Prop := ∀ key c, r.get? key = some c → r'.get? key = some c

variable {r r' r'' : NumberedRegistry} {key : String} {c d : Numbered}

theorem Grows.refl (r : NumberedRegistry) : Grows r r := fun _ _ h => h

theorem Grows.trans (h : Grows r r') (h' : Grows r' r'') : Grows r r'' :=
  fun key c hc => h' key c (h key c hc)

theorem get?_insert_self (r : NumberedRegistry) (key : String) (c : Numbered) :
    (r.insert key c).get? key = some ((r.get? key).getD c) :=
  r.checkers.get?_insertIfNew_self key c

theorem get?_insert_ne {other : String} (h : other ≠ key) :
    (r.insert key c).get? other = r.get? other :=
  r.checkers.get?_insertIfNew_ne c h

theorem grows_insert (r : NumberedRegistry) (key : String) (c : Numbered) :
    Grows r (r.insert key c) := by
  intro k d hd
  by_cases hk : k = key
  · subst hk
    rw [get?_insert_self, hd, Option.getD_some]
  · rw [get?_insert_ne hk, hd]

theorem of_get?_insert {other : String} (h : (r.insert key c).get? other = some d) :
    r.get? other = some d ∨ other = key ∧ d = c := by
  by_cases hk : other = key
  · subst hk
    rw [get?_insert_self] at h
    cases hg : r.get? other with
    | none =>
      rw [hg] at h
      exact .inr ⟨rfl, (Option.some.inj h).symm⟩
    | some e =>
      rw [hg] at h
      exact .inl h
  · rw [get?_insert_ne hk] at h
    exact .inl h

theorem Sound.alias (h : Sound r) {other : String} (hc : r.get? other = some c) (key : String) :
    Sound (r.insert key c) := by
  have hold {k : String} {d : Numbered} (hk : (r.insert key c).get? k = some d) :
      ∃ k', r.get? k' = some d := by
    rcases of_get?_insert hk with hk | ⟨-, rfl⟩
    · exact ⟨k, hk⟩
    · exact ⟨other, hc⟩
  constructor
  · intro k d hk
    obtain ⟨k', hk'⟩ := hold hk
    exact grows_insert r key c _ _ (h.home hk')
  · intro k d hk
    obtain ⟨k', hk'⟩ := hold hk
    exact h.issued hk'
  · intro k k' d e hk hk' hs
    obtain ⟨_, hd⟩ := hold hk
    obtain ⟨_, he⟩ := hold hk'
    exact h.distinct hd he hs

theorem Sound.store (h : Sound r) (c : Checker) :
    Sound ({ r with issued := r.issued + 1 }.insert c.key ⟨c, r.issued⟩) := by
  set r' : NumberedRegistry := { r with issued := r.issued + 1 }
  have hold {k : String} {d : Numbered} (hk : (r'.insert c.key ⟨c, r.issued⟩).get? k = some d) :
      r.get? k = some d ∨ k = c.key ∧ d = ⟨c, r.issued⟩ :=
    of_get?_insert (r := r') hk
  constructor
  · intro k d hk
    rcases hold hk with hk' | ⟨rfl, rfl⟩
    · exact grows_insert r' _ _ _ _ (h.home hk')
    · exact hk
  · intro k d hk
    change d.serial < r.issued + 1
    rcases hold hk with hk' | ⟨-, rfl⟩
    · exact Nat.lt_succ_of_lt (h.issued hk')
    · exact Nat.lt_succ_self _
  · intro k k' d e hk hk' hs
    rcases hold hk with hd | ⟨-, rfl⟩ <;> rcases hold hk' with he | ⟨-, rfl⟩
    · exact h.distinct hd he hs
    · exact absurd hs (Nat.ne_of_lt (h.issued hd))
    · exact absurd hs.symm (Nat.ne_of_lt (h.issued he))
    · rfl

theorem Sound.serial_eq_iff (h : Sound r) {key' : String} (hc : r.get? key = some c)
    (hd : r.get? key' = some d) : c.serial = d.serial ↔ c.checker.isSame d.checker = true := by
  rw [Checker.isSame, beq_iff_eq]
  constructor
  · intro hs
    rw [h.distinct hc hd hs]
  · intro hk
    have hc' := h.home hc
    rw [hk, h.home hd] at hc'
    rw [Option.some.inj hc']

theorem get?_plain (r : NumberedRegistry) (key : String) :
    r.plain.get? key = (r.get? key).map Numbered.checker :=
  Keyed.get?_map Numbered.checker r.checkers key

theorem plain_insert (r : NumberedRegistry) (key : String) (c : Numbered) :
    (r.insert key c).plain = ⟨r.plain.checkers.insertIfNew key c.checker⟩ :=
  congrArg Registry.mk (Keyed.map_insertIfNew Numbered.checker r.checkers key c)

def Stored (c : Numbered) (r : NumberedRegistry) : Prop := r.get? c.checker.key = some c

section Numbers

variable {α β γ δ : Type} {P Q : α → NumberedRegistry → Prop} {f : α → β}

/-- From a registry to the next, numbers apart the same is done, and no entry changes. -/
structure Follows (Q : α → NumberedRegistry → Prop) (f : α → β) (r : NumberedRegistry)
    (x : Except ConfigError α × NumberedRegistry) (y : Except ConfigError β × Registry) : Prop where
  result : y.1 = x.1.map f
  plain : y.2 = x.2.plain
  grows : Grows r x.2
  sound : Sound x.2
  post {a : α} (h : x.1 = .ok a) : Q a x.2

def Numbers (Q : α → NumberedRegistry → Prop) (f : α → β) (m : Numbering α)
    (p : Registering β) : Prop :=
  ∀ r, Sound r → Follows Q f r (m r) (p r.plain)

theorem Follows.stay (h : Sound r) {x : Except ConfigError α} (hp : ∀ a, x = .ok a → Q a r) :
    Follows Q f r (x, r) (x.map f, r.plain) :=
  ⟨rfl, rfl, .refl r, h, fun {a} ha => hp a ha⟩

theorem Numbers.pure (a : α) (hq : ∀ r, Q a r) :
    Numbers Q f (pure a) (pure (f a) : Registering β) :=
  fun r h => .stay (x := .ok a) h fun b hb => by cases hb; exact hq r

theorem Numbers.bind {Q' : γ → NumberedRegistry → Prop} {g : γ → δ} {m : Numbering α}
    {p : Registering β} {k : α → Numbering γ} {q : β → Registering δ} (hm : Numbers Q f m p)
    (hk : ∀ a r, Sound r → Q a r → Follows Q' g r (k a r) (q (f a) r.plain)) :
    Numbers Q' g (m >>= k) (p >>= q) := by
  intro r h
  have ha := hm r h
  rw [Registry.bind_apply, Registry.bind_apply]
  rcases hx : m r with ⟨x, r'⟩
  rcases hy : p r.plain with ⟨y, s⟩
  rw [hx, hy] at ha
  obtain ⟨rfl, rfl, hg, hs, hq⟩ := ha
  cases x with
  | error e => exact ⟨rfl, rfl, hg, hs, fun he => by cases he⟩
  | ok a =>
    have hb := hk a r' hs (hq rfl)
    exact ⟨hb.result, hb.plain, hg.trans hb.grows, hb.sound, hb.post⟩

theorem Numbers.map {Q' : γ → NumberedRegistry → Prop} {g : γ → δ} {m : Numbering α}
    {p : Registering β} (hm : Numbers Q f m p) {φ : α → γ} {ψ : β → δ}
    (h : ∀ a, ψ (f a) = g (φ a)) (hq : ∀ a r, Q' (φ a) r) :
    Numbers Q' g (do return φ (← m)) (do return ψ (← p)) := by
  apply hm.bind
  intro a r hr _
  rw [h a]
  exact Numbers.pure (φ a) (hq a) r hr

end Numbers

variable {Q : Numbered → NumberedRegistry → Prop}

theorem Numbers.lookup {m : Numbering Numbered} {p : Registering Checker}
    (hq : ∀ r c, Sound r → r.get? key = some c → Q c r)
    (hm : ∀ r, Sound r → Follows Q Numbered.checker r (m r) (p r.plain)) :
    Numbers Q Numbered.checker (do
      match (← get).get? key with
      | some c => return c
      | none => m) (do
      match (← get).get? key with
      | some c => return c
      | none => p) := by
  intro r h
  rw [Registry.get_bind_apply, get?_plain]
  change Follows Q Numbered.checker r ((match r.get? key with
    | some c => return c
    | none => m : Numbering Numbered) r) _
  cases hg : r.get? key with
  | some c => exact .stay (x := .ok c) h fun d hd => by cases hd; exact hq r c h hg
  | none => exact hm r h

theorem follows_throw (h : Sound r) (e : ConfigError) : Follows Q Numbered.checker r
    ((throw e : Numbering Numbered) r) ((throw e : Registering Checker) r.plain) :=
  .stay (x := .error e) h fun _ hd => by cases hd

theorem follows_store (h : Sound r) (c : Checker) : Follows Stored Numbered.checker r
    ((do cache c.key (← make c) : Numbering Numbered) r)
    ((Registry.cache c.key c : Registering Checker) r.plain) where
  result := by
    change Except.ok ((r.plain.get? c.key).getD c) =
      .ok (((r.get? c.key).getD ⟨c, r.issued⟩ : Numbered).checker)
    rw [get?_plain]
    cases r.get? c.key <;> rfl
  plain := (plain_insert { r with issued := r.issued + 1 } c.key ⟨c, r.issued⟩).symm
  grows := grows_insert { r with issued := r.issued + 1 } c.key ⟨c, r.issued⟩
  sound := h.store c
  post {a} ha := by
    change Except.ok ((r.get? c.key).getD (⟨c, r.issued⟩ : Numbered)) = .ok a at ha
    cases ha
    have hs := get?_insert_self { r with issued := r.issued + 1 } c.key ⟨c, r.issued⟩
    exact (h.store c).home hs

theorem follows_alias (h : Sound r) (hc : Stored c r) (key : String) :
    Follows (fun c r => r.get? key = some c) Numbered.checker r (cache key c r)
      ((Registry.cache key c.checker : Registering Checker) r.plain) where
  result := by
    change Except.ok ((r.plain.get? key).getD c.checker) =
      .ok (((r.get? key).getD c : Numbered).checker)
    rw [get?_plain]
    cases r.get? key <;> rfl
  plain := (plain_insert r key c).symm
  grows := grows_insert r key c
  sound := h.alias hc key
  post {a} ha := by
    change Except.ok ((r.get? key).getD c) = .ok a at ha
    cases ha
    exact get?_insert_self r key c

theorem numbers_named (name : String) :
    Numbers Stored Numbered.checker (named name) (Registry.named name) :=
  .lookup (fun _ _ h hg => h.home hg) fun _ h => follows_throw h _

theorem numbers_cached {t : Term} {build : String → Numbering Checker}
    {make : String → Registering Checker}
    (hb : Numbers (fun c _ => c.key = t.text) id (build t.text) (make t.text)) :
    Numbers Stored Numbered.checker (cached t build) (Registry.cached t make) := by
  refine .lookup (fun _ _ h hg => h.home hg) ?_
  apply hb.bind
  intro c r h hk
  rw [← hk]
  exact follows_store h c

mutual

theorem numbers_compile : ∀ t : Term,
    Numbers Stored Numbered.checker (compile t) (Registry.compile t)
  | .name n => numbers_named n
  | .group t => numbers_compile t
  | .allOf ts | .anyOf ts | .tuple ts =>
    numbers_cached ((numbers_compileAll ts).map (fun _ => rfl) fun _ _ => rfl)
  | .array t | .object t | .inverted t | .nonEmpty t | .optional t | .sized t _ =>
    numbers_cached ((numbers_compile t).map (fun _ => rfl) fun _ _ => rfl)
  | .entries k t => by
    apply numbers_cached
    apply (numbers_compile t).bind
    intro value r h _
    refine (numbers_compile k).map ?_ ?_ r h
    · exact fun _ => rfl
    · exact fun _ _ => rfl

theorem numbers_compileAll : ∀ ts : List Term,
    Numbers (fun _ _ => True) id (compileAll ts) (Registry.compileAll ts)
  | [] => .pure [] fun _ => trivial
  | t :: ts => by
    apply (numbers_compile t).bind
    intro c r h _
    refine (numbers_compileAll ts).map ?_ ?_ r h
    · exact fun _ => rfl
    · exact fun _ _ => trivial

end

theorem numbers_getOrCompile (source : String) :
    Numbers (fun c r => r.get? source = some c) Numbered.checker (getOrCompile source)
      (Registry.getOrCompile source) := by
  refine .lookup (fun _ _ _ hg => hg) ?_
  cases parse source with
  | error e => exact fun _ h => follows_throw h _
  | ok t =>
    apply (numbers_compile t).bind
    intro c r h hc
    exact follows_alias h hc source

theorem numbers_register (name : String) (accepts : World → Value → Bool)
    (description : Option String) (factory : Option ErrorFactory) :
    Numbers Stored Numbered.checker (register name accepts description factory)
      (Registry.register name accepts description factory) := by
  intro r h
  rw [register]
  cases hx : (Registry.register name accepts description factory r.plain).1 with
  | error e =>
    have hr : Registry.register name accepts description factory r.plain = (.error e, r.plain) :=
      Prod.ext hx (Registry.register_error hx)
    rw [hr]
    exact .stay (x := .error e) h fun _ hd => by cases hd
  | ok c =>
    obtain ⟨hn, hg, -⟩ := Registry.register_ok hx
    have hr : Registry.register name accepts description factory r.plain = _ :=
      Registry.register_new hn hg
    rw [hr] at hx ⊢
    cases hx
    have hf := follows_store h (Registry.made name accepts description factory)
    have hp : (Registry.cache name (Registry.made name accepts description factory) :
        Registering Checker) r.plain = (.ok (Registry.made name accepts description factory),
          ⟨r.plain.checkers.insertIfNew name
            (Registry.made name accepts description factory)⟩) := by
      change (Except.ok ((r.plain.get? name).getD _), _) = _
      rw [hg, Option.getD_none]
    rwa [← hp]

theorem follows_perform (h : Sound r) (call : Registry.Call) :
    Follows Stored Numbered.checker r (r.perform call) (call.perform r.plain) := by
  cases call with
  | register name accepts description factory =>
    exact numbers_register name accepts description factory r h
  | compile source =>
    have hf := numbers_getOrCompile source r h
    exact ⟨hf.result, hf.plain, hf.grows, hf.sound, fun ha => hf.sound.home (hf.post ha)⟩

theorem Sound.after (h : Sound r) (calls : List Registry.Call) :
    (r.after calls).plain = r.plain.after calls ∧ Grows r (r.after calls) ∧
      Sound (r.after calls) := by
  induction calls generalizing r with
  | nil => exact ⟨rfl, .refl r, h⟩
  | cons call calls ih =>
    have hf := follows_perform h call
    obtain ⟨hp, hg, hs⟩ := ih hf.sound
    refine ⟨?_, hf.grows.trans hg, hs⟩
    rw [← hf.plain] at hp
    exact hp

theorem nodup_builtinEntries : (builtinEntries.map Prod.fst).Nodup := by
  have hk : builtinEntries.map Prod.fst = Registry.builtinNames := by decide +kernel
  rw [hk]
  exact Registry.nodup_builtin

theorem mem_builtinEntries {key : String} {c : Numbered} : (key, c) ∈ builtinEntries ↔
    ∃ b, Builtin.all[c.serial]? = some b ∧ key ∈ b.name :: b.aliases ∧ c.checker = b.checker := by
  obtain ⟨c, n⟩ := c
  simp only [builtinEntries, List.mem_flatMap, List.mem_map, Prod.exists,
    List.mem_zipIdx_iff_getElem?, Prod.mk.injEq, Numbered.mk.injEq]
  constructor
  · rintro ⟨b, i, hb, m, hm, rfl, rfl, rfl⟩
    exact ⟨b, hb, hm, rfl⟩
  · rintro ⟨b, hb, hm, rfl⟩
    exact ⟨b, n, hb, key, hm, rfl, rfl, rfl⟩

theorem get?_builtin_iff : builtin.get? key = some c ↔ (key, c) ∈ builtinEntries := by
  have he : builtin.checkers.entries = builtinEntries := Keyed.entries_ofList nodup_builtinEntries
  rw [← he]
  exact ⟨Keyed.mem_entries_of_get?, builtin.checkers.get?_of_mem_entries⟩

theorem sound_builtin : Sound builtin where
  home h := by
    obtain ⟨b, hb, -, hc⟩ := mem_builtinEntries.1 (get?_builtin_iff.1 h)
    apply get?_builtin_iff.2
    apply mem_builtinEntries.2
    exact ⟨b, hb, by rw [hc]; exact List.mem_cons_self, hc⟩
  issued h := by
    obtain ⟨b, hb, -, -⟩ := mem_builtinEntries.1 (get?_builtin_iff.1 h)
    exact (List.getElem?_eq_some_iff.1 hb).1
  distinct {key key' c d} h h' hs := by
    obtain ⟨b, hb, -, hc⟩ := mem_builtinEntries.1 (get?_builtin_iff.1 h)
    obtain ⟨b', hb', -, hd⟩ := mem_builtinEntries.1 (get?_builtin_iff.1 h')
    rw [hs, hb'] at hb
    obtain rfl := Option.some.inj hb
    obtain ⟨c, n⟩ := c
    obtain ⟨d, m⟩ := d
    rw [Numbered.mk.injEq]
    exact ⟨hc.trans hd.symm, hs⟩

theorem plain_builtin : builtin.plain = Registry.builtin := by
  apply congrArg Registry.mk
  apply Keyed.eq_of_entries
  change builtin.checkers.entries.map (fun p => (p.1, p.2.checker)) =
    Registry.builtin.checkers.entries
  have he : builtin.checkers.entries = builtinEntries := Keyed.entries_ofList nodup_builtinEntries
  have hb : Builtin.all = Builtin.all.zipIdx.map Prod.fst := (List.zipIdx_map_fst 0 _).symm
  rw [he, Registry.entries_builtin, hb, builtinEntries, List.map_flatMap, List.flatMap_map]
  simp only [List.map_map, Function.comp_def]

theorem exists_named (calls : List Registry.Call) :
    ∃ named, Registry.Reachable (builtin.after calls).plain named := by
  rw [(sound_builtin.after calls).1, plain_builtin]
  obtain ⟨named, hr, -⟩ := Registry.exists_named calls
  exact ⟨named, hr⟩

theorem after_append (r : NumberedRegistry) (calls more : List Registry.Call) :
    r.after (calls ++ more) = (r.after calls).after more := List.foldl_append

theorem getOrCompile_of_bare {named : String → Option Checker} {s t : String} {u u' : Term}
    (h : Sound r) (hr : Registry.Reachable r.plain named) (hc : r.get? s = some c)
    (hs : parse s = .ok u) (ht : parse t = .ok u') (hb : u.bare = u'.bare) :
    (getOrCompile t r).1 = .ok c := by
  have hu : u.build named = some c.checker := by
    have hp : r.plain.get? s = some c.checker := by rw [get?_plain, hc, Option.map_some]
    exact Term.construct_eq_ok.1 (hr.coherent.eq_of_entry hs hp)
  have hu' : u'.build named = some c.checker := by
    rw [← Term.build_bare, ← hb, Term.build_bare, hu]
  have hf := numbers_getOrCompile t r h
  have hres : (getOrCompile t r).1.map Numbered.checker = .ok c.checker := by
    rw [← hf.result]
    exact hr.coherent.getOrCompile_eq_ok.2 ⟨u', ht, hu'⟩
  cases hx : (getOrCompile t r).1 with
  | error e =>
    rw [hx] at hres
    cases hres
  | ok d =>
    rw [hx] at hres
    have hk : d.checker = c.checker := Except.ok.inj hres
    have hd := hf.sound.home (hf.post hx)
    have hc' := hf.grows _ _ (h.home hc)
    rw [hk, hc'] at hd
    rw [Option.some.inj hd]

theorem getOrCompile_shared (before : List Registry.Call) {s t : String} {u u' : Term}
    {k : Checker} (hs : parse s = .ok u) (ht : parse t = .ok u') (hb : u.bare = u'.bare)
    (hk : (Registry.getOrCompile s (Registry.builtin.after before)).1 = .ok k) :
    (∃ c : Numbered, c.checker = k ∧ (getOrCompile s (builtin.after before)).1 = .ok c ∧
      ∀ between, (getOrCompile t ((getOrCompile s (builtin.after before)).2.after between)).1 =
        .ok c) ∧
    (∀ call, call.perform (Registry.builtin.after before) =
      (((builtin.after before).perform call).1.map Numbered.checker,
        ((builtin.after before).perform call).2.plain)) ∧
    ∀ key key' c d, (builtin.after before).get? key = some c →
      (builtin.after before).get? key' = some d →
        (c.serial = d.serial ↔ c.checker.isSame d.checker = true) := by
  obtain ⟨hp, -, h⟩ := sound_builtin.after before
  rw [plain_builtin] at hp
  refine ⟨?_, ?_, fun _ _ _ _ hc hd => h.serial_eq_iff hc hd⟩
  · have hf := numbers_getOrCompile s _ h
    rw [hp] at hf
    cases hx : (getOrCompile s (builtin.after before)).1 with
    | error e =>
      rw [hf.result, hx] at hk
      cases hk
    | ok c =>
      rw [hf.result, hx] at hk
      refine ⟨c, Except.ok.inj hk, rfl, fun between => ?_⟩
      obtain ⟨-, hg, hsound⟩ := hf.sound.after between
      have hr : (getOrCompile s (builtin.after before)).2.after between =
          builtin.after (before ++ .compile s :: between) := by
        rw [after_append]
        rfl
      obtain ⟨named, hn⟩ := exists_named (before ++ .compile s :: between)
      rw [← hr] at hn
      exact getOrCompile_of_bare hsound hn (hg _ _ (hf.post hx)) hs ht hb
  · intro call
    have hf := follows_perform h call
    rw [hp] at hf
    exact Prod.ext hf.result hf.plain

theorem getOrCompile_shared_grouped :
    parse "str+|null" = .ok (.anyOf [.nonEmpty (.name "str"), .name "null"]) ∧
    parse "( str+ | null )" = .ok (.group (.anyOf [.nonEmpty (.name "str"), .name "null"])) ∧
    ∃ c : Numbered,
      (getOrCompile "str+|null" (builtin.after [.compile "[str+, missing]"])).1 = .ok c ∧
      (getOrCompile "( str+ | null )" ((getOrCompile "str+|null"
        (builtin.after [.compile "[str+, missing]"])).2.after [.compile "str+[]"])).1 = .ok c := by
  have hs : parse "str+|null" = .ok (.anyOf [.nonEmpty (.name "str"), .name "null"]) := by
    decide +kernel
  have ht : parse "( str+ | null )" =
      .ok (.group (.anyOf [.nonEmpty (.name "str"), .name "null"])) := by decide +kernel
  have hk : ∃ k, (Registry.getOrCompile "str+|null"
      (Registry.builtin.after [.compile "[str+, missing]"])).1 = .ok k := by
    have hr : Registry.Reachable (Registry.builtin.after [.compile "[str+, missing]"])
        Registry.builtin.get? := .compiled .start _
    refine (Registry.getOrCompile_meaning hr _).1.2 ⟨_, hs, ?_⟩
    decide +kernel
  obtain ⟨k, hk⟩ := hk
  obtain ⟨⟨c, -, hc, hall⟩, -⟩ := getOrCompile_shared _ hs ht rfl hk
  exact ⟨hs, ht, c, hc, hall _⟩

end NumberedRegistry

end ValueCheck
