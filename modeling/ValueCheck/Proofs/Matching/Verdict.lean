import ValueCheck.Proofs.Matching.Demands

/-! Verdicts of matchings, put together step by step as the matchings are. A
matching that settles a question blames nothing but the value. -/

namespace ValueCheck.Matching

open Registry (Coherent Computes bind_apply adapt_apply)

/-- Where `p` holds the matching passes, and where it passes `q` holds. -/
def Verdict (p q : Prop) : Except Halt Unit → Prop
  | .ok _ => q
  | .error (.mismatch _) => ¬ p
  | .error (.config _) => False

def Settles (named : String → Option Checker) (x : Matching Unit) (p q : Prop) : Prop :=
  ∀ r, Coherent named r → Coherent named (x r).2 ∧ Verdict p q (x r).1

variable {named : String → Option Checker} {α : Type} {x y : Matching Unit} {p p' q q' : Prop}

theorem Verdict.imp {result : Except Halt Unit} (h : Verdict p q result) (hp : p' → p)
    (hq : q → q') : Verdict p' q' result := by
  rcases result with (e | mismatch) | u
  · exact h
  · exact fun h' => h (hp h')
  · exact hq h

theorem Settles.imp (h : Settles named x p q) (hp : p' → p) (hq : q → q') :
    Settles named x p' q' := by
  intro r hr
  obtain ⟨hc, hv⟩ := h r hr
  exact ⟨hc, hv.imp hp hq⟩

theorem Settles.pass (hq : q) : Settles named (return ()) p q := fun _ hr => ⟨hr, hq⟩

theorem Settles.refuse {reason : Reason} {v : Value} (hp : ¬ p) :
    Settles named (refuse reason v) p q := fun _ hr => ⟨hr, hp⟩

theorem Settles.bind (hx : Settles named x p q) (hy : Settles named y p' q') :
    Settles named (do x; y) (p ∧ p') (q ∧ q') := by
  intro r hr
  obtain ⟨hc, hv⟩ := hx r hr
  rw [bind_apply]
  cases hxr : x r with
  | mk result r' =>
    rw [hxr] at hc hv
    rcases result with (e | mismatch) | u
    · exact ⟨hc, hv⟩
    · exact ⟨hc, fun h => hv h.1⟩
    · obtain ⟨hc', hv'⟩ := hy r' hc
      exact ⟨hc', hv'.imp And.right fun h => ⟨hv, h⟩⟩

theorem Settles.forM {l : List α} {f : α → Matching Unit} {p q : α → Prop}
    (h : ∀ a ∈ l, Settles named (f a) (p a) (q a)) :
    Settles named (l.forM f) (∀ a ∈ l, p a) (∀ a ∈ l, q a) := by
  induction l with
  | nil => exact .pass (by simp)
  | cons a l ih =>
    rw [List.forall_mem_cons] at h
    simp only [List.forall_mem_cons]
    exact h.1.bind (ih h.2)

theorem Settles.below (hx : Settles named x p q) (step : Step) :
    Settles named (below step x) p q := by
  intro r hr
  obtain ⟨hc, hv⟩ := hx r hr
  refine ⟨hc, ?_⟩
  rw [Matching.below]
  rw [adapt_apply]
  rcases hxr : (x r).1 with (e | mismatch) | u <;> rw [hxr] at hv <;> exact hv

theorem Settles.compiling {x : Registering Checker} {c : Checker} {f : Checker → Matching Unit}
    (hx : Computes named x (.ok c)) (hf : Settles named (f c) p q) :
    Settles named (do f (← compiling x)) p q := by
  intro r hr
  obtain ⟨hc, hok⟩ := hx r hr
  rw [bind_apply, Matching.compiling, adapt_apply, hok]
  exact hf _ hc

variable {m : Matcher} {v : Value}

theorem settles_require {c : Checker} : Settles named (m.require c v)
    (c.accepts m.world v = true) (c.accepts m.world v = true) := by
  rw [Matcher.require]
  split
  · next h => exact .pass h
  · next h => exact fun _ hr => ⟨hr, h⟩

theorem settles_requireInstance {c : Class} : Settles named (m.requireInstance c v)
    (v.instanceOf m.world c = true) (v.instanceOf m.world c = true) := by
  rw [Matcher.requireInstance]
  split
  · next h => exact .pass h
  · next h => exact .refuse h

theorem settles_requireNamed {name : String} {c : Checker} (hn : named name = some c) :
    Settles named (m.requireNamed name v) (c.accepts m.world v = true)
      (c.accepts m.world v = true) := by
  intro r hr
  have hi : (named name).isSome = true := by rw [hn]; rfl
  have hb : (Grammar.Term.name name).build named = some c := hn
  have hx : Computes named (Registry.named name) (.ok c) := by
    rw [← Grammar.Term.construct_eq_ok.2 hb]
    exact Registry.computes_named (hr.isName hi)
  exact Settles.compiling hx settles_require r hr

variable {inner : Schema → Value → Matching Unit} {p q : Schema → Value → Prop}

theorem settles_matchItems {s : Schema} {items : List Value}
    (h : ∀ v, Settles named (inner s v) (p s v) (q s v)) :
    Settles named (Matcher.matchItems inner s items) (∀ item ∈ items, p s item)
      (∀ item ∈ items, q s item) := by
  have hf : Settles named (Matcher.matchItems inner s items) (∀ a ∈ items.zipIdx, p s a.1)
      (∀ a ∈ items.zipIdx, q s a.1) := .forM fun a _ => (h a.1).below _
  refine hf.imp ?_ ?_
  · intro hp a ha
    exact hp a.1 (List.fst_mem_of_mem_zipIdx ha)
  · intro hq item hi
    obtain ⟨i, hi⟩ := List.mem_iff_getElem?.1 hi
    exact hq (item, i) (List.mem_zipIdx_iff_getElem?.2 hi)

theorem settles_matchTuple {ss : List Schema} {items : List Value}
    (h : ∀ s ∈ ss, ∀ v, Settles named (inner s v) (p s v) (q s v)) :
    Settles named (Matcher.matchTuple inner ss items)
      ((∀ (i : Nat) (s : Schema), ss[i]? = some s → p s (items[i]?.getD .undefined)) ∧
        items.length ≤ ss.length)
      ((∀ (i : Nat) (s : Schema), ss[i]? = some s → q s (items[i]?.getD .undefined)) ∧
        items.length ≤ ss.length) := by
  have hf : Settles named
      (ss.zipIdx.forM fun a => below (.index a.2) (inner a.1 (items[a.2]?.getD .undefined)))
      (∀ a ∈ ss.zipIdx, p a.1 (items[a.2]?.getD .undefined))
      (∀ a ∈ ss.zipIdx, q a.1 (items[a.2]?.getD .undefined)) :=
    .forM fun a ha => (h a.1 (List.fst_mem_of_mem_zipIdx ha) _).below _
  have hl : Settles named
      (if ss.length < items.length then
        refuse (.itemCount ss.length) (.number (.ofNat items.length))
      else return ()) (items.length ≤ ss.length) (items.length ≤ ss.length) := by
    split
    · next hlt => exact .refuse (by omega)
    · next hlt => exact .pass (by omega)
  refine (hf.bind hl).imp ?_ ?_
  · rintro ⟨hp, hl⟩
    exact ⟨fun a ha => hp a.2 a.1 (List.mem_zipIdx_iff_getElem?.1 ha), hl⟩
  · rintro ⟨hq, hl⟩
    exact ⟨fun i s hi => hq (s, i) (List.mem_zipIdx_iff_getElem?.2 hi), hl⟩

theorem settles_each {o : Option Schema} {f : Schema → Matching Unit} {p q : Schema → Prop}
    (h : ∀ s ∈ o, Settles named (f s) (p s) (q s)) :
    Settles named (do if let some s := o then f s) (∀ s ∈ o, p s) (∀ s ∈ o, q s) := by
  cases o with
  | none => exact .pass (by simp)
  | some s => simpa using h s rfl

variable {shape : Shape}

theorem settles_matchUndeclared {key : String} (hm : shape.hasMarkers = true)
    (h : ∀ s ∈ (SchemaNode.shape shape).children, ∀ v, Settles named (inner s v) (p s v) (q s v)) :
    Settles named (Matcher.matchUndeclared inner shape key v)
      ((∀ s ∈ shape.keys, p s (.str key)) ∧ ∀ s ∈ shape.values, p s v)
      ((∀ s ∈ shape.keys, q s (.str key)) ∧ ∀ s ∈ shape.values, q s v) := by
  have hk : Settles named
      (do if let some s := shape.keys then Matching.below (.keyItself key) (inner s (.str key)))
      (∀ s ∈ shape.keys, p s (.str key)) (∀ s ∈ shape.keys, q s (.str key)) :=
    settles_each fun s hs =>
      (h s (by simp [SchemaNode.children, Option.mem_def.1 hs]) _).below _
  have hv : Settles named
      (do if let some s := shape.values then Matching.below (.key key) (inner s v))
      (∀ s ∈ shape.values, p s v) (∀ s ∈ shape.values, q s v) :=
    settles_each fun s hs =>
      (h s (by simp [SchemaNode.children, Option.mem_def.1 hs]) _).below _
  have hb := hk.bind hv
  rw [Matcher.matchUndeclared, if_pos hm]
  cases hs : shape.keys with
  | none =>
    rw [hs] at hb
    exact hb
  | some s =>
    rw [hs] at hb
    exact hb

theorem settles_matchProperties {properties : Keyed Value}
    (h : ∀ s ∈ (SchemaNode.shape shape).children, ∀ v, Settles named (inner s v) (p s v) (q s v)) :
    Settles named (m.matchProperties inner shape properties)
      (Fulfils m.config.denyExcess p shape properties)
      (Fulfils m.config.denyExcess q shape properties) := by
  have hf : Settles named
      (shape.fields.entries.forM fun f =>
        Matching.below (.key f.1) (inner f.2 ((properties.get? f.1).getD .undefined)))
      (∀ f ∈ shape.fields.entries, p f.2 ((properties.get? f.1).getD .undefined))
      (∀ f ∈ shape.fields.entries, q f.2 ((properties.get? f.1).getD .undefined)) :=
    .forM fun f hf => (h f.2 (List.mem_append_left _ (List.mem_map_of_mem hf)) _).below _
  refine hf.bind ?_
  by_cases hm : shape.hasMarkers = true
  · rw [if_pos (by simp [hm])]
    refine (Settles.forM fun e _ => settles_matchUndeclared hm h).imp ?_ ?_
    · intro hp e he
      obtain ⟨he, hd⟩ := List.mem_filter.1 he
      exact (hp e he (by simpa using hd)).2
    · intro hq e he hd
      exact ⟨fun _ => hm, hq e (List.mem_filter.2 ⟨he, by simpa using hd⟩)⟩
  · by_cases hx : m.config.denyExcess = true
    · rw [if_pos (by simp [hx])]
      have hu (e : String × Value) :
          Settles named (Matcher.matchUndeclared inner shape e.1 e.2) False False := by
        rw [Matcher.matchUndeclared, if_neg hm]
        exact .refuse id
      refine (Settles.forM fun e _ => hu e).imp ?_ ?_
      · intro hp e he
        obtain ⟨he, hd⟩ := List.mem_filter.1 he
        exact hm ((hp e he (by simpa using hd)).1 hx)
      · intro hq e he hd
        exact (hq e (List.mem_filter.2 ⟨he, by simpa using hd⟩)).elim
    · obtain ⟨hk, hv⟩ : shape.keys = none ∧ shape.values = none := by
        simpa [Shape.hasMarkers] using hm
      rw [if_neg (by simp [hm, hx])]
      exact .pass fun e _ _ => ⟨fun h => absurd h hx, by simp [hk], by simp [hv]⟩

end ValueCheck.Matching
