import ValueCheck.Proofs.Grammar.Acceptance
import ValueCheck.Proofs.Grammar.Lexing

/-! The terms that type strings denote, by the rule of the grammar that their text
follows. They are closed under parts, and the text of each has a derivation. -/

namespace ValueCheck.Grammar

inductive Rule where
  | alternation
  | conjunction
  | inversion
  | operand
  | primary

def SizeRange.Fits : SizeRange → Prop
  | exactly n | atLeast n | atMost n => n < UInt64.size
  | between low high => low < UInt64.size ∧ high < UInt64.size ∧ low ≤ high

inductive Canonical : Rule → Bool → Term → Prop where
  | name {g : Bool} {n : String} (h : IsName n.toList) : Canonical .primary g (.name n)
  | group {t : Term} (h : Canonical .alternation true t) : Canonical .primary false (.group t)
  | tuple {g : Bool} {ts : List Term} (hne : ts ≠ []) (h : ∀ t ∈ ts, Canonical .alternation g t) :
      Canonical .primary g (.tuple ts)
  | object {g : Bool} {v : Term} (h : Canonical .alternation g v) : Canonical .primary g (.object v)
  | entries {g : Bool} {k v : Term} (hk : Canonical .alternation g k)
      (hv : Canonical .alternation g v) : Canonical .primary g (.entries k v)
  | primary {g : Bool} {t : Term} (h : Canonical .primary g t) : Canonical .operand g t
  | optional {g : Bool} {t : Term} (h : Canonical .operand g t) :
      Canonical .operand g (.optional t)
  | nonEmpty {g : Bool} {t : Term} (h : Canonical .operand g t) :
      Canonical .operand g (.nonEmpty t)
  | sized {g : Bool} {t : Term} {r : SizeRange} (h : Canonical .operand g t) (hr : r.Fits) :
      Canonical .operand g (.sized t r)
  | array {g : Bool} {t : Term} (h : Canonical .operand g t) : Canonical .operand g (.array t)
  | operand {g : Bool} {t : Term} (h : Canonical .operand g t) : Canonical .inversion g t
  | inverted {g : Bool} {t : Term} (h : Canonical .inversion g t) (ha : ¬ t.IsArray) :
      Canonical .inversion g (.inverted t)
  | outerArray {g : Bool} {t : Term} (h : Canonical .inversion g t) :
      Canonical .inversion g (.array t)
  | inversion {g : Bool} {t : Term} (h : Canonical .inversion g t) : Canonical .conjunction g t
  | allOf {g : Bool} {ts : List Term} (hl : 2 ≤ ts.length)
      (h : ∀ t ∈ ts, Canonical .inversion g t) :
      Canonical .conjunction g (.allOf ts)
  | conjunction {g : Bool} {t : Term} (h : Canonical .conjunction g t) : Canonical .alternation g t
  | anyOf {g : Bool} {ts : List Term} (hl : 2 ≤ ts.length)
      (h : ∀ t ∈ ts, Canonical .conjunction g t) : Canonical .alternation g (.anyOf ts)

def Term.children : Term → List Term
  | name _ => []
  | allOf ts | anyOf ts | tuple ts => ts
  | entries k v => [k, v]
  | group t | array t | object t | inverted t | nonEmpty t | optional t | sized t _ => [t]

variable {g : Bool} {r : Rule} {t u : Term}

theorem Canonical.ungrouped (h : Canonical r g t) : Canonical r false t := by
  induction h with
  | name h => exact .name h
  | group h _ => exact .group h
  | tuple hne _ ih => exact .tuple hne ih
  | object _ ih => exact .object ih
  | entries _ _ ihk ihv => exact .entries ihk ihv
  | primary _ ih => exact .primary ih
  | optional _ ih => exact .optional ih
  | nonEmpty _ ih => exact .nonEmpty ih
  | sized _ hr ih => exact .sized ih hr
  | array _ ih => exact .array ih
  | operand _ ih => exact .operand ih
  | inverted _ ha ih => exact .inverted ih ha
  | outerArray _ ih => exact .outerArray ih
  | inversion _ ih => exact .inversion ih
  | allOf hl _ ih => exact .allOf hl ih
  | conjunction _ ih => exact .conjunction ih
  | anyOf hl _ ih => exact .anyOf hl ih

theorem Canonical.isName {n : String} (h : Canonical r g (.name n)) : IsName n.toList := by
  generalize ht : Term.name n = t at h
  induction h with
  | name h =>
    cases ht
    exact h
  | primary _ ih | operand _ ih | inversion _ ih | conjunction _ ih => exact ih ht
  | _ => cases ht

theorem Canonical.of_inversion (h : Canonical .inversion g t) : Canonical .alternation g t :=
  .conjunction (.inversion h)

theorem Canonical.of_operand (h : Canonical .operand g t) : Canonical .alternation g t :=
  .of_inversion (.operand h)

theorem Canonical.child (h : Canonical r g t) (hu : u ∈ t.children) :
    Canonical .alternation false u := by
  induction h with
  | name _ => simp [Term.children] at hu
  | primary _ ih | operand _ ih | inversion _ ih | conjunction _ ih => exact ih hu
  | group h _ | object h _ =>
    obtain rfl := List.mem_singleton.1 hu
    exact h.ungrouped
  | tuple _ h _ => exact (h u hu).ungrouped
  | entries hk hv _ _ =>
    rcases List.mem_pair.1 hu with rfl | rfl
    · exact hk.ungrouped
    · exact hv.ungrouped
  | optional h _ | nonEmpty h _ | array h _ | sized h _ _ =>
    obtain rfl := List.mem_singleton.1 hu
    exact h.of_operand.ungrouped
  | inverted h _ _ | outerArray h _ =>
    obtain rfl := List.mem_singleton.1 hu
    exact h.of_inversion.ungrouped
  | allOf _ h _ => exact (h u hu).of_inversion.ungrouped
  | anyOf _ h _ => exact (Canonical.conjunction (h u hu)).ungrouped

def Named (xs : List Symbol) : Prop := ∀ n, .name n ∈ xs → IsName n.toList

theorem Named.left {xs ys : List Symbol} (h : Named (xs ++ ys)) : Named xs :=
  fun n hn => h n (List.mem_append_left ys hn)

theorem Named.right {xs ys : List Symbol} (h : Named (xs ++ ys)) : Named ys :=
  fun n hn => h n (List.mem_append_right xs hn)

theorem Named.tail {x : Symbol} {xs : List Symbol} (h : Named (x :: xs)) : Named xs :=
  fun n hn => h n (List.mem_cons_of_mem x hn)

theorem Alternation.canonical_of_terms {e : Alternation}
    (h : ∀ t ∈ e.terms, Canonical .conjunction g t) : Canonical .alternation g e.term := by
  cases e with
  | single c => exact .conjunction (h c.term (by simp [terms]))
  | pipe c rest =>
    have hl := List.length_pos_of_ne_nil rest.terms_ne_nil
    exact .anyOf (by simp; omega) h

theorem Conjunction.canonical_of_terms {c : Conjunction}
    (h : ∀ t ∈ c.terms, Canonical .inversion g t) : Canonical .conjunction g c.term := by
  cases c with
  | single i => exact .inversion (h i.term (by simp [terms, Inversion.term]))
  | ampersand i rest =>
    have hl := List.length_pos_of_ne_nil rest.terms_ne_nil
    exact .allOf (by simp; omega) h

theorem Inversion.core_not_array (i : Inversion) : ¬ i.core.IsArray := by
  cases i with
  | bang i => simp [core, Term.IsArray]
  | operand o => exact o.core_not_array

theorem Canonical.outerArrays (h : Canonical .inversion g t) (k : Nat) :
    Canonical .inversion g (Term.array^[k] t) := by
  induction k with
  | zero => exact h
  | succ k ih =>
    rw [Function.iterate_succ_apply']
    exact .outerArray ih

theorem Size.Fits.range {size : Size} (h : size.Fits) : size.range.Fits := by
  cases size <;> exact h

theorem Canonical.suffixed {ss : List Suffix} (h : Canonical .operand g t)
    (hs : ∀ s ∈ ss, s.Fits) : Canonical .operand g (ss.foldl Suffix.apply t) := by
  induction ss generalizing t with
  | nil => exact h
  | cons s ss ih =>
    rw [List.forall_mem_cons] at hs
    refine ih ?_ hs.2
    cases s with
    | optional => exact .optional h
    | nonEmpty => exact .nonEmpty h
    | array => exact .array h
    | sized size => exact .sized h (Size.Fits.range hs.1)

mutual

theorem Alternation.canonical_terms : ∀ {g : Bool} {e : Alternation}, e.Admissible g →
    Named e.symbols → ∀ t ∈ e.terms, Canonical .conjunction g t
  | _, .single c, h, hn => by
    rw [Alternation.terms, List.forall_mem_singleton]
    exact Conjunction.canonical_of_terms (Conjunction.canonical_terms h hn)
  | _, .pipe c e, h, hn => by
    rw [Alternation.terms, List.forall_mem_cons]
    exact ⟨Conjunction.canonical_of_terms (Conjunction.canonical_terms h.1 hn.left),
      Alternation.canonical_terms h.2 hn.right.tail⟩

theorem Conjunction.canonical_terms : ∀ {g : Bool} {c : Conjunction}, c.Admissible g →
    Named c.symbols → ∀ t ∈ c.terms, Canonical .inversion g t
  | _, .single i, h, hn => by
    rw [Conjunction.terms, List.forall_mem_singleton]
    exact (Inversion.canonical_core h hn).outerArrays _
  | _, .ampersand i c, h, hn => by
    rw [Conjunction.terms, List.forall_mem_cons]
    exact ⟨(Inversion.canonical_core h.1 hn.left).outerArrays _,
      Conjunction.canonical_terms h.2 hn.right.tail⟩

theorem Inversion.canonical_core : ∀ {g : Bool} {i : Inversion}, i.Admissible g →
    Named i.symbols → Canonical .inversion g i.core
  | _, .bang i, h, hn => .inverted (Inversion.canonical_core h hn.tail) i.core_not_array
  | _, .operand _, h, hn => .operand (Operand.canonical_core h hn)

theorem Operand.canonical_core : ∀ {g : Bool} {o : Operand}, o.Admissible g →
    Named o.symbols → Canonical .operand g o.core
  | _, .mk _ _, h, hn =>
    .suffixed (.primary (Primary.canonical h.1 hn.left)) fun s hs =>
      have hp := List.rdropWhile_prefix Suffix.isArray _
      h.2 s (hp.subset hs)

theorem Primary.canonical : ∀ {g : Bool} {p : Primary}, p.Admissible g →
    Named p.symbols → Canonical .primary g p.term
  | _, .name n, _, hn => .name (hn n (by simp))
  | _, .paren e, h, hn => by
    obtain ⟨rfl, h⟩ := h
    exact .group (Alternation.canonical_of_terms (Alternation.canonical_terms h hn.tail.left))
  | _, .bracket is, h, hn => by
    refine .tuple ?_ (Items.canonical_terms h hn.tail.left)
    cases is <;> simp [Items.terms]
  | _, .brace v, h, hn =>
    .object (Alternation.canonical_of_terms (Alternation.canonical_terms h hn.tail.left))
  | _, .entries k v, h, hn =>
    .entries (Alternation.canonical_of_terms (Alternation.canonical_terms h.1 hn.tail.left))
      (Alternation.canonical_of_terms (Alternation.canonical_terms h.2 hn.tail.right.tail.left))

theorem Items.canonical_terms : ∀ {g : Bool} {is : Items}, is.Admissible g →
    Named is.symbols → ∀ t ∈ is.terms, Canonical .alternation g t
  | _, .single e, h, hn => by
    rw [Items.terms, List.forall_mem_singleton]
    exact Alternation.canonical_of_terms (Alternation.canonical_terms h hn)
  | _, .comma e is, h, hn => by
    rw [Items.terms, List.forall_mem_cons]
    exact ⟨Alternation.canonical_of_terms (Alternation.canonical_terms h.1 hn.left),
      Items.canonical_terms h.2 hn.right.tail⟩

end

end ValueCheck.Grammar
