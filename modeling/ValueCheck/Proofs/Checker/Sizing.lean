import ValueCheck.Proofs.Checker.Reachability
import ValueCheck.Proofs.Number.Rounding

/-! Size ranges are exact. Their bounds are compared as rounded numbers, which no count of
characters or elements under `2 ^ 53` can tell from the bounds themselves. -/

namespace ValueCheck

namespace Grammar.SizeRange

def bounds (r : SizeRange) : List Nat := r.low.toList ++ r.high.toList

def Spans {α : Type} [NatCast α] [LE α] : SizeRange → α → Prop
  | exactly b, x => x = b
  | atLeast b, x => b ≤ x
  | atMost b, x => x ≤ b
  | between low high, x => low ≤ x ∧ x ≤ high

variable {r : SizeRange}

theorem contains_iff_spans {α : Type} [NatCast α] [PartialOrder α] {size : Number} {x : α}
    (hlow : ∀ b ∈ r.bounds, (Number.ofNat b).le size = true ↔ (b : α) ≤ x)
    (hhigh : ∀ b ∈ r.bounds, size.le (Number.ofNat b) = true ↔ x ≤ b) :
    r.contains size = true ↔ r.Spans x := by
  cases r with
  | exactly b =>
    have hl := hlow b (by simp [bounds, low, high])
    have hh := hhigh b (by simp [bounds, low, high])
    have heq : x = b ↔ (b : α) ≤ x ∧ x ≤ b := by
      rw [le_antisymm_iff, and_comm]
    simp [contains, low, high, Spans, hl, hh, heq]
  | atLeast b =>
    have hl := hlow b (by simp [bounds, low, high])
    simp [contains, low, high, Spans, hl]
  | atMost b =>
    have hh := hhigh b (by simp [bounds, low, high])
    simp [contains, low, high, Spans, hh]
  | between lower upper =>
    have hl := hlow lower (by simp [bounds, low, high])
    have hh := hhigh upper (by simp [bounds, low, high])
    simp [contains, low, high, Spans, hl, hh]

theorem contains_ofNat {n : Nat} (h : n < 2 ^ 53) :
    r.contains (.ofNat n) = true ↔ r.Spans n := by
  rw [Number.ofNat_of_le h.le]
  exact contains_iff_spans (fun _ _ => Number.ofNat_le_finite_iff h)
    fun _ _ => Number.finite_le_ofNat_iff h

theorem contains_finite (h : ∀ b ∈ r.bounds, b ≤ 2 ^ 53) (x : Rat) :
    r.contains (.finite x) = true ↔ r.Spans x := by
  apply contains_iff_spans
  · intro b hb
    rw [Number.ofNat_of_le (h b hb)]
    simp [Number.le]
  · intro b hb
    rw [Number.ofNat_of_le (h b hb)]
    simp [Number.le]

theorem contains_nan (r : SizeRange) : r.contains .nan = false := by
  cases r <;> simp [contains, low, high, Number.le_nan, Number.nan_le]

end Grammar.SizeRange

namespace Value

def count? (w : World) : Value → Option Nat
  | str s => some s.length
  | container id => some (w.cell id).size
  | _ => none

theorem size?_of_count? {w : World} {v : Value} {n : Nat} (h : v.count? w = some n) :
    v.size? w = some (.ofNat n) := by
  cases v with
  | str s =>
    cases h
    rfl
  | container id =>
    cases h
    rfl
  | _ => cases h

end Value

namespace Registry

open Grammar (Term SizeRange parse)

theorem sized_accepts {key : String} {d : Checker} {range : SizeRange} {w : World} {v : Value}
    {n : Nat} (hv : v.count? w = some n) (hn : n < 2 ^ 53) :
    (Checker.sized key d range).accepts w v = true ↔ d.accepts w v = true ∧ range.Spans n := by
  simp only [Checker.sized, Value.size?_of_count? hv, Option.any_some, Bool.and_eq_true,
    SizeRange.contains_ofNat hn]

theorem getOrCompile_sized (range : SizeRange) :
    (∀ n < 2 ^ 53, (range.contains (.ofNat n) = true ↔ range.Spans n)) ∧
    ((∀ b ∈ range.bounds, b ≤ 2 ^ 53) →
      ∀ x : Rat, range.contains (.finite x) = true ↔ range.Spans x) ∧
    range.contains .nan = false ∧
    ∀ {r r' : Registry} {named : String → Option Checker}, Reachable r named →
      Reachable r' named → ∀ {source : String} {t : Term} {c : Checker},
        parse source = .ok (.sized t range) → (getOrCompile source r).1 = .ok c →
        ∃ d, (getOrCompile t.text r').1 = .ok d ∧
          ∀ w v n, v.count? w = some n → n < 2 ^ 53 →
            (c.accepts w v = true ↔ d.accepts w v = true ∧ range.Spans n) := by
  refine ⟨fun n => SizeRange.contains_ofNat, SizeRange.contains_finite,
    SizeRange.contains_nan range, ?_⟩
  intro r r' named hr hr' source t c hs hc
  obtain ⟨u, hu, hb⟩ := hr.coherent.getOrCompile_eq_ok.1 hc
  obtain rfl : u = .sized t range := Except.ok.inj (hu.symm.trans hs)
  obtain ⟨d, hd, rfl⟩ := Option.map_eq_some_iff.1 hb
  have hpart : t.IsPart (.sized t range) := .single (by simp [Term.children])
  have hcanonical := (Grammar.canonical_of_parse hs).part hpart
  refine ⟨d, hr'.coherent.getOrCompile_eq_ok.2 ⟨t, Grammar.parse_text hcanonical, hd⟩, ?_⟩
  intro w v n hv hn
  exact sized_accepts hv hn

theorem getOrCompile_sized_rounded :
    Reachable used usedNames ∧
    ∃ c d, (getOrCompile "(string | positive)\x7b,9007199254740993\x7d" used).1 = .ok c ∧
      (getOrCompile "(string | positive)"
        (getOrCompile "(string | positive)\x7b,9007199254740993\x7d" used).2).1 = .ok d ∧
      Number.ofNat 9007199254740993 = .ofNat 9007199254740992 ∧
      (c.accepts {} (.str "abc") = true ↔
        d.accepts {} (.str "abc") = true ∧ 3 ≤ 9007199254740993) := by
  let range : SizeRange := .atMost 9007199254740993
  let t : Term := .sized (.group (.anyOf [.name "string", .name "positive"])) range
  have ht : parse "(string | positive)\x7b,9007199254740993\x7d" = .ok t := by decide +kernel
  have hb : (t.build usedNames).isSome = true := by decide +kernel
  obtain ⟨c, hb⟩ := Option.isSome_iff_exists.1 hb
  have hc := reachable_used.coherent.getOrCompile_eq_ok.2 ⟨t, ht, hb⟩
  obtain ⟨d, hd, haccepts⟩ :=
    (getOrCompile_sized range).2.2.2 reachable_used (reachable_used.compiled _) ht hc
  have hrounded : Number.ofNat 9007199254740993 = .ofNat 9007199254740992 := by decide +kernel
  exact ⟨reachable_used, c, d, hc, hd, hrounded, haccepts {} (.str "abc") 3 rfl (by decide)⟩

end Registry

end ValueCheck
