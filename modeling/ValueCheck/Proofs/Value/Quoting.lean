import Mathlib.Data.List.Basic
import ValueCheck.Value.Rendering

/-! Quoted texts read back. Escapes are told apart by their first characters, so two strings are
quoted alike only if the same characters of them are shown. -/

namespace ValueCheck

namespace Quoting

def shorthand : List (Char × Char) :=
  [('"', '"'), ('\\', '\\'), ('n', '\n'), ('r', '\r'), ('t', '\t')]

def hexValue (d : Char) : Nat := if d ≤ '9' then d.toNat - 48 else d.toNat - 87

def readHex (ds : List Char) : Nat := ds.foldl (fun n d => 16 * n + hexValue d) 0

def unescape : List Char → Option (Char × List Char)
  | '\\' :: 'u' :: cs => some (Char.ofNat (readHex (cs.take 4)), cs.drop 4)
  | '\\' :: d :: cs => (shorthand.lookup d).map fun c => (c, cs)
  | c :: cs => some (c, cs)
  | [] => none

variable {c d : Char} {cs s t : List Char}

inductive Escapes : Char → List Char → Prop where
  | plain {c : Char} (hq : c ≠ '"') (hb : c ≠ '\\') (hc : isControl c = false) : Escapes c [c]
  | short {c d : Char} (h : (d, c) ∈ shorthand) : Escapes c ['\\', d]
  | code {c : Char} (hc : isControl c = true) : Escapes c ('\\' :: 'u' :: hexDigits 4 c.toNat)

theorem escapes_escape (c : Char) : Escapes c (escape c) := by
  rw [escape]
  split_ifs with hq hb hn hr ht hc
  · subst hq
    exact .short (by decide)
  · subst hb
    exact .short (by decide)
  · subst hn
    exact .short (by decide)
  · subst hr
    exact .short (by decide)
  · subst ht
    exact .short (by decide)
  · exact .code hc
  · exact .plain hq hb (by simpa using hc)

theorem toNat_lt_of_isControl (h : isControl c = true) : c.toNat < 160 := by
  simp only [isControl, Bool.or_eq_true, Bool.and_eq_true, decide_eq_true_eq] at h
  omega

def hexChars : List Char := "0123456789abcdef".toList

theorem hexDigits_spec : ∀ n < 160, (hexDigits 4 n).length = 4 ∧ readHex (hexDigits 4 n) = n ∧
    (hexDigits 4 n).all hexChars.contains = true := by
  decide +kernel

theorem mem_hexChars (h : isControl c = true) (hd : d ∈ hexDigits 4 c.toNat) : d ∈ hexChars := by
  have hall := (hexDigits_spec c.toNat (toNat_lt_of_isControl h)).2.2
  exact List.contains_iff_mem.1 (List.all_eq_true.1 hall d hd)

theorem Escapes.unescape {es : List Char} (h : Escapes c es) (cs : List Char) :
    unescape (es ++ cs) = some (c, cs) := by
  cases h with
  | plain hq hb hc =>
    rw [List.singleton_append, Quoting.unescape.eq_def]
    split
    · next h => exact absurd (List.cons.inj h).1 hb
    · next h => exact absurd (List.cons.inj h).1 hb
    · next h =>
      cases h
      rfl
    · next h => cases h
  | @short d hd =>
    have hlookup : shorthand.lookup d = some c ∧ d ≠ 'u' := by
      simp only [shorthand, List.mem_cons, Prod.mk.injEq, List.not_mem_nil, or_false] at hd
      rcases hd with ⟨rfl, rfl⟩ | ⟨rfl, rfl⟩ | ⟨rfl, rfl⟩ | ⟨rfl, rfl⟩ | ⟨rfl, rfl⟩ <;> decide
    simp [Quoting.unescape, hlookup]
  | code hc =>
    obtain ⟨hl, hr, -⟩ := hexDigits_spec c.toNat (toNat_lt_of_isControl hc)
    simp [Quoting.unescape, List.take_left' hl, List.drop_left' hl, hr]

theorem unescape_escape (c : Char) (cs : List Char) : unescape (escape c ++ cs) = some (c, cs) :=
  (escapes_escape c).unescape cs

theorem flatMap_escape_injective : Function.Injective fun s : List Char => s.flatMap escape := by
  intro s t h
  dsimp only at h
  induction s generalizing t with
  | nil =>
    cases t with
    | nil => rfl
    | cons d t =>
      have hd := unescape_escape d (t.flatMap escape)
      rw [← List.flatMap_cons, ← h] at hd
      cases hd
  | cons c s ih =>
    have hc := unescape_escape c (s.flatMap escape)
    rw [← List.flatMap_cons, h] at hc
    cases t with
    | nil => cases hc
    | cons d t =>
      rw [List.flatMap_cons, unescape_escape] at hc
      obtain ⟨rfl, ht⟩ : d = c ∧ t.flatMap escape = s.flatMap escape := by simpa using hc
      rw [ih ht.symm]

theorem Escapes.isControl_eq_false {es : List Char} (h : Escapes c es) :
    ∀ d ∈ es, isControl d = false := by
  cases h with
  | plain hq hb hc => simpa using hc
  | @short d hd =>
    have hletters : (shorthand.all fun p => !isControl p.1) = true := by decide
    rw [List.forall_mem_cons, List.forall_mem_singleton]
    exact ⟨by decide, by simpa using List.all_eq_true.1 hletters (d, c) hd⟩
  | code hc =>
    have hdigits : (hexChars.all fun d => !isControl d) = true := by decide +kernel
    rw [List.forall_mem_cons, List.forall_mem_cons]
    refine ⟨by decide, by decide, fun d hd => ?_⟩
    simpa using List.all_eq_true.1 hdigits d (mem_hexChars hc hd)

def pendingFrom (pending : Bool) (cs : List Char) : Bool :=
  cs.foldl (fun p c => !p && c == '\\') pending

def pending (cs : List Char) : Bool := pendingFrom false cs

theorem pending_append : pending (s ++ t) = pendingFrom (pending s) t := List.foldl_append

theorem pendingFrom_of_notMem {p : Bool} (h : '\\' ∉ cs) (hcs : cs ≠ []) :
    pendingFrom p cs = false := by
  induction cs generalizing p with
  | nil => exact absurd rfl hcs
  | cons c cs ih =>
    have hc : c ≠ '\\' := fun hc => h (hc ▸ List.mem_cons_self)
    rcases eq_or_ne cs [] with rfl | hne
    · simp [pendingFrom, hc]
    · exact ih (fun hm => h (List.mem_cons_of_mem c hm)) hne

theorem Escapes.pending_eq_false {es : List Char} (h : Escapes c es) : pending es = false := by
  cases h with
  | plain hq hb hc => simp [pending, pendingFrom, hb]
  | short hd => rfl
  | code hc =>
    have hdigits : '\\' ∉ hexChars := by decide +kernel
    have hcode : '\\' ∉ hexDigits 4 c.toNat := fun hm => hdigits (mem_hexChars hc hm)
    change pendingFrom true ('u' :: hexDigits 4 c.toNat) = false
    exact pendingFrom_of_notMem (by simp [hcode]) (by simp)

theorem pending_flatMap (s : List Char) : pending (s.flatMap escape) = false := by
  induction s with
  | nil => rfl
  | cons c s ih => rwa [List.flatMap_cons, pending_append, (escapes_escape c).pending_eq_false]

theorem Escapes.pending_of_quote {es front back : List Char} (h : Escapes c es)
    (he : es = front ++ '"' :: back) : pending front = true := by
  have hmem : '"' ∈ es := by simp [he]
  cases h with
  | plain hq hb hc => exact absurd (List.mem_singleton.1 hmem).symm hq
  | @short d hd =>
    rcases front with - | ⟨b, - | ⟨e, front⟩⟩
    · simp at he
    · obtain ⟨rfl, -⟩ : '\\' = b ∧ _ := by simpa using he
      rfl
    · simp at he
  | code hc =>
    have hdigits : '"' ∉ hexChars := by decide +kernel
    exact absurd (mem_hexChars hc (by simpa using hmem)) hdigits

theorem pending_of_quote {front back : List Char} (h : s.flatMap escape = front ++ '"' :: back) :
    pending front = true := by
  induction s generalizing front with
  | nil => simp at h
  | cons c s ih =>
    rw [List.flatMap_cons, List.append_eq_append_iff] at h
    rcases h with ⟨front', rfl, hs⟩ | ⟨rest, hc, hs⟩
    · rw [pending_append, (escapes_escape c).pending_eq_false]
      exact ih hs
    · cases rest with
      | nil =>
        -- The quote would be the first character behind a finished escape.
        have hfirst : pending [] = true := ih hs.symm
        cases hfirst
      | cons d rest =>
        obtain ⟨rfl, -⟩ := List.cons.inj hs
        exact (escapes_escape c).pending_of_quote hc

def shown (s : String) : List Char :=
  if 40 < s.length then s.toList.take 40 ++ ['…'] else s.toList

theorem quote_eq (s : String) : (quote s).toList = '"' :: (shown s).flatMap escape ++ ['"'] := by
  have hmark : ['…'].flatMap escape = ['…'] := by decide +kernel
  rw [quote, String.toList_ofList, shown, maxChars, String.length_toList]
  split
  · rw [List.flatMap_append, hmark, List.cons_append]
  · next h => rw [List.take_of_length_le (by rw [String.length_toList]; omega), List.append_nil]

theorem quote_inj {s t : String} : quote s = quote t ↔ shown s = shown t := by
  constructor
  · intro h
    have hlist := congrArg String.toList h
    rw [quote_eq, quote_eq, List.append_cancel_right_eq] at hlist
    exact flatMap_escape_injective (List.cons.inj hlist).2
  · intro h
    rw [← String.toList_inj, quote_eq, quote_eq, h]

theorem shown_of_le {s : String} (h : s.length ≤ 40) : shown s = s.toList :=
  if_neg (by omega)

theorem shown_of_lt {s : String} (h : 40 < s.length) : shown s = s.toList.take 40 ++ ['…'] :=
  if_pos h

theorem length_shown_of_lt {s : String} (h : 40 < s.length) : (shown s).length = 41 := by
  have hlength : s.toList.length = s.length := String.length_toList
  rw [shown_of_lt h, List.length_append, List.length_take]
  simp
  omega

theorem isControl_quote (s : String) : ∀ c ∈ (quote s).toList, isControl c = false := by
  have houter : isControl '"' = false := by decide
  have hbody : ∀ c ∈ (shown s).flatMap escape, isControl c = false := by
    intro c hc
    obtain ⟨d, -, hc⟩ := List.mem_flatMap.1 hc
    exact (escapes_escape d).isControl_eq_false c hc
  intro c hc
  rw [quote_eq, List.mem_append, List.mem_cons, List.mem_singleton] at hc
  rcases hc with (rfl | hc) | rfl
  · exact houter
  · exact hbody c hc
  · exact houter

theorem quote_closes {s : String} {front back : List Char}
    (h : (quote s).toList = '"' :: front ++ '"' :: back) : pending front = true ↔ back ≠ [] := by
  have hbody : (shown s).flatMap escape ++ ['"'] = front ++ '"' :: back := by
    rw [quote_eq] at h
    exact (List.cons.inj h).2
  rcases List.eq_nil_or_concat back with rfl | ⟨back, c, rfl⟩
  · have hf : (shown s).flatMap escape = front := List.append_cancel_right hbody
    simp [← hf, pending_flatMap]
  · have hinner : (shown s).flatMap escape ++ ['"'] = (front ++ '"' :: back) ++ [c] := by
      simpa using hbody
    obtain ⟨hs, -⟩ := List.append_inj' hinner rfl
    simp [pending_of_quote hs]

theorem quote_escapes {s : String} {front back : List Char} {c : Char}
    (hs : s.toList = front ++ c :: back) (hf : front.length < 40) (hc : c = '"' ∨ c = '\\') :
    ∃ before after, (quote s).toList = '"' :: before ++ '\\' :: c :: after ∧
      pending before = false ∧ (quote (String.ofList front)).toList = '"' :: before ++ ['"'] := by
  have hescape : escape c = ['\\', c] := by
    rcases hc with rfl | rfl <;> decide
  obtain ⟨rest, hrest⟩ : ∃ rest, shown s = front ++ c :: rest := by
    by_cases hl : 40 < s.length
    · obtain ⟨n, hn⟩ : ∃ n, 40 - front.length = n + 1 := ⟨40 - front.length - 1, by omega⟩
      refine ⟨back.take n ++ ['…'], ?_⟩
      rw [shown_of_lt hl, hs, List.take_append, hn, List.take_of_length_le (Nat.le_of_lt hf),
        List.take_succ_cons]
      simp
    · exact ⟨back, by rw [shown_of_le (by omega), hs]⟩
  have hfront : shown (String.ofList front) = front := by
    rw [shown_of_le (by rw [String.length_ofList]; omega), String.toList_ofList]
  refine ⟨front.flatMap escape, rest.flatMap escape ++ ['"'], ?_, pending_flatMap front, ?_⟩
  · simp [quote_eq, hrest, hescape]
  · rw [quote_eq, hfront]

end Quoting

namespace Value

open Quoting

theorem text_str (w : World) (s : String) : (str s).text w = quote s := rfl

theorem text_str_unambiguous :
    (∀ (w w' : World) (s t : String), s.length ≤ 40 → t.length ≤ 40 →
      (str s).text w = (str t).text w' → s = t) ∧
    (∃ f : List Char → String, ∀ (w : World) (s : String), 40 < s.length →
      (str s).text w = f (s.toList.take 40)) ∧
    (∀ (w w' : World) (s t : String), 40 < s.length → 40 < t.length →
      ((str s).text w = (str t).text w' ↔ s.toList.take 40 = t.toList.take 40)) ∧
    (∀ (w w' : World) (s t : String), 40 < s.length → t.length ≤ 40 →
      (str s).text w ≠ (str t).text w') ∧
    ∀ (w : World) (s : String),
      (∃ body, ((str s).text w).toList = '"' :: body ++ ['"']) ∧
      (∀ c ∈ ((str s).text w).toList, isControl c = false) ∧
      (∀ front back, ((str s).text w).toList = '"' :: front ++ '"' :: back →
        (pending front = true ↔ back ≠ [])) ∧
      ∀ front c back, s.toList = front ++ c :: back → front.length < 40 → c = '"' ∨ c = '\\' →
        ∃ before after, ((str s).text w).toList = '"' :: before ++ '\\' :: c :: after ∧
          pending before = false ∧
          ((str (String.ofList front)).text w).toList = '"' :: before ++ ['"'] := by
  simp only [text_str, quote_inj]
  refine ⟨?_, ?_, ?_, ?_, ?_⟩
  · intro _ _ s t hs ht h
    rwa [shown_of_le hs, shown_of_le ht, String.toList_inj] at h
  · refine ⟨fun cs => String.ofList ('"' :: (cs ++ ['…']).flatMap escape ++ ['"']), ?_⟩
    intro _ s hs
    dsimp only
    rw [← shown_of_lt hs, ← quote_eq, String.ofList_toList]
  · intro _ _ s t hs ht
    rw [shown_of_lt hs, shown_of_lt ht, List.append_cancel_right_eq]
  · intro _ _ s t hs ht h
    have hlength : t.toList.length = t.length := String.length_toList
    have hshown := congrArg List.length (quote_inj.1 h)
    rw [length_shown_of_lt hs, shown_of_le ht] at hshown
    omega
  · intro _ s
    refine ⟨⟨_, quote_eq s⟩, isControl_quote s, fun _ _ => quote_closes, ?_⟩
    exact fun _ _ _ => quote_escapes

end Value

end ValueCheck
