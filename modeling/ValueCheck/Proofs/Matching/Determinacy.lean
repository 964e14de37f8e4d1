import ValueCheck.Proofs.Matching.Closure

/-! The result of a matching is settled by what the names stand for. Which checkers
were compiled before makes no difference to it. -/

namespace ValueCheck

open Matching
open Registry (Coherent Computes)

def Determined {ε α : Type} (named : String → Option Checker)
    (x : ExceptT ε (StateM Registry) α) : Prop := ∃ out, Computes named x out

namespace Determined

variable {ε ε' α β : Type} {named : String → Option Checker} {x : ExceptT ε (StateM Registry) α}

theorem bind {f : α → ExceptT ε (StateM Registry) β} (hx : Determined named x)
    (hf : ∀ a, Determined named (f a)) : Determined named (x >>= f) := by
  choose y hy using hf
  obtain ⟨out, hout⟩ := hx
  exact ⟨_, hout.bind fun a _ => hy a⟩

theorem adapt (h : Determined named x) (f : ε → ε') : Determined named (x.adapt f) := by
  obtain ⟨out, hout⟩ := h
  exact ⟨_, hout.adapt f⟩

theorem eq (h : Determined named x) {r r' : Registry} (hr : Coherent named r)
    (hr' : Coherent named r') : (x r).1 = (x r').1 := by
  obtain ⟨out, hout⟩ := h
  rw [(hout r hr).2, (hout r' hr').2]

theorem coherent (h : Determined named x) {r : Registry} (hr : Coherent named r) :
    Coherent named (x r).2 := by
  obtain ⟨out, hout⟩ := h
  exact (hout r hr).1

end Determined

theorem closed_determined {named : String → Option Checker} :
    Closed fun _ x => Determined named x where
  pure a := ⟨_, .pure a⟩
  throw e := ⟨_, .throw e⟩
  bind hx hf := hx.bind hf
  below hx _ := hx.adapt _
  named h := .adapt ⟨_, Registry.computes_named (Grammar.isName_of_lexeme? h)⟩ _
  compiled source := .adapt ⟨_, Registry.computes_getOrCompile source⟩ _

end ValueCheck
