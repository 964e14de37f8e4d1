import Mathlib.Data.Rat.Cast.Order
import ValueCheck.Number.Basic

/-! Natural numbers as doubles. They are exact up to `2 ^ 53`, and what lies above is not
rounded to below it, so comparing with a rounded number is exact for numbers under `2 ^ 53`. -/

namespace ValueCheck.Number

theorem nan_le (a : Number) : nan.le a = false := rfl

theorem le_nan (a : Number) : a.le .nan = false := by
  cases a <;> rfl

variable {n b : Nat}

theorem roundedNat_of_le (h : n ≤ 2 ^ 53) : roundedNat n = n := by
  rcases Nat.lt_or_eq_of_le h with hlt | rfl
  · exact if_pos (by rwa [Nat.one_shiftLeft])
  · decide +kernel

theorem pow_log2_le_roundedNat (h : 2 ^ 53 ≤ n) : 2 ^ n.log2 ≤ roundedNat n := by
  have hn : n ≠ 0 := by omega
  have hlog : 53 ≤ n.log2 := (Nat.le_log2 hn).2 h
  let unit := 1 <<< (n.log2 - 52)
  have hunit : unit = 2 ^ (n.log2 - 52) := Nat.one_shiftLeft _
  have hsplit : 2 ^ n.log2 = 2 ^ 52 * unit := by
    rw [hunit, ← Nat.pow_add, Nat.add_sub_cancel' (by omega)]
  have hbelow : 2 ^ 52 ≤ n / unit := by
    rw [Nat.le_div_iff_mul_le (by rw [hunit]; exact Nat.two_pow_pos _), ← hsplit]
    exact Nat.log2_self_le hn
  have hdown : 2 ^ n.log2 ≤ n / unit * unit := by
    rw [hsplit]
    exact Nat.mul_le_mul_right unit hbelow
  rw [roundedNat, if_neg (by rw [Nat.one_shiftLeft]; omega)]
  change 2 ^ n.log2 ≤ if _ then (n / unit + 1) * unit else n / unit * unit
  split
  · exact hdown.trans (Nat.mul_le_mul_right unit (Nat.le_succ _))
  · exact hdown

theorem le_roundedNat (h : 2 ^ 53 ≤ n) : 2 ^ 53 ≤ roundedNat n := by
  have hlog : 53 ≤ n.log2 := (Nat.le_log2 (by omega)).2 h
  calc 2 ^ 53 ≤ 2 ^ n.log2 := Nat.pow_le_pow_right (by decide) hlog
    _ ≤ roundedNat n := pow_log2_le_roundedNat h

theorem ofNat_of_le (h : n ≤ 2 ^ 53) : ofNat n = .finite n := by
  have hb : n.log2 < 1024 := by
    by_cases h0 : n = 0
    · simp [h0]
    · exact (Nat.log2_lt h0).2 (h.trans_lt (by decide +kernel))
  rw [ofNat, roundedNat_of_le h]
  exact if_pos hb

theorem lt_ofNat (h : n < 2 ^ 53) (hb : 2 ^ 53 ≤ b) : (finite n).lt (ofNat b) = true := by
  have hr : n < roundedNat b := h.trans_le (le_roundedNat hb)
  rw [ofNat]
  split
  · simp [lt, le, hr, hr.le]
  · rfl

theorem ofNat_le_finite_iff (h : n < 2 ^ 53) : (ofNat b).le (.finite n) = true ↔ b ≤ n := by
  rcases Nat.lt_or_ge b (2 ^ 53) with hb | hb
  · rw [ofNat_of_le hb.le]
    simp [le]
  · have hlt : (finite n).le (ofNat b) = true ∧ (ofNat b).le (.finite n) = false := by
      simpa [lt] using lt_ofNat h hb
    simp only [hlt.2, Bool.false_eq_true, false_iff]
    omega

theorem finite_le_ofNat_iff (h : n < 2 ^ 53) : (finite n).le (ofNat b) = true ↔ n ≤ b := by
  rcases Nat.lt_or_ge b (2 ^ 53) with hb | hb
  · rw [ofNat_of_le hb.le]
    simp [le]
  · have hlt : (finite n).le (ofNat b) = true ∧ (ofNat b).le (.finite n) = false := by
      simpa [lt] using lt_ofNat h hb
    simp only [hlt.1, true_iff]
    omega

end ValueCheck.Number
