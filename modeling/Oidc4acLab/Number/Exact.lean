import Oidc4acLab.Number.Binary64
import Mathlib.Algebra.Field.Rat
import Mathlib.Algebra.Order.Field.Rat
import Mathlib.Algebra.Order.Field.Power
import Mathlib.Tactic.FieldSimp
import Mathlib.Tactic.Positivity

/-! # Rounding sees the value alone

A decimal is given by its digits and the exponent of the last one. Trailing zeros can be
moved into the exponent, so the double nearest to a decimal depends on its value only.
-/
namespace Oidc4acLab.Binary64

theorem ofDecimal_shift (m z : ℕ) (e : ℤ) : ofDecimal (m*10^z) e = ofDecimal m (e+z) := by
  by_cases he : 0 ≤ e
  · have hsum : (e+z).toNat = e.toNat+z := by omega
    have hnum : ∀ a b c : ℕ, a*b*c = a*(c*b) := by
      intro a b c
      ring
    rw [ofDecimal,ofDecimal,if_pos he,if_pos (by omega),hsum,Nat.pow_add,hnum m]
  · by_cases hez : 0 ≤ e+z
    · have hz : z = (e+z).toNat+(-e).toNat := by omega
      have hnum : ∀ a b c s : ℕ, a*(b*c)*s = a*b*s*c := by
        intro a b c s
        ring
      have h := round_mul_right (m*10^(e+z).toNat*2^scale) 1 (c := 10^(-e).toNat) (Nat.pow_pos (by decide))
      rw [Nat.one_mul] at h
      rw [ofDecimal,ofDecimal,if_neg he,if_pos hez,show (10:ℕ)^z = 10^((e+z).toNat+(-e).toNat) by rw [← hz],
        Nat.pow_add,hnum,h]
    · have hden : (-e).toNat = (-(e+z)).toNat+z := by omega
      have hnum : ∀ a b s : ℕ, a*b*s = a*s*b := by
        intro a b s
        ring
      have h := round_mul_right (m*2^scale) (10^(-(e+z)).toNat) (c := 10^z) (Nat.pow_pos (by decide))
      rw [ofDecimal,ofDecimal,if_neg he,if_neg hez,hden,Nat.pow_add,hnum,h]

theorem ofDecimal_congr_of_le {m m' : ℕ} {e e' : ℤ} (hle : e ≤ e') (h : (m:ℚ)*10^e = m'*10^e') :
    ofDecimal m e = ofDecimal m' e' := by
  obtain ⟨z,rfl⟩ := Int.le.dest hle
  have hpos : (10:ℚ)^e ≠ 0 := by positivity
  rw [zpow_add₀ (by norm_num),zpow_natCast,mul_comm ((10:ℚ)^e),← mul_assoc] at h
  have hm := mul_right_cancel₀ hpos h
  have hnat : m = m'*10^z := by exact_mod_cast hm
  rw [hnat,ofDecimal_shift]

theorem ofDecimal_congr {m m' : ℕ} {e e' : ℤ} (h : (m:ℚ)*10^e = m'*10^e') : ofDecimal m e = ofDecimal m' e' := by
  rcases le_total e e' with hle | hle
  · exact ofDecimal_congr_of_le hle h
  · exact (ofDecimal_congr_of_le hle h.symm).symm

end Oidc4acLab.Binary64
