import Oidc4acLab.Number.Binary64
import Mathlib.Algebra.Order.Field.Rat
import Mathlib.Data.NNRat.Defs
import Mathlib.Data.Nat.Cast.Order.Field
import Mathlib.Tactic.Positivity
import Mathlib.Tactic.Linarith

/-! # Rounding in double precision

The nearest double is less than a number by less than one unit in its last place.
-/
namespace Oidc4acLab.Binary64

theorem magnitude_scaled {e m : ℕ} (hm : e = 0 ∨ stride ≤ m) (hle : m ≤ 2*stride) :
    magnitude (e*stride+m) = m*2^e := by
  have hpos : 0 < stride := by decide
  rcases Nat.lt_or_ge m stride with hlt | hge
  · have he : e = 0 := hm.resolve_right (by omega)
    rw [he,Nat.zero_mul,Nat.zero_add,magnitude,if_pos hlt,Nat.pow_zero,Nat.mul_one]
  · obtain ⟨r,rfl⟩ := Nat.exists_eq_add_of_le hge
    have hk : e*stride+(stride+r) = r+(e+1)*stride := by
      rw [Nat.succ_mul]
      omega
    have hnot : ¬ r+(e+1)*stride < stride := by
      rw [Nat.succ_mul]
      omega
    rw [hk,magnitude,if_neg hnot,Nat.add_mul_div_right _ _ hpos,Nat.add_mul_mod_self_right]
    rcases Nat.lt_or_ge r stride with hr | hr
    · rw [Nat.div_eq_of_lt hr,Nat.mod_eq_of_lt hr]
      congr 2
      omega
    · -- the first number of the next exponent
      obtain rfl : r = stride := by omega
      rw [Nat.div_self hpos,Nat.mod_self,show 1+(e+1)-1 = e+1 by omega,Nat.pow_succ,Nat.add_zero,Nat.mul_comm (2^e),
        ← Nat.mul_assoc,Nat.mul_two]

def place (num den : ℕ) : ℕ := 2^(Nat.log2 (num/den)-52)

theorem lt_magnitude_round (num : ℕ) {den : ℕ} (hden : 0 < den) :
    num < (magnitude (round num den)+place num den)*den := by
  have hplace : 0 < place num den := Nat.two_pow_pos _
  have hd : 0 < den*place num den := Nat.mul_pos hden hplace
  have hquotient : num/(den*place num den) = num/den/place num den := (Nat.div_div_eq_div_mul _ _ _).symm
  have hrange : (Nat.log2 (num/den)-52 = 0 ∨ stride ≤ num/(den*place num den)) ∧
      num/(den*place num den) < 2*stride := by
    rw [hquotient]
    by_cases h0 : num/den = 0
    · rw [h0,Nat.zero_div]
      exact ⟨Or.inl (by decide),by decide⟩
    · have hlow := Nat.log2_self_le h0
      have hhigh := Nat.lt_log2_self (n := num/den)
      constructor
      · rcases Nat.le_total (Nat.log2 (num/den)) 52 with hle | hge
        · exact Or.inl (by omega)
        · refine Or.inr ((Nat.le_div_iff_mul_le hplace).mpr ?_)
          rw [place,← Nat.pow_add,Nat.add_sub_cancel' hge]
          exact hlow
      · rw [Nat.div_lt_iff_lt_mul hplace]
        refine Nat.lt_of_lt_of_le hhigh ?_
        rw [place,← Nat.pow_succ',← Nat.pow_add]
        exact Nat.pow_le_pow_right (by decide) (by omega)
  obtain ⟨m,hm,hround⟩ : ∃ m, (m = num/(den*place num den) ∨ m = num/(den*place num den)+1) ∧
      round num den = (Nat.log2 (num/den)-52)*stride+m := by
    refine ⟨_,?_,rfl⟩
    rw [← place]
    have hodd := Nat.mod_two_eq_zero_or_one (num/(den*place num den))
    split_ifs
    · exact Or.inl rfl
    · exact Or.inr rfl
    · rcases hodd with h | h
      · exact Or.inl (by rw [h,Nat.add_zero])
      · exact Or.inr (by rw [h])
  have hscaled : magnitude (round num den) = m*place num den := by
    rw [hround,place]
    exact magnitude_scaled (hrange.1.imp id fun h => by omega) (by omega)
  have hlt := Nat.lt_mul_div_succ num hd
  rw [hscaled,← Nat.succ_mul,Nat.mul_assoc,Nat.mul_comm (place num den),Nat.mul_comm]
  refine Nat.lt_of_lt_of_le hlt (Nat.mul_le_mul_left _ ?_)
  omega

/-- The double nearest to a number, where the exponent has no upper bound. -/
def nearest (x : ℚ≥0) : ℚ≥0 := magnitude (round (x.num*2^scale) x.den)/2^scale

theorem place_le (num : ℕ) {den : ℕ} (hden : 0 < den) : (place num den:ℚ) ≤ 1+num/den/2^52 := by
  have hq : (0:ℚ) ≤ num/den/2^52 := by positivity
  rcases Nat.lt_or_ge (Nat.log2 (num/den)) 52 with hlt | hge
  · rw [place,Nat.sub_eq_zero_of_le hlt.le,Nat.pow_zero,Nat.cast_one]
    exact le_add_of_nonneg_right hq
  · have h0 : num/den ≠ 0 := by
      intro h
      rw [h] at hge
      exact absurd hge (by decide)
    have hnat : place num den*2^52 ≤ num/den := by
      rw [place,← Nat.pow_add,Nat.sub_add_cancel hge]
      exact Nat.log2_self_le h0
    have hcast : (place num den:ℚ)*2^52 ≤ num/den := by
      refine le_trans ?_ (Nat.cast_div_le (m := num) (n := den))
      exact_mod_cast hnat
    have hle : (place num den:ℚ) ≤ num/den/2^52 := (le_div_iff₀ (by positivity)).mpr hcast
    linarith

theorem le_nearest (x : ℚ≥0) : (x:ℚ) ≤ nearest x+x/2^52+1/2^scale := by
  have hden : 0 < x.den := x.den_pos
  have hscale : (0:ℚ) < 2^scale := by positivity
  have hx : ((x.num*2^scale:ℕ):ℚ)/x.den = x*2^scale := by
    have hnum := NNRat.num_div_den x
    have hcast : (x:ℚ) = x.num/x.den := by
      conv_lhs => rw [← hnum]
      push_cast
      rfl
    rw [hcast]
    push_cast
    ring
  have hlt : ((x.num*2^scale:ℕ):ℚ) < (magnitude (round (x.num*2^scale) x.den)+place (x.num*2^scale) x.den)*x.den := by
    exact_mod_cast lt_magnitude_round (x.num*2^scale) hden
  have hdiv := (div_lt_iff₀ (by exact_mod_cast hden)).mpr hlt
  have hplace := place_le (x.num*2^scale) hden
  rw [hx] at hdiv hplace
  have hnearest : (nearest x:ℚ)*2^scale = magnitude (round (x.num*2^scale) x.den) := by
    rw [nearest]
    push_cast
    exact div_mul_cancel₀ _ hscale.ne'
  have hall : (x:ℚ)*2^scale ≤ (nearest x+x/2^52+1/2^scale)*2^scale := by
    have hone : (1:ℚ)/2^scale*2^scale = 1 := div_mul_cancel₀ 1 hscale.ne'
    calc (x:ℚ)*2^scale ≤ magnitude (round (x.num*2^scale) x.den)+(1+x*2^scale/2^52) := by linarith
      _ = (nearest x+x/2^52+1/2^scale)*2^scale := by
        rw [add_mul,add_mul,hone,hnearest]
        ring
  exact le_of_mul_le_mul_right hall hscale

end Oidc4acLab.Binary64
