import Mathlib.Algebra.Order.Ring.Nat
import Mathlib.Data.Int.Notation
import Mathlib.Data.Nat.Notation
import Mathlib.Tactic.Ring

/-! # Double precision numbers

A finite magnitude is counted by its index among the double precision numbers:
index `k` stands for `magnitude k` units of `2^-1074`. Rounding is to nearest,
ties to even, and computes the index of a quotient of naturals.
-/
namespace Oidc4acLab

namespace Binary64

/-- The magnitudes are multiples of `2^-scale`. -/
def scale : ℕ := 1074

abbrev stride : ℕ := 2^52

abbrev overflow : ℕ := 2047*2^52

def magnitude (k : ℕ) : ℕ :=
  if k < stride then k else (stride+k%stride)*2^(k/stride-1)

/-- The index nearest to `num/den` units. -/
def round (num den : ℕ) : ℕ :=
  let e := Nat.log2 (num/den)-52
  let d := den*2^e
  let m := num/d
  let r := num%d
  e*stride+(if 2*r < d then m else if d < 2*r then m+1 else m+m%2)

theorem round_of_dvd {v m e : ℕ} (he : Nat.log2 v-52 = e) (hv : v = m*2^e) :
    round v 1 = e*stride+m := by
  have hd : 0 < 2^e := Nat.two_pow_pos e
  have hm : v/2^e = m := by rw [hv,Nat.mul_div_cancel _ hd]
  have hr : v%2^e = 0 := by rw [hv,Nat.mul_mod_left]
  simp only [round,Nat.div_one,he,Nat.one_mul,hm,hr]
  rw [if_pos (by omega)]

/-- A double precision number is rounded to itself. -/
@[simp] theorem round_magnitude (k : ℕ) : round (magnitude k) 1 = k := by
  by_cases hk : k < stride
  · have hlog : Nat.log2 k-52 = 0 := by
      by_cases h0 : k = 0
      · rw [h0]
        rfl
      · have h := (Nat.log2_lt h0).mpr hk
        omega
    rw [magnitude,if_pos hk,round_of_dvd hlog (m := k) (by simp)]
    omega
  · rw [magnitude,if_neg hk]
    have hs : 0 < k/stride := Nat.div_pos (by omega) (by decide)
    have hmod : k%stride < stride := Nat.mod_lt _ (by decide)
    have hstride : stride = 2^52 := rfl
    have hlog : Nat.log2 ((stride+k%stride)*2^(k/stride-1))-52 = k/stride-1 := by
      have h : Nat.log2 ((stride+k%stride)*2^(k/stride-1)) = 52+(k/stride-1) := by
        have hpos := Nat.mul_pos (show 0 < stride+k%stride by omega) (Nat.two_pow_pos (k/stride-1))
        rw [Nat.log2_eq_iff (by omega)]
        constructor
        · rw [Nat.pow_add]
          exact Nat.mul_le_mul_right _ (by omega)
        · rw [show 52+(k/stride-1)+1 = 53+(k/stride-1) by omega,Nat.pow_add]
          exact Nat.mul_lt_mul_of_pos_right (by omega) (Nat.two_pow_pos _)
      omega
    rw [round_of_dvd hlog rfl]
    have hdiv := Nat.div_add_mod k stride
    have hc : (k/stride-1)*stride+stride = stride*(k/stride) := by
      rw [← Nat.succ_mul,Nat.mul_comm]
      congr 1
      omega
    omega

theorem round_mul_right (num den : ℕ) {c : ℕ} (hc : 0 < c) :
    round (num*c) (den*c) = round num den := by
  have hq : num*c/(den*c) = num/den := Nat.mul_div_mul_right _ _ hc
  have hd : ∀ e, den*c*2^e = den*2^e*c := by
    intro e
    ring
  simp only [round,hq,hd,Nat.mul_div_mul_right _ _ hc,Nat.mul_mod_mul_right]
  have h1 : ∀ r d : ℕ, (2*(r*c) < d*c) = (2*r < d) := by
    intro r d
    rw [← Nat.mul_assoc]
    exact propext (Nat.mul_lt_mul_right hc)
  have h2 : ∀ r d : ℕ, (d*c < 2*(r*c)) = (d < 2*r) := by
    intro r d
    rw [← Nat.mul_assoc]
    exact propext (Nat.mul_lt_mul_right hc)
  simp only [h1,h2]

/-- The index nearest to the decimal `m·10^e`. -/
def ofDecimal (m : ℕ) (e : ℤ) : ℕ :=
  if 0 ≤ e then round (m*10^e.toNat*2^scale) 1 else round (m*2^scale) (10^(-e).toNat)

theorem ofDecimal_expansion (k : ℕ) : ofDecimal (magnitude k*5^scale) (-scale) = k := by
  have h10 : (10:ℕ)^scale = 5^scale*2^scale := by
    rw [← Nat.mul_pow]
  have hneg : ¬ (0:ℤ) ≤ -scale := by decide
  have h := round_mul_right (magnitude k) 1 (c := 10^scale) (Nat.pow_pos (by decide))
  rw [Nat.one_mul,round_magnitude] at h
  rw [ofDecimal,if_neg hneg,neg_neg,Int.toNat_natCast,Nat.mul_assoc,← h10]
  exact h

theorem ofDecimal_zero : ofDecimal 0 0 = 0 := by
  have h := round_magnitude 0
  rw [show magnitude 0 = 0 from rfl] at h
  rw [ofDecimal,if_pos (le_refl _),Nat.zero_mul,Nat.zero_mul,h]

theorem ofDecimal_mul_pow (m z : ℕ) : ofDecimal (m*10^z) 0 = ofDecimal m z := by
  rw [ofDecimal,ofDecimal,if_pos (by decide),if_pos (Int.natCast_nonneg z)]
  simp

end Binary64

/-- The numbers of the script language. No operation used here tells `-0` from `0`. -/
inductive Number
  | nan
  | infinity (negative : Bool)
  | finite (index : {i : ℤ // i.natAbs < Binary64.overflow})
  deriving DecidableEq

namespace Number
open Binary64

def ofIndex (negative : Bool) (k : ℕ) : Number :=
  if h : k < overflow then
    .finite (if negative then ⟨-k,by simpa using h⟩ else ⟨k,by simpa using h⟩)
  else .infinity negative

def ofNat (n : ℕ) : Number := ofIndex false (round (n*2^scale) 1)

/-- `Number.isInteger` -/
def isInteger : Number → Bool
  | .finite i => magnitude i.1.natAbs%2^scale == 0
  | _ => false

/-- `x < 0` -/
def isNegative : Number → Bool
  | .finite i => i.1 < 0
  | .infinity negative => negative
  | .nan => false

theorem ofIndex_natAbs (i : {i : ℤ // i.natAbs < overflow}) :
    ofIndex (decide (i.1 < 0)) i.1.natAbs = .finite i := by
  obtain ⟨i,hi⟩ := i
  rw [ofIndex,dif_pos hi]
  by_cases h : i < 0
  · have hn : -(i.natAbs:ℤ) = i := by omega
    simp only [h,decide_true,if_true,hn]
  · have hn : (i.natAbs:ℤ) = i := by omega
    simp [h,hn]

end Number
end Oidc4acLab
