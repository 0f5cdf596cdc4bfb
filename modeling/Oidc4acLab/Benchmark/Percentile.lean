import Oidc4acLab.Benchmark.Bootstrap
import Oidc4acLab.Number.Ranks

/-! # The percentile as a quantile

A percentile is read between the sorted values. It depends on how many values there are up
to each bound and on nothing else, and values that rise never lower it.
-/
namespace Oidc4acLab.Benchmark
open Number

def quantile (values : List ℚ) (fraction : ℚ) : ℚ := interpolate (entry (sorted values)) (place values fraction)

theorem sorted_perm (values : List ℚ) : (sorted values).Perm values := List.mergeSort_perm values _

theorem sorted_eq_of_perm {values ws : List ℚ} (h : ws.Perm values) : sorted ws = sorted values :=
  List.Perm.eq_of_pairwise' (sorted_pairwise ws) (sorted_pairwise values)
    ((sorted_perm ws).trans (h.trans (sorted_perm values).symm))

section Values
variable {values : List ℚ} (hne : values ≠ []) {f : ℚ} (h0 : 0 ≤ f)
include hne h0

theorem quantile_mono {g : ℚ} (hfg : f ≤ g) : quantile values f ≤ quantile values g := by
  have hn : (0:ℚ) ≤ (sorted values).length-1 := by
    have hpos := List.length_pos_iff.mpr (sorted_ne_nil hne)
    have hone : (1:ℚ) ≤ (sorted values).length := by
      exact_mod_cast hpos
    linarith
  exact interpolate_mono (entry_mono (sorted_pairwise values)) (place_nonneg hne h0) (mul_le_mul_of_nonneg_left hfg hn)

theorem quantile_bounds {low high : ℚ} (h : ∀ x ∈ values, low ≤ x ∧ x ≤ high) :
    low ≤ quantile values f ∧ quantile values f ≤ high :=
  interpolate_entry_bounds (sorted_ne_nil hne) (sorted_pairwise values) (fun x hx => h x (mem_sorted.mp hx))
    (place_nonneg hne h0)

theorem quantile_raised {ws : List ℚ} (h : List.Forall₂ (· ≤ ·) values ws) : quantile values f ≤ quantile ws f := by
  have hlength : (sorted values).length = (sorted ws).length := by
    rw [length_sorted,length_sorted,h.length_eq]
  have hpos : 0 < (sorted values).length := List.length_pos_iff.mpr (sorted_ne_nil hne)
  have hentry : ∀ i, entry (sorted values) i ≤ entry (sorted ws) i := by
    intro i
    have hi : min i ((sorted values).length-1) < (sorted values).length := by omega
    have hi' : min i ((sorted values).length-1) < (sorted ws).length := hlength ▸ hi
    rw [entry,entry,← hlength,List.getD_eq_getElem _ _ hi,List.getD_eq_getElem _ _ hi']
    refine getElem_le_getElem (sorted_pairwise values) (sorted_pairwise ws) ?_ hi hi'
    intro t
    rw [(sorted_perm values).countP_eq,(sorted_perm ws).countP_eq]
    exact countP_le_of_forall₂ h t
  have hplace : place ws f = place values f := by
    rw [place,place,hlength]
  rw [quantile,quantile,hplace]
  exact interpolate_le hentry (place_nonneg hne h0)

end Values

theorem quantile_rank {values : List ℚ} {k : ℕ} (htwo : 2 ≤ values.length) (hk : k < values.length) :
    HasRank values k (quantile values (k/((values.length:ℚ)-1))) := by
  have hlt : k < (sorted values).length := by rwa [length_sorted]
  have hn : (values.length:ℚ)-1 ≠ 0 := by
    have htwo' : (2:ℚ) ≤ values.length := by
      exact_mod_cast htwo
    linarith
  have hplace : place values (k/((values.length:ℚ)-1)) = k := by
    rw [place,length_sorted,mul_div_cancel₀ _ hn]
  have hentry : entry (sorted values) k = (sorted values)[k] := by
    rw [entry,min_eq_left (by omega),List.getD_eq_getElem _ _ hlt]
  rw [quantile,hplace,interpolate_natCast,hentry]
  exact (hasRank_getElem (sorted_pairwise values) hlt).perm (sorted_perm values)

/-- A percentile is an interpolated quantile: no index is out of range, it does not fall with the fraction, it
lies between any bounds of the values, does not depend on their order, is a value of its rank where the
fraction points to one, and does not fall when values are raised. -/
theorem percentile_quantile {values : List ℚ} (hne : values ≠ []) :
    (∀ f g, 0 ≤ f → f ≤ g → g ≤ 1 →
      ∃ p q, percentile values f = .ok p ∧ percentile values g = .ok q ∧ p ≤ q) ∧
    ∀ f, 0 ≤ f → f ≤ 1 → ∃ p, percentile values f = .ok p ∧
      (∀ low high, (∀ x ∈ values, low ≤ x ∧ x ≤ high) → low ≤ p ∧ p ≤ high) ∧
      (∀ ws : List ℚ, ws.Perm values → percentile ws f = .ok p) ∧
      (∀ k, 2 ≤ values.length → k < values.length → f = k/((values.length:ℚ)-1) → HasRank values k p) ∧
      ∀ ws, List.Forall₂ (· ≤ ·) values ws → ∃ q, percentile ws f = .ok q ∧ p ≤ q := by
  constructor
  · intro f g h0 hfg h1
    exact ⟨_,_,percentile_eq hne h0 (hfg.trans h1),percentile_eq hne (h0.trans hfg) h1,quantile_mono hne h0 hfg⟩
  · intro f h0 h1
    refine ⟨quantile values f,percentile_eq hne h0 h1,fun low high h => quantile_bounds hne h0 h,?_,?_,?_⟩
    · intro ws hws
      have hne' : ws ≠ [] := fun h => hne (List.nil_perm.mp (h ▸ hws))
      rw [percentile_eq hne' h0 h1,place,sorted_eq_of_perm hws]
      rfl
    · rintro k htwo hk rfl
      exact quantile_rank htwo hk
    · intro ws hws
      have hne' : ws ≠ [] := by
        rintro rfl
        exact hne (List.forall₂_nil_right_iff.mp hws)
      exact ⟨_,percentile_eq hne' h0 h1,quantile_raised hne h0 hws⟩

/-- The middle one of three values, and it does not fall when another is raised. -/
theorem middle_of_three : ∃ p, percentile [3,1,2] (1/2) = .ok p ∧ HasRank [3,1,2] 1 p ∧
    ∃ q, percentile [3,4,2] (1/2) = .ok q ∧ p ≤ q := by
  obtain ⟨p,hp,-,-,hrank,hraised⟩ :=
    (@percentile_quantile [3,1,2] (List.cons_ne_nil _ _)).2 (1/2) (by norm_num) (by norm_num)
  refine ⟨p,hp,hrank 1 (by decide) (by decide) (by norm_num),hraised _ ?_⟩
  exact .cons le_rfl (.cons (by norm_num) (.cons le_rfl .nil))

end Oidc4acLab.Benchmark
