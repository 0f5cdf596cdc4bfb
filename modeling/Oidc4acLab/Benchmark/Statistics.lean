import Oidc4acLab.Benchmark.Analyze
import Oidc4acLab.Number.Interpolation
import Mathlib.Algebra.Order.BigOperators.Group.List
import Mathlib.Algebra.Order.Field.Rat
import Mathlib.Data.List.Sort

/-! # Statistics of values that are there

A mean, a median and a percentile of at least one value do not fail. A percentile is read
between the sorted values, and samples are averaged by round.
-/
namespace Oidc4acLab.Benchmark
open Collections Fallible Number

def average (values : List ℚ) : ℚ := values.sum/values.length

theorem mean_ok {values : List ℚ} (h : values ≠ []) : mean values = .ok (average values) := by
  rw [mean,if_neg h,average]

theorem mean_eq_ok {values : List ℚ} {m : ℚ} : mean values = .ok m ↔ values ≠ [] ∧ average values = m := by
  rw [mean,ite_eq_ok,Except.ok.injEq,average]

theorem average_bounds {values : List ℚ} (hne : values ≠ []) {least greatest : ℚ}
    (h : ∀ x ∈ values, least ≤ x ∧ x ≤ greatest) : least ≤ average values ∧ average values ≤ greatest := by
  have hpos : (0:ℚ) < values.length := by
    exact_mod_cast List.length_pos_iff.mpr hne
  have hlow := List.card_nsmul_le_sum values least fun x hx => (h x hx).1
  have hhigh := List.sum_le_card_nsmul values greatest fun x hx => (h x hx).2
  rw [nsmul_eq_mul] at hlow hhigh
  rw [average,le_div_iff₀ hpos,div_le_iff₀ hpos,mul_comm least,mul_comm greatest]
  exact ⟨hlow,hhigh⟩

theorem average_map_add {values : List ℚ} (hne : values ≠ []) (c : ℚ) :
    average (values.map (· + c)) = average values+c := by
  have hpos : (values.length:ℚ) ≠ 0 := by
    exact_mod_cast (List.length_pos_iff.mpr hne).ne'
  rw [average,average,List.length_map,List.sum_map_add,List.map_id',List.map_const',List.sum_replicate,nsmul_eq_mul,
    add_div,mul_div_cancel_left₀ c hpos]

theorem roundMeans_grouped (samples : List Sample) (metric : Metric) : roundMeans samples metric =
    .ok ((group Sample.round (fun s => s.measured metric) samples).map fun e => (e.1,average e.2)) := by
  refine mapM_eq_ok.mpr ?_
  rw [List.forall₂_map_right_iff,List.forall₂_same]
  intro e he
  rw [mean_ok (mem_group he).2]
  rfl

theorem item_ok {A : Type} {xs : List A} {i : ℕ} (h : i < xs.length) : item xs i = .ok xs[i] := by
  rw [item,List.getElem?_eq_getElem h]

theorem length_sorted (values : List ℚ) : (sorted values).length = values.length :=
  List.length_mergeSort values

theorem sorted_pairwise (values : List ℚ) : (sorted values).Pairwise (· ≤ ·) :=
  List.pairwise_mergeSort' (· ≤ ·) values

theorem mem_sorted {values : List ℚ} {x : ℚ} : x ∈ sorted values ↔ x ∈ values := List.mem_mergeSort

theorem sorted_ne_nil {values : List ℚ} (h : values ≠ []) : sorted values ≠ [] := by
  rw [← List.length_pos_iff,length_sorted]
  exact List.length_pos_iff.mpr h

theorem sorted_map_add (values : List ℚ) (c : ℚ) : sorted (values.map (· + c)) = (sorted values).map (· + c) := by
  rw [sorted,sorted,List.map_mergeSort]
  intro a _ b _
  simp

theorem median_ok {values : List ℚ} (h : values ≠ []) : ∃ m, median values = .ok m := by
  have hlen := length_sorted values
  have hpos : 0 < values.length := List.length_pos_iff.mpr h
  simp only [median]
  rw [if_neg (by omega)]
  split_ifs with hodd
  · exact ⟨_,item_ok (by omega)⟩
  · exact ⟨_,bind_eq_ok.mpr ⟨_,item_ok (by omega),bind_eq_ok.mpr ⟨_,item_ok (by omega),rfl⟩⟩⟩

def place (values : List ℚ) (fraction : ℚ) : ℚ := ((sorted values).length-1)*fraction

theorem place_nonneg {values : List ℚ} (h : values ≠ []) {fraction : ℚ} (h0 : 0 ≤ fraction) :
    0 ≤ place values fraction := by
  have hn : (1:ℚ) ≤ (sorted values).length := by
    exact_mod_cast List.length_pos_iff.mpr (sorted_ne_nil h)
  exact mul_nonneg (sub_nonneg.mpr hn) h0

theorem percentile_eq {values : List ℚ} (h : values ≠ []) {fraction : ℚ} (h0 : 0 ≤ fraction) (h1 : fraction ≤ 1) :
    percentile values fraction = .ok (interpolate (entry (sorted values)) (place values fraction)) := by
  have hplace := place_nonneg h h0
  have hpos : 0 < (sorted values).length := List.length_pos_iff.mpr (sorted_ne_nil h)
  have hlower : ⌊place values fraction⌋₊ < (sorted values).length := by
    have hn : (1:ℚ) ≤ (sorted values).length := by
      exact_mod_cast hpos
    have hle : place values fraction ≤ (sorted values).length-1 :=
      mul_le_of_le_one_right (sub_nonneg.mpr hn) h1
    exact (Nat.floor_lt hplace).mpr (by linarith)
  have hread : ∀ i, item (sorted values) (min i ((sorted values).length-1)) = .ok (entry (sorted values) i) := by
    intro i
    have hlt : min i ((sorted values).length-1) < (sorted values).length := by omega
    rw [item_ok hlt,entry,List.getD_eq_getElem _ _ hlt]
  have hfirst : item (sorted values) ⌊place values fraction⌋₊ =
      .ok (entry (sorted values) ⌊place values fraction⌋₊) := by
    have h := hread ⌊place values fraction⌋₊
    rwa [min_eq_left (by omega)] at h
  simp only [percentile,Int.floor_toNat]
  exact bind_eq_ok.mpr ⟨_,hfirst,bind_eq_ok.mpr ⟨_,hread _,rfl⟩⟩

end Oidc4acLab.Benchmark
