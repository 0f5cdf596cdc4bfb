import Mathlib.Algebra.Order.Floor.Ring
import Mathlib.Algebra.Order.Field.Basic
import Mathlib.Data.List.GetD
import Mathlib.Tactic.Linarith
import Mathlib.Tactic.Ring

/-! # Interpolated order statistics

A sequence is read between its places by linear interpolation. Of a sequence that does
not fall, what is read does not fall with the position and stays between the two places
next to it. Adding a constant to the sequence adds it to what is read.
-/
namespace Oidc4acLab.Number
variable {K : Type}

section Entries
variable [Zero K]

def entry (xs : List K) (i : ℕ) : K := xs.getD (min i (xs.length-1)) 0

theorem entry_mem {xs : List K} (h : xs ≠ []) (i : ℕ) : entry xs i ∈ xs := by
  have hpos : 0 < xs.length := List.length_pos_iff.mpr h
  have hlt : min i (xs.length-1) < xs.length := by omega
  rw [entry,List.getD_eq_getElem _ _ hlt]
  exact List.getElem_mem hlt

theorem entry_map_add [Add K] {xs : List K} (h : xs ≠ []) (c : K) (i : ℕ) :
    entry (xs.map (· + c)) i = entry xs i+c := by
  have hpos : 0 < xs.length := List.length_pos_iff.mpr h
  have hlt : min i (xs.length-1) < xs.length := by omega
  have hlt' : min i (xs.length-1) < (xs.map (· + c)).length := by rwa [List.length_map]
  rw [entry,entry,List.length_map,List.getD_eq_getElem _ _ hlt,List.getD_eq_getElem _ _ hlt',List.getElem_map]

theorem entry_mono [LinearOrder K] {xs : List K} (h : xs.Pairwise (· ≤ ·)) : Monotone (entry xs) := by
  rcases eq_or_ne xs [] with rfl | hne
  · exact fun _ _ _ => le_rfl
  · intro i j hij
    have hpos : 0 < xs.length := List.length_pos_iff.mpr hne
    have hi : min i (xs.length-1) < xs.length := by omega
    have hj : min j (xs.length-1) < xs.length := by omega
    rw [entry,entry,List.getD_eq_getElem _ _ hi,List.getD_eq_getElem _ _ hj]
    rcases (show min i (xs.length-1) ≤ min j (xs.length-1) by omega).eq_or_lt with heq | hlt
    · simp only [heq,le_refl]
    · exact List.pairwise_iff_getElem.mp h _ _ hi hj hlt

end Entries

variable [Field K] [LinearOrder K] [FloorRing K]

def interpolate (f : ℕ → K) (x : K) : K := f ⌊x⌋₊+(f (⌊x⌋₊+1)-f ⌊x⌋₊)*(x-⌊x⌋₊)

theorem interpolate_natCast [IsStrictOrderedRing K] (f : ℕ → K) (k : ℕ) : interpolate f k = f k := by
  rw [interpolate,Nat.floor_natCast,sub_self,mul_zero,add_zero]

theorem interpolate_add (f : ℕ → K) (c x : K) : interpolate (fun i => f i+c) x = interpolate f x+c := by
  rw [interpolate,interpolate]
  ring

variable [IsStrictOrderedRing K]

theorem interpolate_between {f : ℕ → K} (hf : Monotone f) {x : K} (hx : 0 ≤ x) :
    f ⌊x⌋₊ ≤ interpolate f x ∧ interpolate f x ≤ f (⌊x⌋₊+1) := by
  have hstep : 0 ≤ f (⌊x⌋₊+1)-f ⌊x⌋₊ := sub_nonneg.mpr (hf (Nat.le_succ _))
  have hlow : 0 ≤ x-⌊x⌋₊ := sub_nonneg.mpr (Nat.floor_le hx)
  have hhigh : x-⌊x⌋₊ ≤ 1 := by
    have h := Nat.lt_floor_add_one x
    linarith
  rw [interpolate]
  refine ⟨le_add_of_nonneg_right (mul_nonneg hstep hlow),?_⟩
  have h := mul_le_of_le_one_right hstep hhigh
  linarith

theorem interpolate_le {f g : ℕ → K} (hfg : ∀ i, f i ≤ g i) {x : K} (hx : 0 ≤ x) :
    interpolate f x ≤ interpolate g x := by
  have hlow : 0 ≤ x-⌊x⌋₊ := sub_nonneg.mpr (Nat.floor_le hx)
  have hhigh : 0 ≤ 1-(x-⌊x⌋₊) := by
    have h := Nat.lt_floor_add_one x
    linarith
  have hweights : ∀ f : ℕ → K, interpolate f x = f ⌊x⌋₊*(1-(x-⌊x⌋₊))+f (⌊x⌋₊+1)*(x-⌊x⌋₊) := by
    intro f
    rw [interpolate]
    ring
  rw [hweights,hweights]
  exact add_le_add (mul_le_mul_of_nonneg_right (hfg _) hhigh) (mul_le_mul_of_nonneg_right (hfg _) hlow)

theorem interpolate_mono {f : ℕ → K} (hf : Monotone f) {x y : K} (hx : 0 ≤ x) (hxy : x ≤ y) :
    interpolate f x ≤ interpolate f y := by
  rcases (Nat.floor_le_floor hxy).eq_or_lt with heq | hlt
  · have hstep : 0 ≤ f (⌊x⌋₊+1)-f ⌊x⌋₊ := sub_nonneg.mpr (hf (Nat.le_succ _))
    rw [interpolate,interpolate,← heq]
    have h := mul_le_mul_of_nonneg_left (sub_le_sub_right hxy (⌊x⌋₊:K)) hstep
    linarith
  · calc interpolate f x ≤ f (⌊x⌋₊+1) := (interpolate_between hf hx).2
      _ ≤ f ⌊y⌋₊ := hf hlt
      _ ≤ interpolate f y := (interpolate_between hf (hx.trans hxy)).1

/-- What is read between the entries of a list that does not fall is between its bounds. -/
theorem interpolate_entry_bounds {xs : List K} (hne : xs ≠ []) (h : xs.Pairwise (· ≤ ·)) {low high : K}
    (hbounds : ∀ x ∈ xs, low ≤ x ∧ x ≤ high) {x : K} (hx : 0 ≤ x) :
    low ≤ interpolate (entry xs) x ∧ interpolate (entry xs) x ≤ high := by
  have hbetween := interpolate_between (entry_mono h) hx
  exact ⟨(hbounds _ (entry_mem hne _)).1.trans hbetween.1,hbetween.2.trans (hbounds _ (entry_mem hne _)).2⟩

end Oidc4acLab.Number
