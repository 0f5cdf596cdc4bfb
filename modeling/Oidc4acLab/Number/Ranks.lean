import Mathlib.Data.List.Forall2
import Mathlib.Order.Lattice

/-! # Ranks in a list

Values of a list are counted that a predicate holds of. Where it holds of everything
smaller as well, these come first in a list that does not fall. Of two lists the one with
no more values up to any bound has no smaller value at any place of its ascending order.
-/
namespace Oidc4acLab.Number
variable {K : Type} [LinearOrder K]

/-- The value of this rank, from zero, among the values of the list. -/
structure HasRank (xs : List K) (k : ℕ) (x : K) : Prop where
  mem : x ∈ xs
  below : xs.countP (· < x) ≤ k
  upTo : k < xs.countP (· ≤ x)

theorem HasRank.perm {xs ys : List K} {k : ℕ} {x : K} (h : HasRank xs k x) (hxy : xs.Perm ys) : HasRank ys k x := by
  refine ⟨hxy.mem_iff.mp h.mem,?_,?_⟩
  · rw [← hxy.countP_eq]
    exact h.below
  · rw [← hxy.countP_eq]
    exact h.upTo

section Ascending
variable {xs ys : List K} (hxs : xs.Pairwise (· ≤ ·))
include hxs

theorem getElem_iff_lt_countP {p : K → Bool} (hp : ∀ x y, x ≤ y → p y = true → p x = true) {i : ℕ}
    (hi : i < xs.length) : p xs[i] = true ↔ i < xs.countP p := by
  induction xs generalizing i with
  | nil => cases hi
  | cons x xs ih =>
    obtain ⟨hx,hxs⟩ := List.pairwise_cons.mp hxs
    by_cases h : p x = true
    · rw [List.countP_cons_of_pos h]
      cases i with
      | zero => exact iff_of_true h (Nat.succ_pos _)
      | succ i =>
        rw [List.getElem_cons_succ,ih hxs (Nat.lt_of_succ_lt_succ hi),Nat.succ_lt_succ_iff]
    · have hnone : ∀ y ∈ x :: xs, ¬ p y = true := by
        intro y hy hpy
        rcases List.mem_cons.mp hy with rfl | hy
        · exact h hpy
        · exact h (hp x y (hx y hy) hpy)
      rw [List.countP_eq_zero.mpr hnone]
      exact iff_of_false (hnone _ (List.getElem_mem hi)) (Nat.not_lt_zero i)

theorem getElem_le_iff {i : ℕ} (hi : i < xs.length) (t : K) : xs[i] ≤ t ↔ i < xs.countP (· ≤ t) := by
  have h := getElem_iff_lt_countP hxs (p := fun x => decide (x ≤ t))
    (fun x y hxy hy => decide_eq_true (le_trans hxy (of_decide_eq_true hy))) hi
  rwa [decide_eq_true_iff] at h

theorem getElem_lt_iff {i : ℕ} (hi : i < xs.length) (t : K) : xs[i] < t ↔ i < xs.countP (· < t) := by
  have h := getElem_iff_lt_countP hxs (p := fun x => decide (x < t))
    (fun x y hxy hy => decide_eq_true (lt_of_le_of_lt hxy (of_decide_eq_true hy))) hi
  rwa [decide_eq_true_iff] at h

theorem hasRank_getElem {i : ℕ} (hi : i < xs.length) : HasRank xs i xs[i] := by
  refine ⟨List.getElem_mem hi,?_,?_⟩
  · exact Nat.le_of_not_lt fun h => lt_irrefl _ ((getElem_lt_iff hxs hi xs[i]).mpr h)
  · exact (getElem_le_iff hxs hi xs[i]).mp le_rfl

theorem getElem_le_getElem (hys : ys.Pairwise (· ≤ ·)) (h : ∀ t, ys.countP (· ≤ t) ≤ xs.countP (· ≤ t)) {i : ℕ}
    (hi : i < xs.length) (hi' : i < ys.length) : xs[i] ≤ ys[i] := by
  rw [getElem_le_iff hxs hi]
  exact Nat.lt_of_lt_of_le ((getElem_le_iff hys hi' ys[i]).mp le_rfl) (h _)

end Ascending

theorem countP_le_of_forall₂ {xs ys : List K} (h : List.Forall₂ (· ≤ ·) xs ys) (t : K) :
    ys.countP (· ≤ t) ≤ xs.countP (· ≤ t) := by
  induction h with
  | nil => exact Nat.le_refl _
  | @cons x y xs ys hxy _ ih =>
    rw [List.countP_cons,List.countP_cons]
    refine Nat.add_le_add ih ?_
    simp only [decide_eq_true_iff]
    split_ifs with hy hx
    · exact Nat.le_refl 1
    · exact absurd (le_trans hxy hy) hx
    · exact Nat.zero_le 1
    · exact Nat.le_refl 0

end Oidc4acLab.Number
