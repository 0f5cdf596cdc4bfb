import Mathlib.Data.List.Basic
import Mathlib.Data.Nat.Notation
import Mathlib.Tactic.Common

/-! # Splitting at a separator

A list has one more part than it has separators. Splitting it a bounded number of times
gives the same parts if it has no more separators than that.
-/
namespace Oidc4acLab.Collections
variable {A : Type} [DecidableEq A]

/-- `text.split(separator, limit)` -/
def splitMax (c : A) : ℕ → List A → List (List A)
  | 0, t => [t]
  | _+1, [] => [[]]
  | n+1, x :: t => if x = c then [] :: splitMax c n t else (splitMax c (n+1) t).modifyHead (x :: ·)

theorem length_splitOn (c : A) (t : List A) : (t.splitOn c).length = t.count c+1 := by
  induction t with
  | nil => rfl
  | cons x t ih =>
    rw [List.splitOn_cons_eq_if_modifyHead]
    by_cases hx : x = c
    · rw [if_pos (beq_iff_eq.mpr hx),List.length_cons,ih,hx,List.count_cons_self]
    · rw [if_neg (by simpa using hx),List.length_modifyHead,ih,List.count_cons_of_ne hx]

theorem splitMax_eq_splitOn {c : A} {n : ℕ} {t : List A} (h : t.count c ≤ n) : splitMax c n t = t.splitOn c := by
  fun_induction splitMax c n t with
  | case1 t =>
    have hc : c ∉ t := List.count_eq_zero.mp (Nat.le_zero.mp h)
    exact (List.splitOn_eq_singleton hc).symm
  | case2 n => rfl
  | case3 n t ih =>
    rw [List.count_cons_self] at h
    rw [List.splitOn_cons_eq_if_modifyHead,if_pos (beq_self_eq_true c),ih (by omega)]
  | case4 n x t hx ih =>
    rw [List.count_cons_of_ne hx] at h
    rw [List.splitOn_cons_eq_if_modifyHead,if_neg (by simpa using hx),ih h]

theorem splitOn_join {c : A} {h p s : List A} (hh : c ∉ h) (hp : c ∉ p) (hs : c ∉ s) :
    (h ++ c :: (p ++ c :: s)).splitOn c = [h,p,s] := by
  rw [List.splitOn_append_cons_self,List.splitOn_append_cons_self,List.splitOn_eq_singleton hh,
    List.splitOn_eq_singleton hp,List.splitOn_eq_singleton hs]
  rfl

end Oidc4acLab.Collections
