import Mathlib.Algebra.BigOperators.Group.List.Basic
import Mathlib.Algebra.Order.Ring.Nat
import Mathlib.Data.List.Induction
import Mathlib.Data.Nat.Notation

/-! # Dictionaries

A dictionary lists its entries in the order in which their keys were first stored, and keys
that are equal need not be the same. Storing under a key that is there replaces its value
and keeps the key. Weights of values add up to no more than they do in the list that was
collected, and to as much exactly where no key of the list is repeated.
-/
namespace Oidc4acLab.Collections

abbrev Dictionary (K V : Type) := List (K × V)

namespace Dictionary
variable {K V : Type} [BEq K]

/-- `d[key] = value` -/
def put : Dictionary K V → K × V → Dictionary K V
  | [], m => [m]
  | e :: d, m => if e.1 == m.1 then (e.1,m.2) :: d else e :: put d m

/-- `{key: value for key, value in es}` -/
def collect (es : List (K × V)) : Dictionary K V := es.foldl put []

def Holds (d : Dictionary K V) (k : K) : Prop := ∃ e ∈ d, (e.1 == k) = true

def Unrepeated (es : List (K × V)) : Prop := es.Pairwise fun e e' => (e.1 == e'.1) = false

def weight (f : V → ℕ) (d : Dictionary K V) : ℕ := (d.map fun e => f e.2).sum

theorem holds_cons {e : K × V} {d : Dictionary K V} {k : K} : Holds (e :: d) k ↔ (e.1 == k) = true ∨ Holds d k := by
  simp [Holds]

omit [BEq K] in
theorem weight_cons (f : V → ℕ) (e : K × V) (d : Dictionary K V) : weight f (e :: d) = f e.2+weight f d := by
  simp [weight]

omit [BEq K] in
theorem weight_append (f : V → ℕ) (d d' : Dictionary K V) : weight f (d ++ d') = weight f d+weight f d' := by
  simp [weight]

theorem collect_append (es : List (K × V)) (m : K × V) : collect (es ++ [m]) = put (collect es) m := by
  rw [collect,List.foldl_append,List.foldl_cons,List.foldl_nil,← collect]

theorem put_of_not_holds {d : Dictionary K V} {m : K × V} (h : ¬ Holds d m.1) : put d m = d ++ [m] := by
  induction d with
  | nil => rfl
  | cons e d ih =>
    rw [holds_cons,not_or] at h
    rw [put,if_neg h.1,ih h.2,List.cons_append]

omit [BEq K] in
theorem weight_one (d : Dictionary K V) : weight (fun _ => 1) d = d.length := by
  induction d with
  | nil => rfl
  | cons e d ih =>
    rw [weight_cons,ih,List.length_cons]
    omega

omit [BEq K] in
theorem weight_add_one (d : Dictionary K ℕ) : weight (·+1) d = (d.map Prod.snd).sum+d.length := by
  induction d with
  | nil => rfl
  | cons e d ih =>
    rw [weight_cons,ih,List.map_cons,List.sum_cons,List.length_cons]
    omega

theorem unrepeated_congr {K' V' : Type} [BEq K'] {f : K' → K} (hf : ∀ k k', (f k == f k') = (k == k'))
    {es : List (K × V)} {es' : List (K' × V')} (h : es.map Prod.fst = es'.map fun e => f e.1) :
    Unrepeated es ↔ Unrepeated es' := by
  have hkeys : Unrepeated es ↔ (es.map Prod.fst).Pairwise fun k k' => (k == k') = false := by
    rw [Unrepeated,List.pairwise_map]
  rw [hkeys,h,List.pairwise_map]
  simp only [hf,Unrepeated]

theorem weight_put_lt {f : V → ℕ} (hf : ∀ v, 0 < f v) {d : Dictionary K V} {m : K × V} (h : Holds d m.1) :
    weight f (put d m) < weight f d+f m.2 := by
  induction d with
  | nil =>
    obtain ⟨e,he,-⟩ := h
    cases he
  | cons e d ih =>
    have he := hf e.2
    rw [put]
    split_ifs with heq
    · have hnew : weight f ((e.1,m.2) :: d) = f m.2+weight f d := weight_cons f (e.1,m.2) d
      rw [hnew,weight_cons]
      omega
    · have hlt := ih ((holds_cons.mp h).resolve_left heq)
      rw [weight_cons,weight_cons]
      omega

variable [EquivBEq K]

theorem holds_put {d : Dictionary K V} {m : K × V} {k : K} : Holds (put d m) k ↔ Holds d k ∨ (m.1 == k) = true := by
  induction d with
  | nil => simp [put,Holds]
  | cons e d ih =>
    rw [put]
    split_ifs with heq
    · rw [holds_cons,holds_cons,BEq.congr_left heq]
      tauto
    · rw [holds_cons,holds_cons,ih,or_assoc]

theorem holds_collect {es : List (K × V)} {k : K} : Holds (collect es) k ↔ Holds es k := by
  induction es using List.reverseRecOn with
  | nil => rfl
  | append_singleton es m ih =>
    rw [collect_append,holds_put,ih]
    simp [Holds,or_and_right,exists_or]

omit [EquivBEq K] in
theorem unrepeated_append {es : List (K × V)} {m : K × V} :
    Unrepeated (es ++ [m]) ↔ Unrepeated es ∧ ¬ Holds es m.1 := by
  rw [Unrepeated,List.pairwise_append]
  simp [Unrepeated,Holds]

theorem weight_collect {f : V → ℕ} (hf : ∀ v, 0 < f v) (es : List (K × V)) :
    weight f (collect es) ≤ weight f es ∧ (weight f (collect es) = weight f es ↔ Unrepeated es) := by
  induction es using List.reverseRecOn with
  | nil => exact ⟨le_rfl,iff_of_true rfl List.Pairwise.nil⟩
  | append_singleton es m ih =>
    obtain ⟨hle,heq⟩ := ih
    have hlast : weight f [m] = f m.2 := by simp [weight]
    rw [collect_append,unrepeated_append,weight_append,hlast]
    by_cases h : Holds es m.1
    · have hlt := weight_put_lt hf (holds_collect.mpr h)
      exact ⟨by omega,iff_of_false (by omega) fun hun => hun.2 h⟩
    · rw [put_of_not_holds (mt holds_collect.mp h),weight_append,hlast,Nat.add_right_cancel_iff,heq]
      exact ⟨by omega,(and_iff_left h).symm⟩

omit [EquivBEq K] in
theorem lookup_put [LawfulBEq K] (d : Dictionary K V) (m : K × V) (k : K) :
    (put d m).lookup k = if k == m.1 then some m.2 else d.lookup k := by
  induction d with
  | nil =>
    rw [put,List.lookup_cons]
    cases k == m.1 <;> rfl
  | cons e d ih =>
    by_cases he : (e.1 == m.1) = true
    · rw [put,if_pos he,List.lookup_cons,List.lookup_cons,eq_of_beq he]
      cases k == m.1 <;> rfl
    · rw [put,if_neg he,List.lookup_cons,List.lookup_cons,ih]
      cases hk : k == e.1 with
      | false => rfl
      | true =>
        have hne : (k == m.1) = false := beq_eq_false_iff_ne.mpr fun h =>
          he (beq_iff_eq.mpr ((eq_of_beq hk).symm.trans h))
        rw [hne]
        rfl

end Dictionary
end Oidc4acLab.Collections
