import Oidc4acLab.Collections.Lookup
import Mathlib.Data.List.Induction

/-! # Dictionaries of lists

A dictionary lists its entries in the order in which their keys were first stored.
`push` appends to the list under a key and creates it where there is none, so pushing
all members of a list groups them.
-/
namespace Oidc4acLab.Collections
variable {K V A : Type} [DecidableEq K]

def extend (d : List (K × List V)) (k : K) (v : V) : List (K × List V) :=
  d.map fun e => if e.1 = k then (k,e.2 ++ [v]) else e

/-- `d.setdefault(k, []).append(v)` -/
def push (d : List (K × List V)) (k : K) (v : V) : List (K × List V) :=
  if (d.lookup k).isSome then extend d k v else d ++ [(k,[v])]

def group (key : A → K) (value : A → V) (xs : List A) : List (K × List V) :=
  xs.foldl (fun d x => push d (key x) (value x)) []

def keys (d : List (K × List V)) : List K := d.map Prod.fst

theorem keys_extend (d : List (K × List V)) (k : K) (v : V) : keys (extend d k v) = keys d := by
  rw [keys,keys,extend,List.map_map]
  refine List.map_congr_left ?_
  intro e _
  by_cases h : e.1 = k
  · simp [h]
  · simp [h]

theorem lookup_extend (d : List (K × List V)) (k : K) (v : V) (k' : K) :
    (extend d k v).lookup k' = if k' = k then (d.lookup k).map (· ++ [v]) else d.lookup k' := by
  induction d with
  | nil => simp [extend]
  | cons e d ih =>
    rw [extend,List.map_cons,← extend,List.lookup_cons,List.lookup_cons,List.lookup_cons,ih]
    by_cases he : e.1 = k
    · subst he
      by_cases hk : k' = e.1
      · simp [hk]
      · simp [hk,beq_eq_false_iff_ne.mpr hk]
    · have he' : (k == e.1) = false := beq_eq_false_iff_ne.mpr (Ne.symm he)
      by_cases hk : k' = k
      · simp [hk,he,he']
      · simp [hk,he]

theorem lookup_push (d : List (K × List V)) (k : K) (v : V) (k' : K) :
    (push d k v).lookup k' = if k' = k then some ((d.lookup k).getD [] ++ [v]) else d.lookup k' := by
  rw [push]
  split_ifs with hs hk hk
  · obtain ⟨vs,hvs⟩ := Option.isSome_iff_exists.mp hs
    rw [lookup_extend,if_pos hk,hvs]
    rfl
  · rw [lookup_extend,if_neg hk]
  · have hnone := Option.not_isSome_iff_eq_none.mp hs
    rw [List.lookup_append,hk,hnone]
    simp
  · rw [List.lookup_append]
    cases hd : d.lookup k' with
    | some vs => rfl
    | none => simp [hk]

theorem keys_push (d : List (K × List V)) (k : K) (v : V) :
    keys (push d k v) = if k ∈ keys d then keys d else keys d ++ [k] := by
  rw [push]
  split_ifs with hs hk hk
  · exact keys_extend d k v
  · exact absurd (lookup_isSome_iff_mem.mp hs) hk
  · exact absurd (lookup_isSome_iff_mem.mpr hk) hs
  · simp [keys]

theorem nodup_keys_push {d : List (K × List V)} (h : (keys d).Nodup) (k : K) (v : V) :
    (keys (push d k v)).Nodup := by
  rw [keys_push]
  split_ifs with hk
  · exact h
  · exact List.nodup_append.mpr ⟨h,List.nodup_singleton k,by
      intro a ha b hb
      rw [List.mem_singleton.mp hb]
      rintro rfl
      exact hk ha⟩

theorem lookup_group (key : A → K) (value : A → V) (xs : List A) (k : K) :
    (group key value xs).lookup k =
      if xs.filter (fun x => key x = k) = [] then none
      else some ((xs.filter fun x => key x = k).map value) := by
  induction xs using List.reverseRecOn with
  | nil => rfl
  | append_singleton xs x ih =>
    rw [group,List.foldl_append,List.foldl_cons,List.foldl_nil,← group,lookup_push,
      List.filter_append]
    by_cases hk : k = key x
    · subst hk
      rw [if_pos rfl,ih]
      by_cases hnil : xs.filter (fun y => key y = key x) = []
      · simp [hnil]
      · simp [hnil]
    · have hx : ([x].filter fun y => key y = k) = [] := by simp [Ne.symm hk]
      rw [if_neg hk,ih,hx,List.append_nil]

theorem nodup_keys_group (key : A → K) (value : A → V) (xs : List A) :
    (keys (group key value xs)).Nodup := by
  induction xs using List.reverseRecOn with
  | nil => exact List.nodup_nil
  | append_singleton xs x ih =>
    rw [group,List.foldl_append,List.foldl_cons,List.foldl_nil,← group]
    exact nodup_keys_push ih (key x) (value x)

theorem mem_keys_group {key : A → K} {value : A → V} {xs : List A} {k : K} :
    k ∈ keys (group key value xs) ↔ ∃ x ∈ xs, key x = k := by
  rw [keys,← lookup_isSome_iff_mem,lookup_group]
  by_cases hnil : xs.filter (fun x => key x = k) = []
  · rw [if_pos hnil]
    simpa using List.filter_eq_nil_iff.mp hnil
  · rw [if_neg hnil]
    obtain ⟨x,hx⟩ := List.exists_mem_of_ne_nil _ hnil
    have hx' := List.mem_filter.mp hx
    simpa using ⟨x,hx'.1,by simpa using hx'.2⟩

theorem mem_group {key : A → K} {value : A → V} {xs : List A} {e : K × List V}
    (h : e ∈ group key value xs) :
    e.2 = (xs.filter fun x => key x = e.1).map value ∧ e.2 ≠ [] := by
  have hlookup := lookup_of_mem (nodup_keys_group key value xs) h
  rw [lookup_group] at hlookup
  split_ifs at hlookup with hnil
  have heq := Option.some.inj hlookup
  refine ⟨heq.symm,?_⟩
  rw [← heq]
  simpa using hnil

end Oidc4acLab.Collections
