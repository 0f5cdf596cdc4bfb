import Mathlib.Data.List.Nodup

/-! # Entries by key

What a lookup in a list of entries finds is an entry of the list, and every entry is found
where no key is repeated. Lookups commute with changes of the values and with filters on
the keys.
-/
namespace Oidc4acLab.Collections
variable {K V : Type} [BEq K] [LawfulBEq K]

theorem mem_of_lookup {d : List (K × V)} {k : K} {v : V} (h : d.lookup k = some v) : (k,v) ∈ d := by
  obtain ⟨l,r,rfl,-⟩ := List.lookup_eq_some_iff.mp h
  exact List.mem_append_right l List.mem_cons_self

theorem lookup_isSome_iff_mem {d : List (K × V)} {k : K} :
    (d.lookup k).isSome = true ↔ k ∈ d.map Prod.fst := by
  rw [List.lookup_isSome_iff,List.mem_map]
  exact exists_congr fun e => and_congr_right fun _ => beq_iff_eq.trans eq_comm

theorem lookup_of_mem {d : List (K × V)} (h : (d.map Prod.fst).Nodup) {e : K × V} (he : e ∈ d) :
    d.lookup e.1 = some e.2 := by
  obtain ⟨w,hw⟩ := Option.isSome_iff_exists.mp (lookup_isSome_iff_mem.mpr (List.mem_map_of_mem he))
  rw [hw,List.inj_on_of_nodup_map h he (mem_of_lookup hw) rfl]

theorem lookup_map {W : Type} (f : V → W) (d : List (K × V)) (k : K) :
    (d.map fun e => (e.1,f e.2)).lookup k = (d.lookup k).map f := by
  induction d with
  | nil => rfl
  | cons e d ih =>
    rw [List.map_cons,List.lookup_cons,List.lookup_cons,ih]
    by_cases h : k = e.1
    · simp [h]
    · simp [beq_eq_false_iff_ne.mpr h]

theorem lookup_filter (p : K → Bool) (d : List (K × V)) (k : K) :
    (d.filter fun e => p e.1).lookup k = if p k then d.lookup k else none := by
  induction d with
  | nil => simp
  | cons e d ih =>
    rw [List.filter_cons]
    by_cases hk : k = e.1
    · subst hk
      cases hp : p e.1 with
      | true => rw [if_pos rfl,if_pos rfl,List.lookup_cons,List.lookup_cons,beq_self_eq_true]
      | false =>
        rw [if_neg Bool.false_ne_true,ih,hp]
        rfl
    · have hne : (k == e.1) = false := beq_eq_false_iff_ne.mpr hk
      have hskip : (e :: d).lookup k = d.lookup k := by
        rw [List.lookup_cons,hne]
      rw [hskip,← ih]
      split_ifs
      · rw [List.lookup_cons,hne]
      · rfl

end Oidc4acLab.Collections
