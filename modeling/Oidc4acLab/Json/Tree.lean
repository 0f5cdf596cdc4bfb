import Oidc4acLab.Text.CodeUnits
import Mathlib.Data.List.Nodup
import Mathlib.Data.List.Perm.Subperm

/-! # JSON trees

Arrays and objects over leaves of any kind: a literal of a text, a scalar of a program
or the number that both denote. A program that keeps one member of each name gets the
collapsed tree, where a later member replaces the value of an earlier one.
-/
namespace Oidc4acLab

inductive Tree (α : Type)
  | leaf (a : α)
  | arr (items : List (Tree α))
  | obj (members : List (Text × Tree α))

namespace Tree
variable {α β γ : Type}

section Induction
set_option linter.unusedSectionVars false
variable {motive : Tree α → Prop} (leaf : ∀ a, motive (.leaf a))
  (arr : ∀ items, (∀ t ∈ items, motive t) → motive (.arr items))
  (obj : ∀ members, (∀ m ∈ members, motive m.2) → motive (.obj members))
include leaf arr obj

mutual

theorem induct_tree : ∀ t : Tree α, motive t
  | .leaf a => leaf a
  | .arr items => arr items (induct_items items)
  | .obj members => obj members (induct_members members)

theorem induct_items : ∀ (items : List (Tree α)) (u : Tree α), u ∈ items → motive u
  | [], _, h => absurd h List.not_mem_nil
  | t :: items, u, h =>
    (List.mem_cons.mp h).elim (fun heq => heq ▸ induct_tree t) (induct_items items u)

theorem induct_members : ∀ (members : List (Text × Tree α)) (m : Text × Tree α), m ∈ members → motive m.2
  | [], _, h => absurd h List.not_mem_nil
  | (_,t) :: members, m, h =>
    (List.mem_cons.mp h).elim (fun heq => heq ▸ induct_tree t) (induct_members members m)

end

/-- Induction with one hypothesis for all items or members of a tree. -/
@[induction_eliminator] theorem induct (t : Tree α) : motive t := induct_tree leaf arr obj t

end Induction

mutual

def map (f : α → β) : Tree α → Tree β
  | .leaf a => .leaf (f a)
  | .arr items => .arr (mapItems f items)
  | .obj members => .obj (mapMembers f members)

def mapItems (f : α → β) : List (Tree α) → List (Tree β)
  | [] => []
  | t :: items => map f t :: mapItems f items

def mapMembers (f : α → β) : List (Text × Tree α) → List (Text × Tree β)
  | [] => []
  | (name,t) :: members => (name,map f t) :: mapMembers f members

end

@[simp] theorem map_leaf (f : α → β) (a : α) : map f (.leaf a) = .leaf (f a) := by
  rw [map]

@[simp] theorem map_arr (f : α → β) (items : List (Tree α)) :
    map f (.arr items) = .arr (items.map (map f)) := by
  have h : mapItems f items = items.map (map f) := by
    induction items with
    | nil => rw [mapItems,List.map_nil]
    | cons t items ih => rw [mapItems,List.map_cons,ih]
  rw [map,h]

@[simp] theorem map_obj (f : α → β) (members : List (Text × Tree α)) :
    map f (.obj members) = .obj (members.map fun m => (m.1,map f m.2)) := by
  have h : mapMembers f members = members.map fun m => (m.1,map f m.2) := by
    induction members with
    | nil => rw [mapMembers,List.map_nil]
    | cons m members ih => rw [mapMembers,List.map_cons,ih]
  rw [map,h]

theorem map_map (g : β → γ) (f : α → β) (t : Tree α) : (t.map f).map g = t.map (g ∘ f) := by
  induction t with
  | leaf a => simp
  | arr items ih =>
    simp only [map_arr,List.map_map]
    exact congrArg Tree.arr (List.map_congr_left ih)
  | obj members ih =>
    simp only [map_obj,List.map_map]
    refine congrArg Tree.obj (List.map_congr_left ?_)
    intro m hm
    simp [ih m hm]

/-- `d[name] = value`: the position of a name is that of its first member. -/
def store : List (Text × Tree α) → Text × Tree α → List (Text × Tree α)
  | [], m => [m]
  | e :: d, m => if e.1 = m.1 then m :: d else e :: store d m

def storeAll (ms : List (Text × Tree α)) : List (Text × Tree α) := ms.foldl store []

theorem mem_store {d : List (Text × Tree α)} {m e : Text × Tree α} (h : e ∈ store d m) : e = m ∨ e ∈ d := by
  induction d with
  | nil => exact Or.inl (List.mem_singleton.mp h)
  | cons a d ih =>
    rw [store] at h
    split_ifs at h with ha
    · exact (List.mem_cons.mp h).imp_right (List.mem_cons_of_mem a)
    · rcases List.mem_cons.mp h with rfl | h
      · exact Or.inr List.mem_cons_self
      · exact (ih h).imp_right (List.mem_cons_of_mem a)

theorem names_store (d : List (Text × Tree α)) (m : Text × Tree α) :
    (store d m).map Prod.fst = if m.1 ∈ d.map Prod.fst then d.map Prod.fst else d.map Prod.fst ++ [m.1] := by
  induction d with
  | nil => simp [store]
  | cons a d ih =>
    rw [store]
    by_cases ha : a.1 = m.1
    · simp [ha]
    · simp only [if_neg ha,List.map_cons,ih,List.mem_cons,Ne.symm ha,false_or]
      split <;> simp

theorem store_of_notMem {d : List (Text × Tree α)} {m : Text × Tree α} (h : m.1 ∉ d.map Prod.fst) :
    store d m = d ++ [m] := by
  induction d with
  | nil => simp [store]
  | cons a d ih =>
    simp only [List.map_cons,List.mem_cons,not_or] at h
    rw [store,if_neg (Ne.symm h.1),ih h.2,List.cons_append]

theorem store_map (f : Tree α → Tree β) (d : List (Text × Tree α)) (m : Text × Tree α) :
    store (d.map fun e => (e.1,f e.2)) (m.1,f m.2) = (store d m).map fun e => (e.1,f e.2) := by
  induction d with
  | nil => simp [store]
  | cons a d ih =>
    simp only [List.map_cons,store]
    split_ifs
    · simp
    · simp [ih]

theorem storeAll_append (ms : List (Text × Tree α)) (m : Text × Tree α) :
    storeAll (ms ++ [m]) = store (storeAll ms) m := by
  rw [storeAll,List.foldl_append,List.foldl_cons,List.foldl_nil,← storeAll]

theorem mem_storeAll {ms : List (Text × Tree α)} {e : Text × Tree α} (h : e ∈ storeAll ms) : e ∈ ms := by
  induction ms using List.reverseRecOn with
  | nil => exact h
  | append_singleton ms m ih =>
    rw [storeAll_append] at h
    rcases mem_store h with rfl | h
    · exact List.mem_append_right _ List.mem_cons_self
    · exact List.mem_append_left _ (ih h)

theorem nodup_storeAll (ms : List (Text × Tree α)) : ((storeAll ms).map Prod.fst).Nodup := by
  induction ms using List.reverseRecOn with
  | nil => exact List.nodup_nil
  | append_singleton ms m ih =>
    rw [storeAll_append,names_store]
    split_ifs with h
    · exact ih
    · exact List.nodup_append.mpr ⟨ih,List.nodup_singleton _,by
        intro a ha b hb
        rw [List.mem_singleton.mp hb]
        rintro rfl
        exact h ha⟩

theorem storeAll_of_nodup {ms : List (Text × Tree α)} (h : (ms.map Prod.fst).Nodup) : storeAll ms = ms := by
  induction ms using List.reverseRecOn with
  | nil => rfl
  | append_singleton ms m ih =>
    rw [List.map_append,List.nodup_append] at h
    rw [storeAll_append,ih h.1,store_of_notMem]
    intro hm
    exact h.2.2 m.1 hm m.1 (by simp) rfl

theorem storeAll_map (f : Tree α → Tree β) (ms : List (Text × Tree α)) :
    storeAll (ms.map fun m => (m.1,f m.2)) = (storeAll ms).map fun m => (m.1,f m.2) := by
  induction ms using List.reverseRecOn with
  | nil => rfl
  | append_singleton ms m ih =>
    rw [List.map_append,List.map_singleton,storeAll_append,ih,store_map,storeAll_append]

theorem mem_names_storeAll {ms : List (Text × Tree α)} {name : Text} :
    name ∈ (storeAll ms).map Prod.fst ↔ name ∈ ms.map Prod.fst := by
  induction ms using List.reverseRecOn with
  | nil => rfl
  | append_singleton ms m ih =>
    rw [storeAll_append,names_store,List.map_append,List.map_singleton,List.mem_append,← ih]
    split_ifs with hm
    · refine (or_iff_left_of_imp ?_).symm
      intro h
      rwa [List.mem_singleton.mp h]
    · rw [List.mem_append]

theorem mem_storeAll_map {names : List Text} {f : Text → Tree α} {e : Text × Tree α} :
    e ∈ storeAll (names.map fun name => (name,f name)) ↔ e.1 ∈ names ∧ e.2 = f e.1 := by
  constructor
  · intro h
    obtain ⟨name,hname,rfl⟩ := List.mem_map.mp (mem_storeAll h)
    exact ⟨hname,rfl⟩
  · rintro ⟨hname,hvalue⟩
    have hstored : e.1 ∈ (storeAll (names.map fun name => (name,f name))).map Prod.fst :=
      mem_names_storeAll.mpr (List.mem_map.mpr ⟨_,List.mem_map.mpr ⟨_,hname,rfl⟩,rfl⟩)
    obtain ⟨e',he',hfst⟩ := List.mem_map.mp hstored
    obtain ⟨name,-,rfl⟩ := List.mem_map.mp (mem_storeAll he')
    have heq : e = (name,f name) := Prod.ext hfst.symm (hvalue.trans (congrArg f hfst.symm))
    rw [heq]
    exact he'

/-- Two loops over the same names store the same exactly if they store the same under each name. -/
theorem storeAll_map_eq_iff {names : List Text} {f g : Text → Tree α} :
    storeAll (names.map fun name => (name,f name)) = storeAll (names.map fun name => (name,g name)) ↔
      ∀ name ∈ names, f name = g name := by
  constructor
  · intro h name hname
    have hmem : (name,f name) ∈ storeAll (names.map fun name => (name,f name)) := mem_storeAll_map.mpr ⟨hname,rfl⟩
    rw [h] at hmem
    exact (mem_storeAll_map.mp hmem).2
  · intro h
    refine congrArg storeAll (List.map_congr_left ?_)
    intro name hname
    rw [h name hname]

theorem storeAll_eq_nil {ms : List (Text × Tree α)} : storeAll ms = [] ↔ ms = [] := by
  constructor
  · intro h
    by_contra hne
    obtain ⟨m,ms',rfl⟩ := List.exists_cons_of_ne_nil hne
    have hmem := mem_names_storeAll.mpr (List.mem_map_of_mem (f := Prod.fst) (List.mem_cons_self : m ∈ m :: ms'))
    rw [h] at hmem
    cases hmem
  · rintro rfl
    rfl

theorem nodup_of_length_storeAll {ms : List (Text × Tree α)} (h : (storeAll ms).length = ms.length) :
    (ms.map Prod.fst).Nodup := by
  have hsub : (storeAll ms).map Prod.fst ⊆ ms.map Prod.fst := by
    intro name hname
    obtain ⟨m,hm,rfl⟩ := List.mem_map.mp hname
    exact List.mem_map.mpr ⟨m,mem_storeAll hm,rfl⟩
  have hsubperm := (List.subperm_of_subset (nodup_storeAll ms) hsub)
  have hperm := hsubperm.perm_of_length_le (by rw [List.length_map,List.length_map,h])
  exact hperm.nodup_iff.mp (nodup_storeAll ms)

mutual

def collapse : Tree α → Tree α
  | .leaf a => .leaf a
  | .arr items => .arr (collapseItems items)
  | .obj members => .obj (storeAll (collapseMembers members))

def collapseItems : List (Tree α) → List (Tree α)
  | [] => []
  | t :: items => collapse t :: collapseItems items

def collapseMembers : List (Text × Tree α) → List (Text × Tree α)
  | [] => []
  | (name,t) :: members => (name,collapse t) :: collapseMembers members

end

@[simp] theorem collapse_leaf (a : α) : collapse (.leaf a) = .leaf a := by
  rw [collapse]

@[simp] theorem collapse_arr (items : List (Tree α)) : collapse (.arr items) = .arr (items.map collapse) := by
  have h : collapseItems items = items.map collapse := by
    induction items with
    | nil => rw [collapseItems,List.map_nil]
    | cons t items ih => rw [collapseItems,List.map_cons,ih]
  rw [collapse,h]

@[simp] theorem collapse_obj (members : List (Text × Tree α)) :
    collapse (.obj members) = .obj ((storeAll members).map fun m => (m.1,collapse m.2)) := by
  have h : collapseMembers members = members.map fun m => (m.1,collapse m.2) := by
    induction members with
    | nil => rw [collapseMembers,List.map_nil]
    | cons m members ih => rw [collapseMembers,List.map_cons,ih]
  rw [collapse,h,storeAll_map]

inductive Every (P : α → Prop) (Q : List Text → Prop) : Tree α → Prop
  | leaf {a : α} (h : P a) : Every P Q (.leaf a)
  | arr {items : List (Tree α)} (h : ∀ t ∈ items, Every P Q t) : Every P Q (.arr items)
  | obj {members : List (Text × Tree α)} (hnames : Q (members.map Prod.fst))
      (h : ∀ m ∈ members, Every P Q m.2) : Every P Q (.obj members)

section Every
variable {P P' : α → Prop} {Q Q' : List Text → Prop}

@[simp] theorem every_leaf {a : α} : Every P Q (.leaf a) ↔ P a :=
  ⟨fun | .leaf h => h,.leaf⟩

@[simp] theorem every_arr {items : List (Tree α)} : Every P Q (.arr items) ↔ ∀ t ∈ items, Every P Q t :=
  ⟨fun | .arr h => h,.arr⟩

@[simp] theorem every_obj {members : List (Text × Tree α)} :
    Every P Q (.obj members) ↔ Q (members.map Prod.fst) ∧ ∀ m ∈ members, Every P Q m.2 :=
  ⟨fun | .obj hnames h => ⟨hnames,h⟩,fun h => .obj h.1 h.2⟩

theorem Every.mono {t : Tree α} (h : Every P Q t) (hP : ∀ a, P a → P' a) (hQ : ∀ ns, Q ns → Q' ns) :
    Every P' Q' t := by
  induction h with
  | leaf h => exact .leaf (hP _ h)
  | arr _ ih => exact .arr ih
  | obj hnames _ ih => exact .obj (hQ _ hnames) ih

theorem Every.and {t : Tree α} (h : Every P Q t) (h' : Every P' Q' t) :
    Every (fun a => P a ∧ P' a) (fun ns => Q ns ∧ Q' ns) t := by
  induction h with
  | leaf h => exact .leaf ⟨h,every_leaf.mp h'⟩
  | arr _ ih => exact .arr fun t ht => ih t ht (every_arr.mp h' t ht)
  | obj hnames _ ih => exact .obj ⟨hnames,(every_obj.mp h').1⟩ fun m hm => ih m hm ((every_obj.mp h').2 m hm)

theorem every_map {P : β → Prop} {f : α → β} {t : Tree α} :
    Every P Q (t.map f) ↔ Every (fun a => P (f a)) Q t := by
  induction t with
  | leaf a => simp
  | arr items ih =>
    simp only [map_arr,every_arr,List.forall_mem_map]
    exact forall₂_congr ih
  | obj members ih =>
    simp only [map_obj,every_obj,List.forall_mem_map,List.map_map]
    exact and_congr_right fun _ => forall₂_congr ih

/-- The objects of a program have one member of each name. -/
abbrev Distinct (t : Tree α) : Prop := Every (fun _ => True) List.Nodup t

theorem distinct_collapse (t : Tree α) : Distinct t.collapse := by
  induction t with
  | leaf a => simp
  | arr items ih =>
    simp only [collapse_arr,every_arr,List.forall_mem_map]
    exact ih
  | obj members ih =>
    simp only [collapse_obj,every_obj,List.map_map,List.forall_mem_map]
    exact ⟨nodup_storeAll members,fun m hm => ih m (mem_storeAll hm)⟩

theorem Every.collapse {R : Text → Prop} {t : Tree α} (h : Every P (fun ns => ∀ name ∈ ns, R name) t) :
    Every P (fun ns => ∀ name ∈ ns, R name) t.collapse := by
  induction h with
  | leaf h => simpa using h
  | arr _ ih =>
    simp only [collapse_arr,every_arr,List.forall_mem_map]
    exact ih
  | obj hnames _ ih =>
    simp only [collapse_obj,every_obj,List.map_map,List.forall_mem_map]
    exact ⟨fun m hm => hnames m.1 (List.mem_map.mpr ⟨m,mem_storeAll hm,rfl⟩),fun m hm => ih m (mem_storeAll hm)⟩

theorem Every.collapse_leaves {t : Tree α} (h : Every P (fun _ => True) t) : Every P (fun _ => True) t.collapse := by
  have hnames : Every P (fun ns => ∀ name ∈ ns, True) t := h.mono (fun _ ha => ha) fun _ _ _ _ => trivial
  exact hnames.collapse.mono (fun _ ha => ha) fun _ _ => trivial

theorem collapse_map_eq_map_iff {f g : α → β} {t : Tree α} :
    (t.map f).collapse = t.map g ↔ Distinct t ∧ Every (fun a => f a = g a) (fun _ => True) t := by
  induction t with
  | leaf a => simp
  | arr items ih =>
    simp only [map_arr,collapse_arr,List.map_map,arr.injEq,List.map_inj_left,every_arr,Function.comp_apply]
    rw [← forall₂_and]
    exact forall₂_congr ih
  | obj members ih =>
    have hnames : (members.map fun m => (m.1,map f m.2)).map Prod.fst = members.map Prod.fst := by
      simp
    have hpoint : (members.map fun m => (m.1,(map f m.2).collapse)) = (members.map fun m => (m.1,map g m.2)) ↔
        ∀ m ∈ members, Distinct m.2 ∧ Every (fun a => f a = g a) (fun _ => True) m.2 := by
      rw [List.map_inj_left]
      refine forall₂_congr ?_
      intro m hm
      rw [← ih m hm]
      simp
    have hstored : ∀ h : (members.map Prod.fst).Nodup,
        ((storeAll (members.map fun m => (m.1,map f m.2))).map fun m => (m.1,m.2.collapse)) =
          members.map fun m => (m.1,(map f m.2).collapse) := by
      intro h
      rw [storeAll_of_nodup (by rwa [hnames]),List.map_map]
      rfl
    simp only [map_obj,collapse_obj,obj.injEq,every_obj,true_and]
    constructor
    · intro h
      have hlen := congrArg List.length h
      simp only [List.length_map] at hlen
      have hnodup : (members.map Prod.fst).Nodup := by
        rw [← hnames]
        exact nodup_of_length_storeAll (by rw [hlen,List.length_map])
      rw [hstored hnodup,hpoint] at h
      exact ⟨⟨hnodup,fun m hm => (h m hm).1⟩,fun m hm => (h m hm).2⟩
    · rintro ⟨⟨hnodup,hdistinct⟩,hleaves⟩
      rw [hstored hnodup,hpoint]
      exact fun m hm => ⟨hdistinct m hm,hleaves m hm⟩

end Every

theorem collapse_map (f : α → β) (t : Tree α) : (t.map f).collapse = t.collapse.map f := by
  induction t with
  | leaf a => simp
  | arr items ih =>
    simp only [map_arr,collapse_arr,List.map_map,arr.injEq,List.map_inj_left]
    exact ih
  | obj members ih =>
    simp only [map_obj,collapse_obj,storeAll_map,List.map_map,obj.injEq,List.map_inj_left]
    intro m hm
    simp [ih m (mem_storeAll hm)]

theorem map_id (t : Tree α) : t.map id = t := by
  induction t with
  | leaf a => simp
  | arr items ih =>
    rw [map_arr,List.map_congr_left ih]
    simp
  | obj members ih =>
    have hm : ∀ m ∈ members, (m.1,map id m.2) = id m := by
      intro m hm
      rw [ih m hm]
      rfl
    rw [map_obj,List.map_congr_left hm,List.map_id]

theorem collapse_of_distinct {t : Tree α} (h : Distinct t) : t.collapse = t := by
  have hleaves : Every (fun a : α => id a = id a) (fun _ => True) t := h.mono (fun _ _ => rfl) fun _ _ => trivial
  have heq := collapse_map_eq_map_iff.mpr ⟨h,hleaves⟩
  rwa [map_id] at heq

/-- At most `n` arrays and objects are open at once. -/
inductive Nested : ℕ → Tree α → Prop
  | leaf (n : ℕ) (a : α) : Nested n (.leaf a)
  | arr {n : ℕ} {items : List (Tree α)} (h : ∀ t ∈ items, Nested n t) : Nested (n+1) (.arr items)
  | obj {n : ℕ} {members : List (Text × Tree α)} (h : ∀ m ∈ members, Nested n m.2) : Nested (n+1) (.obj members)

theorem Nested.mono {n n' : ℕ} {t : Tree α} (h : Nested n t) (hle : n ≤ n') : Nested n' t := by
  induction h generalizing n' with
  | leaf n a => exact .leaf n' a
  | arr _ ih =>
    obtain ⟨k,rfl⟩ := Nat.exists_eq_add_of_le' (Nat.le_of_add_left_le hle)
    exact .arr fun t ht => ih t ht (by omega)
  | obj _ ih =>
    obtain ⟨k,rfl⟩ := Nat.exists_eq_add_of_le' (Nat.le_of_add_left_le hle)
    exact .obj fun m hm => ih m hm (by omega)

theorem nested_succ_arr {n : ℕ} {items : List (Tree α)} : Nested (n+1) (.arr items) ↔ ∀ t ∈ items, Nested n t :=
  ⟨fun | .arr h => h,.arr⟩

theorem nested_succ_obj {n : ℕ} {members : List (Text × Tree α)} :
    Nested (n+1) (.obj members) ↔ ∀ m ∈ members, Nested n m.2 :=
  ⟨fun | .obj h => h,.obj⟩

theorem nested_map {n : ℕ} {f : α → β} {t : Tree α} : Nested n (t.map f) ↔ Nested n t := by
  constructor
  · intro h
    induction t generalizing n with
    | leaf a => exact .leaf n a
    | arr items ih =>
      rw [map_arr] at h
      cases h with
      | arr h => exact .arr fun t ht => ih t ht (h _ (List.mem_map_of_mem ht))
    | obj members ih =>
      rw [map_obj] at h
      cases h with
      | obj h => exact .obj fun m hm => ih m hm (h _ (List.mem_map_of_mem hm))
  · intro h
    induction h with
    | leaf n a => exact .leaf n (f a)
    | arr _ ih =>
      rw [map_arr]
      exact .arr (List.forall_mem_map.mpr ih)
    | obj _ ih =>
      rw [map_obj]
      exact .obj (List.forall_mem_map.mpr ih)

end Tree
end Oidc4acLab
