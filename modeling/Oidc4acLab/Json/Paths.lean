import Mathlib.Data.List.Forall2
import Oidc4acLab.Collections.Lookup
import Oidc4acLab.Json.Tree

/-! # Paths into trees

A path leads through members and items to a subtree. Two paths are apart where neither
begins with the other, and an edit keeps within some paths where it leaves what stands at
any path apart from them. Edits of a member, of the items of an array and of all members of
one name keep within the paths that they name.
-/
namespace Oidc4acLab.Tree
variable {α : Type}

inductive Step
  | member (name : Text)
  | item (i : ℕ)
deriving DecidableEq

abbrev Path := List Step

def child : Step → Tree α → Option (Tree α)
  | .member name, .obj members => members.lookup name
  | .item i, .arr items => items[i]?
  | _, _ => none

def follow : Path → Tree α → Option (Tree α)
  | [], t => some t
  | s :: p, t => (child s t).bind (follow p)

def Apart (p q : Path) : Prop := ¬ p <+: q ∧ ¬ q <+: p

/-- The second tree differs from the first one at these paths at most. -/
def Within (C : Path → Prop) (t u : Tree α) : Prop := ∀ p, (∀ c, C c → Apart p c) → follow p u = follow p t

section Rules
variable {C D : Path → Prop} {t u v : Tree α} {members : List (Text × Tree α)} {items : List (Tree α)} {name : Text}

theorem not_apart_nil (p : Path) : ¬ Apart p [] := fun h => h.2 List.nil_prefix

theorem not_nil_apart (p : Path) : ¬ Apart [] p := fun h => h.1 List.nil_prefix

theorem apart_cons (s : Step) (p q : Path) : Apart (s :: p) (s :: q) ↔ Apart p q := by
  simp [Apart,List.cons_prefix_cons]

theorem apart_of_ne {s s' : Step} (h : s ≠ s') (p q : Path) : Apart (s :: p) (s' :: q) := by
  simp [Apart,List.cons_prefix_cons,h,Ne.symm h]

theorem Within.refl (C : Path → Prop) (t : Tree α) : Within C t t := fun _ _ => rfl

theorem Within.mono (h : Within C t u) (hC : ∀ p, C p → D p) : Within D t u :=
  fun p hp => h p fun c hc => hp c (hC c hc)

theorem Within.trans (h : Within C t u) (h' : Within C u v) : Within C t v :=
  fun p hp => (h' p hp).trans (h p hp)

theorem lookup_cons_eq {e : Text × Tree α} {k : Text} (h : k = e.1) (d : List (Text × Tree α)) :
    (e :: d).lookup k = some e.2 := by
  rw [List.lookup_cons,beq_iff_eq.mpr h]

theorem lookup_cons_ne {e : Text × Tree α} {k : Text} (h : k ≠ e.1) (d : List (Text × Tree α)) :
    (e :: d).lookup k = d.lookup k := by
  rw [List.lookup_cons,beq_eq_false_iff_ne.mpr h]

theorem lookup_store (d : List (Text × Tree α)) (m : Text × Tree α) (k : Text) :
    (store d m).lookup k = if k = m.1 then some m.2 else d.lookup k := by
  induction d with
  | nil =>
    rw [store]
    split_ifs with hk
    · exact lookup_cons_eq hk []
    · exact lookup_cons_ne hk []
  | cons e d ih =>
    by_cases he : e.1 = m.1
    · rw [store,if_pos he]
      split_ifs with hk
      · exact lookup_cons_eq hk d
      · rw [lookup_cons_ne hk,lookup_cons_ne (he ▸ hk)]
    · rw [store,if_neg he]
      by_cases hk : k = e.1
      · rw [lookup_cons_eq hk,lookup_cons_eq hk,if_neg (hk ▸ he)]
      · rw [lookup_cons_ne hk,lookup_cons_ne hk,ih]

theorem lookup_store_self (d : List (Text × Tree α)) (k : Text) (v : Tree α) : (store d (k,v)).lookup k = some v := by
  rw [lookup_store,if_pos rfl]

theorem lookup_store_ne {k name : Text} (h : k ≠ name) (d : List (Text × Tree α)) (v : Tree α) :
    (store d (name,v)).lookup k = d.lookup k := by
  rw [lookup_store,if_neg h]

theorem follow_member (name : Text) (p : Path) (members : List (Text × Tree α)) :
    follow (.member name :: p) (.obj members) = (members.lookup name).bind (follow p) := rfl

theorem follow_append (p q : Path) (t : Tree α) : follow (p ++ q) t = (follow p t).bind (follow q) := by
  induction p generalizing t with
  | nil => rfl
  | cons s p ih =>
    rw [List.cons_append,follow,follow]
    cases child s t with
    | none => rfl
    | some c => exact ih c

theorem follow_name (name : Text) (members : List (Text × Tree α)) :
    follow [.member name] (.obj members) = members.lookup name := by
  rw [follow_member]
  cases members.lookup name <;> rfl

theorem follow_item (i : ℕ) (p : Path) (items : List (Tree α)) :
    follow (.item i :: p) (.arr items) = items[i]?.bind (follow p) := rfl

theorem store_self {v : Tree α} (h : members.lookup name = some v) : store members (name,v) = members := by
  induction members with
  | nil => cases h
  | cons e d ih =>
    rw [store]
    by_cases he : e.1 = name
    · rw [lookup_cons_eq he.symm] at h
      rw [if_pos he,← he,← Option.some.inj h]
    · rw [lookup_cons_ne (Ne.symm he)] at h
      rw [if_neg he,ih h]

theorem within_store (h : ∀ p, (∀ c, C c → Apart p c) → follow p v = (members.lookup name).bind (follow p)) :
    Within (fun p => ∃ c, C c ∧ p = .member name :: c) (.obj members) (.obj (store members (name,v))) := by
  intro p hp
  cases p with
  | nil =>
    have hempty : ∀ c, ¬ C c := fun c hc => not_nil_apart _ (hp _ ⟨c,hc,rfl⟩)
    have hsame : members.lookup name = some v := by
      have hv := h [] fun c hc => absurd hc (hempty c)
      cases hl : members.lookup name with
      | none =>
        rw [hl] at hv
        cases hv
      | some w =>
        rw [hl] at hv
        exact hv.symm
    rw [store_self hsame]
  | cons s p =>
    cases s with
    | item i => rfl
    | member k =>
      rw [follow_member,follow_member,lookup_store]
      by_cases hk : k = name
      · subst hk
        rw [if_pos rfl,Option.bind_some]
        exact h p fun c hc => (apart_cons _ p c).mp (hp _ ⟨c,hc,rfl⟩)
      · rw [if_neg hk]

theorem within_member (hl : members.lookup name = some u) (h : Within C u v) :
    Within (fun p => ∃ c, C c ∧ p = .member name :: c) (.obj members) (.obj (store members (name,v))) := by
  apply within_store
  intro p hp
  rw [hl,Option.bind_some]
  exact h p hp

theorem within_put (members : List (Text × Tree α)) (name : Text) (v : Tree α) :
    Within (· = [.member name]) (.obj members) (.obj (store members (name,v))) := by
  have h : Within (fun p => ∃ c, c = [] ∧ p = .member name :: c) (.obj members) (.obj (store members (name,v))) :=
    within_store fun p hp => absurd (hp [] rfl) (not_apart_nil p)
  exact h.mono fun p ⟨c,hc,hp⟩ => by rw [hp,hc]

theorem within_filter (keep : Text → Bool) (hk : ∃ n, keep n = false) (members : List (Text × Tree α)) :
    Within (fun p => ∃ n, keep n = false ∧ p = [.member n]) (.obj members)
      (.obj (members.filter fun m => keep m.1)) := by
  intro p hp
  cases p with
  | nil =>
    obtain ⟨n,hn⟩ := hk
    exact absurd (hp _ ⟨n,hn,rfl⟩) (not_nil_apart _)
  | cons s p =>
    cases s with
    | item i => rfl
    | member k =>
      rw [follow_member,follow_member,Collections.lookup_filter]
      cases hkeep : keep k with
      | true => rfl
      | false => exact absurd (hp _ ⟨k,hkeep,rfl⟩) fun h => h.2 ⟨p,rfl⟩

theorem lookup_forall₂ {R : Text × Tree α → Text × Tree α → Prop} {members' : List (Text × Tree α)}
    (h : List.Forall₂ (fun m m' => m'.1 = m.1 ∧ R m m') members members') (k : Text) :
    members.lookup k = none ∧ members'.lookup k = none ∨
    ∃ m m', m ∈ members ∧ m.1 = k ∧ R m m' ∧ members.lookup k = some m.2 ∧ members'.lookup k = some m'.2 := by
  induction h with
  | nil => exact Or.inl ⟨rfl,rfl⟩
  | @cons m m' members members' hm _ ih =>
    by_cases hk : k = m.1
    · exact Or.inr ⟨m,m',List.mem_cons_self,hk.symm,hm.2,lookup_cons_eq hk _,lookup_cons_eq (hk.trans hm.1.symm) _⟩
    · rw [lookup_cons_ne hk,lookup_cons_ne (hm.1.symm ▸ hk)]
      exact ih.imp_right fun ⟨n,n',hn,hrest⟩ => ⟨n,n',List.mem_cons_of_mem m hn,hrest⟩

theorem within_members {C : Text × Tree α → Path → Prop} {members' : List (Text × Tree α)}
    (h : List.Forall₂ (fun m m' => m'.1 = m.1 ∧ Within (C m) m.2 m'.2) members members') :
    Within (fun p => ∃ m ∈ members, ∃ c, C m c ∧ p = .member m.1 :: c) (.obj members) (.obj members') := by
  intro p hp
  cases p with
  | nil =>
    have hempty : ∀ m ∈ members, ∀ c, ¬ C m c := fun m hm c hc => not_nil_apart _ (hp _ ⟨m,hm,c,hc,rfl⟩)
    have heq : members = members' := List.forall₂_eq_eq_eq ▸
      ((List.forall₂_and_left _ _).mpr ⟨hempty,h⟩).imp fun m m' hm =>
        Prod.ext hm.2.1.symm (Option.some.inj (hm.2.2 [] fun c hc => absurd hc (hm.1 c))).symm
    rw [heq]
  | cons s p =>
    cases s with
    | item i => rfl
    | member k =>
      rw [follow_member,follow_member]
      rcases lookup_forall₂ h k with ⟨hnone,hnone'⟩ | ⟨m,m',hm,rfl,hw,hsome,hsome'⟩
      · rw [hnone,hnone']
      · rw [hsome,hsome']
        exact hw p fun c hc => (apart_cons _ p c).mp (hp _ ⟨m,hm,c,hc,rfl⟩)

theorem within_items {C : ℕ → Path → Prop} {items' : List (Tree α)} (hlen : items'.length = items.length)
    (h : ∀ (i : ℕ) (x y : Tree α), items[i]? = some x → items'[i]? = some y → Within (C i) x y) :
    Within (fun p => ∃ i c, C i c ∧ p = .item i :: c) (.arr items) (.arr items') := by
  have hnone : ∀ i : ℕ, items[i]? = none → items'[i]? = none := by
    intro i hi
    rw [List.getElem?_eq_none_iff] at hi ⊢
    omega
  intro p hp
  cases p with
  | nil =>
    have hempty : ∀ i c, ¬ C i c := fun i c hc => not_nil_apart _ (hp _ ⟨i,c,hc,rfl⟩)
    have heq : items' = items := by
      apply List.ext_getElem?
      intro i
      cases hx : items[i]? with
      | none => exact hnone i hx
      | some x =>
        obtain ⟨y,hy⟩ : ∃ y, items'[i]? = some y := by
          obtain ⟨hi,-⟩ := List.getElem?_eq_some_iff.mp hx
          exact ⟨_,List.getElem?_eq_getElem (hlen ▸ hi)⟩
        have hsame := h i x y hx hy [] fun c hc => absurd hc (hempty i c)
        exact hy.trans hsame
    rw [heq]
  | cons s p =>
    cases s with
    | member k => rfl
    | item i =>
      rw [follow_item,follow_item]
      cases hx : items[i]? with
      | none => rw [hnone i hx]
      | some x =>
        obtain ⟨y,hy⟩ : ∃ y, items'[i]? = some y := by
          obtain ⟨hi,-⟩ := List.getElem?_eq_some_iff.mp hx
          exact ⟨_,List.getElem?_eq_getElem (hlen ▸ hi)⟩
        rw [hy,Option.bind_some,Option.bind_some]
        exact h i x y hx hy p fun c hc => (apart_cons _ p c).mp (hp _ ⟨i,c,hc,rfl⟩)

theorem within_append (items : List (Tree α)) (v : Tree α) :
    Within (· = [.item items.length]) (.arr items) (.arr (items ++ [v])) := by
  intro p hp
  cases p with
  | nil => exact absurd (hp _ rfl) (not_nil_apart _)
  | cons s p =>
    cases s with
    | member k => rfl
    | item i =>
      rw [follow_item,follow_item]
      by_cases hi : i = items.length
      · subst hi
        exact absurd (hp _ rfl) fun h => h.2 ⟨p,rfl⟩
      · rw [List.getElem?_append]
        split_ifs with hlt
        · rfl
        · rw [List.getElem?_eq_none_iff.mpr (by simp; omega),List.getElem?_eq_none_iff.mpr (by omega)]

end Rules

mutual

def without (name : Text) : Tree α → Tree α
  | .leaf a => .leaf a
  | .arr items => .arr (withoutItems name items)
  | .obj members => .obj (withoutMembers name members)

def withoutItems (name : Text) : List (Tree α) → List (Tree α)
  | [] => []
  | t :: items => without name t :: withoutItems name items

def withoutMembers (name : Text) : List (Text × Tree α) → List (Text × Tree α)
  | [] => []
  | (key,t) :: members => if key = name then withoutMembers name members
    else (key,without name t) :: withoutMembers name members

end

theorem withoutItems_eq (name : Text) (items : List (Tree α)) : withoutItems name items = items.map (without name) := by
  induction items with
  | nil => rw [withoutItems,List.map_nil]
  | cons t items ih => rw [withoutItems,List.map_cons,ih]

theorem lookup_withoutMembers (name : Text) (members : List (Text × Tree α)) (k : Text) :
    (withoutMembers name members).lookup k = if k = name then none else (members.lookup k).map (without name) := by
  induction members with
  | nil => simp [withoutMembers]
  | cons m members ih =>
    rw [withoutMembers]
    by_cases hm : m.1 = name
    · rw [if_pos hm,ih]
      split_ifs with hk
      · rfl
      · rw [lookup_cons_ne (hm ▸ hk)]
    · rw [if_neg hm]
      by_cases hk : k = m.1
      · rw [lookup_cons_eq (e := (m.1,without name m.2)) hk,lookup_cons_eq hk,if_neg (hk ▸ hm),Option.map_some]
      · rw [lookup_cons_ne (e := (m.1,without name m.2)) hk,lookup_cons_ne hk,ih]

/-- What stands at a path of the tree without a name: nothing if the path leads through the name, else the same
without the name. -/
theorem follow_without (name : Text) (p : Path) (t : Tree α) :
    follow p (without name t) = if .member name ∈ p then none else (follow p t).map (without name) := by
  induction p generalizing t with
  | nil => rfl
  | cons s p ih =>
    cases t with
    | leaf a =>
      rw [without]
      cases s <;> simp [follow,child]
    | arr items =>
      rw [without,withoutItems_eq]
      cases s with
      | member k => simp [follow,child]
      | item i =>
        rw [follow_item,follow_item,List.getElem?_map]
        cases items[i]? with
        | none => simp
        | some x => simp [ih]
    | obj members =>
      rw [without]
      cases s with
      | item i => simp [follow,child]
      | member k =>
        rw [follow_member,follow_member,lookup_withoutMembers]
        by_cases hk : k = name
        · simp [hk]
        · cases members.lookup k with
          | none => simp [hk]
          | some x => simp [hk,ih,Ne.symm hk]

end Oidc4acLab.Tree
