import Oidc4acLab.Collections.Lookup
import Oidc4acLab.Number.Notation
import Mathlib.Data.List.Basic

/-! # Script values that JSON can express

An object lists its own members in the order in which the script enumerates them:
array indices first and ascending, then the other names as they were created.
`Same` is equality of the values: the order of the members does not count.
-/
namespace Oidc4acLab

namespace Object
open Text

variable {α : Type}

def arrayIndex (name : Text) : Option ℕ :=
  if digits (digitsValue name) = name ∧ digitsValue name < 2^32-1 then some (digitsValue name)
  else none

def isBelow (n : ℕ) (m : Text × α) : Bool :=
  match arrayIndex m.1 with
  | some i => i < n
  | none => false

def create (ms : List (Text × α)) (name : Text) (v : α) : List (Text × α) :=
  match arrayIndex name with
  | none => ms ++ [(name,v)]
  | some n => ms.takeWhile (isBelow n) ++ (name,v) :: ms.dropWhile (isBelow n)

/-- `object[name] = v` where `name` is or becomes an own member. -/
def set (ms : List (Text × α)) (name : Text) (v : α) : List (Text × α) :=
  if (ms.lookup name).isSome then ms.map fun m => if m.1 = name then (name,v) else m
  else create ms name v

def names (ms : List (Text × α)) : List Text := ms.map Prod.fst

theorem lookup_isSome_iff {ms : List (Text × α)} {name : Text} :
    (ms.lookup name).isSome = true ↔ name ∈ names ms := Collections.lookup_isSome_iff_mem

theorem lookup_eq_some_iff {ms : List (Text × α)} {name : Text} {v : α} (h : (names ms).Nodup) :
    ms.lookup name = some v ↔ (name,v) ∈ ms := by
  constructor
  · exact Collections.mem_of_lookup
  · exact Collections.lookup_of_mem h

theorem create_perm (ms : List (Text × α)) (name : Text) (v : α) :
    (create ms name v).Perm ((name,v) :: ms) := by
  rw [create]
  cases arrayIndex name with
  | none => exact List.perm_append_comm
  | some n =>
    have h : (ms.takeWhile (isBelow n) ++ (name,v) :: ms.dropWhile (isBelow n)).Perm
        ((name,v) :: (ms.takeWhile (isBelow n) ++ ms.dropWhile (isBelow n))) := List.perm_middle
    rwa [List.takeWhile_append_dropWhile] at h

theorem names_overwrite (ms : List (Text × α)) (name : Text) (v : α) :
    names (ms.map fun m => if m.1 = name then (name,v) else m) = names ms := by
  simp only [names,List.map_map]
  apply List.map_congr_left
  intro m _
  by_cases h : m.1 = name
  · simp [h]
  · simp [h]

theorem nodup_set {ms : List (Text × α)} (name : Text) (v : α) (h : (names ms).Nodup) :
    (names (set ms name v)).Nodup := by
  rw [set]
  split_ifs with hs
  · rwa [names_overwrite]
  · have hp := (create_perm ms name v).map Prod.fst
    rw [names,hp.nodup_iff,List.map_cons,List.nodup_cons]
    exact ⟨fun hm => hs (lookup_isSome_iff.mpr hm),h⟩

theorem mem_set {ms : List (Text × α)} {name : Text} {v : α} {m : Text × α}
    (h : m ∈ set ms name v) : m = (name,v) ∨ m ∈ ms := by
  rw [set] at h
  split_ifs at h
  · obtain ⟨n,hn,rfl⟩ := List.mem_map.mp h
    split_ifs
    · exact Or.inl rfl
    · exact Or.inr hn
  · exact List.mem_cons.mp ((create_perm ms name v).mem_iff.mp h)

theorem lookup_overwrite (ms : List (Text × α)) (name : Text) (v : α) (name' : Text) :
    (ms.map fun m => if m.1 = name then (name,v) else m).lookup name' =
      if name' = name then (ms.lookup name).map fun _ => v else ms.lookup name' := by
  induction ms with
  | nil => simp
  | cons m ms ih =>
    rw [List.map_cons,List.lookup_cons,List.lookup_cons,List.lookup_cons,ih]
    by_cases hm : m.1 = name
    · subst hm
      by_cases hn : name' = m.1
      · simp [hn]
      · simp [hn,beq_eq_false_iff_ne.mpr hn]
    · have hm' : (name == m.1) = false := beq_eq_false_iff_ne.mpr (Ne.symm hm)
      by_cases hn : name' = name
      · simp [hn,hm,hm']
      · simp [hn,hm]

theorem lookup_create {ms : List (Text × α)} {name : Text} (v : α) (name' : Text)
    (h : ms.lookup name = none) :
    (create ms name v).lookup name' = if name' = name then some v else ms.lookup name' := by
  have hmid : ∀ xs ys : List (Text × α), xs ++ ys = ms →
      (xs ++ (name,v) :: ys).lookup name' = if name' = name then some v else ms.lookup name' := by
    rintro xs ys rfl
    rw [List.lookup_append,Option.or_eq_none_iff] at h
    rw [List.lookup_append,List.lookup_cons,List.lookup_append]
    by_cases hn : name' = name
    · subst hn
      simp [h.1]
    · simp [hn,beq_eq_false_iff_ne.mpr hn]
  rw [create]
  cases arrayIndex name with
  | none => exact hmid ms [] (List.append_nil ms)
  | some n => exact hmid _ _ (List.takeWhile_append_dropWhile)

@[simp] theorem lookup_set (ms : List (Text × α)) (name : Text) (v : α) (name' : Text) :
    (set ms name v).lookup name' = if name' = name then some v else ms.lookup name' := by
  rw [set]
  split_ifs with hs hn hn
  · obtain ⟨w,hw⟩ := Option.isSome_iff_exists.mp hs
    rw [lookup_overwrite,if_pos hn,hw,Option.map_some]
  · rw [lookup_overwrite,if_neg hn]
  · rw [lookup_create v name' (Option.not_isSome_iff_eq_none.mp hs),if_pos hn]
  · rw [lookup_create v name' (Option.not_isSome_iff_eq_none.mp hs),if_neg hn]

theorem set_perm {ms : List (Text × α)} {name : Text} (v : α) (h : name ∉ names ms) :
    (set ms name v).Perm (ms ++ [(name,v)]) := by
  rw [set,if_neg (fun hs => h (lookup_isSome_iff.mp hs))]
  exact (create_perm ms name v).trans (List.perm_append_singleton (name,v) ms).symm

theorem length_set_le (ms : List (Text × α)) (name : Text) (v : α) :
    (set ms name v).length ≤ ms.length+1 := by
  rw [set]
  split_ifs
  · rw [List.length_map]
    omega
  · rw [(create_perm ms name v).length_eq,List.length_cons]

theorem filter_name {ms : List (Text × α)} (h : (names ms).Nodup) (name : Text) :
    ms.filter (fun m => m.1 == name) = ((ms.lookup name).map fun v => (name,v)).toList := by
  induction ms with
  | nil => rfl
  | cons m ms ih =>
    simp only [names,List.map_cons,List.nodup_cons] at h
    rw [List.filter_cons,ih h.2,List.lookup_cons]
    by_cases hn : name = m.1
    · have hnone : ms.lookup name = none := by
        rw [← Option.not_isSome_iff_eq_none,lookup_isSome_iff,hn]
        exact h.1
      simp [hn,hn ▸ hnone]
    · simp [beq_eq_false_iff_ne.mpr hn,beq_eq_false_iff_ne.mpr (Ne.symm hn)]

end Object

inductive Json
  | null
  | bool (b : Bool)
  | num (x : Number)
  | str (t : Text)
  | arr (items : List Json)
  | obj (members : List (Text × Json))

namespace Json
open Text

/-- An own member; other values than objects have none of the names used here. -/
def member? : Json → Text → Option Json
  | .obj ms, name => ms.lookup name
  | _, _ => none

/-- `object.hasOwnProperty(name)` -/
def own (j : Json) (name : Text) : Bool := (j.member? name).isSome

def truthy : Json → Bool
  | .null => false
  | .bool b => b
  | .num x => !(x = .nan || x = Number.ofNat 0)
  | .str t => !t.isEmpty
  | .arr _ => true
  | .obj _ => true

/-- `typeof value === 'object'` for a value other than null. -/
def isObject : Json → Bool
  | .arr _ => true
  | .obj _ => true
  | _ => false

/-- `Object.entries(value)` for a value other than null. -/
def entries : Json → List (Text × Json)
  | .obj ms => ms
  | .arr items => items.zipIdx.map fun m => (digits m.2,m.1)
  | .str t => t.zipIdx.map fun m => (digits m.2,.str [m.1])
  | _ => []

mutual

/-- `String(value)`; an own member `toString`, which is no function, makes it throw. -/
def toText : Json → Option Text
  | .null => some (js "null")
  | .bool b => some (js (if b then "true" else "false"))
  | .num x => some x.toText
  | .str t => some t
  | .arr items => (itemTexts items).map (join [44])
  | .obj ms => if (ms.lookup (js "toString")).isSome then none else some (js "[object Object]")

def itemTexts : List Json → Option (List Text)
  | [] => some []
  | .null :: items => (itemTexts items).map ([] :: ·)
  | item :: items => do
    let t ← toText item
    let ts ← itemTexts items
    return t :: ts

end

@[elab_as_elim]
theorem induction {motive : Json → Prop} (null : motive .null) (bool : ∀ b, motive (.bool b))
    (num : ∀ x, motive (.num x)) (str : ∀ t, motive (.str t))
    (arr : ∀ items, (∀ j ∈ items, motive j) → motive (.arr items))
    (obj : ∀ ms, (∀ m ∈ ms, motive m.2) → motive (.obj ms)) (j : Json) : motive j := by
  refine @Json.rec motive (fun items => ∀ j ∈ items, motive j) (fun ms => ∀ m ∈ ms, motive m.2)
    (fun m => motive m.2) null bool num str arr obj ?_ ?_ ?_ ?_ ?_ j
  · simp
  · intro item items hitem hitems j hj
    rcases List.mem_cons.mp hj with rfl | hj
    · exact hitem
    · exact hitems j hj
  · simp
  · intro m ms hm hms n hn
    rcases List.mem_cons.mp hn with rfl | hn
    · exact hm
    · exact hms n hn
  · intro _ _ h
    exact h

mutual

def eqb : Json → Json → Bool
  | .null, .null => true
  | .bool a, .bool b => a == b
  | .num x, .num y => decide (x = y)
  | .str s, .str t => s == t
  | .arr xs, .arr ys => eqbItems xs ys
  | .obj xs, .obj ys => eqbMembers xs ys
  | _, _ => false

def eqbItems : List Json → List Json → Bool
  | [], [] => true
  | x :: xs, y :: ys => eqb x y && eqbItems xs ys
  | _, _ => false

def eqbMembers : List (Text × Json) → List (Text × Json) → Bool
  | [], [] => true
  | (n,x) :: xs, (m,y) :: ys => n == m && eqb x y && eqbMembers xs ys
  | _, _ => false

end

theorem eqb_iff {a b : Json} : eqb a b = true ↔ a = b := by
  induction a using Json.induction generalizing b with
  | arr xs ih =>
    cases b with
    | arr ys =>
      rw [eqb,Json.arr.injEq]
      induction xs generalizing ys with
      | nil => cases ys <;> simp [eqbItems]
      | cons x xs ihs =>
        cases ys with
        | nil => simp [eqbItems]
        | cons y ys =>
          have hx := ih x List.mem_cons_self (b := y)
          have hxs := ihs (fun j hj => ih j (List.mem_cons_of_mem x hj)) ys
          rw [eqbItems,Bool.and_eq_true,hx,hxs,List.cons.injEq]
    | _ => simp [eqb]
  | obj xs ih =>
    cases b with
    | obj ys =>
      rw [eqb,Json.obj.injEq]
      induction xs generalizing ys with
      | nil => cases ys <;> simp [eqbMembers]
      | cons m xs ihs =>
        obtain ⟨n,x⟩ := m
        cases ys with
        | nil => simp [eqbMembers]
        | cons m' ys =>
          obtain ⟨n',y⟩ := m'
          have hx := ih (n,x) List.mem_cons_self (b := y)
          have hxs := ihs (fun j hj => ih j (List.mem_cons_of_mem _ hj)) ys
          rw [eqbMembers,Bool.and_eq_true,Bool.and_eq_true,hx,hxs,beq_iff_eq,List.cons.injEq,
            Prod.mk.injEq]
    | _ => simp [eqb]
  | _ => cases b <;> simp [eqb]

instance : DecidableEq Json := fun a b => decidable_of_iff (eqb a b = true) eqb_iff

/-- Objects have the same names with the same values, arrays the same items in order. -/
inductive Same : Json → Json → Prop
  | null : Same .null .null
  | bool (b : Bool) : Same (.bool b) (.bool b)
  | num (x : Number) : Same (.num x) (.num x)
  | str (t : Text) : Same (.str t) (.str t)
  | arr {xs ys : List Json} : xs.length = ys.length →
      (∀ (i : ℕ) x y, xs[i]? = some x → ys[i]? = some y → Same x y) → Same (.arr xs) (.arr ys)
  | obj {xs ys : List (Text × Json)} :
      (∀ name, (xs.lookup name).isSome = (ys.lookup name).isSome) →
      (∀ name x y, xs.lookup name = some x → ys.lookup name = some y → Same x y) →
      Same (.obj xs) (.obj ys)

@[refl] theorem Same.refl (j : Json) : Same j j := by
  induction j using Json.induction with
  | null => exact .null
  | bool b => exact .bool b
  | num x => exact .num x
  | str t => exact .str t
  | arr items ih =>
    refine .arr rfl ?_
    intro i x y hx hy
    rw [hx] at hy
    cases hy
    exact ih x (List.mem_of_getElem? hx)
  | obj ms ih =>
    refine .obj (fun _ => rfl) ?_
    intro name x y hx hy
    rw [hx] at hy
    cases hy
    exact ih (name,x) (Collections.mem_of_lookup hx)

@[symm] theorem Same.symm {a b : Json} (h : Same a b) : Same b a := by
  induction h with
  | null => exact .null
  | bool b => exact .bool b
  | num x => exact .num x
  | str t => exact .str t
  | arr hlen _ ih => exact .arr hlen.symm fun i x y hx hy => ih i y x hy hx
  | obj hnames _ ih =>
    exact .obj (fun name => (hnames name).symm) fun name x y hx hy => ih name y x hy hx

@[trans] theorem Same.trans {a b c : Json} (hab : Same a b) (hbc : Same b c) : Same a c := by
  induction hab generalizing c with
  | null => exact hbc
  | bool b => exact hbc
  | num x => exact hbc
  | str t => exact hbc
  | @arr xs ys hlen _ ih =>
    cases hbc with
    | @arr _ zs hlen' hitems =>
      refine .arr (hlen.trans hlen') ?_
      intro i x z hx hz
      have hi : i < ys.length := by
        have h := (List.getElem?_eq_some_iff.mp hx).1
        omega
      have hy := List.getElem?_eq_getElem hi
      exact ih i x ys[i] hx hy (hitems i ys[i] z hy hz)
  | @obj xs ys hnames _ ih =>
    cases hbc with
    | @obj _ zs hnames' hmembers =>
      refine .obj (fun name => (hnames name).trans (hnames' name)) ?_
      intro name x z hx hz
      have hs := hnames name
      rw [hx] at hs
      obtain ⟨y,hy⟩ := Option.isSome_iff_exists.mp hs.symm
      exact ih name x y hx hy (hmembers name y z hy hz)

/-- The names of every object in the value are distinct. -/
inductive WellFormed : Json → Prop
  | null : WellFormed .null
  | bool (b : Bool) : WellFormed (.bool b)
  | num (x : Number) : WellFormed (.num x)
  | str (t : Text) : WellFormed (.str t)
  | arr {items : List Json} : (∀ j ∈ items, WellFormed j) → WellFormed (.arr items)
  | obj {ms : List (Text × Json)} :
      (Object.names ms).Nodup → (∀ m ∈ ms, WellFormed m.2) → WellFormed (.obj ms)

end Json
end Oidc4acLab
