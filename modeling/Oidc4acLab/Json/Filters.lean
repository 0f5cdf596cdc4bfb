import Oidc4acLab.Fallible.Success
import Oidc4acLab.Json.Document
import Oidc4acLab.Json.Paths

/-! # Filters of jq

Assignments, updates of each child and additions. An assignment makes the objects on its
way, a pipeline of assignments changes the tree at their paths only, and where these are
apart from one another each value is found at its path afterwards.
-/
namespace Oidc4acLab.Jq
open Text Document Oidc4acLab.Tree Fallible

/-- Why a filter stops. -/
inductive Fault
  | index
  | iterate
  | add
deriving DecidableEq

abbrev Node := Tree Atom

def null : Node := .leaf .null

/-- `.name` -/
def index (name : Text) : Node → Except Fault Node
  | .leaf .null => .ok null
  | .obj members => .ok ((members.lookup name).getD null)
  | _ => .error .index

def setKey (name : Text) (v : Node) : Node → Except Fault Node
  | .leaf .null => .ok (.obj [(name,v)])
  | .obj members => .ok (.obj (store members (name,v)))
  | _ => .error .index

/-- `.a.b = v` -/
def setpath : List Text → Node → Node → Except Fault Node
  | [], v, _ => .ok v
  | name :: p, v, t => do
    let child ← index name t
    let child ← setpath p v child
    setKey name child t

/-- `.a = v | .b = w | …` -/
def assign : List (List Text × Node) → Node → Except Fault Node
  | [], t => .ok t
  | (p,v) :: l, t => do
    let t ← setpath p v t
    assign l t

/-- `.[] |= f` -/
def each (f : Node → Except Fault Node) : Node → Except Fault Node
  | .arr items => (items.mapM f).map .arr
  | .obj members => (members.mapM fun m => (f m.2).map fun v => (m.1,v)).map .obj
  | _ => .error .iterate

/-- `.name |= f` -/
def update (name : Text) (f : Node → Except Fault Node) (t : Node) : Except Fault Node := do
  let v ← index name t
  let v ← f v
  setKey name v t

/-- `. + items` -/
def add (items : List Node) : Node → Except Fault Node
  | .leaf .null => .ok (.arr items)
  | .arr old => .ok (.arr (old ++ items))
  | _ => .error .add

def names (p : List Text) : Path := p.map .member

instance (p q : Path) : Decidable (Apart p q) := inferInstanceAs (Decidable (_ ∧ _))

section Rules
variable {name : Text} {p : List Text} {l : List (List Text × Node)} {v t u c : Node} {C : Path → Prop}
  {f : Node → Except Fault Node}

theorem follow_leaf {q : Path} (hq : q ≠ []) (a : Atom) : follow q (.leaf a) = none := by
  cases q with
  | nil => exact absurd rfl hq
  | cons s q => cases s <;> rfl

theorem within_setKey (hc : index name t = .ok c) (hv : Within C c v) (hC : c = null → ∃ p, C p)
    (h : setKey name v t = .ok u) : Within (fun p => ∃ c, C c ∧ p = .member name :: c) t u := by
  have hempty : c = null → ∀ q : Path, (∀ e, C e → Apart q e) → q ≠ [] := by
    rintro hnull q hq rfl
    obtain ⟨e,he⟩ := hC hnull
    exact not_nil_apart _ (hq e he)
  cases t with
  | arr items => cases hc
  | leaf a =>
    cases a with
    | null =>
      cases hc
      cases h
      intro q hq
      cases q with
      | nil =>
        obtain ⟨e,he⟩ := hC rfl
        exact absurd (hq _ ⟨e,he,rfl⟩) (not_nil_apart _)
      | cons s q =>
        rw [follow_leaf (List.cons_ne_nil s q)]
        cases s with
        | item i => rfl
        | member k =>
          rw [follow_member]
          by_cases hk : k = name
          · subst hk
            have hq' : ∀ e, C e → Apart q e := fun e he => (apart_cons _ q e).mp (hq _ ⟨e,he,rfl⟩)
            rw [List.lookup_cons_self,Option.bind_some,hv q hq',null,follow_leaf (hempty rfl q hq')]
          · rw [lookup_cons_ne hk]
            rfl
    | bool b => cases hc
    | num l => cases hc
    | str s => cases hc
    | nan => cases hc
    | infinity n => cases hc
  | obj members =>
    cases hl : members.lookup name with
    | some w =>
      rw [index,hl] at hc
      cases hc
      cases h
      exact within_member hl hv
    | none =>
      rw [index,hl] at hc
      cases hc
      cases h
      apply within_store
      intro q hq
      rw [hv q hq,hl]
      exact follow_leaf (hempty rfl q hq) _

theorem follow_setKey (h : setKey name v t = .ok u) (q : Path) : follow (.member name :: q) u = follow q v := by
  cases t with
  | arr items => cases h
  | leaf a =>
    cases a with
    | null =>
      cases h
      rw [follow_member,List.lookup_cons_self,Option.bind_some]
    | bool b => cases h
    | num l => cases h
    | str s => cases h
    | nan => cases h
    | infinity n => cases h
  | obj members =>
    cases h
    rw [follow_member,lookup_store_self,Option.bind_some]

theorem within_setpath (h : setpath p v t = .ok u) : Within (· = names p) t u := by
  induction p generalizing t u with
  | nil => exact fun q hq => absurd (hq _ rfl) (not_apart_nil q)
  | cons name p ih =>
    obtain ⟨c,hc,h⟩ := bind_eq_ok.mp h
    obtain ⟨c',hc',h⟩ := bind_eq_ok.mp h
    apply (within_setKey hc (ih hc') (fun _ => ⟨_,rfl⟩) h).mono
    rintro q ⟨e,rfl,rfl⟩
    rfl

theorem follow_setpath (h : setpath p v t = .ok u) : follow (names p) u = some v := by
  induction p generalizing t u with
  | nil =>
    cases h
    rfl
  | cons name p ih =>
    obtain ⟨c,hc,h⟩ := bind_eq_ok.mp h
    obtain ⟨c',hc',h⟩ := bind_eq_ok.mp h
    exact (follow_setKey h (names p)).trans (ih hc')

theorem within_assign (h : assign l t = .ok u) : Within (fun p => ∃ a ∈ l, p = names a.1) t u := by
  induction l generalizing t with
  | nil =>
    cases h
    exact Within.refl _ _
  | cons a l ih =>
    obtain ⟨t',ht',h⟩ := bind_eq_ok.mp h
    exact ((within_setpath ht').mono fun p hp => ⟨a,List.mem_cons_self,hp⟩).trans
      ((ih h).mono fun p ⟨b,hb,hp⟩ => ⟨b,List.mem_cons_of_mem a hb,hp⟩)

theorem follow_assign (hl : l.Pairwise fun a b => Apart (names a.1) (names b.1)) (h : assign l t = .ok u) :
    ∀ a ∈ l, follow (names a.1) u = some a.2 := by
  induction l generalizing t with
  | nil => exact fun a ha => absurd ha List.not_mem_nil
  | cons a l ih =>
    obtain ⟨ha,hl⟩ := List.pairwise_cons.mp hl
    obtain ⟨t',ht',hrest⟩ := bind_eq_ok.mp h
    intro b hb
    rcases List.mem_cons.mp hb with rfl | hb
    · rw [within_assign hrest (names b.1) fun q ⟨e,he,hq⟩ => hq ▸ ha e he]
      exact follow_setpath ht'
    · exact ih hl hrest b hb

theorem index_eq (h : index name t = .ok c) : c = (follow [.member name] t).getD null := by
  cases t with
  | arr items => cases h
  | obj members =>
    cases h
    rw [follow_name]
  | leaf a =>
    cases a with
    | null =>
      cases h
      rfl
    | bool b => cases h
    | num l => cases h
    | str s => cases h
    | nan => cases h
    | infinity n => cases h

theorem follow_index (h : index name t = .ok c) {q : Path} (hq : q ≠ []) :
    follow (.member name :: q) t = follow q c := by
  cases t with
  | arr items => cases h
  | obj members =>
    cases h
    rw [follow_member]
    cases members.lookup name with
    | none => exact (follow_leaf hq _).symm
    | some v => rfl
  | leaf a =>
    cases a with
    | null =>
      cases h
      rw [null,follow_leaf hq,follow_leaf (List.cons_ne_nil _ q)]
    | bool b => cases h
    | num l => cases h
    | str s => cases h
    | nan => cases h
    | infinity n => cases h

theorem follow_of_index (h : index name t = .ok c) (hc : c ≠ null) : follow [.member name] t = some c := by
  rw [index_eq h] at hc ⊢
  cases hf : follow [.member name] t with
  | none =>
    rw [hf] at hc
    exact absurd rfl hc
  | some v => rfl

theorem each_members {members members' : List (Text × Node)} (h : each f (.obj members) = .ok (.obj members')) :
    List.Forall₂ (fun m m' => m'.1 = m.1 ∧ f m.2 = .ok m'.2) members members' := by
  obtain ⟨members'',hmembers,heq⟩ := map_eq_ok.mp h
  cases heq
  refine (mapM_eq_ok.mp hmembers).imp fun m m' hm => ?_
  obtain ⟨v,hv,rfl⟩ := map_eq_ok.mp hm
  exact ⟨rfl,hv⟩

theorem within_each {D : Node → Path → Prop} (hf : ∀ x y, f x = .ok y → Within (D x) x y) (h : each f t = .ok u) :
    Within (fun p => (∃ i x c, follow [.item i] t = some x ∧ D x c ∧ p = .item i :: c) ∨
      ∃ members m c, t = .obj members ∧ m ∈ members ∧ D m.2 c ∧ p = .member m.1 :: c) t u := by
  cases t with
  | leaf a => cases h
  | arr items =>
    obtain ⟨items',hitems,rfl⟩ := map_eq_ok.mp h
    have hall := mapM_eq_ok.mp hitems
    have hwithin : Within (fun p => ∃ i c, (∃ x, items[i]? = some x ∧ D x c) ∧ p = .item i :: c)
        (.arr items) (.arr items') := by
      apply within_items hall.length_eq.symm
      intro i x y hx hy
      obtain ⟨hi,rfl⟩ := List.getElem?_eq_some_iff.mp hx
      obtain ⟨hi',rfl⟩ := List.getElem?_eq_some_iff.mp hy
      exact (hf _ _ (hall.get hi hi')).mono fun c hc => ⟨_,hx,hc⟩
    apply hwithin.mono
    rintro p ⟨i,c,⟨x,hx,hc⟩,hp⟩
    refine Or.inl ⟨i,x,c,?_,hc,hp⟩
    rw [follow_item,hx]
    rfl
  | obj members =>
    obtain ⟨members',-,rfl⟩ := map_eq_ok.mp h
    have hwithin := within_members ((each_members h).imp fun m m' hm => ⟨hm.1,hf _ _ hm.2⟩)
    apply hwithin.mono
    rintro p ⟨m,hm,c,hc,hp⟩
    exact Or.inr ⟨members,m,c,rfl,hm,hc,hp⟩

theorem follow_each {i : ℕ} {x : Node} (h : each f t = .ok u) (hx : follow [.item i] t = some x) :
    ∃ y, f x = .ok y ∧ ∀ q, follow (.item i :: q) u = follow q y := by
  cases t with
  | leaf a => cases h
  | obj members => cases hx
  | arr items =>
    obtain ⟨items',hitems,rfl⟩ := map_eq_ok.mp h
    have hall := mapM_eq_ok.mp hitems
    rw [follow_item] at hx
    obtain ⟨x',hx',hfollow⟩ := Option.bind_eq_some_iff.mp hx
    cases hfollow
    obtain ⟨hi,rfl⟩ := List.getElem?_eq_some_iff.mp hx'
    have hi' : i < items'.length := hall.length_eq ▸ hi
    refine ⟨_,hall.get hi hi',fun q => ?_⟩
    rw [follow_item,List.getElem?_eq_getElem hi',Option.bind_some]
    rfl

theorem add_spec (h : add [v] t = .ok u) : ∃ old, (t = null ∧ old = [] ∨ t = .arr old) ∧ u = .arr (old ++ [v]) ∧
    Within (· = [.item old.length]) t u := by
  cases t with
  | obj members => cases h
  | arr old =>
    cases h
    exact ⟨old,Or.inr rfl,rfl,within_append old v⟩
  | leaf a =>
    cases a with
    | null =>
      cases h
      refine ⟨[],Or.inl ⟨rfl,rfl⟩,rfl,fun q hq => ?_⟩
      cases q with
      | nil => exact absurd (hq _ rfl) (not_nil_apart _)
      | cons s q =>
        rw [follow_leaf (List.cons_ne_nil s q)]
        cases s with
        | member k => rfl
        | item i =>
          cases i with
          | zero => exact absurd (hq _ rfl) fun h => h.2 ⟨q,rfl⟩
          | succ i => rfl
    | bool b => cases h
    | num l => cases h
    | str s => cases h
    | nan => cases h
    | infinity n => cases h

end Rules

end Oidc4acLab.Jq
