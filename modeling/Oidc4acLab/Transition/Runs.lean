import Mathlib.Order.Basic

/-! # Finite executions of a guarded transition function

A transition function returns `none` on a label that is not enabled. Executions
are lists of labels, so that a result about every run is a result about every
list whose execution succeeds. The guarded invariant rule carries a condition on
the state before each step along the execution.
-/
namespace Oidc4acLab.Transition
variable {S L : Type*} {next : S → L → Option S}

/-- Executes the labels from left to right and stops at the first disabled one. -/
def run (next : S → L → Option S) : S → List L → Option S
  | s, [] => some s
  | s, l :: ls => (next s l).bind (fun t => run next t ls)

@[simp] theorem run_nil (s : S) : run next s [] = some s := rfl

@[simp] theorem run_cons (s : S) (l : L) (ls : List L) :
    run next s (l :: ls) = (next s l).bind (fun t => run next t ls) := rfl

theorem run_append (s : S) (xs ys : List L) :
    run next s (xs ++ ys) = (run next s xs).bind (fun t => run next t ys) := by
  induction xs generalizing s with
  | nil => rfl
  | cons l xs ih =>
    rw [List.cons_append, run_cons, run_cons, Option.bind_assoc]
    exact congrArg (Option.bind (next s l)) (funext ih)

theorem run_snoc {s t u : S} {ls : List L} {l : L} (hr : run next s ls = some t) (he : next t l = some u) :
    run next s (ls ++ [l]) = some u := by
  rw [run_append, hr]
  simp [he]

/-- The states that some execution from the initial state ends in. -/
def Reachable (next : S → L → Option S) (initial s : S) : Prop :=
  ∃ ls, run next initial ls = some s

theorem Reachable.refl (s : S) : Reachable next s s := ⟨[],rfl⟩

theorem Reachable.run {initial s t : S} {ls : List L} (h : Reachable next initial s)
    (hr : Transition.run next s ls = some t) : Reachable next initial t := by
  obtain ⟨ks,hk⟩ := h
  exact ⟨ks ++ ls,by rw [run_append, hk]; exact hr⟩

theorem Reachable.step {initial s t : S} {l : L} (h : Reachable next initial s)
    (he : next s l = some t) : Reachable next initial t := by
  have hr : Transition.run next s [l] = some t := by simp [he]
  exact h.run hr

/-- Every label of the execution is taken in a state in which `G` admits it. -/
def Along (next : S → L → Option S) (G : S → L → Prop) : S → List L → Prop
  | _, [] => True
  | s, l :: ls => G s l ∧ ∀ t, next s l = some t → Along next G t ls

/-- Some execution that `G` admits leads to a state with the property. -/
def Leads (next : S → L → Option S) (G : S → L → Prop) (s : S) (P : S → Prop) : Prop :=
  ∃ ls t, Along next G s ls ∧ run next s ls = some t ∧ P t

theorem Leads.here {G : S → L → Prop} {P : S → Prop} {s : S} (h : P s) : Leads next G s P :=
  ⟨[],s,trivial,rfl,h⟩

theorem Leads.step {G : S → L → Prop} {P : S → Prop} {s t : S} {l : L} (hg : G s l) (he : next s l = some t)
    (h : Leads next G t P) : Leads next G s P := by
  obtain ⟨ls,u,hls,hr,hp⟩ := h
  refine ⟨l :: ls,u,⟨hg,?_⟩,?_,hp⟩
  · intro t' ht'
    rw [he] at ht'
    cases ht'
    exact hls
  · rw [run_cons, he]
    exact hr

theorem Along.append {G : S → L → Prop} {s t : S} {xs ys : List L} (h : Along next G s (xs ++ ys))
    (hr : run next s xs = some t) : Along next G t ys := by
  induction xs generalizing s with
  | nil =>
    cases hr
    exact h
  | cons l xs ih =>
    obtain ⟨u,hu,hr⟩ := Option.bind_eq_some_iff.mp hr
    exact ih (h.2 u hu) hr

theorem Along.left {G : S → L → Prop} {s : S} {xs ys : List L} (h : Along next G s (xs ++ ys)) :
    Along next G s xs := by
  induction xs generalizing s with
  | nil => trivial
  | cons l xs ih => exact ⟨h.1,fun t ht => ih (h.2 t ht)⟩

theorem Along.and {G H : S → L → Prop} {s : S} {ls : List L} (hg : Along next G s ls)
    (hh : Along next H s ls) : Along next (fun s l => G s l ∧ H s l) s ls := by
  induction ls generalizing s with
  | nil => trivial
  | cons l ls ih => exact ⟨⟨hg.1,hh.1⟩,fun t ht => ih (hg.2 t ht) (hh.2 t ht)⟩

theorem Along.of_forall {G : S → L → Prop} (h : ∀ s l, G s l) (s : S) (ls : List L) :
    Along next G s ls := by
  induction ls generalizing s with
  | nil => trivial
  | cons l ls ih => exact ⟨h s l,fun t _ => ih t⟩

/-- An execution that `G` does not admit has an admitted first part that ends before a label
that `G` rejects. -/
theorem exists_rejected {G : S → L → Prop} {s t : S} {ls : List L} (hr : run next s ls = some t)
    (h : ¬ Along next G s ls) :
    ∃ xs l ys u, ls = xs ++ l :: ys ∧ Along next G s xs ∧ run next s xs = some u ∧ ¬ G u l := by
  induction ls generalizing s with
  | nil => exact absurd trivial h
  | cons l ls ih =>
    obtain ⟨u,hu,hr⟩ := Option.bind_eq_some_iff.mp hr
    by_cases hg : G s l
    · have hrest : ¬ Along next G u ls := by
        intro hall
        refine h ⟨hg,?_⟩
        intro u' hu'
        rw [hu] at hu'
        cases hu'
        exact hall
      obtain ⟨xs,l',ys,v,rfl,hxs,hv,hbad⟩ := ih hr hrest
      refine ⟨l :: xs,l',ys,v,rfl,⟨hg,?_⟩,?_,hbad⟩
      · intro u' hu'
        rw [hu] at hu'
        cases hu'
        exact hxs
      · rw [run_cons, hu]
        exact hv
    · exact ⟨[],l,ls,s,rfl,trivial,rfl,hg⟩

/-- A property kept by every step that `G` admits holds after every execution
whose steps `G` admits. -/
theorem run_invariant_along {I : S → Prop} {G : S → L → Prop}
    (hstep : ∀ {s l t}, I s → G s l → next s l = some t → I t) {s t : S} {ls : List L}
    (hs : I s) (hg : Along next G s ls) (hr : run next s ls = some t) : I t := by
  induction ls generalizing s with
  | nil => cases hr; exact hs
  | cons l ls ih =>
    obtain ⟨u,hu,hr⟩ := Option.bind_eq_some_iff.mp hr
    exact ih (hstep hs hg.1 hu) (hg.2 u hu) hr

theorem along_congr {I : S → Prop} {G H : S → L → Prop}
    (hstep : ∀ {s l t}, I s → next s l = some t → I t) (h : ∀ {s l}, I s → (G s l ↔ H s l)) {s : S}
    (hs : I s) (ls : List L) : Along next G s ls ↔ Along next H s ls := by
  induction ls generalizing s with
  | nil => exact Iff.rfl
  | cons l ls ih =>
    constructor
    · intro hg
      exact ⟨(h hs).mp hg.1,fun t ht => (ih (hstep hs ht)).mp (hg.2 t ht)⟩
    · intro hg
      exact ⟨(h hs).mpr hg.1,fun t ht => (ih (hstep hs ht)).mpr (hg.2 t ht)⟩

theorem Along.imp {I : S → Prop} {G H : S → L → Prop}
    (hstep : ∀ {s l t}, I s → G s l → next s l = some t → I t) (h : ∀ {s l}, I s → H s l) {s : S}
    (hs : I s) {ls : List L} (hg : Along next G s ls) : Along next H s ls := by
  induction ls generalizing s with
  | nil => trivial
  | cons l ls ih => exact ⟨h hs,fun t ht => ih (hstep hs hg.1 ht) (hg.2 t ht)⟩

instance Along.decide (next : S → L → Option S) (G : S → L → Prop) [∀ s l, Decidable (G s l)] :
    (s : S) → (ls : List L) → Decidable (Along next G s ls)
  | _, [] => .isTrue trivial
  | s, l :: ls =>
    have : Decidable (∀ t, next s l = some t → Along next G t ls) :=
      match next s l with
      | none => .isTrue (fun _ ht => nomatch ht)
      | some u =>
        have := Along.decide next G u ls
        decidable_of_iff (Along next G u ls) ⟨fun hu _ ht => Option.some.inj ht ▸ hu,fun hu => hu u rfl⟩
    inferInstanceAs (Decidable (G s l ∧ ∀ t, next s l = some t → Along next G t ls))

/-- A property that a step keeps exactly if `G` admits it holds in every state of an execution exactly
if `G` admits the execution. -/
theorem along_iff_reached {I P : S → Prop} {G : S → L → Prop}
    (hstep : ∀ {s l t}, I s → P s → next s l = some t → I t ∧ (P t ↔ G s l))
    (hnone : ∀ {s l}, next s l = none → G s l) {s : S} (hI : I s) (hP : P s) (ls : List L) :
    (∀ n t, run next s (ls.take n) = some t → P t) ↔ Along next G s ls := by
  induction ls generalizing s with
  | nil =>
    refine iff_of_true ?_ trivial
    intro n t hr
    rw [List.take_nil] at hr
    cases hr
    exact hP
  | cons l ls ih =>
    constructor
    · intro hall
      have hfirst : ∀ t, next s l = some t → P t := by
        intro t ht
        exact hall 1 t (by rw [List.take_succ_cons,List.take_zero,run_cons,ht]; rfl)
      have hG : G s l := by
        cases ht : next s l with
        | none => exact hnone ht
        | some t => exact (hstep hI hP ht).2.mp (hfirst t ht)
      refine ⟨hG,fun t ht => ?_⟩
      refine (ih (hstep hI hP ht).1 (hfirst t ht)).mp fun n u hr => ?_
      exact hall (n+1) u (by rw [List.take_succ_cons,run_cons,ht]; exact hr)
    · rintro ⟨hG,hrest⟩ n t hr
      cases n with
      | zero =>
        cases hr
        exact hP
      | succ n =>
        rw [List.take_succ_cons,run_cons] at hr
        obtain ⟨u,hu,hr⟩ := Option.bind_eq_some_iff.mp hr
        obtain ⟨hIu,hiff⟩ := hstep hI hP hu
        exact (ih hIu (hiff.mpr hG)).mpr (hrest u hu) n t hr

theorem run_invariant {I : S → Prop} (hstep : ∀ {s l t}, I s → next s l = some t → I t)
    {s t : S} {ls : List L} (hs : I s) (hr : run next s ls = some t) : I t := by
  induction ls generalizing s with
  | nil => cases hr; exact hs
  | cons l ls ih =>
    obtain ⟨u,hu,hr⟩ := Option.bind_eq_some_iff.mp hr
    exact ih (hstep hs hu) hr

theorem Reachable.invariant {I : S → Prop} (hstep : ∀ {s l t}, I s → next s l = some t → I t)
    {initial s : S} (hi : I initial) (h : Reachable next initial s) : I s := by
  obtain ⟨ls,hr⟩ := h
  exact run_invariant hstep hi hr

end Oidc4acLab.Transition
