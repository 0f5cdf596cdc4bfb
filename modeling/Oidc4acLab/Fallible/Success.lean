import Mathlib.Data.List.Forall2

/-! # Successful runs of fallible computations

A computation in `Except` succeeds when each of its parts does; a traversal succeeds
when the results are related to the items one by one.
-/
namespace Oidc4acLab.Fallible

variable {ε α β γ : Type}

theorem bind_eq_ok {x : Except ε α} {f : α → Except ε β} {b : β} :
    (x >>= f) = .ok b ↔ ∃ a, x = .ok a ∧ f a = .ok b := by
  cases x with
  | error e => simp [bind,Except.bind]
  | ok a => simp [bind,Except.bind]

theorem map_eq_ok {x : Except ε α} {f : α → β} {b : β} :
    x.map f = .ok b ↔ ∃ a, x = .ok a ∧ f a = b := by
  cases x with
  | error e => simp [Except.map]
  | ok a => simp [Except.map]

theorem mapError_eq_ok {δ : Type} {f : ε → δ} {x : Except ε β} {b : β} : x.mapError f = .ok b ↔ x = .ok b := by
  cases x with
  | error e => simp [Except.mapError]
  | ok a => simp [Except.mapError]

theorem ite_eq_ok {c : Prop} [Decidable c] {e : ε} {x : Except ε β} {b : β} :
    (if c then .error e else x) = .ok b ↔ ¬ c ∧ x = .ok b := by
  by_cases h : c
  · simp [h]
  · simp [h]

@[simp] theorem pure_eq_ok {a b : α} : (pure a : Except ε α) = .ok b ↔ a = b := by
  simp [pure,Except.pure]

theorem ok_of_toOption {x : Except ε α} {a : α} (h : x.toOption = some a) : x = .ok a := by
  cases x with
  | error e => cases h
  | ok b =>
    cases h
    rfl

theorem mapM_eq_ok {f : α → Except ε β} {xs : List α} {ys : List β} :
    xs.mapM f = .ok ys ↔ List.Forall₂ (fun x y => f x = .ok y) xs ys := by
  induction xs generalizing ys with
  | nil =>
    rw [List.mapM_nil,pure_eq_ok,List.forall₂_nil_left_iff]
    exact eq_comm
  | cons x xs ih =>
    rw [List.mapM_cons,bind_eq_ok,List.forall₂_cons_left_iff]
    constructor
    · rintro ⟨y,hy,h⟩
      obtain ⟨ys',hys,h⟩ := bind_eq_ok.mp h
      exact ⟨y,ys',hy,ih.mp hys,(pure_eq_ok.mp h).symm⟩
    · rintro ⟨y,ys',hy,hys,rfl⟩
      exact ⟨y,hy,bind_eq_ok.mpr ⟨ys',ih.mpr hys,rfl⟩⟩

theorem exists_forall₂ {R : α → β → Prop} {xs : List α} (h : ∀ x ∈ xs, ∃ y, R x y) :
    ∃ ys, List.Forall₂ R xs ys := by
  induction xs with
  | nil => exact ⟨[],.nil⟩
  | cons x xs ih =>
    obtain ⟨y,hy⟩ := h x List.mem_cons_self
    obtain ⟨ys,hys⟩ := ih fun z hz => h z (List.mem_cons_of_mem x hz)
    exact ⟨y :: ys,.cons hy hys⟩

theorem mapM_eq_error {f : α → Except ε β} {xs : List α} {e : ε} (h : xs.mapM f = .error e) :
    ∃ x ∈ xs, f x = .error e := by
  induction xs with
  | nil => cases h
  | cons x xs ih =>
    rw [List.mapM_cons] at h
    cases hx : f x with
    | error e' =>
      rw [hx] at h
      cases h
      exact ⟨x,List.mem_cons_self,hx⟩
    | ok y =>
      rw [hx] at h
      cases hxs : xs.mapM f with
      | error e' =>
        rw [hxs] at h
        cases h
        obtain ⟨z,hz,hfz⟩ := ih hxs
        exact ⟨z,List.mem_cons_of_mem x hz,hfz⟩
      | ok ys =>
        rw [hxs] at h
        cases h

theorem exists_of_mem_right {R : α → β → Prop} {xs : List α} {ys : List β} (h : List.Forall₂ R xs ys) {y : β}
    (hy : y ∈ ys) : ∃ x ∈ xs, R x y := by
  induction h with
  | nil => cases hy
  | @cons x z xs ys hR _ ih =>
    rcases List.mem_cons.mp hy with rfl | hy
    · exact ⟨x,List.mem_cons_self,hR⟩
    · obtain ⟨x',hx',hR'⟩ := ih hy
      exact ⟨x',List.mem_cons_of_mem x hx',hR'⟩

theorem forall₂_comp {R : α → β → Prop} {S : β → γ → Prop} {xs : List α} {zs : List γ} :
    (∃ ys, List.Forall₂ R xs ys ∧ List.Forall₂ S ys zs) ↔
      List.Forall₂ (fun x z => ∃ y, R x y ∧ S y z) xs zs := by
  constructor
  · rintro ⟨ys,hxy,hyz⟩
    induction hxy generalizing zs with
    | nil =>
      cases hyz
      exact .nil
    | cons hR _ ih =>
      cases hyz with
      | cons hS hyz => exact .cons ⟨_,hR,hS⟩ (ih hyz)
  · intro h
    induction h with
    | nil => exact ⟨[],.nil,.nil⟩
    | cons hxz _ ih =>
      obtain ⟨y,hR,hS⟩ := hxz
      obtain ⟨ys,hxy,hyz⟩ := ih
      exact ⟨y :: ys,.cons hR hxy,.cons hS hyz⟩

/-- A loop whose rounds fail by themselves is a traversal and a loop that does not fail. -/
theorem foldlM_eq_ok {f : β → α → Except ε β} {g : α → Except ε γ} {h : β → γ → β}
    (hf : ∀ b x b', f b x = .ok b' ↔ ∃ y, g x = .ok y ∧ h b y = b') {xs : List α} {b b' : β} :
    xs.foldlM f b = .ok b' ↔ ∃ ys, xs.mapM g = .ok ys ∧ ys.foldl h b = b' := by
  induction xs generalizing b with
  | nil => simp [pure_eq_ok]
  | cons x xs ih =>
    rw [List.foldlM_cons,List.mapM_cons,bind_eq_ok]
    constructor
    · rintro ⟨c,hc,hxs⟩
      obtain ⟨y,hy,rfl⟩ := (hf b x c).mp hc
      obtain ⟨ys,hys,rfl⟩ := ih.mp hxs
      exact ⟨y :: ys,bind_eq_ok.mpr ⟨y,hy,bind_eq_ok.mpr ⟨ys,hys,rfl⟩⟩,rfl⟩
    · rintro ⟨zs,hzs,rfl⟩
      obtain ⟨y,hy,h⟩ := bind_eq_ok.mp hzs
      obtain ⟨ys,hys,h⟩ := bind_eq_ok.mp h
      cases pure_eq_ok.mp h
      exact ⟨_,(hf b x _).mpr ⟨y,hy,rfl⟩,ih.mpr ⟨ys,hys,rfl⟩⟩

theorem foldlM_keeps {f : β → α → Except ε β} {I : β → Prop} {xs : List α} {b b' : β}
    (hf : ∀ x ∈ xs, ∀ b b', f b x = .ok b' → I b → I b') (h : xs.foldlM f b = .ok b') (hb : I b) :
    I b' := by
  induction xs generalizing b with
  | nil =>
    rw [List.foldlM_nil,pure_eq_ok] at h
    rwa [← h]
  | cons x xs ih =>
    obtain ⟨c,hc,h⟩ := bind_eq_ok.mp ((List.foldlM_cons).symm.trans h)
    have hkeep := hf x List.mem_cons_self b c hc hb
    exact ih (fun y hy => hf y (List.mem_cons_of_mem x hy)) h hkeep

end Oidc4acLab.Fallible
