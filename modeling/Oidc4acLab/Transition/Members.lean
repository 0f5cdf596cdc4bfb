import Mathlib.Data.List.Basic

/-! # Properties of the members of a list that grows and changes

The members of a distributed state (sessions, threads) are addressed by their
position. A step replaces one member or adds one at the end.
-/
namespace Oidc4acLab.Transition
variable {A : Type*} {xs : List A} {a b : A} {j k : ℕ}

theorem getElem?_set_cases (h : (xs.set j a)[k]? = some b) :
    k ≠ j ∧ xs[k]? = some b ∨ k = j ∧ b = a := by
  rw [List.getElem?_set] at h
  split at h
  · rename_i hjk
    split at h
    · exact Or.inr ⟨hjk.symm,(Option.some.inj h).symm⟩
    · cases h
  · rename_i hjk
    exact Or.inl ⟨Ne.symm hjk,h⟩

theorem getElem?_append_cases (h : (xs ++ [a])[k]? = some b) :
    xs[k]? = some b ∨ k = xs.length ∧ b = a := by
  rcases Nat.lt_or_ge k xs.length with hlt | hge
  · rw [List.getElem?_append_left hlt] at h
    exact Or.inl h
  · rw [List.getElem?_append_right hge, List.getElem?_singleton] at h
    split at h
    · exact Or.inr ⟨by omega,(Option.some.inj h).symm⟩
    · cases h

theorem getElem?_append_of_some {ys : List A} (h : xs[k]? = some a) : (xs ++ ys)[k]? = some a := by
  rw [List.getElem?_append_left (List.getElem?_eq_some_iff.mp h).1, h]

theorem getElem?_set_of_some (h : xs[j]? = some b) : (xs.set j a)[j]? = some a := by
  have hlt : j < xs.length := (List.getElem?_eq_some_iff.mp h).1
  simp [hlt]

theorem getElem?_modify_cases {f : A → A} (h : (xs.modify j f)[k]? = some b) :
    ∃ a, xs[k]? = some a ∧ (k ≠ j ∧ b = a ∨ k = j ∧ b = f a) := by
  rw [List.getElem?_modify] at h
  obtain ⟨a,ha,he⟩ := Option.map_eq_some_iff.mp h
  refine ⟨a,ha,?_⟩
  split at he
  · rename_i hjk
    exact Or.inr ⟨hjk.symm,he.symm⟩
  · rename_i hjk
    exact Or.inl ⟨Ne.symm hjk,he.symm⟩

/-- Every member keeps a property when the replaced one gains it and the others
keep it. -/
theorem forall_set {P Q : ℕ → A → Prop} (h : ∀ k b, xs[k]? = some b → P k b)
    (hown : Q j a) (hother : ∀ k b, k ≠ j → xs[k]? = some b → P k b → Q k b) :
    ∀ k b, (xs.set j a)[k]? = some b → Q k b := by
  intro k b hb
  rcases getElem?_set_cases hb with ⟨hne,hb⟩ | ⟨rfl,rfl⟩
  · exact hother k b hne hb (h k b hb)
  · exact hown

theorem forall_append {P : ℕ → A → Prop} (h : ∀ k b, xs[k]? = some b → P k b)
    (hnew : P xs.length a) : ∀ k b, (xs ++ [a])[k]? = some b → P k b := by
  intro k b hb
  rcases getElem?_append_cases hb with hb | ⟨rfl,rfl⟩
  · exact h k b hb
  · exact hnew

end Oidc4acLab.Transition
