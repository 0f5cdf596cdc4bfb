import Oidc4acLab.Builder.Suggestions

/-! # The texts of a factor without rows

A factor shows a text in place of its property rows and one in place of its metadata rows.
Adding or removing a row counts the rows of the class that belongs to its kind and hides the
text of this kind. A metadata row has the class of a property row too.
-/
namespace Oidc4acLab.Builder.Elements
open Text Transition

def templateClasses : Kind → List Text
  | .property => [js "property-row"]
  | .metadata => [js "property-row",js "metadata-row"]

/-- What `querySelectorAll` finds of a class in a factor, in document order. -/
def FactorCard.rowsOfClass (factor : FactorCard) (name : Text) : List RowElement :=
  [Kind.metadata,Kind.property].flatMap fun kind =>
    if (templateClasses kind).contains name then factor.rows kind else []

/-- A factor whose two texts have the class `hidden` or not. -/
structure ShownCard where
  card : FactorCard
  propertyHidden : Bool
  metadataHidden : Bool
  deriving DecidableEq

namespace ShownCard

def hidden (factor : ShownCard) : Kind → Bool
  | .property => factor.propertyHidden
  | .metadata => factor.metadataHidden

def setHidden (factor : ShownCard) (kind : Kind) (hidden : Bool) : ShownCard :=
  match kind with
  | .property => { factor with propertyHidden := hidden }
  | .metadata => { factor with metadataHidden := hidden }

def refreshEmptyState (factor : ShownCard) (kind : Kind) : ShownCard :=
  factor.setHidden kind (decide (0 < (factor.card.rowsOfClass (kindName kind ++ js "-row")).length))

def addConstraint (factor : ShownCard) (kind : Kind) : ShownCard :=
  refreshEmptyState { factor with card := factor.card.addConstraint kind } kind

def removeRow (factor : ShownCard) (kind : Kind) (k : ℕ) : ShownCard :=
  refreshEmptyState { factor with card := factor.card.removeRow kind k } kind

end ShownCard

/-- The factor of a model, a new one if the model has no rows. -/
def shownCard (nodeId : Text) (model : FactorModel) : ShownCard :=
  let factor := model.properties.foldl (fun factor _ => factor.addConstraint .property) ⟨newCard nodeId,false,false⟩
  model.metadata.foldl (fun factor _ => factor.addConstraint .metadata) factor

inductive RowAction
  | add (kind : Kind)
  | remove (kind : Kind) (k : ℕ)

def rowStep (factor : ShownCard) : RowAction → Option ShownCard
  | .add kind => some (factor.addConstraint kind)
  | .remove kind k => if k < (factor.card.rows kind).length then some (factor.removeRow kind k) else none

/-- Each text is visible exactly if there are no rows in its place. -/
def Truthful (factor : ShownCard) : Prop := ∀ kind, factor.hidden kind = false ↔ factor.card.rows kind = []

/-- The only property row is removed where there is no metadata row. -/
def LeavesNothing (factor : ShownCard) : RowAction → Prop
  | .remove .property k => k = 0 ∧ factor.card.propertyList.length = 1 → factor.card.metadataList = []
  | _ => True

@[simp] theorem card_setHidden (factor : ShownCard) (kind : Kind) (hidden : Bool) :
    (factor.setHidden kind hidden).card = factor.card := by
  cases kind <;> rfl

@[simp] theorem hidden_setHidden (factor : ShownCard) (kind kind' : Kind) (hidden : Bool) :
    (factor.setHidden kind hidden).hidden kind' = if kind' = kind then hidden else factor.hidden kind' := by
  cases kind <;> cases kind' <;> rfl

@[simp] theorem card_refreshEmptyState (factor : ShownCard) (kind : Kind) :
    (factor.refreshEmptyState kind).card = factor.card := card_setHidden factor kind _

theorem rowsOfClass_metadata (factor : FactorCard) :
    factor.rowsOfClass (kindName .metadata ++ js "-row") = factor.metadataList := by
  have hmetadata : kindName .metadata ++ js "-row" ∈ templateClasses .metadata := by decide
  have hproperty : kindName .metadata ++ js "-row" ∉ templateClasses .property := by decide
  simp [FactorCard.rowsOfClass,hmetadata,hproperty,FactorCard.rows]

theorem rowsOfClass_property (factor : FactorCard) :
    factor.rowsOfClass (kindName .property ++ js "-row") = factor.metadataList ++ factor.propertyList := by
  have hall : ∀ kind, kindName .property ++ js "-row" ∈ templateClasses kind := by
    intro kind
    cases kind <;> decide
  simp [FactorCard.rowsOfClass,hall,FactorCard.rows]

theorem hidden_refreshEmptyState (factor : ShownCard) (kind : Kind) :
    (factor.refreshEmptyState kind).hidden kind = false ↔
      factor.card.rows kind = [] ∧ (kind = .property → factor.card.metadataList = []) := by
  rw [ShownCard.refreshEmptyState,hidden_setHidden,if_pos rfl,decide_eq_false_iff_not,List.length_pos_iff,not_not]
  cases kind with
  | property =>
    rw [rowsOfClass_property,List.append_eq_nil_iff,and_comm]
    exact and_congr_right fun _ => ⟨fun h _ => h,fun h => h rfl⟩
  | metadata =>
    rw [rowsOfClass_metadata]
    exact (and_iff_left fun h => nomatch h).symm

/-- After refreshing its text a kind tells the truth unless metadata rows are left without property rows. -/
theorem truthful_refreshEmptyState {factor : ShownCard} {kind : Kind}
    (h : ∀ kind', kind' ≠ kind → (factor.hidden kind' = false ↔ factor.card.rows kind' = [])) :
    Truthful (factor.refreshEmptyState kind) ↔
      (kind = .property → factor.card.rows kind = [] → factor.card.metadataList = []) := by
  have hown := hidden_refreshEmptyState factor kind
  constructor
  · intro ht hkind hrows
    have hshown := (ht kind).mpr (by rwa [card_refreshEmptyState])
    exact (hown.mp hshown).2 hkind
  · intro hleft kind'
    rw [card_refreshEmptyState]
    by_cases hk : kind' = kind
    · rw [hk,hown]
      exact and_iff_left_of_imp fun hrows hkind => hleft hkind hrows
    · rw [ShownCard.refreshEmptyState,hidden_setHidden,if_neg hk]
      exact h kind' hk

theorem truthful_setRows {factor : ShownCard} (h : Truthful factor) (kind : Kind) (rows : List RowElement) :
    Truthful (ShownCard.refreshEmptyState { factor with card := factor.card.setRows kind rows } kind) ↔
      (kind = .property → rows = [] → factor.card.metadataList = []) := by
  rw [truthful_refreshEmptyState]
  · simp only [FactorCard.rows_setRows,if_true]
    refine forall_congr' fun hkind => ?_
    subst hkind
    rfl
  · intro kind' hne
    rw [FactorCard.rows_setRows,if_neg hne]
    exact h kind'

theorem truthful_addConstraint {factor : ShownCard} (h : Truthful factor) (kind : Kind) :
    Truthful (factor.addConstraint kind) := by
  refine (truthful_setRows h kind _).mpr fun _ hrows => ?_
  exact absurd hrows (List.append_ne_nil_of_right_ne_nil _ (List.cons_ne_nil _ _))

theorem rowStep_truthful {factor factor' : ShownCard} {a : RowAction} (h : Truthful factor)
    (hs : rowStep factor a = some factor') : Truthful factor' ↔ LeavesNothing factor a := by
  cases a with
  | add kind =>
    cases hs
    exact iff_of_true (truthful_addConstraint h kind) trivial
  | remove kind k =>
    rw [rowStep] at hs
    split_ifs at hs with hk
    cases hs
    rw [ShownCard.removeRow,FactorCard.removeRow,truthful_setRows h]
    cases kind with
    | metadata =>
      refine iff_of_true ?_ trivial
      intro hkind
      cases hkind
    | property =>
      have hlast : (factor.card.rows .property).eraseIdx k = [] ↔ k = 0 ∧ factor.card.propertyList.length = 1 := by
        rw [← List.length_eq_zero_iff,List.length_eraseIdx_of_lt hk]
        have hk' : k < factor.card.propertyList.length := hk
        have hrows : factor.card.rows .property = factor.card.propertyList := rfl
        rw [hrows]
        omega
      rw [hlast,LeavesNothing]
      exact forall_prop_of_true rfl

theorem foldl_addConstraint_truthful {A : Type} {factor : ShownCard} (h : Truthful factor) (kind : Kind) (rows : List A) :
    Truthful (rows.foldl (fun factor _ => factor.addConstraint kind) factor) := by
  induction rows generalizing factor with
  | nil => exact h
  | cons row rows ih => exact ih (truthful_addConstraint h kind)

theorem shownCard_truthful (nodeId : Text) (model : FactorModel) : Truthful (shownCard nodeId model) := by
  have hnew : Truthful ⟨newCard nodeId,false,false⟩ := by
    intro kind
    cases kind <;> exact iff_of_true rfl rfl
  exact foldl_addConstraint_truthful (foldl_addConstraint_truthful hnew .property _) .metadata _

theorem foldl_addConstraint_card {A : Type} (factor : ShownCard) (kind : Kind) (rows : List A) :
    (rows.foldl (fun factor _ => factor.addConstraint kind) factor).card =
      rows.foldl (fun card _ => card.addConstraint kind) factor.card := by
  induction rows generalizing factor with
  | nil => rfl
  | cons row rows ih =>
    rw [List.foldl_cons,List.foldl_cons,ih,ShownCard.addConstraint,card_refreshEmptyState]

theorem card_shownCard (nodeId : Text) (model : FactorModel) :
    (shownCard nodeId model).card = factorCard nodeId model := by
  simp only [shownCard,factorCard,foldl_addConstraint_card]

/-- Both texts tell the truth in every state of a run exactly if the only property row was never removed from
beside a metadata row. -/
theorem placeholders_truthful_iff (nodeId : Text) (model : FactorModel) (actions : List RowAction) :
    (∀ n factor, run rowStep (shownCard nodeId model) (actions.take n) = some factor → Truthful factor) ↔
      Along rowStep LeavesNothing (shownCard nodeId model) actions := by
  refine along_iff_reached (I := fun _ => True) ?_ ?_ trivial (shownCard_truthful nodeId model) actions
  · intro factor a factor' _ h hs
    exact ⟨trivial,rowStep_truthful h hs⟩
  · intro factor a hs
    cases a with
    | add kind => trivial
    | remove kind k =>
      cases kind with
      | metadata => trivial
      | property =>
        rintro ⟨rfl,hlength⟩
        rw [rowStep,if_pos (by rw [FactorCard.rows,hlength]; exact Nat.one_pos)] at hs
        cases hs

/-- A metadata row and a property row are added to a new factor, and the property row is removed. -/
def propertyWithdrawn : List RowAction := [.add .metadata,.add .property,.remove .property 0]

/-- The text for no properties stays hidden. -/
theorem withdrawn_property_hidden : ∃ factor, run rowStep (shownCard (js "node-1") {}) propertyWithdrawn = some factor ∧
    factor.card.rows .property = [] ∧ factor.hidden .property = true :=
  ⟨_,rfl,rfl,rfl⟩

end Oidc4acLab.Builder.Elements
