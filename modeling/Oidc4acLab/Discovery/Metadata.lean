import Oidc4acLab.Python.Json
import Oidc4acLab.Text.CodePoints
import Mathlib.Data.List.Lex

/-! # Discovery metadata of the test client

The builder follows names through the discovery document: from the identifiers to the lists
of properties and metadata of each, and from these to lists of values. The result page keeps
the members of the document whose names begin as expected. The two agree exactly if every
list that the builder follows is among those members.
-/
namespace Oidc4acLab.Discovery
open Python Oidc4acLab.Tree

/-- A dictionary that `json` loaded. -/
abbrev Document := List (Text × Value)

/-- The list under a name, and an empty one where there is no list. -/
def listAt (document : Document) (name : Text) : List Value :=
  match document.lookup name with
  | some (.arr items) => items
  | _ => []

def strings (items : List Value) : List Text :=
  items.filterMap fun item => match item with
    | .leaf (.str t) => some t
    | _ => none

inductive Kind
  | properties
  | metadata

def Kind.supported : Kind → Text
  | .properties => js "_properties_supported"
  | .metadata => js "_metadata_supported"

def valuesSupported (name : Text) : Text := name ++ js "_values_supported"

def advertised (document : Document) (kind : Kind) (identifier : Text) : List Text :=
  strings (listAt document (identifier ++ kind.supported))

def suggestion (document : Document) (name : Text) : Value :=
  .obj [(js "values",.arr (listAt document (valuesSupported name)))]

def suggestions (document : Document) (kind : Kind) (identifier : Text) : Document :=
  storeAll ((advertised document kind identifier).map fun name => (name,suggestion document name))

def method (document : Document) (identifier : Text) : Value :=
  .obj [(js "metadata",.obj (suggestions document .metadata identifier)),
    (js "properties",.obj (suggestions document .properties identifier))]

def identifiers (document : Document) : List Text := strings (listAt document (js "amr_identifiers_supported"))

def methods (document : Document) : Document :=
  storeAll ((identifiers document).map fun identifier => (identifier,method document identifier))

/-- `sorted`: strings are compared by their code points. -/
def sorted (names : List Text) : List Text := names.mergeSort fun a b => decide (Str.ofUnits a ≤ Str.ofUnits b)

/-- What `builder_discovery_metadata` makes of the document. -/
def normalized (document : Document) : Value :=
  .obj [(js "identifiers",.arr ((sorted ((methods document).map Prod.fst)).map fun name => .leaf (.str name))),
    (js "methods",.obj (methods document))]

def kept (name : Text) : Bool :=
  name == js "claims_supported" || [js "amr_",js "pwd_",js "otp_",js "pop_"].any (·.isPrefixOf name)

def discoveryMetadata (document : Document) : Document := document.filter fun m => kept m.1

theorem listAt_discoveryMetadata (document : Document) (name : Text) :
    listAt (discoveryMetadata document) name = if kept name then listAt document name else [] := by
  rw [listAt,discoveryMetadata,Collections.lookup_filter]
  split_ifs
  · rfl
  · rfl

/-- Every list that the builder follows is kept, or there is nothing in it that it uses. -/
def Covered (document : Document) : Prop :=
  ∀ identifier ∈ identifiers document, ∀ kind,
    (kept (identifier ++ kind.supported) = true ∨ advertised document kind identifier = []) ∧
      ∀ name ∈ advertised document kind identifier,
        kept (valuesSupported name) = true ∨ listAt document (valuesSupported name) = []

section Agreement
variable (document : Document)

theorem identifiers_discoveryMetadata : identifiers (discoveryMetadata document) = identifiers document := by
  rw [identifiers,listAt_discoveryMetadata,if_pos (by decide)]
  rfl

theorem advertised_discoveryMetadata (kind : Kind) (identifier : Text) :
    advertised (discoveryMetadata document) kind identifier =
      if kept (identifier ++ kind.supported) then advertised document kind identifier else [] := by
  rw [advertised,listAt_discoveryMetadata]
  split_ifs
  · rfl
  · rfl

theorem suggestion_discoveryMetadata (name : Text) :
    suggestion (discoveryMetadata document) name = suggestion document name ↔
      kept (valuesSupported name) = true ∨ listAt document (valuesSupported name) = [] := by
  rw [suggestion,suggestion,listAt_discoveryMetadata]
  split_ifs with hk
  · exact iff_of_true rfl (Or.inl hk)
  · rw [or_iff_right hk]
    constructor
    · intro h
      cases hlist : listAt document (valuesSupported name) with
      | nil => rfl
      | cons item items =>
        rw [hlist] at h
        cases h
    · intro h
      rw [h]

theorem suggestions_discoveryMetadata (kind : Kind) (identifier : Text) :
    suggestions (discoveryMetadata document) kind identifier = suggestions document kind identifier ↔
      (kept (identifier ++ kind.supported) = true ∨ advertised document kind identifier = []) ∧
        ∀ name ∈ advertised document kind identifier,
          kept (valuesSupported name) = true ∨ listAt document (valuesSupported name) = [] := by
  rw [suggestions,suggestions,advertised_discoveryMetadata]
  by_cases hk : kept (identifier ++ kind.supported) = true
  · rw [if_pos hk,storeAll_map_eq_iff]
    simp only [suggestion_discoveryMetadata,hk,true_or,true_and]
  · rw [if_neg hk,List.map_nil,show storeAll ([] : Document) = [] from rfl,eq_comm,storeAll_eq_nil,
      List.map_eq_nil_iff,or_iff_right hk]
    refine (and_iff_left_of_imp ?_).symm
    intro hnil name hname
    rw [hnil] at hname
    cases hname

theorem method_discoveryMetadata (identifier : Text) :
    method (discoveryMetadata document) identifier = method document identifier ↔
      ∀ kind, suggestions (discoveryMetadata document) kind identifier = suggestions document kind identifier := by
  simp only [method,obj.injEq,List.cons.injEq,Prod.mk.injEq,true_and,and_true]
  constructor
  · rintro ⟨hmetadata,hproperties⟩ (_ | _)
    · exact hproperties
    · exact hmetadata
  · intro h
    exact ⟨h .metadata,h .properties⟩

theorem methods_discoveryMetadata :
    methods (discoveryMetadata document) = methods document ↔ Covered document := by
  rw [methods,methods,identifiers_discoveryMetadata,storeAll_map_eq_iff]
  simp only [method_discoveryMetadata,suggestions_discoveryMetadata]
  rfl

/-- The result page shows what the builder used exactly if it keeps every list that the builder follows. -/
theorem normalized_discovery_metadata_iff :
    normalized (discoveryMetadata document) = normalized document ↔ Covered document := by
  rw [← methods_discoveryMetadata]
  constructor
  · intro h
    simp only [normalized,obj.injEq,List.cons.injEq,Prod.mk.injEq,true_and,and_true] at h
    exact h.2
  · intro h
    rw [normalized,normalized,h]

end Agreement

/-- An issuer that advertises a method with one property. -/
def advertising (identifier property : Text) : Document :=
  [(js "amr_identifiers_supported",.arr [.leaf (.str identifier)]),
    (identifier ++ Kind.properties.supported,.arr [.leaf (.str property)])]

def firstNames (v : Value) : Option (List Text) :=
  match v with
  | .obj [_,(_,.obj ((_,.obj [_,(_,.obj properties)]) :: _))] => some (properties.map Prod.fst)
  | _ => none

/-- The builder suggests the property of the method, and the result page keeps nothing of it. -/
theorem email_properties_missing :
    normalized (discoveryMetadata (advertising (js "email") (js "email_verification_method"))) ≠
      normalized (advertising (js "email") (js "email_verification_method")) := by
  intro h
  have hnames := congrArg firstNames h
  exact absurd hnames (by decide +kernel)

end Oidc4acLab.Discovery
