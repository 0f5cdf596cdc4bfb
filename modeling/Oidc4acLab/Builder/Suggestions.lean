import Oidc4acLab.Builder.Elements
import Mathlib.Data.List.Nodup
import Mathlib.Data.List.Perm.Basic

/-! # Suggestion lists of rows and factors

A node takes its number from a counter that is rewound only with the tree, so the ids of two
nodes never meet. The number of a row counts the rows that its list holds, and comes again
when a row before the last was removed: exactly then two datalists share an id.
-/
namespace Oidc4acLab.Builder.Elements
open Text Transition

theorem digits_append_inj {m n : ℕ} {c : UInt16} (hc : isDigit c = false) {s t : Text}
    (h : digits m ++ c :: s = digits n ++ c :: t) : m = n ∧ s = t := by
  have hscan : ∀ (n : ℕ) (t : Text), Numeral.scanDigits (digits n ++ c :: t) = (digits n,c :: t) := by
    intro n t
    refine Numeral.scanDigits_append (fun d => isDigit_of_mem_digits) ?_
    rintro d ⟨⟩
    exact hc
  have heq := (hscan m s).symm.trans ((congrArg Numeral.scanDigits h).trans (hscan n t))
  obtain ⟨hd,ht⟩ := Prod.mk.inj heq
  have hvalue := congrArg digitsValue hd
  rw [digitsValue_digits,digitsValue_digits] at hvalue
  exact ⟨hvalue,(List.cons.inj ht).2⟩

theorem nodeName_append_inj {m n : ℕ} {s t : Text} (h : nodeName m ++ 45 :: s = nodeName n ++ 45 :: t) : m = n := by
  rw [nodeName,nodeName,List.append_assoc,List.append_assoc,List.append_cancel_left_eq] at h
  exact (digits_append_inj (by decide) h).1

/-- What follows the id of the node in the id of its suggestions. -/
def suggestionsSuffix : Kind → Text
  | .property => js "-properties"
  | .metadata => js "-metadata"

def valuesSuffix (kind : Kind) (number : ℕ) : Text :=
  js "-" ++ (kindName kind ++ (js "-" ++ (digits number ++ js "-values")))

theorem valuesId_eq (card : FactorCard) (kind : Kind) (number : ℕ) :
    card.valuesId kind number = card.nodeId ++ valuesSuffix kind number := rfl

theorem valuesSuffix_inj {kind : Kind} {m n : ℕ} (h : valuesSuffix kind m = valuesSuffix kind n) : m = n := by
  simp only [valuesSuffix,List.append_cancel_left_eq] at h
  exact (digits_append_inj (c := 45) (by decide) h).1

/-- The code units in which the four forms of an id differ. -/
def form (suffix : Text) : Option UInt16 × Option UInt16 := (suffix[1]?,suffix[9]?)

theorem form_suggestionsSuffix : ∀ kind, form (suggestionsSuffix kind) =
    match kind with
    | .property => (some 112,some 101)
    | .metadata => (some 109,none) := by
  rintro (_ | _) <;> decide

theorem form_valuesSuffix (kind : Kind) (number : ℕ) : form (valuesSuffix kind number) =
    match kind with
    | .property => (some 112,some 45)
    | .metadata => (some 109,some 45) := by
  cases kind <;> rfl

theorem suggestionsSuffix_ne_valuesSuffix (kind kind' : Kind) (number : ℕ) :
    suggestionsSuffix kind ≠ valuesSuffix kind' number := by
  intro h
  have hform := congrArg form h
  rw [form_suggestionsSuffix,form_valuesSuffix] at hform
  cases kind <;> cases kind' <;> exact absurd hform (by decide)

theorem valuesSuffix_ne (m n : ℕ) : valuesSuffix .metadata m ≠ valuesSuffix .property n := by
  intro h
  have hform := congrArg form h
  rw [form_valuesSuffix,form_valuesSuffix] at hform
  exact absurd hform (by decide)

namespace FactorCard

def values (card : FactorCard) (kind : Kind) : List Text := (card.rows kind).map RowElement.valueSuggestions

def ids (card : FactorCard) : List Text :=
  card.propertySuggestions :: card.metadataSuggestions :: (card.values .metadata ++ card.values .property)

/-- The ids of a card begin with that of its node, and its rows name their own lists. -/
structure Listed (card : FactorCard) : Prop where
  suggestions : ∀ kind, card.suggestions kind = card.nodeId ++ suggestionsSuffix kind
  names : ∀ kind, ∀ row ∈ card.rows kind, row.nameList = card.suggestions kind ∧ row.valueList = row.valueSuggestions
  numbers : ∀ kind, ∀ id ∈ card.values kind, ∃ number, id = card.valuesId kind number

def Unmixed (card : FactorCard) : Prop := ∀ kind, (card.values kind).Nodup

variable {card : FactorCard}

theorem Listed.starts (h : card.Listed) {id : Text} (hid : id ∈ card.ids) : ∃ t, id = card.nodeId ++ 45 :: t := by
  have hsuggestions : ∀ kind, ∃ t, card.suggestions kind = card.nodeId ++ 45 :: t := by
    intro kind
    rw [h.suggestions kind]
    cases kind <;> exact ⟨_,rfl⟩
  have hvalues : ∀ kind, id ∈ card.values kind → ∃ t, id = card.nodeId ++ 45 :: t := by
    intro kind hv
    obtain ⟨number,rfl⟩ := h.numbers kind id hv
    exact ⟨_,rfl⟩
  simp only [ids,List.mem_cons,List.mem_append] at hid
  rcases hid with rfl | rfl | hid | hid
  · exact hsuggestions .property
  · exact hsuggestions .metadata
  · exact hvalues .metadata hid
  · exact hvalues .property hid

theorem Listed.nodup_ids (h : card.Listed) : card.ids.Nodup ↔ card.Unmixed := by
  have hsuggestions : ∀ kind kind', card.suggestions kind ∉ card.values kind' := by
    intro kind kind' hmem
    obtain ⟨number,hid⟩ := h.numbers kind' _ hmem
    rw [h.suggestions kind,valuesId_eq,List.append_cancel_left_eq] at hid
    exact suggestionsSuffix_ne_valuesSuffix kind kind' number hid
  have hne : card.propertySuggestions ≠ card.metadataSuggestions := by
    intro heq
    have hboth : card.nodeId ++ suggestionsSuffix .property = card.nodeId ++ suggestionsSuffix .metadata :=
      (h.suggestions .property).symm.trans (heq.trans (h.suggestions .metadata))
    rw [List.append_cancel_left_eq] at hboth
    exact absurd hboth (by decide)
  have hdisjoint : ∀ a ∈ card.values .metadata, ∀ b ∈ card.values .property, a ≠ b := by
    rintro a ha b hb rfl
    obtain ⟨m,hm⟩ := h.numbers .metadata a ha
    obtain ⟨n,hn⟩ := h.numbers .property a hb
    rw [hm,valuesId_eq,valuesId_eq,List.append_cancel_left_eq] at hn
    exact valuesSuffix_ne m n hn
  have hp := hsuggestions .property
  have hm := hsuggestions .metadata
  simp only [FactorCard.suggestions] at hp hm
  simp only [ids,List.nodup_cons,List.mem_cons,List.mem_append,hne,hp,hm,or_false,not_false_eq_true,true_and,
    List.nodup_append]
  constructor
  · rintro ⟨hmetadata,hproperty,-⟩ (_ | _)
    · exact hproperty
    · exact hmetadata
  · intro hu
    exact ⟨hu .metadata,hu .property,hdisjoint⟩

@[simp] theorem rows_setRows (card : FactorCard) (kind kind' : Kind) (rows : List RowElement) :
    (card.setRows kind rows).rows kind' = if kind' = kind then rows else card.rows kind' := by
  cases kind <;> cases kind' <;> rfl

@[simp] theorem nodeId_setRows (card : FactorCard) (kind : Kind) (rows : List RowElement) :
    (card.setRows kind rows).nodeId = card.nodeId := by
  cases kind <;> rfl

@[simp] theorem suggestions_setRows (card : FactorCard) (kind kind' : Kind) (rows : List RowElement) :
    (card.setRows kind rows).suggestions kind' = card.suggestions kind' := by
  cases kind <;> cases kind' <;> rfl

@[simp] theorem valuesId_setRows (card : FactorCard) (kind kind' : Kind) (rows : List RowElement) (number : ℕ) :
    (card.setRows kind rows).valuesId kind' number = card.valuesId kind' number := by
  rw [valuesId_eq,nodeId_setRows,valuesId_eq]

theorem values_addConstraint (card : FactorCard) (kind kind' : Kind) : (card.addConstraint kind).values kind' =
    if kind' = kind then card.values kind' ++ [card.nextId kind'] else card.values kind' := by
  rw [values,addConstraint,rows_setRows]
  split_ifs with h
  · rw [h,List.map_append]
    rfl
  · rfl

theorem Listed.addConstraint (h : card.Listed) (kind : Kind) : (card.addConstraint kind).Listed := by
  refine ⟨fun kind' => ?_,fun kind' row hrow => ?_,fun kind' id hid => ?_⟩
  · rw [FactorCard.addConstraint,suggestions_setRows,nodeId_setRows]
    exact h.suggestions kind'
  · rw [FactorCard.addConstraint,rows_setRows] at hrow
    rw [FactorCard.addConstraint,suggestions_setRows]
    split_ifs at hrow with hk
    · rcases List.mem_append.mp hrow with hrow | hrow
      · exact h.names kind' row (hk ▸ hrow)
      · rw [List.mem_singleton.mp hrow,hk]
        exact ⟨rfl,rfl⟩
    · exact h.names kind' row hrow
  · rw [values_addConstraint] at hid
    rw [FactorCard.addConstraint]
    simp only [valuesId_setRows]
    split_ifs at hid with hk
    · rcases List.mem_append.mp hid with hid | hid
      · exact h.numbers kind' id hid
      · exact ⟨_,List.mem_singleton.mp hid⟩
    · exact h.numbers kind' id hid

theorem unmixed_addConstraint {kind : Kind} (h : card.Unmixed) :
    (card.addConstraint kind).Unmixed ↔ card.nextId kind ∉ card.values kind := by
  have hlist : ((card.addConstraint kind).values kind).Nodup ↔
      card.nextId kind ∉ card.values kind ∧ (card.values kind).Nodup := by
    rw [values_addConstraint,if_pos rfl,List.nodup_append_comm,List.singleton_append,List.nodup_cons]
  constructor
  · intro hu
    exact (hlist.mp (hu kind)).1
  · intro hnew kind'
    by_cases hk : kind' = kind
    · subst hk
      exact hlist.mpr ⟨hnew,h kind'⟩
    · rw [values_addConstraint,if_neg hk]
      exact h kind'

theorem rows_removeRow_sublist (card : FactorCard) (kind kind' : Kind) (k : ℕ) :
    ((card.removeRow kind k).rows kind').Sublist (card.rows kind') := by
  rw [removeRow,rows_setRows]
  split_ifs with hk
  · rw [hk]
    exact List.eraseIdx_sublist _ k
  · exact List.Sublist.refl _

theorem values_removeRow_sublist (card : FactorCard) (kind kind' : Kind) (k : ℕ) :
    ((card.removeRow kind k).values kind').Sublist (card.values kind') :=
  (card.rows_removeRow_sublist kind kind' k).map _

theorem Listed.removeRow (h : card.Listed) (kind : Kind) (k : ℕ) : (card.removeRow kind k).Listed := by
  refine ⟨fun kind' => ?_,fun kind' row hrow => ?_,fun kind' id hid => ?_⟩
  · rw [FactorCard.removeRow,suggestions_setRows,nodeId_setRows]
    exact h.suggestions kind'
  · rw [FactorCard.removeRow,suggestions_setRows]
    exact h.names kind' row ((card.rows_removeRow_sublist kind kind' k).subset hrow)
  · obtain ⟨number,hn⟩ := h.numbers kind' id ((card.values_removeRow_sublist kind kind' k).subset hid)
    refine ⟨number,?_⟩
    rw [FactorCard.removeRow,valuesId_setRows]
    exact hn

theorem Unmixed.removeRow (h : card.Unmixed) (kind : Kind) (k : ℕ) : (card.removeRow kind k).Unmixed := fun kind' =>
  (card.values_removeRow_sublist kind kind' k).nodup (h kind')

end FactorCard

def Item.ids : Item → List Text
  | .factor card => card.ids
  | .group _ => []

/-- The nodes have ids of numbers in a range, no id twice, and their cards are listed. -/
structure Issued (lo hi : ℕ) (its : List Item) : Prop where
  named : ∀ it ∈ its, ∃ n, lo < n ∧ n ≤ hi ∧ it.nodeId = nodeName n
  distinct : (its.map Item.nodeId).Nodup
  listed : ∀ card, .factor card ∈ its → card.Listed

def Unmixed (its : List Item) : Prop := ∀ card, .factor card ∈ its → card.Unmixed

section Ids
variable {lo hi : ℕ} {its : List Item}

theorem Issued.starts (h : Issued lo hi its) {it : Item} (hit : it ∈ its) {id : Text} (hid : id ∈ it.ids) :
    ∃ t, id = it.nodeId ++ 45 :: t := by
  cases it with
  | factor card => exact (h.listed card hit).starts hid
  | group nodeId => cases hid

theorem Issued.disjoint (h : Issued lo hi its) {a b : Item} (ha : a ∈ its) (hb : b ∈ its)
    (hne : a.nodeId ≠ b.nodeId) : a.ids.Disjoint b.ids := by
  intro id hida hidb
  obtain ⟨m,-,-,hm⟩ := h.named a ha
  obtain ⟨n,-,-,hn⟩ := h.named b hb
  obtain ⟨s,hs⟩ := h.starts ha hida
  obtain ⟨t,ht⟩ := h.starts hb hidb
  rw [hs,hm,hn] at ht
  rw [hm,hn,nodeName_append_inj ht] at hne
  exact hne rfl

theorem Issued.ne_method_identifiers (h : Issued lo hi its) {it : Item} (hit : it ∈ its) {id : Text}
    (hid : id ∈ it.ids) : id ≠ js "method-identifiers" := by
  obtain ⟨n,-,-,hn⟩ := h.named it hit
  obtain ⟨t,rfl⟩ := h.starts hit hid
  rw [hn,nodeName,List.append_assoc]
  intro heq
  have hhead : some (110 : UInt16) = some 109 := congrArg List.head? heq
  exact absurd hhead (by decide)

theorem Issued.nodup_ids (h : Issued lo hi its) :
    (its.flatMap Item.ids ++ [js "method-identifiers"]).Nodup ↔ Unmixed its := by
  have hnot : js "method-identifiers" ∉ its.flatMap Item.ids := by
    intro hmem
    obtain ⟨it,hit,hid⟩ := List.mem_flatMap.mp hmem
    exact h.ne_method_identifiers hit hid rfl
  have hpairs : its.Pairwise (Function.onFun List.Disjoint Item.ids) :=
    (List.pairwise_map.mp h.distinct).imp_of_mem fun ha hb hne => h.disjoint ha hb hne
  rw [List.nodup_append_comm,List.singleton_append,List.nodup_cons,and_iff_right hnot,List.nodup_flatMap,
    and_iff_left hpairs]
  constructor
  · intro hall card hcard
    exact (h.listed card hcard).nodup_ids.mp (hall _ hcard)
  · rintro hu (card | nodeId) hit
    · exact (h.listed card hit).nodup_ids.mpr (hu card hit)
    · exact List.nodup_nil

end Ids

theorem fst_rowDatalists (n : ℕ) (kind : Kind) (rows : List RowElement) :
    (rowDatalists n kind rows).map Prod.fst = rows.map RowElement.valueSuggestions := by
  rw [rowDatalists,List.map_map]
  conv_rhs => rw [← List.zipIdx_map_fst 0 rows,List.map_map]
  rfl

theorem fst_item_datalists (n : ℕ) (it : Item) : (it.datalists n).map Prod.fst = it.ids := by
  cases it with
  | factor card =>
    rw [Item.datalists,List.map_cons,List.map_cons,List.map_append,fst_rowDatalists,fst_rowDatalists]
    rfl
  | group nodeId => rfl

theorem fst_datalists (e : Editor) : (datalists e).map Prod.fst =
    (items e.expressionRoot).flatMap Item.ids ++ [js "method-identifiers"] := by
  have hitems : (items e.expressionRoot).zipIdx.flatMap (fun p => p.1.ids) =
      (items e.expressionRoot).flatMap Item.ids := by
    conv_rhs => rw [← List.zipIdx_map_fst 0 (items e.expressionRoot),List.flatMap_map]
  rw [datalists,List.map_append,List.map_flatMap]
  simp only [fst_item_datalists,hitems]
  rfl

theorem mem_rowInputs {n : ℕ} {card : FactorCard} (h : card.Listed) (kind : Kind) {x : Text × Place}
    (hx : x ∈ rowInputs n kind (card.rows kind)) :
    x = (card.suggestions kind,.factor n kind) ∨ x ∈ rowDatalists n kind (card.rows kind) := by
  obtain ⟨r,hr,hx⟩ := List.mem_flatMap.mp hx
  obtain ⟨hname,hvalue⟩ := h.names kind r.1 (List.fst_mem_of_mem_zipIdx hr)
  simp only [List.mem_cons,List.not_mem_nil,or_false] at hx
  rcases hx with rfl | rfl
  · exact Or.inl (by rw [hname])
  · exact Or.inr (List.mem_map.mpr ⟨r,hr,by rw [hvalue]⟩)

theorem inputs_subset {e : Editor} (h : ∀ card, .factor card ∈ items e.expressionRoot → card.Listed) :
    inputs e ⊆ datalists e := by
  intro x hx
  obtain ⟨⟨it,n⟩,hp,hx⟩ := List.mem_flatMap.mp hx
  have hit := List.fst_mem_of_mem_zipIdx hp
  cases it with
  | group nodeId => cases hx
  | factor card =>
    have hlisted := h card hit
    have hown : x ∈ (Item.factor card).datalists n → x ∈ datalists e := fun hmem =>
      List.mem_append_left _ (List.mem_flatMap.mpr ⟨_,hp,hmem⟩)
    rcases List.mem_cons.mp hx with rfl | hx
    · exact List.mem_append_right _ List.mem_cons_self
    · simp only [Item.datalists,List.mem_cons,List.mem_append] at hown
      rcases List.mem_append.mp hx with hx | hx
      · rcases mem_rowInputs hlisted .metadata hx with rfl | hx
        · exact hown (Or.inr (Or.inl rfl))
        · exact hown (Or.inr (Or.inr (Or.inl hx)))
      · rcases mem_rowInputs hlisted .property hx with rfl | hx
        · exact hown (Or.inl rfl)
        · exact hown (Or.inr (Or.inr (Or.inr hx)))

theorem separate_iff {e : Editor} {lo hi : ℕ} (h : Issued lo hi (items e.expressionRoot)) :
    Separate e ↔ Unmixed (items e.expressionRoot) := by
  rw [← h.nodup_ids,← fst_datalists]
  constructor
  · exact fun hs => hs.distinct
  · intro hd
    exact ⟨hd,fun x hx => (Object.lookup_eq_some_iff hd).mpr (inputs_subset h.listed hx)⟩

theorem items_append (xs ys : List Element) : items (xs ++ ys) = items xs ++ items ys := by
  induction xs with
  | nil => rfl
  | cons x xs ih => rw [List.cons_append,items,ih,items,List.append_assoc]

theorem items_singleton (node : Element) : items [node] = itemsOf node := by
  rw [items,items,List.append_nil]

section Issuing
variable {lo mid hi : ℕ} {xs ys : List Item}

theorem issued_nil (lo hi : ℕ) : Issued lo hi [] := ⟨by simp,List.nodup_nil,by simp⟩

theorem Issued.perm (h : Issued lo hi xs) (hp : ys.Perm xs) : Issued lo hi ys where
  named it hit := h.named it (hp.subset hit)
  distinct := (hp.map Item.nodeId).nodup_iff.mpr h.distinct
  listed card hcard := h.listed card (hp.subset hcard)

theorem Issued.sublist (h : Issued lo hi xs) (hs : ys.Sublist xs) : Issued lo hi ys where
  named it hit := h.named it (hs.subset hit)
  distinct := (hs.map Item.nodeId).nodup h.distinct
  listed card hcard := h.listed card (hs.subset hcard)

theorem Issued.append (hx : Issued lo mid xs) (hy : Issued mid hi ys) (hlo : lo ≤ mid) (hhi : mid ≤ hi) :
    Issued lo hi (xs ++ ys) where
  named it hit := by
    rcases List.mem_append.mp hit with hit | hit
    · obtain ⟨n,hl,hr,hn⟩ := hx.named it hit
      exact ⟨n,hl,hr.trans hhi,hn⟩
    · obtain ⟨n,hl,hr,hn⟩ := hy.named it hit
      exact ⟨n,Nat.lt_of_le_of_lt hlo hl,hr,hn⟩
  distinct := by
    rw [List.map_append,List.nodup_append]
    refine ⟨hx.distinct,hy.distinct,?_⟩
    intro a ha b hb heq
    obtain ⟨x,hxs,rfl⟩ := List.mem_map.mp ha
    obtain ⟨y,hys,rfl⟩ := List.mem_map.mp hb
    -- the numbers lie on different sides of the middle
    obtain ⟨m,-,hm,hxm⟩ := hx.named x hxs
    obtain ⟨n,hn,-,hyn⟩ := hy.named y hys
    rw [hxm,hyn] at heq
    have hmn := nodeName_append_inj (s := []) (t := []) (congrArg (· ++ [45]) heq)
    omega
  listed card hcard := (List.mem_append.mp hcard).elim (hx.listed card) (hy.listed card)

theorem unmixed_append : Unmixed (xs ++ ys) ↔ Unmixed xs ∧ Unmixed ys := by
  simp only [Unmixed,List.mem_append,or_imp,forall_and]

theorem Unmixed.subset (h : Unmixed xs) (hs : ys ⊆ xs) : Unmixed ys := fun card hcard => h card (hs hcard)

end Issuing

def FactorCard.Counted (card : FactorCard) : Prop :=
  ∀ kind, card.values kind = (List.range (card.rows kind).length).map fun k => card.valuesId kind (k+1)

theorem FactorCard.Counted.addConstraint {card : FactorCard} (h : card.Counted) (kind : Kind) :
    (card.addConstraint kind).Counted := by
  intro kind'
  have hid : ∀ number, (card.addConstraint kind).valuesId kind' number = card.valuesId kind' number := fun number =>
    valuesId_setRows card kind kind' _ number
  rw [values_addConstraint]
  simp only [hid]
  rw [FactorCard.addConstraint,rows_setRows]
  split_ifs with hk
  · rw [hk,List.length_append,List.length_singleton,List.range_succ,List.map_append,h kind]
    rfl
  · exact h kind'

theorem FactorCard.Counted.unmixed {card : FactorCard} (h : card.Counted) : card.Unmixed := by
  intro kind
  rw [h kind]
  refine List.Nodup.map ?_ List.nodup_range
  intro m n hmn
  simp only [valuesId_eq,List.append_cancel_left_eq] at hmn
  exact Nat.succ.inj (valuesSuffix_inj hmn)

/-- What holds of a card whose rows were only added. -/
structure FactorCard.Filled (nodeId : Text) (card : FactorCard) : Prop where
  node : card.nodeId = nodeId
  listed : card.Listed
  counted : card.Counted

theorem filled_newCard (nodeId : Text) : (newCard nodeId).Filled nodeId where
  node := rfl
  listed := by
    refine ⟨?_,?_,?_⟩
    · rintro (_ | _) <;> rfl
    · rintro (_ | _) row hrow <;> cases hrow
    · rintro (_ | _) id hid <;> cases hid
  counted := by
    rintro (_ | _) <;> rfl

theorem FactorCard.Filled.addConstraint {nodeId : Text} {card : FactorCard} (h : card.Filled nodeId) (kind : Kind) :
    (card.addConstraint kind).Filled nodeId where
  node := (nodeId_setRows card kind _).trans h.node
  listed := h.listed.addConstraint kind
  counted := h.counted.addConstraint kind

theorem filled_factorCard (nodeId : Text) (model : FactorModel) : (factorCard nodeId model).Filled nodeId := by
  have hrows : ∀ (kind : Kind) (rows : List RowModel) (card : FactorCard), card.Filled nodeId →
      (rows.foldl (fun card _ => card.addConstraint kind) card).Filled nodeId := by
    intro kind rows
    induction rows with
    | nil => exact fun card h => h
    | cons row rows ih => exact fun card h => ih _ (h.addConstraint kind)
  exact hrows .metadata _ _ (hrows .property _ _ (filled_newCard nodeId))

/-- What an append leaves in the container: new nodes behind the old ones. -/
def Grown (nodeSequence : ℕ) (container : List Element) (r : Appended) : Prop :=
  ∃ added, r.container = container ++ added ∧ nodeSequence ≤ r.nodeSequence ∧
    Issued nodeSequence r.nodeSequence (items added) ∧ Unmixed (items added)

theorem addFactor_grown (d : Discovery) (model : FactorModel) (nodeSequence : ℕ) (container : List Element) :
    Grown nodeSequence container (addFactor d model nodeSequence container) := by
  rw [addFactor]
  cases factorControls d model with
  | error e =>
    refine ⟨[],(List.append_nil _).symm,Nat.le_succ _,issued_nil _ _,?_⟩
    intro card h
    cases h
  | ok f =>
    have hfilled := filled_factorCard (nodeName (nodeSequence+1)) model
    refine ⟨[_],rfl,Nat.le_succ _,?_,?_⟩
    · rw [items_singleton,itemsOf]
      refine ⟨?_,List.nodup_singleton _,?_⟩
      · intro it hit
        rw [List.mem_singleton.mp hit]
        exact ⟨nodeSequence+1,Nat.lt_succ_self _,Nat.le_refl _,hfilled.node⟩
      · intro card hcard
        cases List.mem_singleton.mp hcard
        exact hfilled.listed
    · rw [items_singleton,itemsOf]
      intro card hcard
      cases List.mem_singleton.mp hcard
      exact hfilled.counted.unmixed

theorem appendNodes_grown {d : Discovery} {ms : List Model}
    (h : ∀ m ∈ ms, ∀ nodeSequence container,
      Grown nodeSequence container (appendNode d m nodeSequence container)) (nodeSequence : ℕ)
    (container : List Element) : Grown nodeSequence container (appendNodes d ms nodeSequence container) := by
  induction ms generalizing nodeSequence container with
  | nil => exact ⟨[],(List.append_nil _).symm,Nat.le_refl _,issued_nil _ _,fun card h => nomatch h⟩
  | cons m ms ih =>
    obtain ⟨added,hc,hle,hi,hu⟩ := h m List.mem_cons_self nodeSequence container
    rw [appendNodes]
    cases ht : (appendNode d m nodeSequence container).thrown with
    | some e => exact ⟨added,hc,hle,hi,hu⟩
    | none =>
      obtain ⟨more,hc',hle',hi',hu'⟩ := ih (fun k hk => h k (List.mem_cons_of_mem m hk)) _
        (appendNode d m nodeSequence container).container
      refine ⟨added ++ more,?_,hle.trans hle',?_,?_⟩
      · rw [hc',hc,List.append_assoc]
      · rw [items_append]
        exact hi.append hi' hle hle'
      · rw [items_append]
        exact unmixed_append.mpr ⟨hu,hu'⟩

theorem appendNode_grown (d : Discovery) (m : Model) (nodeSequence : ℕ) (container : List Element) :
    Grown nodeSequence container (appendNode d m nodeSequence container) := by
  induction m using Model.induction generalizing nodeSequence container with
  | factor m => exact addFactor_grown d m nodeSequence container
  | group operator children ih =>
    have hchildren : Grown (nodeSequence+1) []
        (if children.isEmpty then addFactor d {} (nodeSequence+1) [] else appendNodes d children (nodeSequence+1) []) := by
      split_ifs
      · exact addFactor_grown d {} _ []
      · exact appendNodes_grown ih _ []
    obtain ⟨added,hc,hle,hi,hu⟩ := hchildren
    have hgroup : Issued nodeSequence (nodeSequence+1) [.group (nodeName (nodeSequence+1))] := by
      refine ⟨?_,List.nodup_singleton _,fun card hcard => nomatch List.mem_singleton.mp hcard⟩
      intro it hit
      rw [List.mem_singleton.mp hit]
      exact ⟨nodeSequence+1,Nat.lt_succ_self _,Nat.le_refl _,rfl⟩
    rw [List.nil_append] at hc
    have hitems : ∀ nodeId, items [.group nodeId added] = [.group nodeId] ++ items added := by
      intro nodeId
      rw [items_singleton,itemsOf,List.singleton_append]
    rw [appendNode]
    refine ⟨[_],rfl,(Nat.le_succ _).trans hle,?_,?_⟩
    · rw [hc,hitems]
      exact hgroup.append hi (Nat.le_succ _) hle
    · rw [hc,hitems]
      exact unmixed_append.mpr ⟨fun card hcard => (nomatch List.mem_singleton.mp hcard),hu⟩

theorem append_grown (e : Editor) (ms : List Model) : ∃ added,
    (e.append ms).expressionRoot = e.expressionRoot ++ added ∧ e.nodeSequence ≤ (e.append ms).nodeSequence ∧
      Issued e.nodeSequence (e.append ms).nodeSequence (items added) ∧ Unmixed (items added) :=
  appendNodes_grown (fun m _ => appendNode_grown e.discovery m) e.nodeSequence e.expressionRoot

theorem items_getElem {container : List Element} {i : ℕ} {node : Element} (h : container[i]? = some node) :
    ∃ before after, items container = before ++ (itemsOf node ++ after) ∧
      items (container.eraseIdx i) = before ++ after ∧
      ∀ node', items (container.set i node') = before ++ (itemsOf node' ++ after) := by
  induction container generalizing i with
  | nil => cases h
  | cons x xs ih =>
    cases i with
    | zero =>
      cases h
      exact ⟨[],items xs,rfl,rfl,fun _ => rfl⟩
    | succ i =>
      obtain ⟨before,after,heq,herase,hset⟩ := ih h
      refine ⟨itemsOf x ++ before,after,?_,?_,fun node' => ?_⟩
      · rw [items,heq,List.append_assoc]
      · rw [List.eraseIdx_cons_succ,items,herase,List.append_assoc]
      · rw [List.set_cons_succ,items,hset,List.append_assoc]

theorem changeAt_frame {f : List Element → Option (ℕ × List Element)} {path : List ℕ} {root : List Element}
    {r : ℕ × List Element} (h : changeAt f path root = some r) :
    ∃ container before after container', containerAt path root = some container ∧
      f container = some (r.1,container') ∧ items root = before ++ (items container ++ after) ∧
      items r.2 = before ++ (items container' ++ after) := by
  induction path generalizing root r with
  | nil => exact ⟨root,[],[],r.2,rfl,h,by simp,by simp⟩
  | cons i path ih =>
    rw [changeAt] at h
    rw [containerAt]
    rcases hnode : root[i]? with _ | (card | ⟨nodeId,children⟩)
    · rw [hnode] at h
      cases h
    · rw [hnode] at h
      cases h
    · rw [hnode] at h
      obtain ⟨r',hr',rfl⟩ := Option.map_eq_some_iff.mp h
      obtain ⟨container,before,after,container',hat,hf,hitems,hitems'⟩ := ih hr'
      obtain ⟨left,right,hroot,-,hset⟩ := items_getElem hnode
      refine ⟨container,left ++ .group nodeId :: before,after ++ right,container',hat,hf,?_,?_⟩
      · rw [hroot,itemsOf,hitems]
        simp
      · rw [hset,itemsOf,hitems']
        simp

theorem changeCard_eq_some {i : ℕ} {f : FactorCard → Option FactorCard} {container container' : List Element} :
    changeCard i f container = some container' ↔ ∃ card card', container[i]? = some (.factor card) ∧
      f card = some card' ∧ container' = container.set i (.factor card') := by
  rw [changeCard]
  rcases container[i]? with _ | (card | ⟨nodeId,children⟩)
  · simp
  · simp [eq_comm]
  · simp

theorem items_perm {xs ys : List Element} (h : xs.Perm ys) : (items xs).Perm (items ys) := by
  have heq : ∀ xs, items xs = xs.flatMap itemsOf := by
    intro xs
    induction xs with
    | nil => rfl
    | cons x xs ih => rw [items,ih,List.flatMap_cons]
  rw [heq,heq]
  exact h.flatMap_right itemsOf

theorem insertBefore_perm {i : ℕ} {container container' : List Element}
    (h : insertBefore i container = some container') : container'.Perm container := by
  rw [insertBefore] at h
  cases hnode : container[i]? with
  | none =>
    rw [hnode] at h
    cases h
  | some node =>
    rw [hnode] at h
    obtain ⟨hi,rfl⟩ := List.getElem?_eq_some_iff.mp hnode
    simp only [Option.ite_none_right_eq_some,Option.some.injEq] at h
    obtain ⟨hpos,rfl⟩ := h
    have hle : i-1 ≤ (container.eraseIdx i).length := by
      rw [List.length_eraseIdx_of_lt hi]
      omega
    exact (List.perm_insertIdx _ _ hle).trans (List.getElem_cons_eraseIdx_perm hi)

/-- What an action does to the nodes of the tree. -/
inductive Changed (e : Editor) (a : Action) (e' : Editor) : Prop
  | rebuilt (hc : Clear e a) (hi : Issued 0 e'.nodeSequence (items e'.expressionRoot))
      (hu : Unmixed (items e'.expressionRoot))
  | grown (before added after : List Item) (hc : Clear e a) (hle : e.nodeSequence ≤ e'.nodeSequence)
      (hitems : items e.expressionRoot = before ++ after)
      (hitems' : items e'.expressionRoot = before ++ (added ++ after))
      (hi : Issued e.nodeSequence e'.nodeSequence added) (hu : Unmixed added)
  | fewer (rest : List Item) (hc : Clear e a) (hs : e'.nodeSequence = e.nodeSequence)
      (hp : (items e'.expressionRoot ++ rest).Perm (items e.expressionRoot))
  | edited (before after : List Item) (card card' : FactorCard) (hs : e'.nodeSequence = e.nodeSequence)
      (hitems : items e.expressionRoot = before ++ .factor card :: after)
      (hitems' : items e'.expressionRoot = before ++ .factor card' :: after)
      (hnode : card'.nodeId = card.nodeId) (hlisted : card.Listed → card'.Listed)
      (hu : card.Unmixed → (card'.Unmixed ↔ Clear e a))

theorem changed_loaded {e : Editor} {a : Action} (hc : Clear e a) (ms : List Model) :
    Changed e a ((resetRoot e).append ms) := by
  obtain ⟨added,hroot,-,hi,hu⟩ := append_grown (resetRoot e) ms
  rw [show (resetRoot e).expressionRoot = [] from rfl,List.nil_append] at hroot
  refine .rebuilt hc ?_ ?_
  · rw [hroot]
    exact hi
  · rw [hroot]
    exact hu

theorem change_eq_some {e e' : Editor} {path : List ℕ} {f : List Element → Option (ℕ × List Element)}
    (h : e.change path f = some e') : ∃ container before after container', containerAt path e.expressionRoot =
      some container ∧ f container = some (e'.nodeSequence,container') ∧
      items e.expressionRoot = before ++ (items container ++ after) ∧
      items e'.expressionRoot = before ++ (items container' ++ after) := by
  obtain ⟨r,hr,rfl⟩ := Option.map_eq_some_iff.mp h
  exact changeAt_frame hr

theorem changed_appendAt {e e' : Editor} {a : Action} {path : List ℕ} {m : Model} (hc : Clear e a)
    (h : e.appendAt path m = some e') : Changed e a e' := by
  obtain ⟨container,before,after,container',-,hf,hitems,hitems'⟩ := change_eq_some h
  obtain ⟨added,hadded,hle,hi,hu⟩ := appendNode_grown e.discovery m e.nodeSequence container
  obtain ⟨hsequence,rfl⟩ := Prod.mk.inj (Option.some.inj hf)
  rw [hadded,items_append] at hitems'
  rw [hsequence] at hle hi
  refine .grown (before ++ items container) _ after hc hle ?_ ?_ hi hu
  · rw [hitems,List.append_assoc]
  · rw [hitems']
    simp

theorem changed_fewer {e e' : Editor} {a : Action} {path : List ℕ} {f : List Element → Option (List Element)}
    (hc : Clear e a) (hf : ∀ {xs ys}, f xs = some ys → ∃ rest, (items ys ++ rest).Perm (items xs))
    (h : (e.change path fun container => (f container).map (e.nodeSequence,·)) = some e') : Changed e a e' := by
  obtain ⟨container,before,after,container',-,hmap,hitems,hitems'⟩ := change_eq_some h
  obtain ⟨ys,hys,heq⟩ := Option.map_eq_some_iff.mp hmap
  obtain ⟨hsequence,rfl⟩ := Prod.mk.inj heq
  obtain ⟨rest,hrest⟩ := hf hys
  refine .fewer rest hc hsequence.symm ?_
  rw [hitems,hitems',List.append_assoc,List.append_assoc]
  refine List.Perm.append_left before ?_
  exact (List.perm_append_comm.append_left _).trans (by rw [← List.append_assoc]; exact hrest.append_right after)

theorem changed_card {e e' : Editor} {a : Action} {path : List ℕ} {i : ℕ} {f : FactorCard → Option FactorCard}
    (hf : ∀ {container card card'}, containerAt path e.expressionRoot = some container →
      container[i]? = some (.factor card) → f card = some card' →
      card'.nodeId = card.nodeId ∧ (card.Listed → card'.Listed) ∧ (card.Unmixed → (card'.Unmixed ↔ Clear e a)))
    (h : (e.change path fun container => (changeCard i f container).map (e.nodeSequence,·)) = some e') :
    Changed e a e' := by
  obtain ⟨container,before,after,container',hat,hmap,hitems,hitems'⟩ := change_eq_some h
  obtain ⟨ys,hys,heq⟩ := Option.map_eq_some_iff.mp hmap
  obtain ⟨hsequence,rfl⟩ := Prod.mk.inj heq
  obtain ⟨card,card',hcard,hfcard,rfl⟩ := changeCard_eq_some.mp hys
  obtain ⟨left,right,hleft,-,hset⟩ := items_getElem hcard
  obtain ⟨hnode,hlisted,hu⟩ := hf hat hcard hfcard
  refine .edited (before ++ left) (right ++ after) _ _ hsequence.symm ?_ ?_ hnode hlisted hu
  · rw [hitems,hleft,itemsOf]
    simp
  · rw [hitems',hset,itemsOf]
    simp

theorem step_changed {e e' : Editor} {a : Action} (h : step e a = some e') : Changed e a e' := by
  cases a with
  | addFactor path => exact changed_appendAt trivial h
  | addGroup path operator => exact changed_appendAt trivial h
  | addConstraint path i kind =>
    refine changed_card ?_ h
    intro container card card' hat hcard hf
    cases hf
    have hclear : Clear e (.addConstraint path i kind) ↔ card.nextId kind ∉ card.values kind := by
      constructor
      · intro hc
        exact hc container card hat hcard
      · intro hnew container' card' hat' hcard'
        cases hat.symm.trans hat'
        cases hcard.symm.trans hcard'
        exact hnew
    rw [hclear]
    exact ⟨FactorCard.nodeId_setRows _ _ _,fun hl => hl.addConstraint kind,FactorCard.unmixed_addConstraint⟩
  | removeRow path i kind k =>
    refine changed_card ?_ h
    intro container card card' hat hcard hf
    obtain ⟨-,hf⟩ := Option.ite_none_right_eq_some.mp hf
    cases hf
    exact ⟨FactorCard.nodeId_setRows _ _ _,fun hl => hl.removeRow kind k,
      fun hu => iff_of_true (hu.removeRow kind k) trivial⟩
  | removeNode path i =>
    refine changed_fewer trivial ?_ h
    intro xs ys hys
    obtain ⟨hi,hys⟩ := Option.ite_none_right_eq_some.mp hys
    cases hys
    obtain ⟨before,after,hxs,herase,-⟩ := items_getElem (List.getElem?_eq_getElem hi)
    refine ⟨itemsOf xs[i],?_⟩
    rw [hxs,herase,List.append_assoc]
    exact List.perm_append_comm.append_left before
  | moveUp path i =>
    refine changed_fewer trivial ?_ h
    exact fun hys => ⟨[],by rw [List.append_nil]; exact items_perm (insertBefore_perm hys)⟩
  | moveDown path i =>
    refine changed_fewer trivial ?_ h
    exact fun hys => ⟨[],by rw [List.append_nil]; exact items_perm (insertBefore_perm hys)⟩
  | loadJson text =>
    cases h
    have hclear : Clear e (.loadJson text) := trivial
    rw [loadJson]
    cases loadedDetails text with
    | some details => exact changed_loaded hclear _
    | none => exact .fewer [] trivial rfl (by rw [List.append_nil])
  | loadPreset name =>
    cases h
    have hclear : Clear e (.loadPreset name) := trivial
    exact changed_loaded hclear _
  | loadDiscovery d =>
    cases h
    exact .fewer [] trivial rfl (by rw [List.append_nil])

theorem Changed.issued {e e' : Editor} {a : Action} (hc : Changed e a e')
    (h : Issued 0 e.nodeSequence (items e.expressionRoot)) : Issued 0 e'.nodeSequence (items e'.expressionRoot) := by
  cases hc with
  | rebuilt _ hi _ => exact hi
  | grown before added after _ hle hitems hitems' hi _ =>
    rw [hitems] at h
    rw [hitems']
    refine (h.append hi (Nat.zero_le _) hle).perm ?_
    rw [List.append_assoc]
    exact List.perm_append_comm.append_left before
  | fewer rest _ hs hp =>
    rw [hs]
    exact (h.perm hp).sublist (List.sublist_append_left _ _)
  | edited before after card card' hs hitems hitems' hnode hlisted _ =>
    rw [hitems] at h
    rw [hs,hitems']
    refine ⟨?_,?_,?_⟩
    · intro it hit
      rcases List.mem_append.mp hit with hit | hit
      · exact h.named it (List.mem_append_left _ hit)
      · rcases List.mem_cons.mp hit with rfl | hit
        · have hcard := h.named (.factor card) (by simp)
          rw [Item.nodeId] at hcard ⊢
          rwa [hnode]
        · exact h.named it (List.mem_append_right _ (List.mem_cons_of_mem _ hit))
    · have hdistinct := h.distinct
      simp only [List.map_append,List.map_cons,Item.nodeId] at hdistinct ⊢
      rwa [hnode]
    · intro other hother
      rcases List.mem_append.mp hother with hother | hother
      · exact h.listed other (List.mem_append_left _ hother)
      · rcases List.mem_cons.mp hother with heq | hother
        · cases heq
          exact hlisted (h.listed card (by simp))
        · exact h.listed other (List.mem_append_right _ (List.mem_cons_of_mem _ hother))

theorem Changed.unmixed {e e' : Editor} {a : Action} (hc : Changed e a e')
    (h : Unmixed (items e.expressionRoot)) : Unmixed (items e'.expressionRoot) ↔ Clear e a := by
  cases hc with
  | rebuilt hc _ hu => exact iff_of_true hu hc
  | grown before added after hc _ hitems hitems' _ hu =>
    rw [hitems,unmixed_append] at h
    rw [hitems',unmixed_append,unmixed_append]
    exact iff_of_true ⟨h.1,hu,h.2⟩ hc
  | fewer rest hc _ hp => exact iff_of_true (h.subset fun it hit => hp.subset (List.mem_append_left _ hit)) hc
  | edited before after card card' _ hitems hitems' _ _ hu =>
    rw [hitems] at h
    rw [hitems',← hu (h card (by simp))]
    constructor
    · intro hu'
      exact hu' card' (by simp)
    · intro hcard other hother
      rcases List.mem_append.mp hother with hother | hother
      · exact h other (List.mem_append_left _ hother)
      · rcases List.mem_cons.mp hother with heq | hother
        · cases heq
          exact hcard
        · exact h other (List.mem_append_right _ (List.mem_cons_of_mem _ hother))

theorem changeAt_some {f : List Element → Option (ℕ × List Element)} {path : List ℕ} {root container : List Element}
    {r : ℕ × List Element} (hat : containerAt path root = some container) (hf : f container = some r) :
    ∃ r', changeAt f path root = some r' := by
  induction path generalizing root with
  | nil =>
    cases hat
    exact ⟨r,hf⟩
  | cons i path ih =>
    rw [containerAt] at hat
    rw [changeAt]
    rcases hnode : root[i]? with _ | (card | ⟨nodeId,children⟩)
    · rw [hnode] at hat
      cases hat
    · rw [hnode] at hat
      cases hat
    · rw [hnode] at hat
      obtain ⟨r',hr'⟩ := ih hat
      exact ⟨_,Option.map_eq_some_iff.mpr ⟨r',hr',rfl⟩⟩

theorem clear_of_disabled {e : Editor} {a : Action} (h : step e a = none) : Clear e a := by
  cases a with
  | addConstraint path i kind =>
    intro container card hat hcard
    obtain ⟨r,hr⟩ := changeAt_some
      (f := fun container => (changeCard i (fun card => some (card.addConstraint kind)) container).map
        (e.nodeSequence,·)) hat
      (Option.map_eq_some_iff.mpr ⟨_,changeCard_eq_some.mpr ⟨card,_,hcard,rfl,rfl⟩,rfl⟩)
    rw [step,Editor.change,hr] at h
    cases h
  | _ => trivial

def Numbered (e : Editor) : Prop := Issued 0 e.nodeSequence (items e.expressionRoot)

theorem opening_numbered : Numbered opening ∧ Unmixed (items opening.expressionRoot) := by
  have h := changed_loaded (e := ⟨noDiscovery,0,[]⟩) (a := .loadPreset (js "essential-password")) trivial
    ((presets.lookup (js "essential-password")).getD [])
  exact ⟨h.issued (issued_nil 0 0),(h.unmixed fun card hcard => nomatch hcard).mpr trivial⟩

theorem step_separate {e e' : Editor} {a : Action} (h : Numbered e) (hu : Unmixed (items e.expressionRoot))
    (hs : step e a = some e') : Separate e' ↔ Clear e a := by
  have hchanged := step_changed hs
  rw [separate_iff (hchanged.issued h)]
  exact hchanged.unmixed hu

theorem run_separate {e : Editor} (h : Numbered e) (hu : Unmixed (items e.expressionRoot)) (actions : List Action) :
    (∀ n e', run step e (actions.take n) = some e' → Separate e') ↔ Along step Clear e actions := by
  refine along_iff_reached ?_ clear_of_disabled h ((separate_iff h).mpr hu) actions
  intro e a e' h hseparate hs
  exact ⟨(step_changed hs).issued h,step_separate h ((separate_iff h).mp hseparate) hs⟩

/-- The suggestion lists are separate in every state of a run exactly if a row was only ever added
to a list without a row of the new number. -/
theorem suggestions_separate_iff (actions : List Action) :
    (∀ n e, run step opening (actions.take n) = some e → Separate e) ↔ Along step Clear opening actions :=
  run_separate opening_numbered.1 opening_numbered.2 actions

/-- A second row, the first one removed and a third row. -/
def replaced : List Action :=
  [.addConstraint [] 0 .property,.removeRow [] 0 .property 0,.addConstraint [] 0 .property]

/-- Both rows that are left have the second number. -/
theorem replaced_row_mixed : ∃ e, run step opening replaced = some e ∧ ¬ Separate e := by
  have hmixed : ((run step opening replaced).any fun e => !decide ((datalists e).map Prod.fst).Nodup) = true := by
    decide +kernel
  cases hr : run step opening replaced with
  | none =>
    rw [hr] at hmixed
    cases hmixed
  | some e =>
    rw [hr,Option.any_some,Bool.not_eq_true',decide_eq_false_iff_not] at hmixed
    exact ⟨e,rfl,fun hs => hmixed hs.distinct⟩

end Oidc4acLab.Builder.Elements
