import Oidc4acLab.Builder.Elements
import Oidc4acLab.Transition.Members

/-! # What the suggestion lists offer

The datalists of the builder are filled from the discovery document: those of a factor with
the names that its method advertises, that of a row with the values of its property. They are
filled again when an identifier or a name is typed, when a row or a factor is added and when
the document arrives. A name that the refresh of a row cannot look up ends the refresh where
it stands.
-/
namespace Oidc4acLab.Builder.Options
open Text Transition Collections

structure Offered where
  properties : List (Text × List Json)
  metadata : List (Text × List Json)

/-- What `/discovery` answers. -/
structure Vocabulary where
  identifiers : List Text
  methods : List (Text × Offered)

def Vocabulary.names (v : Vocabulary) : Discovery :=
  ⟨v.identifiers,v.methods.map fun m => (m.1,⟨m.2.properties.map Prod.fst,m.2.metadata.map Prod.fst⟩)⟩

/-- `methodProperties` and `methodMetadata` with the values. -/
def entries (v : Vocabulary) (kind : Kind) (identifier : Text) : List (Text × List Json) :=
  match v.methods.lookup identifier with
  | some m =>
    match kind with
    | .property => m.properties
    | .metadata => m.metadata
  | none => []

def optionValue : Json → Text
  | .str t => t
  | value => value.stringify

def offered (v : Vocabulary) (kind : Kind) (identifier name : Text) : List Text :=
  ((entries v kind (trim identifier)).lookup (trim name)).elim [] fun values => values.map optionValue

theorem suggestedNames_names (v : Vocabulary) (kind : Kind) (identifier : Text) :
    suggestedNames v.names kind identifier = (entries v kind identifier).map Prod.fst := by
  have hlookup : v.names.methods.lookup identifier = (v.methods.lookup identifier).map
      fun m => ⟨m.properties.map Prod.fst,m.metadata.map Prod.fst⟩ :=
    lookup_map (fun m : Offered => (⟨m.properties.map Prod.fst,m.metadata.map Prod.fst⟩ : Method)) v.methods identifier
  rw [suggestedNames,entries,hlookup]
  cases v.methods.lookup identifier with
  | none => rfl
  | some m => cases kind <;> rfl

structure OptionRow where
  name : TextInput
  /-- The options of the datalist for the value. -/
  values : List Text

structure Card where
  id : TextInput
  /-- The options of the datalists for names. -/
  nameOptions : Kind → List Text
  rows : Kind → List OptionRow

def Card.setRows (c : Card) (kind : Kind) (rows : List OptionRow) : Card :=
  { c with rows := fun k => if k = kind then rows else c.rows k }

/-- The name is not one that `Object.prototype` answers for in place of the document. -/
def listed (v : Vocabulary) (kind : Kind) (identifier name : Text) : Bool :=
  trim name != js "constructor" || ((entries v kind (trim identifier)).map Prod.fst).contains (js "constructor")

theorem listed_iff_ok {v : Vocabulary} {kind : Kind} {identifier name : Text} :
    listed v kind identifier name = true ↔
      Builder.refreshConstraintSuggestions v.names kind identifier name = .ok () := by
  rw [listed,Bool.or_eq_true,bne_iff_ne,List.contains_iff_mem,Builder.refreshConstraintSuggestions,suggestedNames_names]
  split_ifs with hthrows
  · exact ⟨fun h => absurd hthrows.1 (h.resolve_right hthrows.2),fun h => nomatch h⟩
  · exact ⟨fun _ => rfl,fun _ => (not_and_or.mp hthrows).imp_right not_not.mp⟩

def Card.listed (v : Vocabulary) (c : Card) : Bool :=
  [.property,.metadata].all fun kind => (c.rows kind).all fun row => Options.listed v kind c.id.value row.name.value

/-- The datalists of the card offer what the document gives for what is typed. -/
structure Card.Right (v : Vocabulary) (c : Card) : Prop where
  names : ∀ kind, c.nameOptions kind = (entries v kind (trim c.id.value)).map Prod.fst
  values : ∀ kind, ∀ row ∈ c.rows kind, row.values = offered v kind c.id.value row.name.value

section Refresh
variable (v : Vocabulary) (kind : Kind) (identifier : Text)

def refreshConstraintSuggestions (row : OptionRow) : OptionRow × Option Thrown :=
  match Builder.refreshConstraintSuggestions v.names kind identifier row.name.value with
  | .ok _ => ({ row with values := offered v kind identifier row.name.value },none)
  | .error e => (row,some e)

def refreshRows : List OptionRow → List OptionRow × Option Thrown
  | [] => ([],none)
  | row :: rows =>
    let r := refreshConstraintSuggestions v kind identifier row
    match r.2 with
    | some e => (r.1 :: rows,some e)
    | none =>
      let rs := refreshRows rows
      (r.1 :: rs.1,rs.2)

def refreshFactorSuggestions (c : Card) : Card × Option Thrown :=
  let c := { c with nameOptions := fun kind => (entries v kind (trim c.id.value)).map Prod.fst }
  let properties := refreshRows v .property c.id.value (c.rows .property)
  let c := c.setRows .property properties.1
  match properties.2 with
  | some e => (c,some e)
  | none =>
    let metadata := refreshRows v .metadata c.id.value (c.rows .metadata)
    (c.setRows .metadata metadata.1,metadata.2)

def newRow : OptionRow where
  name := .assign ((suggestedNames v.names kind (trim identifier)).head?.getD [])
  values := []

/-- The row is in the list before its values are looked up. -/
def addConstraint (c : Card) : Card :=
  c.setRows kind (c.rows kind ++ [(refreshConstraintSuggestions v kind c.id.value (newRow v kind c.id.value)).1])

def removeRow (k : ℕ) (c : Card) : Card := c.setRows kind ((c.rows kind).eraseIdx k)

def typeIdentifier (t : Text) (c : Card) : Card := (refreshFactorSuggestions v { c with id := .assign t }).1

def typeName (k : ℕ) (t : Text) (c : Card) : Card :=
  c.setRows kind ((c.rows kind).modify k fun row =>
    (refreshConstraintSuggestions v kind c.id.value { row with name := .assign t }).1)

end Refresh

inductive Listed
  | factor (card : Card)
  | group (children : List Listed)

mutual

def cardsOf : Listed → List Card
  | .factor card => [card]
  | .group children => cards children

def cards : List Listed → List Card
  | [] => []
  | node :: nodes => cardsOf node ++ cards nodes

end

def cardOf (v : Vocabulary) (f : Factor) : Card where
  id := f.id
  nameOptions _ := []
  rows
    | .property => f.properties.map fun row => ⟨row.name,offered v .property f.id.value row.name.value⟩
    | .metadata => f.metadata.map fun row => ⟨row.name,offered v .metadata f.id.value row.name.value⟩

def addFactor (v : Vocabulary) (model : FactorModel) (container : List Listed) : List Listed × Option Thrown :=
  match factorControls v.names model with
  | .ok f =>
    let r := refreshFactorSuggestions v (cardOf v f)
    (container ++ [.factor r.1],r.2)
  | .error e => (container,some e)

mutual

def appendNode (v : Vocabulary) : Model → List Listed → List Listed × Option Thrown
  | .factor m, container => addFactor v m container
  | .group _ children, container =>
    let r := if children.isEmpty then addFactor v {} [] else appendNodes v children []
    (container ++ [.group r.1],r.2)

def appendNodes (v : Vocabulary) : List Model → List Listed → List Listed × Option Thrown
  | [], container => (container,none)
  | m :: ms, container =>
    let r := appendNode v m container
    match r.2 with
    | none => appendNodes v ms r.1
    | some _ => r

end

mutual

def refreshNode (v : Vocabulary) : Listed → Listed × Option Thrown
  | .factor card =>
    let r := refreshFactorSuggestions v card
    (.factor r.1,r.2)
  | .group children =>
    let r := refreshNodes v children
    (.group r.1,r.2)

/-- `document.querySelectorAll('.factor-card').forEach(refreshFactorSuggestions)` -/
def refreshNodes (v : Vocabulary) : List Listed → List Listed × Option Thrown
  | [] => ([],none)
  | node :: nodes =>
    let r := refreshNode v node
    match r.2 with
    | some e => (r.1 :: nodes,some e)
    | none =>
      let rs := refreshNodes v nodes
      (r.1 :: rs.1,rs.2)

end

def changeAt (f : List Listed → Option (List Listed)) : List ℕ → List Listed → Option (List Listed)
  | [], container => f container
  | i :: path, container =>
    match container[i]? with
    | some (.group children) => (changeAt f path children).map fun children => container.set i (.group children)
    | _ => none

def changeCard (i : ℕ) (f : Card → Option Card) (container : List Listed) : Option (List Listed) :=
  match container[i]? with
  | some (.factor card) => (f card).map fun card' => container.set i (.factor card')
  | _ => none

def removeNode (i : ℕ) (container : List Listed) : Option (List Listed) :=
  if i < container.length then some (container.eraseIdx i) else none

def insertBefore (i : ℕ) (container : List Listed) : Option (List Listed) :=
  match container[i]? with
  | some node => if 0 < i then some ((container.eraseIdx i).insertIdx (i-1) node) else none
  | none => none

structure Page where
  discovery : Vocabulary
  /-- The options of `#method-identifiers`. -/
  identifierOptions : List Text
  expressionRoot : List Listed

inductive Action
  | addFactor (path : List ℕ)
  | addGroup (path : List ℕ) (operator : Operator)
  | addConstraint (path : List ℕ) (i : ℕ) (kind : Kind)
  | removeRow (path : List ℕ) (i : ℕ) (kind : Kind) (k : ℕ)
  | removeNode (path : List ℕ) (i : ℕ)
  | moveUp (path : List ℕ) (i : ℕ)
  | moveDown (path : List ℕ) (i : ℕ)
  | typeIdentifier (path : List ℕ) (i : ℕ) (text : Text)
  | typeName (path : List ℕ) (i : ℕ) (kind : Kind) (k : ℕ) (text : Text)
  | loadJson (text : Text)
  | loadPreset (name : Text)
  | loadDiscovery (d : Vocabulary)

def Page.change (p : Page) (path : List ℕ) (f : List Listed → Option (List Listed)) : Option Page :=
  (changeAt f path p.expressionRoot).map fun root => { p with expressionRoot := root }

def Page.load (p : Page) (ms : List Model) : Page :=
  { p with expressionRoot := (appendNodes p.discovery ms []).1 }

def loadJson (p : Page) (text : Text) : Page :=
  match loadedDetails text with
  | some details => p.load (Elements.loadedModels details)
  | none => p

def loadPreset (p : Page) (name : Text) : Page := p.load ((Elements.presets.lookup name).getD [])

def loadDiscovery (d : Vocabulary) (p : Page) : Page :=
  ⟨d,d.identifiers,(refreshNodes d p.expressionRoot).1⟩

def step (p : Page) : Action → Option Page
  | .addFactor path => p.change path fun container => some (appendNode p.discovery (.factor {}) container).1
  | .addGroup path operator =>
    p.change path fun container => some (appendNode p.discovery (.group operator []) container).1
  | .addConstraint path i kind => p.change path (changeCard i fun card => some (addConstraint p.discovery kind card))
  | .removeRow path i kind k =>
    p.change path (changeCard i fun card => if k < (card.rows kind).length then some (removeRow kind k card) else none)
  | .removeNode path i => p.change path (removeNode i)
  | .moveUp path i => p.change path (insertBefore i)
  | .moveDown path i => p.change path (insertBefore (i+1))
  | .typeIdentifier path i text => p.change path (changeCard i fun card => some (typeIdentifier p.discovery text card))
  | .typeName path i kind k text =>
    p.change path (changeCard i fun card =>
      if k < (card.rows kind).length then some (typeName p.discovery kind k text card) else none)
  | .loadJson text => some (loadJson p text)
  | .loadPreset name => some (loadPreset p name)
  | .loadDiscovery d => some (loadDiscovery d p)

/-- The page after the script has run, with the first preset. -/
def opening : Page := loadPreset ⟨⟨[],[]⟩,[],[]⟩ (js "essential-password")

section Refresh
variable {v : Vocabulary} {kind : Kind} {identifier : Text} {row : OptionRow} {rows : List OptionRow} {c c' : Card}

theorem refresh_listed (h : listed v kind identifier row.name.value = true) :
    refreshConstraintSuggestions v kind identifier row =
      ({ row with values := offered v kind identifier row.name.value },none) := by
  rw [refreshConstraintSuggestions,listed_iff_ok.mp h]

theorem name_refreshed (row : OptionRow) : (refreshConstraintSuggestions v kind identifier row).1.name = row.name := by
  rw [refreshConstraintSuggestions]
  split <;> rfl

theorem refreshRows_listed (h : ∀ row ∈ rows, listed v kind identifier row.name.value = true) :
    refreshRows v kind identifier rows =
      (rows.map fun row => { row with values := offered v kind identifier row.name.value },none) := by
  induction rows with
  | nil => rfl
  | cons row rows ih =>
    have hrow := refresh_listed (h row List.mem_cons_self)
    simp only [refreshRows,hrow,ih fun row hr => h row (List.mem_cons_of_mem _ hr),List.map_cons]

theorem names_refreshRows (rows : List OptionRow) :
    (refreshRows v kind identifier rows).1.map OptionRow.name = rows.map OptionRow.name := by
  induction rows with
  | nil => rfl
  | cons row rows ih =>
    rw [refreshRows]
    cases (refreshConstraintSuggestions v kind identifier row).2 with
    | some e => rw [List.map_cons,List.map_cons,name_refreshed]
    | none => rw [List.map_cons,List.map_cons,name_refreshed,ih]

theorem card_listed_iff : c.listed v = true ↔
    ∀ kind, ∀ row ∈ c.rows kind, listed v kind c.id.value row.name.value = true := by
  rw [Card.listed,List.all_eq_true]
  constructor
  · intro h kind row hrow
    have hkind := h kind (by cases kind <;> simp)
    exact List.all_eq_true.mp hkind row hrow
  · intro h kind _
    exact List.all_eq_true.mpr (h kind)

theorem listed_congr (hid : c'.id = c.id)
    (hnames : ∀ kind, (c'.rows kind).map OptionRow.name = (c.rows kind).map OptionRow.name) :
    c'.listed v = c.listed v := by
  have hall : ∀ (c : Card) (kind : Kind), ((c.rows kind).all fun row => listed v kind c.id.value row.name.value) =
      ((c.rows kind).map OptionRow.name).all fun name => listed v kind c.id.value name.value := by
    intro c kind
    rw [List.all_map]
    rfl
  simp only [Card.listed,List.all_cons,List.all_nil]
  rw [hall c' .property,hall c' .metadata,hnames,hnames,hid,← hall,← hall]

@[simp] theorem rows_setRows (c : Card) (kind kind' : Kind) (rows : List OptionRow) :
    (c.setRows kind rows).rows kind' = if kind' = kind then rows else c.rows kind' := rfl

@[simp] theorem id_setRows (c : Card) (kind : Kind) (rows : List OptionRow) : (c.setRows kind rows).id = c.id := rfl

theorem names_refreshed (c : Card) (kind : Kind) :
    ((refreshFactorSuggestions v c).1.rows kind).map OptionRow.name = (c.rows kind).map OptionRow.name := by
  rw [refreshFactorSuggestions]
  cases (refreshRows v .property c.id.value (c.rows .property)).2 <;> cases kind <;> simp [names_refreshRows]

theorem listed_refreshed (c : Card) : (refreshFactorSuggestions v c).1.listed v = c.listed v := by
  refine listed_congr ?_ (names_refreshed c)
  rw [refreshFactorSuggestions]
  cases (refreshRows v .property c.id.value (c.rows .property)).2 <;> rfl

theorem refresh_card (h : c.listed v = true) :
    (refreshFactorSuggestions v c).2 = none ∧ (refreshFactorSuggestions v c).1.Right v := by
  have hrows := card_listed_iff.mp h
  have hp := refreshRows_listed (hrows .property)
  have hm := refreshRows_listed (hrows .metadata)
  simp only [refreshFactorSuggestions,hp,id_setRows,rows_setRows,reduceCtorEq,if_false,hm,true_and]
  refine ⟨fun kind => rfl,fun kind row hrow => ?_⟩
  cases kind with
  | property =>
    obtain ⟨old,-,rfl⟩ := List.mem_map.mp hrow
    rfl
  | metadata =>
    obtain ⟨old,-,rfl⟩ := List.mem_map.mp hrow
    rfl

theorem addConstraint_right (h : c.Right v) (hl : (addConstraint v kind c).listed v = true) :
    (addConstraint v kind c).Right v := by
  refine ⟨h.names,fun kind' row hrow => ?_⟩
  have hrow' : listed v kind' c.id.value row.name.value = true := card_listed_iff.mp hl kind' row hrow
  rw [addConstraint,rows_setRows] at hrow
  split_ifs at hrow with hk
  · subst hk
    rcases List.mem_append.mp hrow with hrow | hrow
    · exact h.values kind' row hrow
    · rw [List.mem_singleton.mp hrow,name_refreshed] at hrow'
      rw [List.mem_singleton.mp hrow,refresh_listed hrow']
      rfl
  · exact h.values kind' row hrow

theorem removeRow_right (h : c.Right v) (kind : Kind) (k : ℕ) : (removeRow kind k c).Right v := by
  refine ⟨h.names,fun kind' row hrow => ?_⟩
  rw [removeRow,rows_setRows] at hrow
  split_ifs at hrow with hk
  · exact h.values kind' row (hk ▸ List.mem_of_mem_eraseIdx hrow)
  · exact h.values kind' row hrow

theorem typeIdentifier_right {t : Text} (hl : (typeIdentifier v t c).listed v = true) :
    (typeIdentifier v t c).Right v := by
  rw [typeIdentifier,listed_refreshed] at hl
  exact (refresh_card hl).2

theorem typeName_right {k : ℕ} {t : Text} (h : c.Right v) (hl : (typeName v kind k t c).listed v = true) :
    (typeName v kind k t c).Right v := by
  refine ⟨h.names,fun kind' row hrow => ?_⟩
  have hrow' : listed v kind' c.id.value row.name.value = true := card_listed_iff.mp hl kind' row hrow
  rw [typeName,rows_setRows] at hrow
  split_ifs at hrow with hk
  · subst hk
    obtain ⟨i,hi⟩ := List.mem_iff_getElem?.mp hrow
    obtain ⟨old,hold,⟨-,rfl⟩ | ⟨-,rfl⟩⟩ := getElem?_modify_cases hi
    · exact h.values kind' row (List.mem_of_getElem? hold)
    · rw [name_refreshed] at hrow'
      rw [refresh_listed hrow']
      rfl
  · exact h.values kind' row hrow

end Refresh

section Trees
variable {v : Vocabulary} {c : Card} {node : Listed} {nodes : List Listed} {i : ℕ}

theorem mem_cards : c ∈ cards nodes ↔ ∃ node ∈ nodes, c ∈ cardsOf node := by
  induction nodes with
  | nil => simp [cards]
  | cons node nodes ih => rw [cards,List.mem_append,ih,List.exists_mem_cons_iff]

@[elab_as_elim]
theorem Listed.induction {motive : Listed → Prop} (factor : ∀ card, motive (.factor card))
    (group : ∀ children, (∀ n ∈ children, motive n) → motive (.group children)) (node : Listed) : motive node := by
  refine @Listed.rec motive (fun ns => ∀ n ∈ ns, motive n) factor group ?_ ?_ node
  · simp
  · intro n ns hn hns m hm
    rcases List.mem_cons.mp hm with rfl | hm
    · exact hn
    · exact hns m hm

theorem cards_append (ns ns' : List Listed) : cards (ns ++ ns') = cards ns ++ cards ns' := by
  induction ns with
  | nil => rfl
  | cons n ns ih => rw [List.cons_append,cards,cards,ih,List.append_assoc]

theorem mem_cards_set (h : c ∈ cards (nodes.set i node)) : c ∈ cards nodes ∨ c ∈ cardsOf node := by
  obtain ⟨n,hn,hc⟩ := mem_cards.mp h
  rcases List.mem_or_eq_of_mem_set hn with hn | rfl
  · exact Or.inl (mem_cards.mpr ⟨n,hn,hc⟩)
  · exact Or.inr hc

theorem mem_cards_of_getElem? (h : nodes[i]? = some node) (hc : c ∈ cardsOf node) : c ∈ cards nodes :=
  mem_cards.mpr ⟨node,List.mem_of_getElem? h,hc⟩

theorem mem_cards_set_self {old : Listed} (h : nodes[i]? = some old) (hc : c ∈ cardsOf node) :
    c ∈ cards (nodes.set i node) :=
  mem_cards_of_getElem? (Transition.getElem?_set_of_some h) hc

/-- A change of a container, seen from the root: no card of the tree is new but those of the container. -/
theorem changeAt_cards {f : List Listed → Option (List Listed)} {path : List ℕ} {root root' : List Listed}
    (h : changeAt f path root = some root') : ∃ container container', f container = some container' ∧
      (∀ c ∈ cards container, c ∈ cards root) ∧ (∀ c ∈ cards container', c ∈ cards root') ∧
      ∀ c ∈ cards root', c ∈ cards root ∨ c ∈ cards container' := by
  induction path generalizing root root' with
  | nil => exact ⟨root,root',h,fun _ hc => hc,fun _ hc => hc,fun _ hc => Or.inr hc⟩
  | cons i path ih =>
    rw [changeAt] at h
    cases hi : root[i]? with
    | none =>
      rw [hi] at h
      cases h
    | some node =>
      cases node with
      | factor card =>
        rw [hi] at h
        cases h
      | group children =>
        rw [hi] at h
        obtain ⟨children',hchildren,rfl⟩ := Option.map_eq_some_iff.mp h
        obtain ⟨container,container',hf,hin,hout,hnew⟩ := ih hchildren
        refine ⟨container,container',hf,fun c hc => mem_cards_of_getElem? hi (hin c hc),
          fun c hc => mem_cards_set_self hi (hout c hc),fun c hc => ?_⟩
        rcases mem_cards_set hc with hc | hc
        · exact Or.inl hc
        · exact (hnew c hc).imp_left fun hc => mem_cards_of_getElem? hi hc

theorem listed_of_ok {kind : Kind} {identifier : Text} {model : RowModel} {row : Row}
    (h : Builder.addConstraint v.names kind identifier model = .ok row) :
    listed v kind identifier row.name.value = true := by
  obtain ⟨min,-,h⟩ := Fallible.bind_eq_ok.mp h
  obtain ⟨max,-,h⟩ := Fallible.bind_eq_ok.mp h
  obtain ⟨u,hu,h⟩ := Fallible.bind_eq_ok.mp h
  cases h
  exact listed_iff_ok.mpr hu

theorem cardOf_listed {model : FactorModel} {f : Factor} (h : factorControls v.names model = .ok f) :
    (cardOf v f).listed v = true := by
  obtain ⟨identifier,-,h⟩ := Fallible.bind_eq_ok.mp h
  obtain ⟨maxAge,-,h⟩ := Fallible.bind_eq_ok.mp h
  obtain ⟨properties,hp,h⟩ := Fallible.bind_eq_ok.mp h
  obtain ⟨metadata,hm,h⟩ := Fallible.bind_eq_ok.mp h
  cases h
  have hrows : ∀ {kind : Kind} {models : List RowModel} {rows : List Row},
      models.mapM (Builder.addConstraint v.names kind (TextInput.assign identifier).value) = .ok rows →
      ∀ row ∈ rows, listed v kind (TextInput.assign identifier).value row.name.value = true := by
    intro kind models rows hrows row hrow
    obtain ⟨model,-,hrow⟩ := Fallible.exists_of_mem_right (Fallible.mapM_eq_ok.mp hrows) hrow
    exact listed_of_ok hrow
  rw [card_listed_iff]
  intro kind row hrow
  cases kind with
  | property =>
    obtain ⟨r,hr,rfl⟩ := List.mem_map.mp hrow
    exact hrows hp r hr
  | metadata =>
    obtain ⟨r,hr,rfl⟩ := List.mem_map.mp hrow
    exact hrows hm r hr

theorem addFactor_right {model : FactorModel} {container : List Listed} :
    ∀ c ∈ cards (addFactor v model container).1, c ∈ cards container ∨ c.Right v := by
  intro c hc
  rw [addFactor] at hc
  cases hf : factorControls v.names model with
  | error e =>
    rw [hf] at hc
    exact Or.inl hc
  | ok f =>
    rw [hf,cards_append] at hc
    rcases List.mem_append.mp hc with hc | hc
    · exact Or.inl hc
    · obtain ⟨n,hn,hc⟩ := mem_cards.mp hc
      rw [List.mem_singleton.mp hn,cardsOf,List.mem_singleton] at hc
      rw [hc]
      exact Or.inr (refresh_card (cardOf_listed hf)).2

theorem appendNodes_right {ms : List Model} (h : ∀ m ∈ ms, ∀ container,
      ∀ c ∈ cards (appendNode v m container).1, c ∈ cards container ∨ c.Right v) (container : List Listed) :
    ∀ c ∈ cards (appendNodes v ms container).1, c ∈ cards container ∨ c.Right v := by
  induction ms generalizing container with
  | nil => exact fun c hc => Or.inl hc
  | cons m ms ih =>
    intro c hc
    have hfirst := h m List.mem_cons_self container
    rw [appendNodes] at hc
    cases ht : (appendNode v m container).2 with
    | some e =>
      simp only [ht] at hc
      exact hfirst c hc
    | none =>
      simp only [ht] at hc
      rcases ih (fun n hn => h n (List.mem_cons_of_mem m hn)) _ c hc with hc | hc
      · exact hfirst c hc
      · exact Or.inr hc

/-- Whatever a model describes, and wherever it stops: the cards that it adds are right. -/
theorem appendNode_right (m : Model) (container : List Listed) :
    ∀ c ∈ cards (appendNode v m container).1, c ∈ cards container ∨ c.Right v := by
  induction m using Model.induction generalizing container with
  | factor m =>
    rw [appendNode]
    exact addFactor_right
  | group operator children ih =>
    intro c hc
    rw [appendNode,cards_append] at hc
    rcases List.mem_append.mp hc with hc | hc
    · exact Or.inl hc
    · obtain ⟨n,hn,hc⟩ := mem_cards.mp hc
      rw [List.mem_singleton.mp hn,cardsOf] at hc
      right
      split_ifs at hc with hempty
      · exact (addFactor_right c hc).resolve_left (by simp [cards])
      · exact (appendNodes_right ih [] c hc).resolve_left (by simp [cards])

theorem listed_refreshNodes (h : ∀ n ∈ nodes, ((cardsOf (refreshNode v n).1).map (Card.listed v)) =
      (cardsOf n).map (Card.listed v)) :
    (cards (refreshNodes v nodes).1).map (Card.listed v) = (cards nodes).map (Card.listed v) := by
  induction nodes with
  | nil => rfl
  | cons n nodes ih =>
    have hn := h n List.mem_cons_self
    have hns := ih fun m hm => h m (List.mem_cons_of_mem n hm)
    rw [refreshNodes]
    cases (refreshNode v n).2 with
    | some e => simp only [cards,List.map_append,hn]
    | none => simp only [cards,List.map_append,hn,hns]

theorem listed_refreshNode (n : Listed) :
    (cardsOf (refreshNode v n).1).map (Card.listed v) = (cardsOf n).map (Card.listed v) := by
  induction n using Listed.induction with
  | factor card => simp [refreshNode,cardsOf,listed_refreshed]
  | group children ih =>
    rw [refreshNode,cardsOf,cardsOf]
    exact listed_refreshNodes ih

theorem refreshNodes_right (hn : ∀ n ∈ nodes, (∀ c ∈ cardsOf n, c.listed v = true) →
      (refreshNode v n).2 = none ∧ ∀ c ∈ cardsOf (refreshNode v n).1, c.Right v)
    (h : ∀ c ∈ cards nodes, c.listed v = true) :
    (refreshNodes v nodes).2 = none ∧ ∀ c ∈ cards (refreshNodes v nodes).1, c.Right v := by
  induction nodes with
  | nil => exact ⟨rfl,fun c hc => absurd hc (by simp [refreshNodes,cards])⟩
  | cons n nodes ih =>
    obtain ⟨hthrown,hright⟩ := hn n List.mem_cons_self fun c hc => h c (List.mem_append_left _ hc)
    obtain ⟨hrest,hrights⟩ := ih (fun m hm => hn m (List.mem_cons_of_mem n hm))
      fun c hc => h c (List.mem_append_right _ hc)
    simp only [refreshNodes,hthrown]
    refine ⟨hrest,fun c hc => ?_⟩
    rcases List.mem_append.mp hc with hc | hc
    · exact hright c hc
    · exact hrights c hc

theorem refreshNode_right (n : Listed) (h : ∀ c ∈ cardsOf n, c.listed v = true) :
    (refreshNode v n).2 = none ∧ ∀ c ∈ cardsOf (refreshNode v n).1, c.Right v := by
  induction n using Listed.induction with
  | factor card =>
    obtain ⟨hthrown,hright⟩ := refresh_card (h card (List.mem_singleton.mpr rfl))
    refine ⟨hthrown,fun c hc => ?_⟩
    rw [refreshNode,cardsOf,List.mem_singleton] at hc
    exact hc ▸ hright
  | group children ih =>
    rw [refreshNode]
    exact refreshNodes_right ih h

end Trees

def Page.listed (p : Page) : Bool := (cards p.expressionRoot).all fun c => c.listed p.discovery

/-- All suggestion lists of the page follow the document and what is typed. -/
structure Page.Right (p : Page) : Prop where
  identifiers : p.identifierOptions = p.discovery.identifiers
  cards : ∀ c ∈ Options.cards p.expressionRoot, c.Right p.discovery

section Runs
variable {p q : Page} {path : List ℕ} {f : List Listed → Option (List Listed)}

theorem Page.Right.change (hp : p.Right) (he : p.change path f = some q) (hq : q.listed = true)
    (hf : ∀ container container', f container = some container' →
      (∀ c ∈ Options.cards container, c.Right p.discovery) →
      (∀ c ∈ Options.cards container', c.listed p.discovery = true) →
      ∀ c ∈ Options.cards container', c.Right p.discovery) : q.Right := by
  obtain ⟨root,hroot,rfl⟩ := Option.map_eq_some_iff.mp he
  obtain ⟨container,container',hc,hin,hout,hnew⟩ := changeAt_cards hroot
  have hlisted := List.all_eq_true.mp hq
  refine ⟨hp.identifiers,fun c hmem => ?_⟩
  rcases hnew c hmem with hold | hown
  · exact hp.cards c hold
  · exact hf container container' hc (fun c hc => hp.cards c (hin c hc)) (fun c hc => hlisted c (hout c hc)) c hown

theorem changeCard_right {i : ℕ} {g : Card → Option Card} {v : Vocabulary} {container container' : List Listed}
    (hg : ∀ c c', g c = some c' → c.Right v → c'.listed v = true → c'.Right v)
    (h : changeCard i g container = some container') (hr : ∀ c ∈ cards container, c.Right v)
    (hl : ∀ c ∈ cards container', c.listed v = true) :
    ∀ c ∈ cards container', c.Right v := by
  rw [changeCard] at h
  cases hi : container[i]? with
  | none =>
    rw [hi] at h
    cases h
  | some node =>
    cases node with
    | group children =>
      rw [hi] at h
      cases h
    | factor card =>
      rw [hi] at h
      obtain ⟨card',hcard',rfl⟩ := Option.map_eq_some_iff.mp h
      intro c hc
      have hcl := hl c hc
      rcases mem_cards_set hc with hc | hc
      · exact hr c hc
      · rw [List.mem_singleton.mp hc] at hcl ⊢
        exact hg card card' hcard' (hr card (mem_cards_of_getElem? hi (List.mem_singleton.mpr rfl))) hcl

theorem cards_removeNode {i : ℕ} {container container' : List Listed} (h : removeNode i container = some container') :
    ∀ c ∈ cards container', c ∈ cards container := by
  rw [removeNode] at h
  split_ifs at h
  cases h
  intro c hc
  obtain ⟨n,hn,hcn⟩ := mem_cards.mp hc
  exact mem_cards.mpr ⟨n,List.mem_of_mem_eraseIdx hn,hcn⟩

theorem cards_insertBefore {i : ℕ} {container container' : List Listed}
    (h : insertBefore i container = some container') : ∀ c ∈ cards container', c ∈ cards container := by
  rw [insertBefore] at h
  cases hi : container[i]? with
  | none =>
    rw [hi] at h
    cases h
  | some node =>
    rw [hi] at h
    simp only at h
    split_ifs at h with hpos
    cases h
    intro c hc
    obtain ⟨n,hn,hcn⟩ := mem_cards.mp hc
    obtain ⟨hlt,-⟩ := List.getElem?_eq_some_iff.mp hi
    have hbound : i-1 ≤ (container.eraseIdx i).length := by
      rw [List.length_eraseIdx_of_lt hlt]
      omega
    rcases (List.mem_insertIdx hbound).mp hn with rfl | hn
    · exact mem_cards_of_getElem? hi hcn
    · exact mem_cards.mpr ⟨n,List.mem_of_mem_eraseIdx hn,hcn⟩

theorem Page.Right.load (hp : p.Right) (ms : List Model) : (p.load ms).Right :=
  ⟨hp.identifiers,fun c hc =>
    (appendNodes_right (fun m _ => appendNode_right m) [] c hc).resolve_left (by simp [Options.cards])⟩

theorem loadDiscovery_right {d : Vocabulary} (hq : (loadDiscovery d p).listed = true) : (loadDiscovery d p).Right := by
  have hlisted : ∀ c ∈ Options.cards p.expressionRoot, c.listed d = true := by
    have hsame := listed_refreshNodes (v := d) fun n (_ : n ∈ p.expressionRoot) => listed_refreshNode n
    intro c hc
    have hmem := hsame ▸ List.mem_map_of_mem (f := Card.listed d) hc
    obtain ⟨c',hc',heq⟩ := List.mem_map.mp hmem
    rw [← heq]
    exact List.all_eq_true.mp hq c' hc'
  exact ⟨rfl,(refreshNodes_right (fun n _ => refreshNode_right n) hlisted).2⟩

theorem Page.Right.step {a : Action} (hp : p.Right) (he : step p a = some q) (hq : q.listed = true) : q.Right := by
  cases a with
  | addFactor path =>
    exact hp.change he hq fun container container' h hr _ c hc => by
      cases h
      exact (appendNode_right _ _ c hc).elim (hr c) id
  | addGroup path operator =>
    exact hp.change he hq fun container container' h hr _ c hc => by
      cases h
      exact (appendNode_right _ _ c hc).elim (hr c) id
  | addConstraint path i kind =>
    exact hp.change he hq fun _ _ h => changeCard_right (fun c c' hc => Option.some.inj hc ▸ addConstraint_right) h
  | removeRow path i kind k =>
    refine hp.change he hq fun _ _ h => changeCard_right (fun c c' hc hr _ => ?_) h
    split_ifs at hc
    exact Option.some.inj hc ▸ removeRow_right hr kind k
  | removeNode path i => exact hp.change he hq fun _ _ h hr _ c hc => hr c (cards_removeNode h c hc)
  | moveUp path i => exact hp.change he hq fun _ _ h hr _ c hc => hr c (cards_insertBefore h c hc)
  | moveDown path i => exact hp.change he hq fun _ _ h hr _ c hc => hr c (cards_insertBefore h c hc)
  | typeIdentifier path i text =>
    exact hp.change he hq fun _ _ h => changeCard_right (fun c c' hc _ => Option.some.inj hc ▸ typeIdentifier_right) h
  | typeName path i kind k text =>
    refine hp.change he hq fun _ _ h => changeCard_right (fun c c' hc hr hl => ?_) h
    split_ifs at hc
    cases hc
    exact typeName_right hr hl
  | loadJson text =>
    cases he
    rw [loadJson]
    cases loadedDetails text with
    | none => exact hp
    | some details => exact hp.load _
  | loadPreset name =>
    cases he
    exact hp.load _
  | loadDiscovery d =>
    cases he
    exact loadDiscovery_right hq

theorem opening_right : opening.Right := by
  have hempty : Page.Right ⟨⟨[],[]⟩,[],[]⟩ := ⟨rfl,fun c hc => absurd hc (by simp [Options.cards])⟩
  exact hempty.load _

/-- In every run of the page, if no row ever bears a name whose look-up throws, each factor suggests the
names that the document last loaded gives for its present method, and each row the values for its
present name. -/
theorem suggestions_follow {as : List Action}
    (hl : Along step (fun p a => ∀ q, step p a = some q → q.listed = true) opening as)
    (hr : run step opening as = some p) : p.Right :=
  run_invariant_along (fun hp hg he => hp.step he (hg _ he)) opening_right hl hr

/-- A document that gives the kinds of one-time codes. -/
def otpVocabulary : Vocabulary where
  identifiers := [js "otp"]
  methods := [(js "otp",⟨[(js "otp_type",[.str (js "totp"),.str (js "hotp")])],[]⟩)]

theorem suggestions_follow_otp : ∃ p,
    run step opening [.loadDiscovery otpVocabulary,.typeIdentifier [] 0 (js "otp"),.addConstraint [] 0 .property] =
      some p ∧ p.Right := by
  have hguard : Along step (fun p a => ∀ q, step p a = some q → q.listed = true) opening
      [.loadDiscovery otpVocabulary,.typeIdentifier [] 0 (js "otp"),.addConstraint [] 0 .property] := by
    refine ⟨?_,?_⟩
    · rintro q ⟨⟩
      decide +kernel
    rintro q ⟨⟩
    refine ⟨?_,?_⟩
    · rintro q ⟨⟩
      decide +kernel
    rintro q ⟨⟩
    refine ⟨?_,fun _ _ => trivial⟩
    rintro q ⟨⟩
    decide +kernel
  exact ⟨_,rfl,suggestions_follow hguard rfl⟩

/-- A row that comes to bear such a name keeps the values of the former. -/
example : (run step opening [.loadDiscovery otpVocabulary,.typeIdentifier [] 0 (js "otp"),
      .addConstraint [] 0 .property,.typeName [] 0 .property 1 (js "constructor")]).map (fun p =>
        (cards p.expressionRoot).flatMap fun c => (c.rows .property).map OptionRow.values) =
    some [[],[js "totp",js "hotp"]] := by
  decide +kernel

end Runs

end Oidc4acLab.Builder.Options
