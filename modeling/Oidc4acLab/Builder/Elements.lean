import Oidc4acLab.Builder.FailedLoad
import Oidc4acLab.Transition.Runs

/-! # The elements of the builder and their ids

An input finds its suggestions through the id of a `datalist`. The script numbers the nodes
with a counter that a load starts again, and the rows of a factor by how many rows their
list holds. The state is the tree of elements with these ids; what the controls hold has no
part in it and may be edited at any time.
-/
namespace Oidc4acLab.Builder.Elements
open Text

def kindName : Kind → Text
  | .property => js "property"
  | .metadata => js "metadata"

/-- A row with the `list` attributes of its two inputs and the id of its own datalist. -/
structure RowElement where
  nameList : Text
  valueSuggestions : Text
  valueList : Text
  deriving DecidableEq

structure FactorCard where
  nodeId : Text
  propertySuggestions : Text
  metadataSuggestions : Text
  propertyList : List RowElement
  metadataList : List RowElement
  deriving DecidableEq

inductive Element
  | factor (card : FactorCard)
  | group (nodeId : Text) (children : List Element)

namespace FactorCard

def suggestions (factor : FactorCard) : Kind → Text
  | .property => factor.propertySuggestions
  | .metadata => factor.metadataSuggestions

def rows (factor : FactorCard) : Kind → List RowElement
  | .property => factor.propertyList
  | .metadata => factor.metadataList

def setRows (factor : FactorCard) (kind : Kind) (rows : List RowElement) : FactorCard :=
  match kind with
  | .property => { factor with propertyList := rows }
  | .metadata => { factor with metadataList := rows }

def valuesId (factor : FactorCard) (kind : Kind) (number : ℕ) : Text :=
  factor.nodeId ++ (js "-" ++ (kindName kind ++ (js "-" ++ (digits number ++ js "-values"))))

def nextId (factor : FactorCard) (kind : Kind) : Text := factor.valuesId kind ((factor.rows kind).length+1)

def addConstraint (factor : FactorCard) (kind : Kind) : FactorCard :=
  factor.setRows kind (factor.rows kind ++
    [⟨factor.suggestions kind,factor.nextId kind,factor.nextId kind⟩])

def removeRow (factor : FactorCard) (kind : Kind) (k : ℕ) : FactorCard :=
  factor.setRows kind ((factor.rows kind).eraseIdx k)

end FactorCard

def nodeName (sequence : ℕ) : Text := js "node-" ++ digits sequence

def newCard (nodeId : Text) : FactorCard := ⟨nodeId,nodeId ++ js "-properties",nodeId ++ js "-metadata",[],[]⟩

def factorCard (nodeId : Text) (model : FactorModel) : FactorCard :=
  let card := model.properties.foldl (fun card _ => card.addConstraint .property) (newCard nodeId)
  model.metadata.foldl (fun card _ => card.addConstraint .metadata) card

/-- The counter and the container after an append, and what was thrown. -/
structure Appended where
  nodeSequence : ℕ
  container : List Element
  thrown : Option Thrown

/-- A factor takes a number, and is appended unless filling it in throws. -/
def addFactor (d : Discovery) (model : FactorModel) (nodeSequence : ℕ) (container : List Element) : Appended :=
  match factorControls d model with
  | .ok _ => ⟨nodeSequence+1,container ++ [.factor (factorCard (nodeName (nodeSequence+1)) model)],none⟩
  | .error e => ⟨nodeSequence+1,container,some e⟩

mutual

def appendNode (d : Discovery) : Model → ℕ → List Element → Appended
  | .factor m, nodeSequence, container => addFactor d m nodeSequence container
  | .group _ children, nodeSequence, container =>
    let r := if children.isEmpty then addFactor d {} (nodeSequence+1) []
      else appendNodes d children (nodeSequence+1) []
    ⟨r.nodeSequence,container ++ [.group (nodeName (nodeSequence+1)) r.container],r.thrown⟩

def appendNodes (d : Discovery) : List Model → ℕ → List Element → Appended
  | [], nodeSequence, container => ⟨nodeSequence,container,none⟩
  | m :: ms, nodeSequence, container =>
    let r := appendNode d m nodeSequence container
    match r.thrown with
    | none => appendNodes d ms r.nodeSequence r.container
    | some _ => r

end

section Presets

def requestedRow (name : String) : RowModel := { name := some (js name), mode := some .requested }

def presetFactor (identifier : String) (timeRequested : Bool) (timeEssential : Option Bool)
    (properties : List RowModel) : Model :=
  .factor { identifier := some (.str (js identifier)), timeRequested := some timeRequested,
            timeEssential := timeEssential, properties := properties }

def timed (identifier : String) : Model := presetFactor identifier true (some true) []

def presets : List (Text × List Model) :=
  [(js "informational",[]),
    (js "essential-password",[presetFactor "pwd" true (some true) [requestedRow "pwd_derivation_algorithm"]]),
    (js "best-effort-password",[presetFactor "pwd" true (some false) []]),
    (js "fresh-password",
      [.factor { identifier := some (.str (js "pwd")), timeRequested := some true,
                 timeEssential := some true, maxAge := some (.num (Number.ofNat 60)) }]),
    (js "password-and-otp",[timed "pwd",timed "otp"]),
    (js "password-or-otp",[timed "pwd",timed "otp"]),
    (js "nested-methods",[.group .allOf [timed "pwd",timed "otp"],timed "pop"]),
    (js "email-code",[timed "email"]),
    (js "password-and-email",[timed "pwd",timed "email"]),
    (js "password-or-email",[timed "pwd",timed "email"]),
    (js "otp-or-email",[timed "otp",timed "email"]),
    (js "nested-password-otp-or-email",[timed "pwd",.group .oneOf [timed "otp",timed "email"]]),
    (js "email-property",[presetFactor "email" true (some true)
      [{ name := some (js "email_verification_method"), mode := some .value, value := some (js "code"),
         essential := some (.bool true) }]]),
    (js "password-property",[presetFactor "pwd" true (some true) [requestedRow "pwd_derivation_algorithm"]]),
    (js "essential-password-property",[presetFactor "pwd" true (some true)
      [{ name := some (js "pwd_derivation_algorithm"), mode := some .presence,
         essential := some (.bool true) }]]),
    (js "unsupported",[presetFactor "face" false none []])]

end Presets

structure Editor where
  discovery : Discovery
  nodeSequence : ℕ
  expressionRoot : List Element

def resetRoot (e : Editor) : Editor := { e with nodeSequence := 0, expressionRoot := [] }

def Editor.append (e : Editor) (ms : List Model) : Editor :=
  let r := appendNodes e.discovery ms e.nodeSequence e.expressionRoot
  { e with nodeSequence := r.nodeSequence, expressionRoot := r.container }

/-- The models that `loadJson` appends, where it comes to that. -/
def loadedModels (details : Json) : List Model :=
  if isExpression details then
    match expressionModel details with
    | .ok m => [m]
    | .error _ => []
  else []

def loadJson (e : Editor) (text : Text) : Editor :=
  match loadedDetails text with
  | some details => (resetRoot e).append (loadedModels details)
  | none => e

def loadPreset (e : Editor) (name : Text) : Editor := (resetRoot e).append ((presets.lookup name).getD [])

/-- The children of the root, or of the group to which the positions lead. -/
def containerAt : List ℕ → List Element → Option (List Element)
  | [], container => some container
  | i :: path, container =>
    match container[i]? with
    | some (.group _ children) => containerAt path children
    | _ => none

/-- Changes that container; the function gives the counter and the children afterwards. -/
def changeAt (f : List Element → Option (ℕ × List Element)) :
    List ℕ → List Element → Option (ℕ × List Element)
  | [], container => f container
  | i :: path, container =>
    match container[i]? with
    | some (.group nodeId children) =>
      (changeAt f path children).map fun r => (r.1,container.set i (.group nodeId r.2))
    | _ => none

def Editor.change (e : Editor) (path : List ℕ) (f : List Element → Option (ℕ × List Element)) : Option Editor :=
  (changeAt f path e.expressionRoot).map fun r => { e with nodeSequence := r.1, expressionRoot := r.2 }

def Editor.appendAt (e : Editor) (path : List ℕ) (m : Model) : Option Editor :=
  e.change path fun container =>
    let r := appendNode e.discovery m e.nodeSequence container
    some (r.nodeSequence,r.container)

def changeCard (i : ℕ) (f : FactorCard → Option FactorCard) (container : List Element) : Option (List Element) :=
  match container[i]? with
  | some (.factor card) => (f card).map fun card' => container.set i (.factor card')
  | _ => none

def removeNode (i : ℕ) (container : List Element) : Option (List Element) :=
  if i < container.length then some (container.eraseIdx i) else none

def insertBefore (i : ℕ) (container : List Element) : Option (List Element) :=
  match container[i]? with
  | some node => if 0 < i then some ((container.eraseIdx i).insertIdx (i-1) node) else none
  | none => none

/-- What a user can do to the tree. A button belongs to a container, to a node at a position in its
container or to a row at a position in its list. -/
inductive Action
  | addFactor (path : List ℕ)
  | addGroup (path : List ℕ) (operator : Operator)
  | addConstraint (path : List ℕ) (i : ℕ) (kind : Kind)
  | removeRow (path : List ℕ) (i : ℕ) (kind : Kind) (k : ℕ)
  | removeNode (path : List ℕ) (i : ℕ)
  | moveUp (path : List ℕ) (i : ℕ)
  | moveDown (path : List ℕ) (i : ℕ)
  | loadJson (text : Text)
  | loadPreset (name : Text)
  | loadDiscovery (d : Discovery)

/-- There is no step where the button does not exist or is disabled. -/
def step (e : Editor) : Action → Option Editor
  | .addFactor path => e.appendAt path (.factor {})
  | .addGroup path operator => e.appendAt path (.group operator [])
  | .addConstraint path i kind =>
    e.change path fun container =>
      (changeCard i (fun card => some (card.addConstraint kind)) container).map (e.nodeSequence,·)
  | .removeRow path i kind k =>
    e.change path fun container =>
      (changeCard i (fun card => if k < (card.rows kind).length then some (card.removeRow kind k) else none)
        container).map (e.nodeSequence,·)
  | .removeNode path i => e.change path fun container => (removeNode i container).map (e.nodeSequence,·)
  | .moveUp path i => e.change path fun container => (insertBefore i container).map (e.nodeSequence,·)
  | .moveDown path i => e.change path fun container => (insertBefore (i+1) container).map (e.nodeSequence,·)
  | .loadJson text => some (loadJson e text)
  | .loadPreset name => some (loadPreset e name)
  | .loadDiscovery d => some { e with discovery := d }

/-- What the details of a text let throw, where appending their model throws what `append` says. -/
def detailsThrown (append : Model → Option Thrown) (details : Json) : Option Thrown :=
  if details.isObject then
    if isExpression details then
      match expressionModel details with
      | .ok m => append m
      | .error e => some e
    else none
  else
    match details with
    | .null => none
    | _ => some (.error (js "amr_details must be null or an object."))

/-- What `loadJson` catches and shows as an alert. -/
def loadThrown (append : Model → Option Thrown) (text : Text) : Option Thrown :=
  match Json.parse text with
  | none => some .syntaxError
  | some .null => some .typeError
  | some claims =>
    match locations claims with
    | [] => some (.error (js "JSON must request amr_details in ID Token or UserInfo."))
    | l :: _ =>
      match requestedDetails claims l with
      | none => some .typeError
      | some details => detailsThrown append details

/-- What is thrown where an action appends nodes. -/
def thrown (e : Editor) : Action → Option Thrown
  | .addFactor path => (containerAt path e.expressionRoot).bind fun container =>
    (appendNode e.discovery (.factor {}) e.nodeSequence container).thrown
  | .addGroup path operator => (containerAt path e.expressionRoot).bind fun container =>
    (appendNode e.discovery (.group operator []) e.nodeSequence container).thrown
  | .loadJson text => loadThrown (fun m => (appendNode e.discovery m 0 []).thrown) text
  | .loadPreset name => (appendNodes e.discovery ((presets.lookup name).getD []) 0 []).thrown
  | _ => none

/-- The page after the script has run, with the first preset. -/
def opening : Editor := loadPreset ⟨noDiscovery,0,[]⟩ (js "essential-password")

/-- A node in document order. -/
inductive Item
  | factor (card : FactorCard)
  | group (nodeId : Text)

def Item.nodeId : Item → Text
  | .factor card => card.nodeId
  | .group nodeId => nodeId

mutual

def itemsOf : Element → List Item
  | .factor card => [.factor card]
  | .group nodeId children => .group nodeId :: items children

def items : List Element → List Item
  | [] => []
  | node :: nodes => itemsOf node ++ items nodes

end

/-- Where a datalist stands: in the page, in the `n`-th node of the tree, or there in the `k`-th row. -/
inductive Place
  | page
  | factor (n : ℕ) (kind : Kind)
  | row (n : ℕ) (kind : Kind) (k : ℕ)
  deriving DecidableEq

def rowDatalists (n : ℕ) (kind : Kind) (rows : List RowElement) : List (Text × Place) :=
  rows.zipIdx.map fun r => (r.1.valueSuggestions,.row n kind r.2)

def Item.datalists (n : ℕ) : Item → List (Text × Place)
  | .factor card =>
    (card.propertySuggestions,.factor n .property) :: (card.metadataSuggestions,.factor n .metadata) ::
      (rowDatalists n .metadata card.metadataList ++ rowDatalists n .property card.propertyList)
  | .group _ => []

/-- The `list` attributes of the inputs of a row, each with the place of the datalist it is to name. -/
def rowInputs (n : ℕ) (kind : Kind) (rows : List RowElement) : List (Text × Place) :=
  rows.zipIdx.flatMap fun r => [(r.1.nameList,.factor n kind),(r.1.valueList,.row n kind r.2)]

def Item.inputs (n : ℕ) : Item → List (Text × Place)
  | .factor card =>
    (js "method-identifiers",.page) ::
      (rowInputs n .metadata card.metadataList ++ rowInputs n .property card.propertyList)
  | .group _ => []

def datalists (e : Editor) : List (Text × Place) :=
  ((items e.expressionRoot).zipIdx.flatMap fun p => p.1.datalists p.2) ++ [(js "method-identifiers",.page)]

def inputs (e : Editor) : List (Text × Place) :=
  (items e.expressionRoot).zipIdx.flatMap fun p => p.1.inputs p.2

/-- The datalist that an attribute designates is the first one with that id. -/
def designated (e : Editor) (id : Text) : Option Place := (datalists e).lookup id

/-- The ids of the datalists are pairwise distinct, and every input designates its own. -/
structure Separate (e : Editor) : Prop where
  distinct : ((datalists e).map Prod.fst).Nodup
  own : ∀ x ∈ inputs e, designated e x.1 = some x.2

/-- A row is added to a list only when none of its rows has the number that the new one gets. -/
def Clear (e : Editor) : Action → Prop
  | .addConstraint path i kind =>
    ∀ container card, containerAt path e.expressionRoot = some container → container[i]? = some (.factor card) →
      card.nextId kind ∉ (card.rows kind).map RowElement.valueSuggestions
  | _ => True

/-- A tree of which only the groups and the numbers of rows are kept. -/
inductive Outline
  | factor (properties metadata : ℕ)
  | group (children : List Outline)

mutual

def outline : Element → Outline
  | .factor card => .factor card.propertyList.length card.metadataList.length
  | .group _ children => .group (outlines children)

def outlines : List Element → List Outline
  | [] => []
  | node :: nodes => outline node :: outlines nodes

end

mutual

def nodeOutline : Node → Outline
  | .factor f => .factor f.properties.length f.metadata.length
  | .group _ children => .group (nodeOutlines children)

def nodeOutlines : List Node → List Outline
  | [] => []
  | node :: nodes => nodeOutline node :: nodeOutlines nodes

end

theorem outlines_append (xs ys : List Element) : outlines (xs ++ ys) = outlines xs ++ outlines ys := by
  induction xs with
  | nil => rfl
  | cons x xs ih => rw [List.cons_append,outlines,ih,outlines,List.cons_append]

theorem nodeOutlines_append (xs ys : List Node) : nodeOutlines (xs ++ ys) = nodeOutlines xs ++ nodeOutlines ys := by
  induction xs with
  | nil => rfl
  | cons x xs ih => rw [List.cons_append,nodeOutlines,ih,nodeOutlines,List.cons_append]

theorem length_filled (kind kind' : Kind) (rows : List RowModel) (card : FactorCard) :
    ((rows.foldl (fun card _ => card.addConstraint kind) card).rows kind').length =
      (card.rows kind').length + if kind' = kind then rows.length else 0 := by
  have hadd : ∀ card : FactorCard, ((card.addConstraint kind).rows kind').length =
      (card.rows kind').length + if kind' = kind then 1 else 0 := by
    intro card
    cases kind <;> cases kind' <;> simp [FactorCard.addConstraint,FactorCard.setRows,FactorCard.rows]
  induction rows generalizing card with
  | nil => simp
  | cons row rows ih =>
    rw [List.foldl_cons,ih,hadd]
    split_ifs
    · rw [List.length_cons]
      omega
    · rfl

theorem length_factorCard (nodeId : Text) (model : FactorModel) :
    (factorCard nodeId model).propertyList.length = model.properties.length ∧
      (factorCard nodeId model).metadataList.length = model.metadata.length := by
  have hlength : ∀ kind, ((factorCard nodeId model).rows kind).length =
      ((newCard nodeId).rows kind).length + (if kind = .property then model.properties.length else 0) +
        if kind = .metadata then model.metadata.length else 0 := by
    intro kind
    rw [factorCard,length_filled,length_filled]
  have hp := hlength .property
  have hm := hlength .metadata
  simp [FactorCard.rows,newCard] at hp hm
  exact ⟨hp,hm⟩

theorem length_controls {d : Discovery} {model : FactorModel} {f : Factor} (h : factorControls d model = .ok f) :
    f.properties.length = model.properties.length ∧ f.metadata.length = model.metadata.length := by
  obtain ⟨identifier,-,h⟩ := Fallible.bind_eq_ok.mp h
  obtain ⟨maxAge,-,h⟩ := Fallible.bind_eq_ok.mp h
  obtain ⟨properties,hp,h⟩ := Fallible.bind_eq_ok.mp h
  obtain ⟨metadata,hm,h⟩ := Fallible.bind_eq_ok.mp h
  cases h
  exact ⟨(Fallible.mapM_eq_ok.mp hp).length_eq.symm,(Fallible.mapM_eq_ok.mp hm).length_eq.symm⟩

/-- The append throws what the loader throws and leaves the same outline. -/
def Follows (r : Appended) (r' : List Node × Option Thrown) : Prop :=
  r.thrown = r'.2 ∧ outlines r.container = nodeOutlines r'.1

theorem addFactor_follows (d : Discovery) (model : FactorModel) (nodeSequence : ℕ) {container : List Element}
    {container' : List Node} (h : outlines container = nodeOutlines container') :
    Follows (addFactor d model nodeSequence container) (Builder.addFactor d model container') := by
  rw [addFactor,Builder.addFactor]
  cases hf : factorControls d model with
  | error e => exact ⟨rfl,h⟩
  | ok f =>
    have hcard := length_factorCard (nodeName (nodeSequence+1)) model
    have hcontrols := length_controls hf
    refine ⟨rfl,?_⟩
    simp only [outlines_append,nodeOutlines_append,h,outlines,nodeOutlines,outline,nodeOutline,hcard.1,hcard.2,
      hcontrols.1,hcontrols.2]

theorem appendNodes_follows {d : Discovery} {ms : List Model}
    (hm : ∀ m ∈ ms, ∀ (nodeSequence : ℕ) {container : List Element} {container' : List Node},
      outlines container = nodeOutlines container' →
        Follows (appendNode d m nodeSequence container) (Builder.appendNode d m container'))
    (nodeSequence : ℕ) {container : List Element} {container' : List Node}
    (h : outlines container = nodeOutlines container') :
    Follows (appendNodes d ms nodeSequence container) (Builder.appendNodes d ms container') := by
  induction ms generalizing nodeSequence container container' with
  | nil => exact ⟨rfl,h⟩
  | cons m ms ih =>
    obtain ⟨hthrown,houtlines⟩ := hm m List.mem_cons_self nodeSequence h
    rw [appendNodes,Builder.appendNodes]
    cases ht : (Builder.appendNode d m container').2 with
    | some e =>
      rw [ht] at hthrown
      simp only [hthrown]
      exact ⟨hthrown,houtlines⟩
    | none =>
      rw [ht] at hthrown
      simp only [hthrown]
      exact ih (fun k hk => hm k (List.mem_cons_of_mem m hk)) _ houtlines

theorem appendNode_follows (d : Discovery) (m : Model) (nodeSequence : ℕ) {container : List Element}
    {container' : List Node} (h : outlines container = nodeOutlines container') :
    Follows (appendNode d m nodeSequence container) (Builder.appendNode d m container') := by
  induction m using Model.induction generalizing nodeSequence container container' with
  | factor m => exact addFactor_follows d m nodeSequence h
  | group operator children ih =>
    have hchildren : Follows
        (if children.isEmpty then addFactor d {} (nodeSequence+1) [] else appendNodes d children (nodeSequence+1) [])
        (if children.isEmpty then Builder.addFactor d {} [] else Builder.appendNodes d children []) := by
      split_ifs
      · exact addFactor_follows d {} _ rfl
      · exact appendNodes_follows (fun m hm n _ _ h => ih m hm n h) _ rfl
    rw [appendNode,Builder.appendNode]
    refine ⟨hchildren.1,?_⟩
    simp only [outlines_append,nodeOutlines_append,h,outlines,nodeOutlines,outline,nodeOutline,hchildren.2]

theorem root_loadDetails (d : Discovery) (p : Page) (details : Json) :
    (loadDetails d p details).1.expressionRoot = (expressionNodes d details).1 := by
  by_cases ho : details.isObject = true
  · simp only [loadDetails,ho,if_true]
    rcases expressionNodes d details with ⟨nodes,_ | e⟩ <;> rfl
  · cases details <;> first | rfl | exact absurd rfl ho

theorem root_loadJson {d : Discovery} {p : Page} {details : Json} (h : loadedDetails p.claimsJson = some details) :
    (Builder.loadJson d p).1.expressionRoot = (expressionNodes d details).1 := by
  obtain ⟨ls,hload⟩ := loadJson_requested (d := d) h
  rw [hload,← root_loadDetails d p details]
  cases (loadDetails d p details).2 <;> rfl

theorem loadDetails_thrown (e : Editor) (p : Page) (details : Json) :
    (loadDetails e.discovery p details).2 =
      detailsThrown (fun m => (appendNode e.discovery m 0 []).thrown) details := by
  cases details with
  | obj members =>
    have hobject : Json.isObject (.obj members) = true := rfl
    simp only [loadDetails,detailsThrown,hobject,if_true,expressionNodes]
    by_cases hx : isExpression (.obj members) = true
    · rw [if_pos hx,if_pos hx]
      cases expressionModel (.obj members) with
      | error t => rfl
      | ok m =>
        have hfollows := @appendNode_follows e.discovery m 0 [] [] rfl
        simp only [hfollows.1]
        cases (Builder.appendNode e.discovery m []).2 <;> rfl
    · rw [if_neg hx,if_neg hx]
  | _ => rfl

theorem loadJson_thrown (e : Editor) (p : Page) :
    (Builder.loadJson e.discovery p).2 = thrown e (.loadJson p.claimsJson) := by
  rw [Builder.loadJson,thrown,loadThrown]
  rcases Json.parse p.claimsJson with _ | claims
  · rfl
  · rcases hls : locations claims with _ | ⟨l,ls⟩
    · cases claims <;> simp only [hls]
    · rcases hd : requestedDetails claims l with _ | details
      · cases claims <;> simp only [hls,hd]
      · have hdetails := loadDetails_thrown e p details
        cases claims <;> simp only [hls,hd,← hdetails]
        all_goals cases (loadDetails e.discovery p details).2 <;> rfl

theorem loadJson_outlines (e : Editor) (p : Page) (h : outlines e.expressionRoot = nodeOutlines p.expressionRoot) :
    outlines (loadJson e p.claimsJson).expressionRoot =
      nodeOutlines (Builder.loadJson e.discovery p).1.expressionRoot := by
  rw [loadJson]
  cases hd : loadedDetails p.claimsJson with
  | none =>
    rw [loadJson_unrequested hd]
    exact h
  | some details =>
    rw [root_loadJson hd,expressionNodes]
    simp only [loadedModels]
    split_ifs
    · cases expressionModel details with
      | error t => rfl
      | ok m =>
        have hempty : outlines [] = nodeOutlines [] := rfl
        have hfollows := appendNode_follows e.discovery m 0 hempty
        simp only [Editor.append,appendNodes,resetRoot]
        cases (appendNode e.discovery m 0 []).thrown <;> exact hfollows.2
    · rfl

end Oidc4acLab.Builder.Elements
