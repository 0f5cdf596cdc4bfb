import Oidc4acLab.Builder.Page

/-! # Loading a Claim Request Object into the builder

The loader reads the first location that requests `amr_details`, turns the value into
models of nodes and appends the controls these models describe. An alert leaves the
page as far as it was built.
-/
namespace Oidc4acLab.Builder
open Text

/-- The names that the discovery document suggests for one method. -/
structure Method where
  properties : List Text
  metadata : List Text

structure Discovery where
  identifiers : List Text
  methods : List (Text × Method)

inductive Kind
  | property
  | metadata
  deriving DecidableEq

def defaultIdentifier (d : Discovery) : Text :=
  if js "pwd" ∈ d.identifiers then js "pwd"
  else (d.identifiers.head?.filter fun t => !t.isEmpty).getD (js "pwd")

/-- `methodProperties` and `methodMetadata`. -/
def suggestedNames (d : Discovery) (kind : Kind) (identifier : Text) : List Text :=
  match d.methods.lookup identifier with
  | some m =>
    match kind with
    | .property => m.properties
    | .metadata => m.metadata
  | none => []

/-- `refreshConstraintSuggestions` as far as it can throw: a name without suggestions is looked
up in `Object.prototype`, and of what that holds `constructor` alone has a member `values`, which
is no array. -/
def refreshConstraintSuggestions (d : Discovery) (kind : Kind) (identifier name : Text) :
    Except Thrown Unit :=
  if trim name = js "constructor" ∧ js "constructor" ∉ suggestedNames d kind (trim identifier) then
    .error .typeError
  else .ok ()

/-- Members of a model; `none` stands for an undefined one. -/
structure RowModel where
  name : Option Text := none
  mode : Option Mode := none
  value : Option Text := none
  min : Option Json := none
  max : Option Json := none
  essential : Option Json := none

structure FactorModel where
  identifier : Option Json := none
  timeRequested : Option Bool := none
  timeEssential : Option Bool := none
  maxAge : Option Json := none
  properties : List RowModel := []
  metadata : List RowModel := []

inductive Model
  | factor (m : FactorModel)
  | group (operator : Operator) (children : List Model)

/-- `Boolean(value)` -/
def truthy (v : Option Json) : Bool := v.any Json.truthy

/-- `value && value.name` -/
def andMember (v : Option Json) (name : Text) : Option Json :=
  v.bind fun j => if j.truthy then j.member? name else some j

def valueForInput : Json → Text
  | .str t => t
  | j => j.stringify

def propertyModel (name : Text) (constraint : Json) : Except Thrown RowModel :=
  let essential := constraint.member? (js "essential")
  match constraint with
  | .null => .ok { name := some name, mode := some .requested }
  | _ =>
    if !constraint.isObject then
      .error (.error (js "Property " ++ name ++ js " is not a supported constraint."))
    else match constraint.member? (js "value") with
      | some v =>
        .ok { name := some name, mode := some .value, value := some (valueForInput v), essential }
      | none =>
        match constraint.member? (js "values") with
        | some (.arr vs) =>
          .ok { name := some name, mode := some .values,
                value := some (join (js ", ") (vs.map valueForInput)), essential }
        | some _ => .error .typeError
        | none =>
          if constraint.own (js "min") || constraint.own (js "max") then
            .ok { name := some name, mode := some .range, min := constraint.member? (js "min"),
                  max := constraint.member? (js "max"), essential }
          else .ok { name := some name, mode := some .presence, essential }

/-- `Object.entries(value || {})` -/
def entriesOf (v : Option Json) : List (Text × Json) :=
  v.elim [] fun j => if j.truthy then j.entries else []

def propertyModels (entries : List (Text × Json)) : Except Thrown (List RowModel) :=
  entries.mapM fun m => propertyModel m.1 m.2

/-- `expression.amr_identifier.value`; only objects have these members. -/
def identifierValue (expression : Json) : Option Json :=
  (expression.member? (js "amr_identifier")).bind fun j => j.member? (js "value")

def factorModel (expression : Json) : Except Thrown FactorModel :=
  let identifier := identifierValue expression
  let amrMetadata := expression.member? (js "amr_metadata")
  let time := andMember amrMetadata (js "time")
  if identifier.isNone then
    .error (.error (js "A method expression needs amr_identifier.value."))
  else do
    let metadata ← propertyModels ((entriesOf amrMetadata).filter fun m => m.1 != js "time")
    let properties ← propertyModels (entriesOf (expression.member? (js "amr_properties")))
    return { identifier, timeRequested := some time.isSome,
             timeEssential := some (truthy (andMember time (js "essential"))),
             maxAge := andMember time (js "max_age"), metadata, properties }

mutual

def expressionModel : Json → Except Thrown Model
  | .obj ms =>
    match operandModels (js "all_of") ms with
    | some children => children.map (.group .allOf)
    | none =>
      match operandModels (js "one_of") ms with
      | some children => children.map (.group .oneOf)
      | none => (factorModel (.obj ms)).map .factor
  | j => (factorModel j).map .factor

/-- The models of the operands under `name`, when that member is an array. -/
def operandModels (name : Text) : List (Text × Json) → Option (Except Thrown (List Model))
  | [] => none
  | (n,v) :: ms =>
    if n = name then
      match v with
      | .arr items => some (expressionModels items)
      | _ => none
    else operandModels name ms

/-- `operands.map(expressionModel)` -/
def expressionModels : List Json → Except Thrown (List Model)
  | [] => .ok []
  | e :: es => do
    let m ← expressionModel e
    let ms ← expressionModels es
    return m :: ms

end

/-- `String(value ?? fallback)` -/
def textOr (v : Option Json) (fallback : Text) : Except Thrown Text :=
  match v with
  | none => .ok fallback
  | some .null => .ok fallback
  | some j =>
    match j.toText with
    | some t => .ok t
    | none => .error .typeError

/-- The row that `addConstraint` appends to a factor with this identifier. -/
def addConstraint (d : Discovery) (kind : Kind) (identifier : Text) (model : RowModel) :
    Except Thrown Row := do
  let suggested := (suggestedNames d kind (trim identifier)).head?
  let name := TextInput.assign ((model.name.or suggested).getD [])
  let min ← textOr model.min []
  let max ← textOr model.max []
  let _ ← refreshConstraintSuggestions d kind identifier name.value
  return { name, mode := model.mode.getD .requested,
           value := .assign (model.value.getD []), min := .assign min, max := .assign max,
           essential := truthy model.essential }

/-- The controls that `addFactor` fills in before it appends them. -/
def factorControls (d : Discovery) (model : FactorModel) : Except Thrown Factor := do
  let identifier ← textOr model.identifier (defaultIdentifier d)
  let id := TextInput.assign identifier
  let maxAge ← textOr model.maxAge []
  let properties ← model.properties.mapM (addConstraint d .property id.value)
  let metadata ← model.metadata.mapM (addConstraint d .metadata id.value)
  return { id, timeRequested := model.timeRequested.getD true,
           timeEssential := model.timeEssential.getD false, timeMaxAge := .assign maxAge,
           properties, metadata }

def addFactor (d : Discovery) (model : FactorModel) (container : List Node) :
    List Node × Option Thrown :=
  match factorControls d model with
  | .ok f => (container ++ [.factor f],none)
  | .error e => (container,some e)

mutual

/-- `appendNode`; for a group it is `addGroup`, which appends the group before its children. -/
def appendNode (d : Discovery) : Model → List Node → List Node × Option Thrown
  | .factor m, container => addFactor d m container
  | .group operator children, container =>
    let r := if children.isEmpty then addFactor d {} [] else appendNodes d children []
    (container ++ [.group operator r.1],r.2)

def appendNodes (d : Discovery) : List Model → List Node → List Node × Option Thrown
  | [], container => (container,none)
  | m :: ms, container =>
    let r := appendNode d m container
    match r.2 with
    | none => appendNodes d ms r.1
    | some e => (r.1,some e)

end

/-- The own member `amr_details` of a location. -/
def requestedDetails (claims : Json) (l : Location) : Option Json :=
  (claims.member? l.name).bind fun j => j.member? (js "amr_details")

def locations (claims : Json) : List Location :=
  [.idToken,.userinfo].filter fun l => (requestedDetails claims l).isSome

def isExpression (details : Json) : Bool :=
  details.own (js "all_of") || details.own (js "one_of") || details.own (js "amr_identifier")

def resetRoot (p : Page) : Page := { p with expressionRoot := [] }

def checkDeliveries (p : Page) (ls : List Location) : Page :=
  { p with delivery := fun l => ls.contains l }

def expressionNodes (d : Discovery) (details : Json) : List Node × Option Thrown :=
  if isExpression details then
    match expressionModel details with
    | .ok m => appendNode d m []
    | .error e => ([],some e)
  else ([],none)

/-- The part of `loadJson` that follows the choice of the location. -/
def loadDetails (d : Discovery) (p : Page) (details : Json) : Page × Option Thrown :=
  if details.isObject then
    let r := expressionNodes d details
    let p := { resetRoot p with expressionRoot := r.1 }
    match r.2 with
    | some e => (p,some e)
    | none => ({ p with claimEssential := truthy (details.member? (js "essential")) },none)
  else
    match details with
    | .null => ({ resetRoot p with claimEssential := false },none)
    | _ => (resetRoot p,some (.error (js "amr_details must be null or an object.")))

/-- The page afterwards, and what was caught and shown as an alert. -/
def loadJson (d : Discovery) (p : Page) : Page × Option Thrown :=
  match Json.parse p.claimsJson with
  | none => (p,some .syntaxError)
  | some .null => (p,some .typeError)
  | some claims =>
    match locations claims with
    | [] => (p,some (.error (js "JSON must request amr_details in ID Token or UserInfo.")))
    | l :: ls =>
      match requestedDetails claims l with
      | none => (p,some .typeError)
      | some details =>
        let r := loadDetails d p details
        match r.2 with
        | some e => (r.1,some e)
        | none => (checkDeliveries r.1 (l :: ls),none)

/-- A page with this text in the editor and no nodes. -/
def editorPage (text : Text) : Page := ⟨true,.allOf,fun _ => true,[],text⟩

def noDiscovery : Discovery := ⟨[],[]⟩

/-- Loading the text of the page and building the claims of what was loaded. -/
def reload (d : Discovery) (p : Page) : Except Thrown Json :=
  match loadJson d p with
  | (p',none) => buildClaims p'
  | (_,some e) => .error e

end Oidc4acLab.Builder
