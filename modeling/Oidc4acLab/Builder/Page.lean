import Oidc4acLab.Json.Notation

/-! # The visual request builder

The form controls of the page and the functions that turn them into a Claim Request
Object. A control holds only what its input type admits. Titles, hidden rows and
suggestion lists do not enter the object and are left out.
-/
namespace Oidc4acLab.Builder
open Text

/-- What a function throws: its own message, or an error of the script engine. -/
inductive Thrown
  | error (message : Text)
  | syntaxError
  | typeError
  deriving DecidableEq

/-- The content of a one-line text input. -/
structure TextInput where
  value : Text
  singleLine : ∀ c ∈ value, isNewline c = false

def TextInput.assign (t : Text) : TextInput where
  value := t.filter fun c => !isNewline c
  singleLine c hc := by
    simpa using (List.mem_filter.mp hc).2

/-- The content of a number input. -/
structure NumberInput where
  value : Text
  valid : value = [] ∨ (Numeral.read value).isSome = true

/-- Assigning anything but a valid floating-point number empties the input. -/
def NumberInput.assign (t : Text) : NumberInput :=
  if h : (Numeral.read t).isSome = true then ⟨t,Or.inr h⟩ else ⟨[],Or.inl rfl⟩

inductive Operator
  | allOf
  | oneOf
  deriving DecidableEq

def Operator.name : Operator → Text
  | .allOf => js "all_of"
  | .oneOf => js "one_of"

inductive Mode
  | requested
  | value
  | values
  | range
  | presence
  deriving DecidableEq

/-- A property row or a metadata row. -/
structure Row where
  name : TextInput
  mode : Mode
  value : TextInput
  min : NumberInput
  max : NumberInput
  essential : Bool

structure Factor where
  id : TextInput
  timeRequested : Bool
  timeEssential : Bool
  timeMaxAge : NumberInput
  properties : List Row
  metadata : List Row

inductive Node
  | factor (f : Factor)
  | group (operator : Operator) (children : List Node)

inductive Location
  | idToken
  | userinfo
  deriving DecidableEq

def Location.name : Location → Text
  | .idToken => js "id_token"
  | .userinfo => js "userinfo"

structure Page where
  claimEssential : Bool
  operator : Operator
  delivery : Location → Bool
  expressionRoot : List Node
  claimsJson : Text

/-- An object that starts as an object literal. `chained` says that its prototype chain still
reaches the accessor `__proto__` of `Object.prototype`. -/
structure Draft where
  members : List (Text × Json)
  chained : Bool

/-- `draft[name] = v` for null or an object `v`: behind the accessor the value becomes the
prototype and not a member, and null ends the prototype chain. -/
def Draft.put (d : Draft) (name : Text) (v : Json) : Draft :=
  if name = js "__proto__" ∧ d.chained then
    match v with
    | .null => { d with chained := false }
    | _ => d
  else { d with members := Object.set d.members name v }

theorem Draft.put_of_not {d : Draft} {name : Text} (v : Json)
    (h : ¬ (name = js "__proto__" ∧ d.chained = true)) :
    d.put name v = { d with members := Object.set d.members name v } := by
  simp only [Draft.put,if_neg h]

theorem Draft.put_proto (ms : List (Text × Json)) (v : Json) :
    Draft.put ⟨ms,true⟩ (js "__proto__") v = ⟨ms,decide (v ≠ .null)⟩ := by
  cases v <;> simp [Draft.put]

/-- `Object.assign(target, source)` -/
def assign (target : List (Text × Json)) (source : Json) : List (Text × Json) :=
  source.entries.foldl (fun ms m => Object.set ms m.1 m.2) target

def parseScalar (value label : Text) : Except Thrown Json :=
  let trimmed := trim value
  if trimmed = [] then .error (.error (label ++ js " needs a value."))
  else match Json.parse trimmed with
    | some j => .ok j
    | none => .ok (.str trimmed)

def essentialMember (essential : Bool) : List (Text × Json) :=
  if essential then [(js "essential",.bool true)] else []

def constraintValue (row : Row) (name : Text) : Except Thrown Json :=
  let constraint := essentialMember row.essential
  match row.mode with
  | .requested => .ok .null
  | .value => do
    let v ← parseScalar row.value.value name
    return .obj (constraint ++ [(js "value",v)])
  | .values =>
    let values := ((split 44 row.value.value).map trim).filter fun item => !item.isEmpty
    if values = [] then .error (.error (name ++ js " needs at least one comma-separated value."))
    else do
      let vs ← values.mapM fun value => parseScalar value name
      return .obj (constraint ++ [(js "values",.arr vs)])
  | .range =>
    let min := trim row.min.value
    let max := trim row.max.value
    if min = [] ∧ max = [] then .error (.error (name ++ js " needs a minimum or maximum."))
    else .ok (.obj (constraint ++
      (if min = [] then [] else [(js "min",.num (Number.ofText min))]) ++
      (if max = [] then [] else [(js "max",.num (Number.ofText max))])))
  | .presence => .ok (.obj constraint)

/-- The member `time` of `amr_metadata`, when the execution-time section asks for one. -/
def timeRequest (factor : Factor) : Except Thrown (Option Json) :=
  let maxAge := trim factor.timeMaxAge.value
  let time := essentialMember factor.timeEssential
  if maxAge ≠ [] then
    let seconds := Number.ofText maxAge
    if !seconds.isInteger || seconds.isNegative then
      .error (.error (js "Maximum age must be a non-negative integer."))
    else .ok (some (.obj (time ++ [(js "max_age",.num seconds)])))
  else if factor.timeRequested then .ok (some (if time = [] then .null else .obj time))
  else .ok none

def checkMetadataName (name : Text) : Except Thrown Unit :=
  if name = [] then .error (.error (js "Every metadata row needs a metadata name."))
  else if name = js "time" then
    .error (.error (js "Execution time is configured in the execution-time section."))
  else .ok ()

def checkPropertyName (name : Text) : Except Thrown Unit :=
  if name = [] then .error (.error (js "Every property row needs a property name.")) else .ok ()

/-- One round of a row loop of `factorExpression`. -/
def putRow (check : Text → Except Thrown Unit) (d : Draft) (row : Row) : Except Thrown Draft := do
  let name := trim row.name.value
  let _ ← check name
  let v ← constraintValue row name
  return d.put name v

def objectMember (name : Text) (ms : List (Text × Json)) : List (Text × Json) :=
  if ms = [] then [] else [(name,.obj ms)]

def factorMembers (identifier : Text) (metadata properties : List (Text × Json)) :
    List (Text × Json) :=
  (js "amr_identifier",.obj [(js "value",.str identifier)]) ::
    (objectMember (js "amr_metadata") metadata ++ objectMember (js "amr_properties") properties)

def factorExpression (factor : Factor) : Except Thrown Json :=
  let identifier := trim factor.id.value
  if identifier = [] then .error (.error (js "Every factor needs a method identifier."))
  else do
    let time ← timeRequest factor
    let start := time.elim [] fun t => [(js "time",t)]
    let metadata ← factor.metadata.foldlM (putRow checkMetadataName) ⟨start,true⟩
    let properties ← factor.properties.foldlM (putRow checkPropertyName) ⟨[],true⟩
    return .obj (factorMembers identifier metadata.members properties.members)

mutual

def nodeExpression : Node → Except Thrown Json
  | .factor f => factorExpression f
  | .group operator children =>
    if children.isEmpty then
      .error (.error (js "Every all_of or one_of group needs at least one child."))
    else do
      let es ← nodeExpressions children
      return .obj [(operator.name,.arr es)]

/-- `nodes.map(nodeExpression)` -/
def nodeExpressions : List Node → Except Thrown (List Json)
  | [] => .ok []
  | node :: nodes => do
    let e ← nodeExpression node
    let es ← nodeExpressions nodes
    return e :: es

end

def selectedDeliveries (p : Page) : List Location := [.idToken,.userinfo].filter p.delivery

/-- The members of `details`. -/
def buildDetails (p : Page) : Except Thrown (List (Text × Json)) :=
  let details := essentialMember p.claimEssential
  match p.expressionRoot with
  | [] => .ok details
  | [node] => do
    let e ← nodeExpression node
    return assign details e
  | nodes => do
    let es ← nodeExpressions nodes
    return Object.set details p.operator.name (.arr es)

def detailsValue (details : List (Text × Json)) : Json :=
  if details = [] then .null else .obj details

def claimsObject (ls : List Location) (v : Json) : Json :=
  .obj (ls.map fun l => (l.name,.obj [(js "amr_details",v)]))

def buildClaims (p : Page) : Except Thrown Json := do
  let details ← buildDetails p
  return claimsObject (selectedDeliveries p) (detailsValue details)

end Oidc4acLab.Builder
