import Oidc4acLab.Collections.Dictionaries
import Oidc4acLab.Jwt.Payload
import Oidc4acLab.Python.Bytes
import Oidc4acLab.Python.Equality
import Mathlib.Data.Finset.Sort
import Mathlib.Data.List.Lex

/-! # Sizes of the messages of an event

`measure` of `message-sizes.py` takes an ID Token and a UserInfo body, checks them with the
`detail_map` of the browser suite and reports sizes: of the array `amr_details` as a whole and
of each execution by its identifier. The `detail_map` of the HTTP suite is the same function
but for one more check. What the browser exchanges with the server is a parameter.
-/
namespace Oidc4acLab.MessageSizes
open Text Str Python Scanner Collections Workbench

/-- The exceptions that are raised; both suites have a `CheckFailure` of their own. -/
inductive Failure
  | indexError
  | valueError
  | recursionError
  | attributeError
  | typeError
  | keyError
  | unicodeEncodeError
  | checkFailure (message : Str)
  deriving DecidableEq

/-- The exception that `json` raises for a refusal. -/
def raised : Refusal → Failure
  | .malformed => .valueError
  | .digits => .valueError
  | .recursion => .recursionError

def check (condition : Bool) (message : Str) : Except Failure Unit :=
  if condition then .ok () else .error (.checkFailure message)

/-- `d.get(name)` -/
def get (ms : Object) (name : String) : Value := (ms.lookup (js name)).getD (.leaf .none)

/-- A value that is no dictionary has no `get`. -/
def dict : Value → Except Failure Object
  | .obj ms => .ok ms
  | _ => .error .attributeError

abbrev Execution := Text × Object

def execution (detail : Value) : Except Failure Execution :=
  match detail with
  | .obj ms =>
    match get ms "amr_identifier" with
    | .leaf (.str identifier) => .ok (identifier,ms)
    | _ => .error (.checkFailure (literal "An execution did not contain amr_identifier."))
  | _ => .error (.checkFailure (literal "amr_details contains a non-object execution."))

/-- `isinstance(metadata, dict) and isinstance(metadata.get("time"), str)` -/
def timed : Value → Bool
  | .obj metadata =>
    match get metadata "time" with
    | .leaf (.str _) => true
    | _ => false
  | _ => false

/-- `repr` is the one of strings. -/
def retained (repr : Str → Str) (m : Execution) : Except Failure Unit :=
  check (timed (get m.2 "amr_metadata")) (repr (ofUnits m.1) ++ literal " did not retain mandatory amr_metadata.time.")

def amrDetails (token : Value) : Except Failure (List Value) := do
  let token ← dict token
  match get token "amr_details" with
  | .arr details => .ok details
  | _ => .error (.checkFailure (literal "Token did not contain an amr_details array."))

namespace Browser

def mapDetail (repr : Str → Str) (mapped : Dictionary Text Object) (detail : Value) :
    Except Failure (Dictionary Text Object) := do
  let m ← execution detail
  retained repr m
  return mapped.put m

def detailMap (repr : Str → Str) (token : Value) : Except Failure (Dictionary Text Object) := do
  let details ← amrDetails token
  details.foldlM (mapDetail repr) []

end Browser

namespace Http

def mapDetail (repr : Str → Str) (mapped : Dictionary Text Object) (detail : Value) :
    Except Failure (Dictionary Text Object) := do
  let m ← execution detail
  check (!mapped.any fun e => e.1 == m.1)
    (literal "Duplicate " ++ (repr (ofUnits m.1) ++ literal " execution in this lab event."))
  retained repr m
  return mapped.put m

def detailMap (repr : Str → Str) (token : Value) : Except Failure (Dictionary Text Object) := do
  let details ← amrDetails token
  details.foldlM (mapDetail repr) []

end Http

section Sizes
variable (py : Interpreter)

/-- `len(json.dumps(value, separators=(",", ":")).encode("utf-8"))` -/
def compactBytes (v : Value) : Except Failure ℕ :=
  ((dumps py v).mapError raised).map fun t => utf8Length (ofUnits t)

/-- What `quote_plus` leaves as it is. -/
def unreserved (p : CodePoint) : Bool :=
  (48 ≤ p.val && p.val ≤ 57) || (65 ≤ p.val && p.val ≤ 90) || (97 ≤ p.val && p.val ≤ 122) ||
    ([45,46,95,126] : List ℕ).contains p.val

/-- `len(quote_plus(s))`: a space becomes a plus, and each byte of another character takes three. -/
def quotedLength (s : Str) : ℕ := (s.map fun p => if unreserved p ∨ p = 32 then 1 else 3*utf8Length [p]).sum

/-- `claims=` and the quoted text. -/
def requestBytes (requestClaims : Object) : Except Failure ℕ :=
  ((dumps py (.obj requestClaims)).mapError raised).map fun t => 7+quotedLength (ofUnits t)

def decodeSegment (segment : Str) : Except Failure (List UInt8) :=
  match Jwt.urlsafeB64decode (Jwt.padPayload segment) with
  | some bytes => .ok bytes
  | none => .error .valueError

/-- `decode_segment(id_token.split(".")[1])` -/
def payloadBytes (idToken : Str) : Except Failure (List UInt8) :=
  match (idToken.splitOn 46)[1]? with
  | some segment => decodeSegment segment
  | none => .error .indexError

/-- `len(id_token.encode("ascii"))` -/
def asciiLength (s : Str) : Except Failure ℕ :=
  if s.all fun p => p.val < 128 then .ok s.length else .error .unicodeEncodeError

/-- `for entry in details` -/
def iterate : Value → Except Failure (List Value)
  | .arr items => .ok items
  | .obj ms => .ok (ms.map fun m => .leaf (.str m.1))
  | .leaf (.str t) => .ok ((ofUnits t).map fun p => .leaf (.str (pointUnits p)))
  | .leaf _ => .error .typeError

/-- `entry["amr_identifier"]: compact_bytes(entry)`, where an array or a dictionary is no key. -/
def entryBytes (entry : Value) : Except Failure (Key × ℕ) :=
  match entry with
  | .obj ms =>
    match ms.lookup (js "amr_identifier") with
    | some (.leaf identifier) => (compactBytes py entry).map fun n => (⟨identifier⟩,n)
    | some _ => (compactBytes py entry).bind fun _ => .error .typeError
    | none => .error .keyError
  | _ => .error .typeError

structure Measured where
  requestClaims : Option Object
  extensionRequestQueryBytes : ℕ
  amrDetails : Value
  amrDetailsBytes : ℕ
  idTokenPayloadBytes : ℕ
  idTokenEncodedBytes : ℕ
  userinfoResponseBytes : ℕ
  executionEntryBytes : Dictionary Key ℕ

/-- `request_bytes(request_claims) if request_claims else 0` -/
def queryBytes (requestClaims : Option Object) : Except Failure ℕ :=
  match requestClaims with
  | none => .ok 0
  | some claims => if claims = [] then .ok 0 else requestBytes py claims

/-- `compact_bytes(details) if details else 0` -/
def detailsBytes (details : Value) : Except Failure ℕ :=
  if truthy details then compactBytes py details else .ok 0

/-- `set(detail_map(payload)) if expected else set()` -/
def executions (repr : Str → Str) (payload : Value) (expected : Finset Str) : Except Failure (Finset Str) :=
  if expected = ∅ then .ok ∅
  else (Browser.detailMap repr payload).map fun mapped => (mapped.map fun e => ofUnits e.1).toFinset

/-- `str(sorted(names))` -/
def sortedText (repr : Str → Str) (names : Finset Str) : Str :=
  91 :: ((literal ", ").intercalate ((names.sort fun a b => a ≤ b).map repr) ++ [93])

variable (repr : Str → Str) (exchange : Option Object → Except Failure (Str × List UInt8))

def measure (requestClaims : Option Object) (expected : Finset Str) : Except Failure Measured := do
  let (idToken,userinfoBody) ← exchange requestClaims
  let payloadBytes ← payloadBytes idToken
  let payload ← (loadsBytes py payloadBytes).mapError raised
  let userinfo ← (loadsBytes py userinfoBody).mapError raised
  let executed ← executions repr payload expected
  check (executed = expected) (literal "Executions were " ++ (sortedText repr executed ++ (literal ", expected " ++
    (sortedText repr expected ++ literal "."))))
  let payload ← dict payload
  let userinfo ← dict userinfo
  check (equal (get payload "amr_details") (get userinfo "amr_details"))
    (literal "ID Token and UserInfo reported different events.")
  let details := (payload.lookup (js "amr_details")).getD (.arr [])
  let query ← queryBytes py requestClaims
  let bytes ← detailsBytes py details
  let encoded ← asciiLength idToken
  let entries ← iterate details
  let sizes ← entries.mapM (entryBytes py)
  return {
    requestClaims := requestClaims
    extensionRequestQueryBytes := query
    amrDetails := details
    amrDetailsBytes := bytes
    idTokenPayloadBytes := payloadBytes.length
    idTokenEncodedBytes := encoded
    userinfoResponseBytes := userinfoBody.length
    executionEntryBytes := .collect sizes }

end Sizes

end Oidc4acLab.MessageSizes
