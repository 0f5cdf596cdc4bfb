import Oidc4acLab.Python.Json
import Oidc4acLab.Text.CodePoints

/-! # The Claim Request Object in the workbench

`parse_claims` turns the text of the editor into an object, `/preview` shows the object
indented and `/login` sends it in one line. What these raise beside
`ClaimsValidationError` is not caught. A page is answered when its text can be encoded.
-/
namespace Oidc4acLab.Workbench
open Python Scanner Str

inductive Exception
  | claimsValidation (message : Str)
  | jsonDecode
  | valueError
  | recursionError
  | unicodeEncode
  deriving DecidableEq

/-- The exception that `json` raises for a refusal. -/
def raised : Refusal → Exception
  | .malformed => .jsonDecode
  | .digits => .valueError
  | .recursion => .recursionError

/-- The interpreter, and the line and the column that a `JSONDecodeError` names. -/
structure Server where
  py : Interpreter
  errorPosition : Str → ℕ × ℕ

abbrev Object := List (Text × Value)

def number (n : ℕ) : Str := (Nat.toDigits 10 n).map fun c => Fin.ofNat 0x110000 c.toNat

def amrDetails : Value :=
  .obj [(js "essential",.leaf (.bool true)),
    (js "amr_identifier",.obj [(js "value",.leaf (.str (js "pwd")))]),
    (js "amr_metadata",.obj [(js "time",.obj [(js "essential",.leaf (.bool true))])]),
    (js "amr_properties",.obj [(js "pwd_derivation_algorithm",.leaf .none)])]

def defaultClaims : Value :=
  .obj [(js "id_token",.obj [(js "amr_details",amrDetails)]),(js "userinfo",.obj [(js "amr_details",amrDetails)])]

variable (server : Server)

def prettyJson (v : Value) : Except Exception Str :=
  ((dumpsAt .pretty server.py.digits server.py.indented 0 v).mapError raised).map ofUnits

def parseClaims (rawClaims : Option Str) : Except Exception Object :=
  match rawClaims with
  | none => .error (.claimsValidation (literal "Provide a Claim Request Object before starting authorization."))
  | some raw =>
    if strip raw = [] then
      .error (.claimsValidation (literal "Provide a Claim Request Object before starting authorization."))
    else if ¬ Encodable raw then .error .unicodeEncode
    else if 64000 < utf8Length raw then
      .error (.claimsValidation (literal "The Claim Request Object is limited to 64 KB in this local lab."))
    else
      match (loads server.py (units raw)).mapError raised with
      | .error .jsonDecode =>
        .error (.claimsValidation (literal "The Claim Request Object is not valid JSON (line " ++
          (number (server.errorPosition raw).1 ++ (literal ", column " ++
            (number (server.errorPosition raw).2 ++ literal ").")))))
      | .error e => .error e
      | .ok (.obj claims) => .ok claims
      | .ok _ => .error (.claimsValidation (literal "The Claim Request Object must be a top-level JSON object."))

/-- The parameters of the authorization request, the text of `claims` in code units. -/
structure Redirect where
  state : Str
  nonce : Str
  scope : Option Str
  claims : Option Text
  prompt : Option Str

/-- What a handler renders: a template with its texts, or a redirect. -/
inductive Response
  | workbench (status : ℕ) (rawClaims : Str) (error : Option Str)
  | preview (claims : Str)
  | redirect (r : Redirect)

/-- The texts that a page shows are encoded with it. -/
def respond (page : Response) : Except Exception Response :=
  match page with
  | .workbench _ raw error => if Encodable raw ∧ ∀ m ∈ error, Encodable m then .ok page else .error .unicodeEncode
  | .preview claims => if Encodable claims then .ok page else .error .unicodeEncode
  | .redirect _ => .ok page

def editorText : Option Str → Except Exception Str
  | some raw => .ok raw
  | none => prettyJson server defaultClaims

def homeResponse (rawClaims error : Option Str) (status : ℕ) : Except Exception Response := do
  let raw ← editorText server rawClaims
  respond (.workbench status raw error)

def preview (claimsJson : Option Str) : Except Exception Response :=
  match parseClaims server claimsJson with
  | .error (.claimsValidation message) => homeResponse server claimsJson (some message) 400
  | .error e => .error e
  | .ok claims => do
    let text ← prettyJson server (.obj claims)
    respond (.preview text)

/-- The form of `/login`. -/
structure LoginForm where
  claimsJson : Option Str
  omitClaims : Bool
  offlineAccess : Bool
  promptLogin : Bool

/-- The parameter `claims`. -/
def claimsParameter (form : LoginForm) (claims : Object) : Except Exception (Option Text) :=
  if form.omitClaims then .ok none else ((dumps server.py (.obj claims)).mapError raised).map some

def authorize (form : LoginForm) (nonce contextId : Str) (claims : Object) : Except Exception Response := do
  let text ← claimsParameter server form claims
  respond (.redirect {
    state := contextId
    nonce := nonce
    scope := if form.offlineAccess then some (literal "openid profile email offline_access") else none
    claims := text
    prompt := if form.promptLogin then some (literal "login") else none })

def login (form : LoginForm) (nonce contextId : Str) : Except Exception Response :=
  if form.omitClaims then authorize server form nonce contextId []
  else match parseClaims server form.claimsJson with
    | .error (.claimsValidation message) => homeResponse server form.claimsJson (some message) 400
    | .error e => .error e
    | .ok claims => authorize server form nonce contextId claims

/-- The text of the parameter `claims` in the answer. -/
def sentClaims : Except Exception Response → Option Text
  | .ok (.redirect r) => r.claims
  | _ => none

variable {server}

theorem loads_of_parseClaims {raw : Str} {claims : Object} (h : parseClaims server (some raw) = .ok claims) :
    loads server.py (units raw) = .ok (.obj claims) := by
  simp only [parseClaims] at h
  split_ifs at h
  cases hl : loads server.py (units raw) with
  | error e =>
    rw [hl] at h
    cases e <;> cases h
  | ok v =>
    rw [hl] at h
    cases v with
    | obj claims' =>
      cases h
      rfl
    | leaf | arr => cases h

/-- The text that `/login` sends is the object in one line. -/
theorem sent_of_login {form : LoginForm} {nonce contextId : Str} {sent : Text}
    (h : sentClaims (login server form nonce contextId) = some sent) :
    ∃ claims, parseClaims server form.claimsJson = .ok claims ∧ dumps server.py (.obj claims) = .ok sent := by
  have hauthorized : ∀ {claims}, sentClaims (authorize server form nonce contextId claims) = some sent →
      form.omitClaims = false ∧ dumps server.py (.obj claims) = .ok sent := by
    intro claims hr
    cases hp : claimsParameter server form claims with
    | error e =>
      rw [authorize,hp] at hr
      cases hr
    | ok text =>
      rw [authorize,hp] at hr
      cases hr
      rw [claimsParameter] at hp
      split_ifs at hp with homit
      · cases hp
      · obtain ⟨t,ht,heq⟩ := Fallible.map_eq_ok.mp hp
        cases heq
        exact ⟨Bool.eq_false_iff.mpr homit,Fallible.mapError_eq_ok.mp ht⟩
  have hrefused : ∀ {raw error status}, sentClaims (homeResponse server raw error status) ≠ some sent := by
    intro raw error status hr
    cases ht : editorText server raw with
    | error e =>
      rw [homeResponse,ht] at hr
      cases hr
    | ok text =>
      have hpage : homeResponse server raw error status = respond (.workbench status text error) := by
        rw [homeResponse,ht]
        rfl
      rw [hpage,respond] at hr
      split_ifs at hr <;> cases hr
  rw [login] at h
  split_ifs at h with homit
  · rw [(hauthorized h).1] at homit
    cases homit
  · cases hp : parseClaims server form.claimsJson with
    | error e =>
      rw [hp] at h
      cases e with
      | claimsValidation m => exact absurd h hrefused
      | jsonDecode | valueError | recursionError | unicodeEncode => cases h
    | ok claims =>
      rw [hp] at h
      exact ⟨claims,rfl,(hauthorized h).2⟩

end Oidc4acLab.Workbench
