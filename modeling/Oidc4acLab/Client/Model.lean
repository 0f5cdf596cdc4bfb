import Mathlib.Data.Int.Notation
import Mathlib.Logic.Function.Basic
import Oidc4acLab.Transition.Runs

/-! # The relying party's request handlers

Requests of any number of browsers run concurrently. Each handler is cut at its
locked blocks, its unlocked writes and its remote calls; what lies between two
cuts is one atomic step, and the answer of a remote call is an input of the step
that receives it. JSON objects are opaque to the handlers. Refresh tokens are
numbered in the order in which the OP issued them.
-/
namespace Oidc4acLab.Client

def nanos (seconds : ℤ) : ℤ := seconds * 1000000000
def cacheTtlSeconds : ℤ := 15 * 60

abbrev RefreshToken := ℕ

/-- The JSON objects of the handlers, with `{}` and with what `render_result` needs of them. -/
class JsonObject (Object : Type) extends EmptyCollection Object where
  /-- `pretty_json` returns a text, and the response can encode it. -/
  shown : Object → Bool
  /-- The payload that `decoded_access_token` returns is shown so; neither raises. -/
  tokenShown : Option String → Bool
  shown_empty : shown ∅ = true
  tokenShown_none : tokenShown none = true

variable (Object : Type)

/-- A value of `AUTHORIZATION_CACHE`. -/
structure Context where
  claims : Object
  nonce : String
  createdAt : ℤ

/-- A value of `TOKEN_CACHE`. -/
structure Entry where
  refreshToken : Option RefreshToken
  claims : Object
  createdAt : ℤ

/-- The Flask session: one Authlib entry for each pending state, and the result
that a refresh without an explicit identifier refers to. -/
structure Session where
  states : List String
  oidc4acResult : Option String
deriving DecidableEq

structure IdToken where
  nonce : Option String
  payload : Object

structure TokenResponse where
  refreshToken : Option RefreshToken
  accessToken : Option String
  idToken : IdToken Object

structure ResultPage where
  claims : Object
  discovery : Object
  idToken : IdToken Object
  accessToken : Option String
  userinfo : Object
  allowRefresh : Bool
  source : String
  resultId : String

inductive Page
  | workbench (status : ℕ)
  | redirect (state nonce : String) (scope : Option String) (claims : Option Object) (prompt : Option String)
  | error (error description : String) (status : ℕ)
  | result (page : ResultPage Object)
  | internalServerError

/-- The form of `/login`, with the outcome of `parse_claims` on its text. -/
structure LoginForm where
  parsed : Option Object
  omitClaims : Bool
  offlineAccess : Bool
  promptLogin : Bool

inductive Request
  | home
  | login (form : LoginForm Object)
  | callback (error errorDescription state : Option String)
  | refresh (resultId : Option String)

/-- Where a handler stands, with the local variables it still needs. -/
inductive Handler
  | homePrune (status : ℕ)
  | loginPrune (form : LoginForm Object) (claims : Object)
  | loginStore (form : LoginForm Object) (claims : Object)
  | loginRedirect (form : LoginForm Object) (claims : Object) (nonce contextId : String)
  | callbackPop (state : Option String)
  | callbackExchange (state : String) (context : Context Object)
  | callbackVerify (state : String) (context : Context Object) (token : TokenResponse Object)
  | callbackStore (state : String) (context : Context Object) (token : TokenResponse Object) (userinfo : Object)
  | callbackRender (state : String) (context : Context Object) (token : TokenResponse Object)
      (userinfo : Object) (resultId : String)
  | refreshPrune (resultId : Option String)
  | refreshLookup (resultId : Option String)
  | refreshExchange (resultId : String) (cached : ℕ)
  | refreshVerify (resultId : String) (cached : ℕ) (token : TokenResponse Object)
  | refreshWrite (resultId : String) (cached : ℕ) (token : TokenResponse Object) (userinfo : Object)
  | refreshTouch (resultId : String) (cached : ℕ) (token : TokenResponse Object) (userinfo : Object)
  | refreshRender (resultId : String) (cached : ℕ) (token : TokenResponse Object) (userinfo : Object)
  | responding (page : Page Object)
  | received (page : Page Object)

/-- One request in flight or answered. The session is the one read from the
request's cookie; a response sets the cookie when the session was modified. -/
structure Thread where
  browser : ℕ
  request : Request Object
  startedAt : ℤ
  session : Session
  modified : Bool
  /-- The context that `AUTHORIZATION_CACHE.pop` handed to this request. -/
  handed : Option String
  handler : Handler Object

/-- One store into `AUTHORIZATION_CACHE`. -/
structure Login where
  contextId : String
  claims : Object
  nonce : String
  storedAt : ℤ

/-- One store into `TOKEN_CACHE`, with the context it was made for. -/
structure Stored where
  resultId : String
  contextId : String

/-- The state that all handlers share. An entry of `TOKEN_CACHE` is a reference
into the list of entry objects, which handlers can hold on to. The last three
fields only record the past. -/
structure Shared where
  clock : ℤ
  issuedIds : List String
  authorizationCache : String → Option (Context Object)
  tokenCache : String → Option ℕ
  entries : List (Entry Object)
  issuedTokens : ℕ
  logins : List (Login Object)
  stored : List Stored
  sweeps : List ℤ

structure State where
  shared : Shared Object
  threads : List (Thread Object)
  jars : ℕ → Session

variable {Object}

namespace Shared

def cutoff (s : Shared Object) : ℤ := s.clock - nanos cacheTtlSeconds

def expiredEntry (s : Shared Object) (cached : ℕ) : Bool :=
  (s.entries[cached]?).any (fun e => decide (e.createdAt < s.cutoff))

/-- One atomic sweep of `prune_caches`. -/
def pruneCaches (s : Shared Object) : Shared Object :=
  { s with
    authorizationCache := fun k =>
      (s.authorizationCache k).filter (fun c => !decide (c.createdAt < s.cutoff))
    tokenCache := fun k => (s.tokenCache k).filter (fun cached => !s.expiredEntry cached)
    sweeps := s.clock :: s.sweeps }

def storeContext (s : Shared Object) (contextId nonce : String) (claims : Object) : Shared Object :=
  { s with
    issuedIds := nonce :: contextId :: s.issuedIds
    authorizationCache := Function.update s.authorizationCache contextId (some ⟨claims,nonce,s.clock⟩)
    logins := ⟨contextId,claims,nonce,s.clock⟩ :: s.logins }

def popContext (s : Shared Object) (contextId : String) : Shared Object :=
  { s with authorizationCache := Function.update s.authorizationCache contextId none }

/-- The OP issues a refresh token with the next number, if its answer has one. -/
def issueToken (s : Shared Object) (refreshes : Bool) : Shared Object :=
  if refreshes then { s with issuedTokens := s.issuedTokens + 1 } else s

def storeResult (s : Shared Object) (resultId contextId : String) (refreshToken : Option RefreshToken)
    (claims : Object) : Shared Object :=
  { s with
    issuedIds := resultId :: s.issuedIds
    tokenCache := Function.update s.tokenCache resultId (some s.entries.length)
    entries := s.entries ++ [⟨refreshToken,claims,s.clock⟩]
    stored := s.stored ++ [⟨resultId,contextId⟩] }

def writeToken (s : Shared Object) (cached : ℕ) (refreshToken : Option RefreshToken) : Shared Object :=
  { s with
    entries := s.entries.modify cached (fun e => { e with refreshToken := refreshToken.or e.refreshToken }) }

def touchEntry (s : Shared Object) (cached : ℕ) : Shared Object :=
  { s with entries := s.entries.modify cached (fun e => { e with createdAt := s.clock }) }

/-- Identifiers of `secrets.token_urlsafe` are nonempty and never repeat. -/
def Fresh (s : Shared Object) (k : String) : Prop := k ≠ "" ∧ k ∉ s.issuedIds

instance (s : Shared Object) (k : String) : Decidable (s.Fresh k) :=
  inferInstanceAs (Decidable (_ ∧ _))

end Shared

def missingContext : Page Object :=
  .error "missing_context" "The local relying-party session has expired." 400

def tokenValidationFailed : Page Object :=
  .error "token_validation_failed" "The authorization response could not be verified." 400

def noRefreshToken : Page Object :=
  .error "no_refresh_token" "Start a new authorization request to test refresh." 400

def refreshFailed : Page Object :=
  .error "refresh_failed" "The refreshed token response could not be verified." 400

def redirectPage (form : LoginForm Object) (claims : Object) (nonce contextId : String) : Page Object :=
  .redirect contextId nonce
    (if form.offlineAccess then some "openid profile email offline_access" else none)
    (if form.omitClaims then none else some claims)
    (if form.promptLogin then some "login" else none)

/-- The value of a request parameter unless it is falsy. -/
def truthy (value : Option String) : Option String := value.filter (fun v => v != "")

/-- What a step receives: nothing, fresh identifiers, or the answer of a remote
call, which may be a failure. A token response says whether it carries a refresh
token; a validation may still be refused for its nonce. An exchange of a refresh
token that fails is one that the OP did not accept. -/
inductive Input (Object : Type)
  | proceed
  | drawLogin (nonce contextId : String)
  | drawResult (resultId : String)
  | tokens (refreshes : Bool) (accessToken : Option String) (idToken : IdToken Object)
  | validated (userinfo : Object)
  | discovered (discovery : Object)
  | failure

namespace Thread

def goto (th : Thread Object) (h : Handler Object) : Thread Object := { th with handler := h }

def respond (th : Thread Object) (page : Page Object) : Thread Object := th.goto (.responding page)

/-- `authorize_access_token` first takes the state's entry out of the session. That it drops
entries of other states older than an hour as well, long after `cacheTtlSeconds`, and keeps the
entry where the request has no code, its context being popped already, is left out. -/
def clearState (th : Thread Object) (state : String) : Thread Object :=
  if state ∈ th.session.states then
    { th with session := { th.session with states := th.session.states.erase state }, modified := true }
  else th

def saveState (th : Thread Object) (state : String) : Thread Object :=
  { th with session := { th.session with states := state :: th.session.states }, modified := true }

def saveResult (th : Thread Object) (resultId : String) : Thread Object :=
  { th with session := { th.session with oidc4acResult := some resultId }, modified := true }

end Thread

open Shared Thread

variable [JsonObject Object]

def enter (session : Session) : Request Object → Handler Object
  | .home => .homePrune 200
  | .login form =>
    if form.omitClaims then .loginPrune form ∅
    else
      match form.parsed with
      | none => .homePrune 400
      | some claims => .loginPrune form claims
  | .callback error errorDescription state =>
    match truthy error with
    | some error => .responding (.error error (errorDescription.getD "No public description was returned.") 200)
    | none => .callbackPop state
  | .refresh resultId => .refreshPrune ((truthy resultId).or session.oidc4acResult)

omit [JsonObject Object] in
/-- The token response as the client stores it, with the number the OP gave. -/
def receivedToken (s : Shared Object) (refreshes : Bool) (accessToken : Option String)
    (idToken : IdToken Object) : TokenResponse Object :=
  ⟨if refreshes then some s.issuedTokens else none,accessToken,idToken⟩

omit [JsonObject Object] in
def resultPage (claims : Object) (token : TokenResponse Object) (userinfo : Object) (source resultId : String)
    (discovery : Object) : ResultPage Object where
  claims := claims
  discovery := discovery
  idToken := token.idToken
  accessToken := token.accessToken
  userinfo := userinfo
  allowRefresh := true
  source := source
  resultId := resultId

/-- Each of the five texts of the page is dumped and can be encoded. -/
def ResultPage.rendered (page : ResultPage Object) : Bool :=
  JsonObject.shown page.claims && JsonObject.shown page.discovery && JsonObject.shown page.idToken.payload &&
    @JsonObject.tokenShown Object _ page.accessToken && JsonObject.shown page.userinfo

theorem ResultPage.rendered_iff {page : ResultPage Object} : page.rendered = true ↔
    JsonObject.shown page.claims = true ∧ JsonObject.shown page.discovery = true ∧
      JsonObject.shown page.idToken.payload = true ∧ @JsonObject.tokenShown Object _ page.accessToken = true ∧
      JsonObject.shown page.userinfo = true := by
  simp only [rendered,Bool.and_eq_true,and_assoc]

/-- An exception of `render_result` leaves the handler. -/
def renderResult (page : ResultPage Object) : Page Object :=
  if page.rendered then .result page else .internalServerError

def advance (s : Shared Object) (th : Thread Object) (input : Input Object) :
    Option (Shared Object × Thread Object) :=
  match th.handler, input with
  | .homePrune status, .proceed => some (s.pruneCaches,th.respond (.workbench status))
  | .loginPrune form claims, .proceed => some (s.pruneCaches,th.goto (.loginStore form claims))
  | .loginStore form claims, .drawLogin nonce contextId =>
    if s.Fresh nonce ∧ s.Fresh contextId ∧ nonce ≠ contextId then
      some (s.storeContext contextId nonce claims,th.goto (.loginRedirect form claims nonce contextId))
    else none
  | .loginRedirect form claims nonce contextId, .proceed =>
    some (s,(th.saveState contextId).respond (redirectPage form claims nonce contextId))
  | .loginRedirect _ _ _ _, .failure => some (s,th.respond .internalServerError)
  | .callbackPop state, .proceed =>
    match truthy state with
    | none => some (s,th.respond missingContext)
    | some state =>
      match s.authorizationCache state with
      | none => some (s,th.respond missingContext)
      | some context =>
        some (s.popContext state,{ th with handed := some state, handler := .callbackExchange state context })
  | .callbackExchange state context, .tokens refreshes accessToken idToken =>
    if state ∈ th.session.states then
      some (s.issueToken refreshes,(th.clearState state).goto
        (.callbackVerify state context (receivedToken s refreshes accessToken idToken)))
    else some (s,th.respond tokenValidationFailed)
  | .callbackExchange state _, .failure => some (s,(th.clearState state).respond tokenValidationFailed)
  | .callbackVerify state context token, .validated userinfo =>
    if token.idToken.nonce = some context.nonce then
      some (s,th.goto (.callbackStore state context token userinfo))
    else some (s,th.respond tokenValidationFailed)
  | .callbackVerify _ _ _, .failure => some (s,th.respond tokenValidationFailed)
  | .callbackStore state context token userinfo, .drawResult resultId =>
    if s.Fresh resultId then
      some (s.storeResult resultId state token.refreshToken context.claims,
        (th.saveResult resultId).goto (.callbackRender state context token userinfo resultId))
    else none
  | .callbackRender _ context token userinfo resultId, .discovered discovery =>
    some (s,th.respond (renderResult
      (resultPage context.claims token userinfo "Authorization code response" resultId discovery)))
  | .callbackRender _ _ _ _ _, .failure => some (s,th.respond .internalServerError)
  | .refreshPrune resultId, .proceed => some (s.pruneCaches,th.goto (.refreshLookup resultId))
  | .refreshLookup resultId, .proceed =>
    match resultId.bind (fun k => (s.tokenCache k).map (fun cached => (k,cached))) with
    | none => some (s,th.respond noRefreshToken)
    | some (k,cached) =>
      if ((s.entries[cached]?).bind Entry.refreshToken).isSome then
        some (s,th.goto (.refreshExchange k cached))
      else some (s,th.respond noRefreshToken)
  | .refreshExchange resultId cached, .tokens refreshes accessToken idToken =>
    some (s.issueToken refreshes,th.goto
      (.refreshVerify resultId cached (receivedToken s refreshes accessToken idToken)))
  | .refreshExchange _ _, .failure => some (s,th.respond refreshFailed)
  | .refreshVerify resultId cached token, .validated userinfo =>
    some (s,th.goto (.refreshWrite resultId cached token userinfo))
  | .refreshVerify _ _ _, .failure => some (s,th.respond refreshFailed)
  | .refreshWrite resultId cached token userinfo, .proceed =>
    some (s.writeToken cached token.refreshToken,th.goto (.refreshTouch resultId cached token userinfo))
  | .refreshTouch resultId cached token userinfo, .proceed =>
    some (s.touchEntry cached,th.goto (.refreshRender resultId cached token userinfo))
  | .refreshRender resultId cached token userinfo, .discovered discovery =>
    (s.entries[cached]?).map (fun e =>
      (s,th.respond (renderResult
        (resultPage e.claims token userinfo "Refresh token response" resultId discovery))))
  | .refreshRender _ _ _ _, .failure => some (s,th.respond .internalServerError)
  | _, _ => none

/-- In examples an object stands by the code points of its dump. -/
instance : JsonObject (List ℕ) where
  shown object := object.all fun p => decide (p < 0xD800 ∨ 0xDFFF < p)
  tokenShown _ := true
  shown_empty := rfl
  tokenShown_none := rfl

inductive Label (Object : Type)
  | tick (now : ℤ)
  | send (browser : ℕ) (request : Request Object)
  | advance (thread : ℕ) (input : Input Object)
  | receive (thread : ℕ)

def arrive (σ : State Object) (browser : ℕ) (request : Request Object) : Thread Object where
  browser := browser
  request := request
  startedAt := σ.shared.clock
  session := σ.jars browser
  modified := false
  handed := none
  handler := enter (σ.jars browser) request

def step (σ : State Object) : Label Object → Option (State Object)
  | .tick now =>
    if σ.shared.clock ≤ now then some { σ with shared := { σ.shared with clock := now } } else none
  | .send browser request => some { σ with threads := σ.threads ++ [arrive σ browser request] }
  | .advance i input =>
    (σ.threads[i]?).bind (fun th =>
      (advance σ.shared th input).map (fun r =>
        { σ with shared := r.1, threads := σ.threads.set i r.2 }))
  | .receive i =>
    (σ.threads[i]?).bind (fun th =>
      match th.handler with
      | .responding page =>
        some { σ with
          threads := σ.threads.set i (th.goto (.received page))
          jars := if th.modified then Function.update σ.jars th.browser th.session else σ.jars }
      | _ => none)

/-- The process has just started, and no browser holds a cookie. -/
def initial (start : ℤ) : State Object where
  shared :=
    { clock := start
      issuedIds := []
      authorizationCache := fun _ => none
      tokenCache := fun _ => none
      entries := []
      issuedTokens := 0
      logins := []
      stored := []
      sweeps := [] }
  threads := []
  jars := fun _ => ⟨[],none⟩

end Oidc4acLab.Client
