import Mathlib.Data.List.Infix
import Oidc4acLab.Runner.Forms
import Oidc4acLab.Text.CodePoints
import Oidc4acLab.Transition.Members

/-! # One authorization of the runner

`authorize` of the HTTP runner, cut at its requests: what it does with the response to the
one before is a step. Responses are any responses, of the client, of Keycloak or of a
stranger. `HTMLParser` and `urljoin` are parameters.
-/
namespace Oidc4acLab.Runner
open Collections Dictionary Text Str Transition

structure Response where
  status : ℕ
  url : String
  location : Option String
  text : Str
deriving DecidableEq

/-- `is_redirect` of `requests` -/
def Response.isRedirect (r : Response) : Bool := r.location.isSome && [301,302,303,307,308].contains r.status

inductive Request
  | get (url : String)
  | post (url : String) (data : Attributes)
deriving DecidableEq

def Request.url : Request → String
  | .get url | .post url _ => url

structure Library where
  HTMLParser : Str → List Tag
  urljoin : String → String → String

/-- The module's variables that a call reads. -/
structure Settings where
  client : String
  alice : String
  password : String

/-- The arguments, without `use_email_code`: it only chooses who finds the codes, by requests to smtp4dev that
are none of the session. -/
structure Arguments where
  /-- `json.dumps(request_claims)` -/
  claimsJson : String
  promptLogin : Bool
  omitClaims : Bool
  offlineAccess : Bool

inductive Failure
  /-- `requests` raises. -/
  | noResponse
  | loginNotRedirected (status : ℕ)
  | noLocation
  | enrolment
  | unexpectedPage (response : Response) (forms : List String)
  /-- The source of codes raises. -/
  | noCode
  | noCallback (transitions : List (ℕ × String))
deriving DecidableEq

inductive Phase
  | waiting
  | returned (response : Response)
  | failed (failure : Failure)
deriving DecidableEq

/-- A call of `authorize` between two requests, with all that its session has sent. -/
structure Call where
  begun : Bool
  /-- The rounds of the loop that are left. -/
  left : ℕ
  submitted : List String
  transitions : List (ℕ × String)
  sent : List Request
  phase : Phase

/-- What comes back for a request, and the code that `smtp_verification_code` or `current_totp` finds if the runner
looks for one then. -/
structure Answer where
  response : Option Response
  code : Option String

namespace Call

def ask (a : Call) (request : Request) : Call := { a with sent := a.sent ++ [request], phase := .waiting }

def fail (a : Call) (failure : Failure) : Call := { a with phase := .failed failure }

end Call

def verified : Str := literal "Verified authentication context"
def errorPage : Str := literal "class=\"error-page\""

def loginData (args : Arguments) : Attributes :=
  let data := if args.promptLogin then [("prompt_login",some "on")] else []
  let data := if args.offlineAccess then put data ("offline_access",some "on") else data
  if args.omitClaims then put data ("omit_claims",some "on") else put data ("claims_json",some args.claimsJson)

section Calls
variable (lib : Library) (settings : Settings)

def postForm (r : Response) (form : Form) (values : List (String × String)) : Request :=
  .post (lib.urljoin r.url (form.action.getD "")) ((values.map fun v => (v.1,some v.2)).foldl put form.values)

def forms (r : Response) : Dictionary String Form := parseForms (lib.HTMLParser r.text)

def round (a : Call) (r : Response) (code : Option String) : Call :=
  let a := { a with left := a.left-1, transitions := a.transitions ++ [(r.status,r.url)] }
  if r.isRedirect then
    match r.location with
    | none => a.fail .noLocation
    | some location => a.ask (.get (lib.urljoin r.url location))
  else
    match (forms lib r).lookup "kc-form-login" with
    | some form =>
      if (form.values.lookup "password").isSome then
        { a with submitted := a.submitted ++ ["kc-form-login"] }.ask
          (postForm lib r form [("username",settings.alice),("password",settings.password)])
      else a.ask (postForm lib r form [("username",settings.alice)])
    | none =>
      match (forms lib r).lookup "kc-otp-login-form" with
      | some form =>
        let a := { a with submitted := a.submitted ++ ["kc-otp-login-form"] }
        match code with
        | none => a.fail .noCode
        | some otp => a.ask (postForm lib r form [("otp",otp)])
      | none =>
        if ((forms lib r).lookup "kc-totp-settings-form").isSome then a.fail .enrolment
        else if r.status = 200 ∧ (verified <:+: r.text ∨ errorPage <:+: r.text) then { a with phase := .returned r }
        else a.fail (.unexpectedPage r ((forms lib r).map Prod.fst))

/-- The answer to the request that the call waits for. -/
def receive (a : Call) (answer : Answer) : Call :=
  match a.phase with
  | .waiting =>
    match answer.response with
    | none => a.fail .noResponse
    | some r =>
      if !a.begun && !r.isRedirect then a.fail (.loginNotRedirected r.status)
      else if a.left = 0 then a.fail (.noCallback a.transitions)
      else round lib settings { a with begun := true } r answer.code
  | _ => a

/-- A call of `authorize` that has sent its login. -/
def start (args : Arguments) : Call :=
  ⟨false,16,[],[],[.post (settings.client ++ "/login") (loginData args)],.waiting⟩

def authorize (args : Arguments) (answers : List Answer) : Call :=
  answers.foldl (receive lib settings) (start settings args)

end Calls

section Following
variable (lib : Library) (settings : Settings)

/-- The values that the runner itself enters into the form of a login. -/
def credentials (form : Form) : List (String × String) :=
  ("username",settings.alice) ::
    if (form.values.lookup "password").isSome then [("password",settings.password)] else []

def following (r : Response) (code : Option String) : Option Request :=
  if r.isRedirect then r.location.map fun location => .get (lib.urljoin r.url location)
  else
    match (forms lib r).lookup "kc-form-login", (forms lib r).lookup "kc-otp-login-form" with
    | some form, _ => some (postForm lib r form (credentials settings form))
    | none, some form => code.map fun otp => postForm lib r form [("otp",otp)]
    | none, none => none

def Answer.next (a : Answer) : Option Request := a.response.bind fun r => following lib settings r a.code

/-- The credential that a page asks for. -/
def screen (r : Response) : Option String :=
  if r.isRedirect then none
  else
    match (forms lib r).lookup "kc-form-login", (forms lib r).lookup "kc-otp-login-form" with
    | some form, _ => if (form.values.lookup "password").isSome then some "kc-form-login" else none
    | none, some _ => some "kc-otp-login-form"
    | none, none => none

def Answer.screen (a : Answer) : Option String := a.response.bind (Runner.screen lib)

/-- The page of a result or of an error. -/
structure Terminal (r : Response) : Prop where
  here : r.isRedirect = false
  login : (forms lib r).lookup "kc-form-login" = none
  otp : (forms lib r).lookup "kc-otp-login-form" = none
  enrolment : (forms lib r).lookup "kc-totp-settings-form" = none
  status : r.status = 200
  shown : verified <:+: r.text ∨ errorPage <:+: r.text

def Call.read (a : Call) (r : Response) : Call :=
  { a with left := a.left-1, transitions := a.transitions ++ [(r.status,r.url)],
           submitted := a.submitted ++ (screen lib r).toList }

variable {lib settings} {r : Response} {code : Option String} {q : Request}

theorem round_following (a : Call) (h : following lib settings r code = some q) :
    round lib settings a r code = (a.read lib r).ask q := by
  cases hr : r.isRedirect with
  | true =>
    cases hl : r.location with
    | none => simp [following,hr,hl] at h
    | some location =>
      simp only [following,hr,hl,if_true,Option.map_some,Option.some.injEq] at h
      simp [round,Call.read,screen,hr,hl,h]
  | false =>
    cases hlogin : (forms lib r).lookup "kc-form-login" with
    | some form =>
      simp only [following,hr,hlogin,Bool.false_eq_true,if_false,Option.some.injEq] at h
      by_cases hp : (form.values.lookup "password").isSome = true
      · simp [round,Call.read,screen,hr,hlogin,hp,← h,credentials]
      · simp [round,Call.read,screen,hr,hlogin,hp,← h,credentials]
    | none =>
      cases hotp : (forms lib r).lookup "kc-otp-login-form" with
      | none => simp [following,hr,hlogin,hotp] at h
      | some form =>
        cases code with
        | none => simp [following,hr,hlogin,hotp] at h
        | some otp =>
          simp only [following,hr,hlogin,hotp,Bool.false_eq_true,if_false,Option.map_some,Option.some.injEq] at h
          simp [round,Call.read,screen,hr,hlogin,hotp,h]

theorem round_terminal (a : Call) (h : Terminal lib r) :
    round lib settings a r code = { a.read lib r with phase := .returned r } := by
  have hscreen : screen lib r = none := by simp [screen,h.here,h.login,h.otp]
  simp [round,Call.read,hscreen,h.here,h.login,h.otp,h.enrolment,h.status,h.shown]

variable (settings) in
theorem round_failed (a : Call) (h : following lib settings r code = none) (ht : ¬ Terminal lib r) :
    ∃ f, round lib settings a r code = (a.read lib r).fail f := by
  cases hr : r.isRedirect with
  | true =>
    cases hl : r.location with
    | none => exact ⟨.noLocation,by simp [round,Call.read,screen,hr,hl]⟩
    | some location => simp [following,hr,hl] at h
  | false =>
    cases hlogin : (forms lib r).lookup "kc-form-login" with
    | some form => simp [following,hr,hlogin] at h
    | none =>
      cases hotp : (forms lib r).lookup "kc-otp-login-form" with
      | some form =>
        cases code with
        | some otp => simp [following,hr,hlogin,hotp] at h
        | none => exact ⟨.noCode,by simp [round,Call.read,screen,hr,hlogin,hotp]⟩
      | none =>
        cases henrol : (forms lib r).lookup "kc-totp-settings-form" with
        | some form => exact ⟨.enrolment,by simp [round,Call.read,screen,hr,hlogin,hotp,henrol]⟩
        | none =>
          have hshown : ¬ (r.status = 200 ∧ (verified <:+: r.text ∨ errorPage <:+: r.text)) :=
            fun hs => ht ⟨hr,hlogin,hotp,henrol,hs.1,hs.2⟩
          exact ⟨.unexpectedPage r ((forms lib r).map Prod.fst),
            by simp [round,Call.read,screen,hr,hlogin,hotp,henrol,hshown]⟩

theorem receive_some {a : Call} {x : Answer} (ha : a.phase = .waiting) (hx : x.response = some r) :
    receive lib settings a x =
      if !a.begun && !r.isRedirect then a.fail (.loginNotRedirected r.status)
      else if a.left = 0 then a.fail (.noCallback a.transitions)
      else round lib settings { a with begun := true } r x.code := by
  simp only [receive,ha,hx]

theorem receive_ended {a : Call} {x : Answer} (ha : a.phase ≠ .waiting) : receive lib settings a x = a := by
  cases hp : a.phase with
  | waiting => exact absurd hp ha
  | returned r => simp only [receive,hp]
  | failed f => simp only [receive,hp]

variable (lib settings)

theorem receive_read {a : Call} {x : Answer} (ha : a.phase = .waiting) (hx : x.response = some r)
    (hb : a.begun = true ∨ r.isRedirect = true) (hl : a.left ≠ 0) :
    receive lib settings a x = round lib settings { a with begun := true } r x.code := by
  rw [receive_some ha hx,if_neg,if_neg hl]
  rcases hb with hb | hb <;> simp [hb]

theorem receive_cases (a : Call) (ha : a.phase = .waiting) (x : Answer) :
    (∃ f, (receive lib settings a x).phase = .failed f ∧ (receive lib settings a x).sent = a.sent) ∨
    ∃ r, x.response = some r ∧ (a.begun = true ∨ r.isRedirect = true) ∧ a.left ≠ 0 ∧
      ((∃ q, following lib settings r x.code = some q ∧
        receive lib settings a x = (({ a with begun := true } : Call).read lib r).ask q) ∨
      Terminal lib r ∧
        receive lib settings a x = { ({ a with begun := true } : Call).read lib r with phase := .returned r }) := by
  cases hx : x.response with
  | none =>
    have hfail : receive lib settings a x = a.fail .noResponse := by simp only [receive,ha,hx]
    exact Or.inl ⟨_,congrArg Call.phase hfail,by rw [hfail]; rfl⟩
  | some r =>
    by_cases hb : a.begun = true ∨ r.isRedirect = true
    · by_cases hl : a.left = 0
      · have hfirst : ¬ (!a.begun && !r.isRedirect) = true := by rcases hb with hb | hb <;> simp [hb]
        have hfail : receive lib settings a x = a.fail (.noCallback a.transitions) := by
          rw [receive_some ha hx,if_neg hfirst,if_pos hl]
        exact Or.inl ⟨_,congrArg Call.phase hfail,by rw [hfail]; rfl⟩
      · have hread := receive_read lib settings ha hx hb hl
        cases hq : following lib settings r x.code with
        | some q => exact Or.inr ⟨r,rfl,hb,hl,Or.inl ⟨q,hq,hread.trans (round_following _ hq)⟩⟩
        | none =>
          by_cases ht : Terminal lib r
          · exact Or.inr ⟨r,rfl,hb,hl,Or.inr ⟨ht,hread.trans (round_terminal _ ht)⟩⟩
          · obtain ⟨f,hf⟩ := round_failed settings ({ a with begun := true } : Call) hq ht
            exact Or.inl ⟨f,congrArg Call.phase (hread.trans hf),by rw [hread,hf]; rfl⟩
    · have hfirst : (!a.begun && !r.isRedirect) = true := by simpa [not_or] using hb
      have hfail : receive lib settings a x = a.fail (.loginNotRedirected r.status) := by
        rw [receive_some ha hx,if_pos hfirst]
      exact Or.inl ⟨_,congrArg Call.phase hfail,by rw [hfail]; rfl⟩

/-- The answers lead on one after the other, the first as a redirect. -/
structure Passed (answers : List Answer) : Prop where
  leads : ∀ a ∈ answers, (a.next lib settings).isSome = true
  redirected : ∀ a ∈ answers.head?, ∃ r, a.response = some r ∧ r.isRedirect = true
  short : answers.length ≤ 16

def passing (args : Arguments) (answers : List Answer) : Call where
  begun := !answers.isEmpty
  left := 16-answers.length
  submitted := answers.filterMap (Answer.screen lib)
  transitions := answers.filterMap fun a => a.response.map fun r => (r.status,r.url)
  sent := .post (settings.client ++ "/login") (loginData args) :: answers.filterMap (Answer.next lib settings)
  phase := .waiting

variable {lib settings} {args : Arguments} {answers : List Answer} {x : Answer}

theorem authorize_append (x : Answer) : authorize lib settings args (answers ++ [x]) =
    receive lib settings (authorize lib settings args answers) x := by
  rw [authorize,List.foldl_append]
  rfl

theorem passed_append : Passed lib settings (answers ++ [x]) ↔ Passed lib settings answers ∧
    answers.length < 16 ∧ ∃ r, x.response = some r ∧ (following lib settings r x.code).isSome = true ∧
      (answers ≠ [] ∨ r.isRedirect = true) := by
  constructor
  · rintro ⟨hleads,hred,hshort⟩
    rw [List.length_append,List.length_singleton] at hshort
    have hx : (x.next lib settings).isSome = true := hleads x (by simp)
    cases hr : x.response with
    | none => simp [Answer.next,hr] at hx
    | some r =>
      refine ⟨⟨fun a ha => hleads a (List.mem_append_left _ ha),fun a ha => ?_,by omega⟩,by omega,r,rfl,?_,?_⟩
      · exact hred a (by rw [List.head?_append,Option.mem_def.mp ha]; rfl)
      · simpa [Answer.next,hr] using hx
      · by_cases hnil : answers = []
        · subst hnil
          obtain ⟨r',hr',hredirect⟩ := hred x rfl
          cases hr.symm.trans hr'
          exact Or.inr hredirect
        · exact Or.inl hnil
  · rintro ⟨h,hlt,r,hr,hnext,hred⟩
    refine ⟨fun a ha => ?_,fun a ha => ?_,?_⟩
    · rcases List.mem_append.mp ha with ha | ha
      · exact h.leads a ha
      · rw [List.mem_singleton.mp ha,Answer.next,hr]
        exact hnext
    · cases answers with
      | nil =>
        cases ha
        exact ⟨r,hr,hred.resolve_left (absurd rfl)⟩
      | cons b answers => exact h.redirected a ha
    · rw [List.length_append,List.length_singleton]
      omega

theorem authorize_passed (h : Passed lib settings answers) :
    authorize lib settings args answers = passing lib settings args answers := by
  induction answers using List.reverseRecOn with
  | nil => rfl
  | append_singleton answers x ih =>
    obtain ⟨hpassed,hlt,r,hr,hnext,hred⟩ := passed_append.mp h
    obtain ⟨q,hq⟩ := Option.isSome_iff_exists.mp hnext
    have hb : (passing lib settings args answers).begun = true ∨ r.isRedirect = true := by
      refine hred.imp_left fun hne => ?_
      cases answers with
      | nil => exact absurd rfl hne
      | cons _ _ => rfl
    have hl : (passing lib settings args answers).left ≠ 0 := by
      change 16-answers.length ≠ 0
      omega
    rw [authorize_append,ih hpassed,receive_read lib settings rfl hr hb hl,round_following _ hq]
    have hscreen : List.filterMap (Answer.screen lib) [x] = (screen lib r).toList := by
      rw [List.filterMap_cons,Answer.screen,hr,Option.bind_some]
      cases screen lib r <;> rfl
    simp [passing,Call.read,Call.ask,Answer.next,hr,hq,hscreen]
    omega

theorem authorize_waiting_iff : (authorize lib settings args answers).phase = .waiting ↔
    Passed lib settings answers := by
  refine ⟨fun h => ?_,fun h => by rw [authorize_passed h]; rfl⟩
  induction answers using List.reverseRecOn with
  | nil => exact ⟨by simp,by simp,by simp⟩
  | append_singleton answers x ih =>
    rw [authorize_append] at h
    by_cases hw : (authorize lib settings args answers).phase = .waiting
    · have hp := ih hw
      rw [authorize_passed hp] at h
      refine passed_append.mpr ⟨hp,?_⟩
      rcases receive_cases lib settings (passing lib settings args answers) rfl x with
        ⟨f,hf,-⟩ | ⟨r,hr,hb,hl,⟨q,hq,-⟩ | ⟨-,hreturned⟩⟩
      · rw [hf] at h
        cases h
      · refine ⟨?_,r,hr,by rw [hq]; rfl,hb.imp_left fun hne hnil => ?_⟩
        · change 16-answers.length ≠ 0 at hl
          omega
        · subst hnil
          cases hne
      · rw [hreturned] at h
        cases h
    · rw [receive_ended hw] at h
      exact absurd h hw

theorem foldl_ended {a : Call} (ha : a.phase ≠ .waiting) (rest : List Answer) :
    rest.foldl (receive lib settings) a = a := by
  induction rest with
  | nil => rfl
  | cons x rest ih => rw [List.foldl_cons,receive_ended ha,ih]

variable (args) in
theorem authorize_terminal (h : Passed lib settings answers) (hne : answers ≠ []) (hlt : answers.length < 16)
    (hr : x.response = some r) (ht : Terminal lib r) : authorize lib settings args (answers ++ [x]) =
      { (passing lib settings args answers).read lib r with phase := .returned r } := by
  have hb : (passing lib settings args answers).begun = true := by
    cases answers with
    | nil => exact absurd rfl hne
    | cons _ _ => rfl
  have hl : (passing lib settings args answers).left ≠ 0 := by
    change 16-answers.length ≠ 0
    omega
  rw [authorize_append,authorize_passed h,receive_read lib settings rfl hr (Or.inl hb) hl,round_terminal _ ht,← hb]

theorem Terminal.screen_none (h : Terminal lib r) : screen lib r = none := by
  simp [screen,h.here,h.login,h.otp]

/-- For all responses of whatever servers: `authorize` returns a page with these credential screens exactly where the
responses before it, a redirect first and at most fifteen in all, are redirects and pages that it can answer, the page
itself is one of a result or of an error, and the screens are those of these responses. -/
theorem authorize_returns_iff (lib : Library) (settings : Settings) (args : Arguments) (answers : List Answer)
    (r : Response) (submitted : List String) :
    ((authorize lib settings args answers).phase = .returned r ∧
      (authorize lib settings args answers).submitted = submitted) ↔
    ∃ passed last rest, answers = passed ++ last :: rest ∧ Passed lib settings passed ∧ passed ≠ [] ∧
      passed.length < 16 ∧ last.response = some r ∧ Terminal lib r ∧
      submitted = passed.filterMap (Answer.screen lib) := by
  constructor
  · rintro ⟨hr,rfl⟩
    induction answers using List.reverseRecOn with
    | nil => cases hr
    | append_singleton answers x ih =>
      rw [authorize_append] at hr ⊢
      by_cases hw : (authorize lib settings args answers).phase = .waiting
      · have hp := authorize_waiting_iff.mp hw
        rw [authorize_passed hp] at hr ⊢
        rcases receive_cases lib settings (passing lib settings args answers) rfl x with
          ⟨f,hf,-⟩ | ⟨r',hr',hb,hl,⟨q,-,hasked⟩ | ⟨ht,hreturned⟩⟩
        · rw [hf] at hr
          cases hr
        · rw [hasked] at hr
          cases hr
        · rw [hreturned] at hr ⊢
          cases hr
          refine ⟨answers,x,[],rfl,hp,?_,?_,hr',ht,?_⟩
          · rintro rfl
            exact absurd (ht.here.symm.trans (hb.resolve_left Bool.false_ne_true)) Bool.false_ne_true
          · change 16-answers.length ≠ 0 at hl
            omega
          · simp [Call.read,ht.screen_none,passing]
      · rw [receive_ended hw] at hr ⊢
        obtain ⟨passed,last,rest,rfl,h⟩ := ih hr
        exact ⟨passed,last,rest ++ [x],by simp,h⟩
  · rintro ⟨passed,last,rest,rfl,hp,hne,hlt,hr,ht,rfl⟩
    have hend := authorize_terminal args hp hne hlt hr ht
    have hall : authorize lib settings args (passed ++ last :: rest) =
        { (passing lib settings args passed).read lib r with phase := .returned r } := by
      rw [List.append_cons,authorize,List.foldl_append,← authorize,hend,foldl_ended (by simp)]
    rw [hall]
    exact ⟨rfl,by simp [Call.read,ht.screen_none,passing]⟩

/-- The request that the runner makes of a response: it follows a redirect, or posts a form of the page to the form's
own address, with the form's own fields and what the form is there for. -/
inductive Sent (lib : Library) (settings : Settings) (r : Response) (code : Option String) : Request → Prop
  | redirected (location : String) (hr : r.isRedirect = true) (hl : r.location = some location) :
    Sent lib settings r code (.get (lib.urljoin r.url location))
  | username (form : Form) (hr : r.isRedirect = false) (hf : Last (lib.HTMLParser r.text) "kc-form-login" form)
    (hp : form.values.lookup "password" = none) :
    Sent lib settings r code (postForm lib r form [("username",settings.alice)])
  | password (form : Form) (hr : r.isRedirect = false) (hf : Last (lib.HTMLParser r.text) "kc-form-login" form)
    (field : Option String) (hp : form.values.lookup "password" = some field) :
    Sent lib settings r code (postForm lib r form [("username",settings.alice),("password",settings.password)])
  | code (form : Form) (otp : String) (hr : r.isRedirect = false)
    (hnone : ∀ form', ¬ Last (lib.HTMLParser r.text) "kc-form-login" form')
    (hf : Last (lib.HTMLParser r.text) "kc-otp-login-form" form) (hcode : code = some otp) :
    Sent lib settings r code (postForm lib r form [("otp",otp)])

theorem sent_of_following (h : following lib settings r code = some q) : Sent lib settings r code q := by
  cases hr : r.isRedirect with
  | true =>
    cases hl : r.location with
    | none => simp [following,hr,hl] at h
    | some location =>
      simp only [following,hr,hl,if_true,Option.map_some,Option.some.injEq] at h
      exact h ▸ .redirected location hr hl
  | false =>
    cases hlogin : (forms lib r).lookup "kc-form-login" with
    | some form =>
      simp only [following,hr,hlogin,Bool.false_eq_true,if_false,Option.some.injEq] at h
      have hf := (lookup_handled_init _ _ _).mp hlogin
      cases hp : form.values.lookup "password" with
      | none => exact h ▸ by simpa [credentials,hp] using Sent.username form hr hf hp
      | some field => exact h ▸ by simpa [credentials,hp] using Sent.password form hr hf field hp
    | none =>
      cases hotp : (forms lib r).lookup "kc-otp-login-form" with
      | none => simp [following,hr,hlogin,hotp] at h
      | some form =>
        obtain ⟨otp,hcode,rfl⟩ : ∃ otp, code = some otp ∧ postForm lib r form [("otp",otp)] = q := by
          simpa [following,hr,hlogin,hotp] using h
        refine .code form otp hr (fun form' hf' => ?_) ((lookup_handled_init _ _ _).mp hotp) hcode
        exact Option.some_ne_none form' (((lookup_handled_init _ _ _).mpr hf').symm.trans hlogin)

theorem getElem?_filterMap_of_isSome {A B : Type} {f : A → Option B} {xs : List A} (h : ∀ a ∈ xs, (f a).isSome = true)
    (n : ℕ) : (xs.filterMap f)[n]? = xs[n]?.bind f := by
  induction xs generalizing n with
  | nil => rfl
  | cons a xs ih =>
    obtain ⟨b,hb⟩ := Option.isSome_iff_exists.mp (h a List.mem_cons_self)
    have htail := ih fun a ha => h a (List.mem_cons_of_mem _ ha)
    rw [List.filterMap_cons_some hb]
    cases n with
    | zero => exact hb.symm
    | succ n => exact htail n

theorem sent_eq (lib : Library) (settings : Settings) (args : Arguments) (answers : List Answer) :
    ∃ passed, passed <+: answers ∧ (∀ a ∈ passed, (a.next lib settings).isSome = true) ∧
      (authorize lib settings args answers).sent = .post (settings.client ++ "/login") (loginData args) ::
        passed.filterMap (Answer.next lib settings) := by
  induction answers using List.reverseRecOn with
  | nil => exact ⟨[],List.prefix_refl [],by simp,rfl⟩
  | append_singleton answers x ih =>
    rw [authorize_append]
    by_cases hw : (authorize lib settings args answers).phase = .waiting
    · have hp := authorize_waiting_iff.mp hw
      have hpre : answers <+: answers ++ [x] := List.prefix_append _ _
      rw [authorize_passed hp]
      rcases receive_cases lib settings (passing lib settings args answers) rfl x with
        ⟨-,-,hsent⟩ | ⟨r,hr,-,-,⟨q,hq,hasked⟩ | ⟨-,hreturned⟩⟩
      · exact ⟨answers,hpre,hp.leads,hsent⟩
      · have hnext : x.next lib settings = some q := by rw [Answer.next,hr,Option.bind_some,hq]
        refine ⟨answers ++ [x],List.prefix_refl _,fun a ha => ?_,?_⟩
        · rcases List.mem_append.mp ha with ha | ha
          · exact hp.leads a ha
          · rw [List.mem_singleton.mp ha,hnext]
            rfl
        · rw [hasked,List.filterMap_append,List.filterMap_cons_some hnext]
          rfl
      · exact ⟨answers,hpre,hp.leads,congrArg Call.sent hreturned⟩
    · rw [receive_ended hw]
      obtain ⟨passed,hpre,h⟩ := ih
      exact ⟨passed,hpre.trans (List.prefix_append _ _),h⟩

/-- For all responses of whatever servers: the first request of a call's session is its login at the client, and each
later one answers the response right before it. The password and the code are posted nowhere else. -/
theorem authorize_sends (lib : Library) (settings : Settings) (args : Arguments) (answers : List Answer) :
    (authorize lib settings args answers).sent[0]? = some (.post (settings.client ++ "/login") (loginData args)) ∧
    ∀ n q, (authorize lib settings args answers).sent[n+1]? = some q →
      ∃ a r, answers[n]? = some a ∧ a.response = some r ∧ Sent lib settings r a.code q := by
  obtain ⟨passed,⟨rest,rfl⟩,hleads,hsent⟩ := sent_eq lib settings args answers
  rw [hsent]
  refine ⟨rfl,fun n q hq => ?_⟩
  rw [List.getElem?_cons_succ,getElem?_filterMap_of_isSome hleads,Option.bind_eq_some_iff] at hq
  obtain ⟨a,ha,hnext⟩ := hq
  obtain ⟨r,hr,hfollow⟩ := Option.bind_eq_some_iff.mp hnext
  exact ⟨a,r,getElem?_append_of_some ha,hr,sent_of_following hfollow⟩

end Following
end Oidc4acLab.Runner
