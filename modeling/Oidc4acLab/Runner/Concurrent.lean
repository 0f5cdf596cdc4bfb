import Oidc4acLab.Client.Cookies
import Oidc4acLab.Result.Rendering
import Oidc4acLab.Runner.Authorize

/-! # The runner at the client

A call of `authorize` in a new session, the client that it logs in at, other browsers of the
client and any other servers, all at once. The requests that the client knows become requests of
the call's browser there; its pages are the templates of the client. A stranger answers the others.
-/
namespace Oidc4acLab.Runner
open Collections Dictionary Text Transition

variable {site : Result.Site}

/-- `request.form.get(name)` -/
def posted (data : Attributes) (name : String) : Option String := (data.lookup name).join

/-- `parse_claims` of the client -/
def parsed (site : Result.Site) (rawClaims : Option String) : Option site.Object :=
  (Workbench.parseClaims site.server (rawClaims.map Str.literal)).toOption

/-- The form of `/login` as the client reads it. -/
def readLogin (site : Result.Site) (data : Attributes) : Client.LoginForm site.Object where
  parsed := parsed site (posted data "claims_json")
  omitClaims := posted data "omit_claims" == some "on"
  offlineAccess := posted data "offline_access" == some "on"
  promptLogin := posted data "prompt_login" == some "on"

/-- What the runner asks for with its login. -/
def loginForm (site : Result.Site) (args : Arguments) : Client.LoginForm site.Object where
  parsed := parsed site (if args.omitClaims then none else some args.claimsJson)
  omitClaims := args.omitClaims
  offlineAccess := args.offlineAccess
  promptLogin := args.promptLogin

theorem readLogin_loginData (args : Arguments) : readLogin site (loginData args) = loginForm site args := by
  obtain ⟨claims,prompt,omits,offline⟩ := args
  cases prompt <;> cases omits <;> cases offline <;> rfl

/-- `require_success` lets the page pass. -/
def Succeeds {server : Python.Interpreter} (reader : Result.Reader server) (r : Response) : Prop :=
  Result.error reader r.text = .ok none ∧ verified <:+: r.text

/-- The runner with the client's site, and what of the client's answers is no page of a modelled template. -/
structure Lab (site : Result.Site) where
  lib : Library
  settings : Settings
  reader : Result.Reader site.server.py
  /-- The path and the arguments of an address of the client. -/
  address : String → Option (String × (String → Option String))
  /-- `home.html` -/
  home : ℕ → Str
  /-- Where Authlib redirects a login to, with the text of the redirect. -/
  redirect : Client.Page site.Object → String × Str
  /-- Flask's page for an exception that leaves a handler. -/
  failure : Str
  login_address : (address (settings.client ++ "/login")).map Prod.fst = some "/login"
  home_plain : ∀ status, ¬ verified <:+: home status

namespace Lab
variable (lab : Lab site)

def route : Request → Option (Client.Request site.Object)
  | .get url =>
    (lab.address url).bind fun a =>
      if a.1 = "/" then some .home
      else if a.1 = "/callback" then some (.callback (a.2 "error") (a.2 "error_description") (a.2 "state"))
      else none
  | .post url data =>
    (lab.address url).bind fun a =>
      if a.1 = "/login" then some (.login (readLogin site data))
      else if a.1 = "/refresh" then some (.refresh (posted data "result_id"))
      else none

def render (url : String) : Client.Page site.Object → Response
  | .workbench status => ⟨status,url,none,lab.home status⟩
  | .redirect state nonce scope claims prompt =>
    ⟨302,url,some (lab.redirect (.redirect state nonce scope claims prompt)).1,
      (lab.redirect (.redirect state nonce scope claims prompt)).2⟩
  | .error error description status =>
    ⟨status,url,none,Result.errorHtml site.stylesheet (Str.literal error) (Str.literal description)⟩
  | .result page =>
    match site.renderResult page with
    | .ok text => ⟨200,url,none,text⟩
    | .error _ => ⟨500,url,none,lab.failure⟩
  | .internalServerError => ⟨500,url,none,lab.failure⟩

/-- A login form or a form for a code on this page leads to the client itself. -/
def LeadsBack (r : Response) : Prop :=
  ∃ id ∈ ["kc-form-login","kc-otp-login-form"], ∃ form values, Last (lab.lib.HTMLParser r.text) id form ∧
    (lab.route (postForm lab.lib r form values)).isSome = true

variable {lab}

theorem login_routed (data : Attributes) :
    lab.route (.post (lab.settings.client ++ "/login") data) = some (.login (readLogin site data)) := by
  obtain ⟨a,ha,hpath⟩ := Option.map_eq_some_iff.mp lab.login_address
  rw [route,ha,Option.bind_some,if_pos hpath]

theorem get_routed {url : String} {req : Client.Request site.Object} (h : lab.route (.get url) = some req) :
    req = .home ∨ ∃ error description state, req = .callback error description state := by
  obtain ⟨a,-,h⟩ := Option.bind_eq_some_iff.mp h
  split_ifs at h
  · exact Or.inl (Option.some.inj h).symm
  · exact Or.inr ⟨_,_,_,(Option.some.inj h).symm⟩

/-- Of the pages of the client only a result passes where `authorize` has returned it. -/
theorem result_of_succeeds {url : String} {page : Client.Page site.Object}
    (ht : Terminal lab.lib (lab.render url page)) (hs : Succeeds lab.reader (lab.render url page)) :
    ∃ p, page = .result p ∧ site.renderResult p = .ok (lab.render url page).text := by
  cases page with
  | workbench status => exact absurd hs.2 (lab.home_plain status)
  | redirect state nonce scope claims prompt => exact absurd ht.here (by simp [render,Response.isRedirect])
  | error error description status =>
    have herror := hs.1
    rw [render,Result.error_errorHtml] at herror
    cases herror
  | result p =>
    cases hp : site.renderResult p with
    | ok text => exact ⟨p,rfl,by simp only [render,hp]⟩
    | error e =>
      have hstatus := ht.status
      simp only [render,hp] at hstatus
      cases hstatus
  | internalServerError =>
    have hstatus := ht.status
    cases hstatus

end Lab

/-- The client with all its requests, the call, the client's request that the call waits for, and the responses that
the call has got, each with the client's request that it answers if it is one of these. -/
structure System (site : Result.Site) where
  client : Client.State site.Object
  call : Call
  pending : Option ℕ
  answered : List (Option ℕ × Response)

inductive Step (site : Result.Site)
  | client (l : Client.Label site.Object)
  | send
  | respond (code : Option String)
  | elsewhere (r : Response) (code : Option String)
  | lost

/-- Only the call sends requests of its browser and receives its responses. -/
def ofOthers (browser : ℕ) (σ : Client.State site.Object) : Client.Label site.Object → Bool
  | .send b _ => b != browser
  | .receive i => (σ.threads[i]?).all fun th => th.browser != browser
  | _ => true

variable (lab : Lab site) (browser : ℕ)

/-- The request that the call waits for, where no one works on it yet. -/
def System.unsent (σ : System site) : Option Request :=
  if σ.call.phase = .waiting ∧ σ.pending = none then σ.call.sent.getLast? else none

def System.read (σ : System site) (c : Client.State site.Object) (origin : Option ℕ) (r : Response)
    (code : Option String) : System site :=
  ⟨c,receive lab.lib lab.settings σ.call ⟨some r,code⟩,none,σ.answered ++ [(origin,r)]⟩

def next (σ : System site) : Step site → Option (System site)
  | .client l =>
    if ofOthers browser σ.client l then (Client.step σ.client l).map fun c => { σ with client := c } else none
  | .send =>
    (σ.unsent.bind lab.route).bind fun req =>
      (Client.step σ.client (.send browser req)).map fun c =>
        { σ with client := c, pending := some σ.client.threads.length }
  | .respond code =>
    σ.pending.bind fun i =>
      (σ.client.threads[i]?).bind fun th =>
        match th.handler, σ.call.sent.getLast? with
        | .responding page, some q =>
          (Client.step σ.client (.receive i)).map fun c => σ.read lab c (some i) (lab.render q.url page) code
        | _, _ => none
  | .elsewhere r code =>
    match σ.unsent with
    | some q => if (lab.route q).isNone then some (σ.read lab σ.client none r code) else none
    | none => none
  | .lost => some { σ with call := receive lab.lib lab.settings σ.call ⟨none,none⟩, pending := none }

/-- An answer adds at most the request that its response leads to, and returns no response but a terminal page. -/
theorem receive_changes (lib : Library) (settings : Settings) (a : Call) (x : Answer) :
    ((receive lib settings a x).sent = a.sent ∨ ∃ r q, x.response = some r ∧
      following lib settings r x.code = some q ∧ (receive lib settings a x).sent = a.sent ++ [q]) ∧
    ∀ r, (receive lib settings a x).phase = .returned r →
      a.phase = .returned r ∨ x.response = some r ∧ Terminal lib r := by
  by_cases ha : a.phase = .waiting
  · rcases receive_cases lib settings a ha x with ⟨f,hf,hsent⟩ | ⟨r,hr,-,-,⟨q,hq,hasked⟩ | ⟨ht,hreturned⟩⟩
    · refine ⟨Or.inl hsent,fun r h => ?_⟩
      rw [hf] at h
      cases h
    · refine ⟨Or.inr ⟨r,q,hr,hq,by rw [hasked]; rfl⟩,fun r h => ?_⟩
      rw [hasked] at h
      cases h
    · refine ⟨Or.inl (by rw [hreturned]; rfl),fun r h => ?_⟩
      rw [hreturned] at h
      cases h
      exact Or.inr ⟨hr,ht⟩
  · rw [receive_ended ha]
    exact ⟨Or.inl rfl,fun r h => Or.inl h⟩

variable {lab browser}

theorem routed_of_following {r : Response} {code : Option String} {q : Request} {req : Client.Request site.Object}
    (hr : ¬ lab.LeadsBack r) (h : following lab.lib lab.settings r code = some q) (hq : lab.route q = some req) :
    req = .home ∨ ∃ error description state, req = .callback error description state := by
  have hform : ∀ id ∈ ["kc-form-login","kc-otp-login-form"], ∀ form values,
      Last (lab.lib.HTMLParser r.text) id form → lab.route (postForm lab.lib r form values) ≠ some req :=
    fun id hid form values hlast hroute => hr ⟨id,hid,form,values,hlast,Option.isSome_of_eq_some hroute⟩
  cases sent_of_following h with
  | redirected location _ _ => exact Lab.get_routed hq
  | username form _ hf _ => exact absurd hq (hform _ (by simp) _ _ hf)
  | password form _ hf _ _ => exact absurd hq (hform _ (by simp) _ _ hf)
  | code form otp _ _ hf _ => exact absurd hq (hform _ (by simp) _ _ hf)

/-- A step of the client keeps what its requests ask and who sent them, and adds only what it is sent. -/
theorem request_step {σ τ : Client.State site.Object} {l : Client.Label site.Object} (he : Client.step σ l = some τ) {i : ℕ}
    {th' : Client.Thread site.Object} (hth : τ.threads[i]? = some th') :
    (∃ th, σ.threads[i]? = some th ∧ th'.browser = th.browser ∧ th'.request = th.request) ∨
      l = .send th'.browser th'.request := by
  cases Client.step_cases he with
  | ticked now _ _ ht =>
    subst ht
    exact Or.inl ⟨th',hth,rfl,rfl⟩
  | sent b req hl ht =>
    subst hl ht
    rcases getElem?_append_cases hth with h | ⟨-,rfl⟩
    · exact Or.inl ⟨th',h,rfl,rfl⟩
    · exact Or.inr rfl
  | advanced j input th s' th'' hl hj heff ht =>
    subst ht
    rcases getElem?_set_cases hth with ⟨_,h⟩ | ⟨rfl,rfl⟩
    · exact Or.inl ⟨th',h,rfl,rfl⟩
    · exact Or.inl ⟨th,hj,heff.sameRequest.browser,heff.sameRequest.request⟩
  | received j th page hl hj hh ht =>
    subst ht
    rcases getElem?_set_cases hth with ⟨_,h⟩ | ⟨rfl,rfl⟩
    · exact Or.inl ⟨th',h,rfl,rfl⟩
    · exact Or.inl ⟨th,hj,rfl,rfl⟩

theorem thread_step {σ τ : Client.State site.Object} {l : Client.Label site.Object} (he : Client.step σ l = some τ) {i : ℕ}
    {th : Client.Thread site.Object} (hth : σ.threads[i]? = some th) :
    ∃ th', τ.threads[i]? = some th' ∧ th'.browser = th.browser := by
  have hset : ∀ (j : ℕ) (uh uh' : Client.Thread site.Object), σ.threads[j]? = some uh → uh'.browser = uh.browser →
      ∃ th', (σ.threads.set j uh')[i]? = some th' ∧ th'.browser = th.browser := by
    intro j uh uh' hj hb
    by_cases hij : j = i
    · subst hij
      cases hth.symm.trans hj
      exact ⟨uh',getElem?_set_of_some hth,hb⟩
    · exact ⟨th,by rw [List.getElem?_set_ne hij,hth],rfl⟩
  cases Client.step_cases he with
  | ticked now _ _ ht => exact ⟨th,ht ▸ hth,rfl⟩
  | sent b req hl ht => exact ⟨th,by rw [ht]; exact getElem?_append_of_some hth,rfl⟩
  | advanced j input uh s' uh' hl hj heff ht =>
    rw [ht]
    exact hset j uh uh' hj heff.sameRequest.browser
  | received j uh page hl hj hh ht =>
    rw [ht]
    exact hset j uh _ hj rfl

/-- The browser has received this response as the answer to its request at the client. -/
def Received (lab : Lab site) (browser : ℕ) (c : Client.State site.Object) (i : ℕ) (r : Response) : Prop :=
  ∃ (th : Client.Thread site.Object) (page : Client.Page site.Object) (url : String), c.threads[i]? = some th ∧
    th.browser = browser ∧ th.handler = .received page ∧ r = lab.render url page

/-- Every request of the browser at the client is the call's, whose requests are its login and what its responses lead
to. -/
structure Joined (lab : Lab site) (browser : ℕ) (args : Arguments) (clock : ℤ) (σ : System site) : Prop where
  reached : Reachable Client.step (Client.initial clock) σ.client
  requests : ∀ (i : ℕ) (th : Client.Thread site.Object), σ.client.threads[i]? = some th → th.browser = browser →
    ∃ q ∈ σ.call.sent, lab.route q = some th.request
  sent : ∀ q ∈ σ.call.sent, q = .post (lab.settings.client ++ "/login") (loginData args) ∨
    ∀ req, lab.route q = some req → req = .home ∨ ∃ error description state, req = .callback error description state
  pending : ∀ i, σ.pending = some i → ∃ th, σ.client.threads[i]? = some th ∧ th.browser = browser
  answered : ∀ i r, (some i,r) ∈ σ.answered → Received lab browser σ.client i r
  returned : ∀ r, σ.call.phase = .returned r → Terminal lab.lib r ∧ ∃ origin, (origin,r) ∈ σ.answered

variable {args : Arguments} {clock : ℤ} {σ τ : System site}

theorem Received.step {c c' : Client.State site.Object} {i : ℕ} {r : Response} {l : Client.Label site.Object}
    (h : Received lab browser c i r) (hc : Reachable Client.step (Client.initial clock) c)
    (he : Client.step c l = some c') : Received lab browser c' i r := by
  obtain ⟨th,page,url,hth,hb,hh,hr⟩ := h
  exact ⟨th,page,url,(Client.extends_step (Client.isolated_reachable hc) he).received i th page hth hh,hb,hh,hr⟩

/-- The call reads a response, and the client is as it was or has handed the response to it. -/
theorem Joined.read (h : Joined lab browser args clock σ) {c : Client.State site.Object}
    (hc : Reachable Client.step (Client.initial clock) c)
    (hrequests : ∀ (i : ℕ) (th : Client.Thread site.Object), c.threads[i]? = some th → th.browser = browser →
      ∃ q ∈ σ.call.sent, lab.route q = some th.request)
    (hkept : ∀ i r, Received lab browser σ.client i r → Received lab browser c i r)
    {origin : Option ℕ} {r : Response} (hr : ∀ i, origin = some i → Received lab browser c i r)
    (hforms : ¬ lab.LeadsBack r) (code : Option String) :
    Joined lab browser args clock (σ.read lab c origin r code) := by
  obtain ⟨hsent,hreturned⟩ := receive_changes lab.lib lab.settings σ.call ⟨some r,code⟩
  have hmem : ∀ q ∈ σ.call.sent, q ∈ (σ.read lab c origin r code).call.sent := by
    intro q hq
    rcases hsent with hsent | ⟨_,q',_,_,hsent⟩
    · exact hsent ▸ hq
    · exact hsent ▸ List.mem_append_left _ hq
  constructor
  case reached => exact hc
  case requests =>
    intro i th hth hb
    obtain ⟨q,hq,hroute⟩ := hrequests i th hth hb
    exact ⟨q,hmem q hq,hroute⟩
  case sent =>
    intro q hq
    rcases hsent with hsent | ⟨r',q',hr',hfollow,hsent⟩
    · exact h.sent q (hsent ▸ hq)
    · have hq := hsent ▸ hq
      cases hr'
      rcases List.mem_append.mp hq with hq | hq
      · exact h.sent q hq
      · cases List.mem_singleton.mp hq
        exact Or.inr fun req hroute => routed_of_following hforms hfollow hroute
  case pending => exact fun i hi => absurd hi.symm (Option.some_ne_none i)
  case answered =>
    intro i r' hr'
    rcases List.mem_append.mp hr' with hr' | hr'
    · exact hkept i r' (h.answered i r' hr')
    · cases List.mem_singleton.mp hr'
      exact hr i rfl
  case returned =>
    intro r' hr'
    rcases hreturned r' hr' with hr' | ⟨hr',hterminal⟩
    · obtain ⟨hterminal,origin',hmem'⟩ := h.returned r' hr'
      exact ⟨hterminal,origin',List.mem_append_left _ hmem'⟩
    · cases hr'
      exact ⟨hterminal,origin,List.mem_append_right _ List.mem_cons_self⟩

theorem joined_start (lab : Lab site) (args : Arguments) {c : Client.State site.Object}
    (hc : Reachable Client.step (Client.initial clock) c)
    (hnew : ∀ (i : ℕ) (th : Client.Thread site.Object), c.threads[i]? = some th → th.browser ≠ browser) :
    Joined lab browser args clock ⟨c,start lab.settings args,none,[]⟩ where
  reached := hc
  requests := fun i th hth hb => absurd hb (hnew i th hth)
  sent := fun q hq => Or.inl (List.mem_singleton.mp hq)
  pending := fun i hi => by cases hi
  answered := fun i r hr => by cases hr
  returned := fun r hr => by cases hr

theorem answered_step {l : Step site} (he : next lab browser σ l = some τ) : σ.answered <+: τ.answered := by
  cases l with
  | client l =>
    simp only [next] at he
    split at he
    · obtain ⟨c,-,rfl⟩ := Option.map_eq_some_iff.mp he
      exact List.prefix_refl _
    · cases he
  | send =>
    obtain ⟨req,-,he⟩ := Option.bind_eq_some_iff.mp he
    obtain ⟨c,-,rfl⟩ := Option.map_eq_some_iff.mp he
    exact List.prefix_refl _
  | respond code =>
    obtain ⟨i,-,he⟩ := Option.bind_eq_some_iff.mp he
    obtain ⟨th,-,he⟩ := Option.bind_eq_some_iff.mp he
    split at he
    · obtain ⟨c,-,rfl⟩ := Option.map_eq_some_iff.mp he
      exact List.prefix_append _ _
    · cases he
  | elsewhere r code =>
    simp only [next] at he
    split at he
    · split at he
      · cases he
        exact List.prefix_append _ _
      · cases he
    · cases he
  | lost =>
    cases he
    exact List.prefix_refl _

theorem joined_step {l : Step site} (h : Joined lab browser args clock σ) (he : next lab browser σ l = some τ)
    (hforms : ∀ x ∈ τ.answered, ¬ lab.LeadsBack x.2) : Joined lab browser args clock τ := by
  cases l with
  | client l =>
    simp only [next] at he
    split at he
    · rename_i hothers
      obtain ⟨c,hc,rfl⟩ := Option.map_eq_some_iff.mp he
      refine ⟨h.reached.step hc,fun i th hth hb => ?_,h.sent,fun i hi => ?_,fun i r hr => ?_,h.returned⟩
      · rcases request_step hc hth with ⟨th₀,hth₀,hbrowser,hrequest⟩ | rfl
        · rw [hrequest]
          exact h.requests i th₀ hth₀ (hbrowser.symm.trans hb)
        · simp [ofOthers,hb] at hothers
      · obtain ⟨th,hth,hb⟩ := h.pending i hi
        obtain ⟨th',hth',hb'⟩ := thread_step hc hth
        exact ⟨th',hth',hb'.trans hb⟩
      · exact (h.answered i r hr).step h.reached hc
    · cases he
  | send =>
    obtain ⟨req,hreq,he⟩ := Option.bind_eq_some_iff.mp he
    obtain ⟨c,hc,rfl⟩ := Option.map_eq_some_iff.mp he
    obtain ⟨q,hq,hroute⟩ := Option.bind_eq_some_iff.mp hreq
    have hmem : q ∈ σ.call.sent := by
      unfold System.unsent at hq
      split at hq
      · exact List.mem_of_getLast? hq
      · cases hq
    refine ⟨h.reached.step hc,fun i th hth hb => ?_,h.sent,fun i hi => ?_,fun i r hr => ?_,h.returned⟩
    · rcases request_step hc hth with ⟨th₀,hth₀,hbrowser,hrequest⟩ | hl
      · rw [hrequest]
        exact h.requests i th₀ hth₀ (hbrowser.symm.trans hb)
      · cases hl
        exact ⟨q,hmem,hroute⟩
    · cases hi
      cases hc
      exact ⟨Client.arrive σ.client browser req,by simp,rfl⟩
    · exact (h.answered i r hr).step h.reached hc
  | respond code =>
    obtain ⟨i,hi,he⟩ := Option.bind_eq_some_iff.mp he
    obtain ⟨th,hth,he⟩ := Option.bind_eq_some_iff.mp he
    split at he
    · rename_i page q hh hq
      obtain ⟨c,hc,rfl⟩ := Option.map_eq_some_iff.mp he
      have hlast : ¬ lab.LeadsBack (lab.render q.url page) :=
        hforms (some i,lab.render q.url page) (List.mem_append_right _ List.mem_cons_self)
      refine h.read (h.reached.step hc) (fun j uh huh hb => ?_) (fun j r hrec => hrec.step h.reached hc)
        (fun j hj => ?_) hlast code
      · rcases request_step hc huh with ⟨uh₀,huh₀,hbrowser,hrequest⟩ | hl
        · rw [hrequest]
          exact h.requests j uh₀ huh₀ (hbrowser.symm.trans hb)
        · cases hl
      · cases hj
        obtain ⟨th',hth',hb⟩ := h.pending i hi
        cases hth.symm.trans hth'
        cases Client.step_cases hc with
        | received j uh page' hl hj hh' ht =>
          cases hl
          cases hj.symm.trans hth
          cases hh.symm.trans hh'
          exact ⟨th.goto (.received page),page,q.url,by rw [ht]; exact getElem?_set_of_some hth,hb,rfl,rfl⟩
        | ticked _ hl => cases hl
        | sent _ _ hl => cases hl
        | advanced _ _ _ _ _ hl => cases hl
    · cases he
  | elsewhere r code =>
    simp only [next] at he
    split at he
    · split at he
      · cases he
        have hlast : ¬ lab.LeadsBack r := hforms (none,r) (List.mem_append_right _ List.mem_cons_self)
        exact h.read h.reached h.requests (fun _ _ hrec => hrec) (fun j hj => by cases hj) hlast code
      · cases he
    · cases he
  | lost =>
    cases he
    obtain ⟨hsent,hreturned⟩ := receive_changes lab.lib lab.settings σ.call ⟨none,none⟩
    have hsame : (receive lab.lib lab.settings σ.call ⟨none,none⟩).sent = σ.call.sent :=
      hsent.resolve_right fun ⟨_,_,hr,_⟩ => by cases hr
    refine ⟨h.reached,?_,?_,fun i hi => (by cases hi),h.answered,fun r hr => ?_⟩
    · rw [hsame]
      exact h.requests
    · rw [hsame]
      exact h.sent
    · rcases hreturned r hr with hr | ⟨hr,-⟩
      · exact h.returned r hr
      · cases hr

theorem joined_reachable {τ₀ : System site} (h₀ : Joined lab browser args clock τ₀)
    (hσ : Reachable (next lab browser) τ₀ σ) (hforms : ∀ x ∈ σ.answered, ¬ lab.LeadsBack x.2) :
    Joined lab browser args clock σ := by
  refine hσ.invariant (I := fun τ => (∀ x ∈ τ.answered, ¬ lab.LeadsBack x.2) → Joined lab browser args clock τ)
    (fun ih he hτ => ?_) (fun _ => h₀) hforms
  exact joined_step (ih fun x hx => hτ x ((answered_step he).subset hx)) he hτ

theorem succeeds_of_rendered {page : Client.ResultPage site.Object} {r : Response}
    (h : site.renderResult page = .ok r.text) : Succeeds lab.reader r := by
  obtain ⟨payload,c,d,i,a,u,-,-,-,-,-,-,htext⟩ := Result.Site.of_renderResult h
  refine ⟨by rw [htext]; exact Result.error_cards lab.reader _ _ _ _,?_⟩
  rw [htext]
  exact Result.shown_resultHtml

/-- In every interleaving of the call with other requests of the client, whatever other servers answer, where no login
form and no form for a code that the call gets leads to the client itself: a page of a call in a new session that the
runner accepts is another server's, or it is the client's result for the callback of this call's own login, with the
claims that the call asked for and the nonce of its login. -/
theorem runner_verified {c : Client.State site.Object} (hc : Reachable Client.step (Client.initial clock) c)
    (hnew : ∀ (i : ℕ) (th : Client.Thread site.Object), c.threads[i]? = some th → th.browser ≠ browser)
    (hσ : Reachable (next lab browser) ⟨c,start lab.settings args,none,[]⟩ σ)
    (hforms : ∀ x ∈ σ.answered, ¬ lab.LeadsBack x.2) {r : Response} (hr : σ.call.phase = .returned r)
    (hs : Succeeds lab.reader r) :
    (none,r) ∈ σ.answered ∨
    ∃ (i : ℕ) (th : Client.Thread site.Object) (page : Client.ResultPage site.Object) (L : Client.Login site.Object),
      (some i,r) ∈ σ.answered ∧ σ.client.threads[i]? = some th ∧ th.browser = browser ∧
      th.handler = .received (.result page) ∧ site.renderResult page = .ok r.text ∧
      (∃ error description, th.request = .callback error description (some L.contextId)) ∧
      Client.LoggedIn σ.client i browser L ∧ page.idToken.nonce = some L.nonce ∧ page.claims = L.claims ∧
      (loginForm site args).Accepts page.claims := by
  have h : Joined lab browser args clock σ := joined_reachable (joined_start lab args hc hnew) hσ hforms
  obtain ⟨hterminal,origin,hmem⟩ := h.returned r hr
  cases origin with
  | none => exact Or.inl hmem
  | some i =>
    refine Or.inr ?_
    obtain ⟨th,page,url,hth,hb,hh,rfl⟩ := h.answered i r hmem
    obtain ⟨page,rfl,htext⟩ := Lab.result_of_succeeds hterminal hs
    have hasked : ∀ (j : ℕ) (uh : Client.Thread site.Object), σ.client.threads[j]? = some uh → uh.browser = browser →
        uh.request = .login (loginForm site args) ∨ uh.request = .home ∨
          ∃ error description state, uh.request = .callback error description state := by
      intro j uh huh hbrowser
      obtain ⟨q,hq,hroute⟩ := h.requests j uh huh hbrowser
      rcases h.sent q hq with rfl | hother
      · rw [Lab.login_routed,readLogin_loginData] at hroute
        exact Or.inl (Option.some.inj hroute).symm
      · exact Or.inr (hother _ hroute)
    have hisolated := Client.isolated_reachable h.reached
    have hcallback : ∃ error description state, th.request = .callback error description state := by
      rcases (hisolated.traced i th hth).page (Or.inr hh) with ⟨L,hg,-⟩ | ⟨⟨named,hn,-⟩,-⟩
      · obtain ⟨error,description,hreq⟩ := hg.request
        exact ⟨error,description,_,hreq⟩
      · rcases hasked i th hth hb with hreq | hreq | ⟨_,_,_,hreq⟩
        all_goals exact absurd (hn.symm.trans hreq) (by simp)
    obtain ⟨error,description,state,hreq⟩ := hcallback
    obtain ⟨L,rfl,hlogged,-,hclaims,hnonce⟩ := (Client.ownCookies_reachable h.reached).callback_shown hth (Or.inr hh) hreq
    rw [hb] at hlogged
    refine ⟨i,th,page,L,hmem,hth,hb,hh,htext,⟨error,description,hreq⟩,hlogged,hnonce,hclaims,?_⟩
    obtain ⟨j,uh,answer,-,huh,hbrowser,-,-,form,hform,haccepts,-⟩ := hlogged
    rcases hasked j uh huh hbrowser with hlogin | hother | ⟨_,_,_,hother⟩
    · cases hform.symm.trans hlogin
      rw [hclaims]
      exact haccepts
    · cases hform.symm.trans hother
    · cases hform.symm.trans hother

def element (tag : String) (attrs : List (String × Option String)) (inside : List Tag) : List Tag :=
  .start tag attrs :: (inside ++ [.stop tag])

def refreshTags (resultId : String) : List Tag :=
  element "form" [("method",some "post"),("action",some "/refresh")]
    (.start "input" [("type",some "hidden"),("name",some "result_id"),("value",some resultId)] ::
      element "button" [("class",some "primary"),("type",some "submit")] [])

def labSite : Result.Site where
  server := Workbench.lab
  opens := by decide
  stylesheet := []
  encodable := List.forall_mem_nil _

/-- Keycloak has a session of the user, so the only page that the call reads is a result. -/
def quietLab : Lab labSite where
  lib := ⟨fun _ => refreshTags "r",fun _ url => url⟩
  settings := ⟨"http://client.localhost:5000","alice","Alice-password-123"⟩
  reader := Result.suite
  address url :=
    if url = "http://client.localhost:5000/login" then some ("/login",fun _ => none)
    else if url = "http://client.localhost:5000/callback?state=s" then
      some ("/callback",fun name => if name = "state" then some "s" else none)
    else none
  home _ := []
  redirect _ := ("http://keycloak.localhost:8080/auth",[])
  failure := []
  login_address := rfl
  home_plain _ h := absurd h.length_le (by decide)

def asked : Arguments := ⟨"\x7b\"a\": 1\x7d",true,false,false⟩

/-- The call logs in, is led to Keycloak and back, and another browser sends a callback meanwhile. -/
def ledBack : List (Step labSite) :=
  [.send,.client (.advance 0 .proceed),.client (.advance 0 (.drawLogin "n" "s")),.client (.advance 0 .proceed),
    .respond none,
    .elsewhere ⟨302,"http://keycloak.localhost:8080/auth",some "http://client.localhost:5000/callback?state=s",[]⟩ none,
    .send,.client (.send 1 (.callback none none (some "t"))),.client (.advance 1 .proceed),.client (.advance 2 .proceed),
    .client (.advance 1 (.tokens true none ⟨some "n",([] : Workbench.Object)⟩)),
    .client (.advance 1 (.validated ([] : Workbench.Object))),.client (.advance 1 (.drawResult "r")),
    .client (.advance 1 (.discovered ([] : Workbench.Object)))]

def begun : System labSite := ⟨Client.initial 0,start quietLab.settings asked,none,[]⟩

/-- The call has only been redirected, and a result that can be rendered is under way to it. -/
def resultSent (σ : System labSite) : Bool :=
  match (σ.client.threads[1]?).map Client.Thread.handler with
  | some (.responding (.result page)) =>
    σ.pending == some 1 && σ.call.phase == .waiting && σ.call.begun && σ.call.left != 0 &&
      σ.call.sent.getLast?.isSome && (labSite.renderResult page).isOk && σ.answered.all (fun x => x.2.status == 302)
  | _ => false

theorem resultSent_ledBack : (run (next quietLab 0) begun ledBack).map resultSent = some true := by
  decide +kernel

theorem not_leadsBack (r : Response) : ¬ quietLab.LeadsBack r := by
  rintro ⟨id,hid,form,values,hlast,-⟩
  have hnone : ∀ id ∈ ["kc-form-login","kc-otp-login-form"], (parseForms (refreshTags "r")).lookup id = none := by
    decide
  exact Option.some_ne_none form (((lookup_handled_init _ _ _).mpr hlast).symm.trans (hnone id hid))

theorem terminal_of_rendered {page : Client.ResultPage labSite.Object} {url : String} {text : Str}
    (h : labSite.renderResult page = .ok text) : Terminal quietLab.lib ⟨200,url,none,text⟩ :=
  ⟨rfl,rfl,rfl,rfl,rfl,Or.inl (@succeeds_of_rendered labSite quietLab page ⟨200,url,none,text⟩ h).2⟩

theorem runner_verified_led : ∃ σ r, run (next quietLab 0) begun (ledBack ++ [.respond none]) = some σ ∧
    σ.call.phase = .returned r ∧ ∃ (i : ℕ) (th : Client.Thread labSite.Object)
      (page : Client.ResultPage labSite.Object), σ.client.threads[i]? = some th ∧ th.browser = 0 ∧
      th.handler = .received (.result page) ∧ labSite.renderResult page = .ok r.text ∧
      (loginForm labSite asked).Accepts page.claims := by
  obtain ⟨σ,hσ,hsent⟩ := Option.map_eq_some_iff.mp resultSent_ledBack
  unfold resultSent at hsent
  split at hsent
  · rename_i page hth
    obtain ⟨th,hth,hh⟩ := Option.map_eq_some_iff.mp hth
    simp only [Bool.and_eq_true,beq_iff_eq,bne_iff_ne,List.all_eq_true] at hsent
    obtain ⟨⟨⟨⟨⟨⟨hpending,hw⟩,hb⟩,hl⟩,hlast⟩,hok⟩,hredirects⟩ := hsent
    obtain ⟨q,hq⟩ := Option.isSome_iff_exists.mp hlast
    obtain ⟨text,htext⟩ : ∃ text, labSite.renderResult page = .ok text := by
      cases hp : labSite.renderResult page with
      | ok text => exact ⟨text,rfl⟩
      | error e =>
        rw [hp] at hok
        cases hok
    have hrender : quietLab.render q.url (.result page) = ⟨200,q.url,none,text⟩ := by simp only [Lab.render,htext]
    obtain ⟨c,hstep⟩ : ∃ c, next quietLab 0 σ (.respond none) =
        some (σ.read quietLab c (some 1) ⟨200,q.url,none,text⟩ none) := by
      simp only [next,hpending,Option.bind_some,hth,hh,hq,hrender,Client.step]
      exact ⟨_,rfl⟩
    have hphase : (σ.read quietLab c (some 1) ⟨200,q.url,none,text⟩ none).call.phase =
        .returned ⟨200,q.url,none,text⟩ := by
      rw [System.read,receive_read _ _ hw rfl (Or.inl hb) hl,round_terminal _ (terminal_of_rendered htext)]
    have hall := run_snoc hσ hstep
    rcases runner_verified (Reachable.refl _) (by simp [Client.initial]) ⟨_,hall⟩ (fun x _ => not_leadsBack x.2) hphase
      (succeeds_of_rendered htext) with hother | ⟨i,uh,p,L,-,huh,hbrowser,hreceived,hrendered,-,-,-,-,haccepts⟩
    · rcases List.mem_append.mp hother with hother | hother
      · exact absurd (hredirects _ hother) (by decide : ¬ (200 : ℕ) = 302)
      · simp at hother
    · exact ⟨_,_,hall,hphase,i,uh,p,huh,hbrowser,hreceived,hrendered,haccepts⟩
  · cases hsent

end Oidc4acLab.Runner
