import Oidc4acLab.Client.Alone
import Oidc4acLab.Client.Isolation

/-! # What a browser's cookie can lead to

A state enters a session with the redirect of a login of the same browser, and a result
with a callback of the same browser. A callback that verifies its response has found its
state in its own session, so a result page belongs to a login that the browser itself was
redirected by, and a refresh that names no result to a callback of the browser.
-/
namespace Oidc4acLab.Client
open Transition Shared Thread
variable {Object : Type}

section Logins
variable [JsonObject Object]

/-- The claims that a login with this form stores. -/
def LoginForm.Accepts (form : LoginForm Object) (claims : Object) : Prop :=
  if form.omitClaims then claims = ∅ else form.parsed = some claims

def Redirects (s : Shared Object) (th : Thread Object) (L : Login Object) (page : Page Object) : Prop :=
  L ∈ s.logins ∧ ∃ form, th.request = .login form ∧ form.Accepts L.claims ∧
    page = redirectPage form L.claims L.nonce L.contextId

def PageRedirects (s : Shared Object) (th : Thread Object) : Page Object → Prop
  | .redirect p nonce scope claims prompt => ∃ L, Redirects s th L (.redirect p nonce scope claims prompt)
  | _ => True

/-- What a login knows of its form and of the context that it has stored. -/
def LoginTraced (s : Shared Object) (th : Thread Object) : Handler Object → Prop
  | .loginPrune form claims | .loginStore form claims => th.request = .login form ∧ form.Accepts claims
  | .loginRedirect form claims nonce p =>
    th.request = .login form ∧ form.Accepts claims ∧ ∃ t, (⟨p,claims,nonce,t⟩ : Login Object) ∈ s.logins
  | .responding page | .received page => PageRedirects s th page
  | _ => True

/-- One of the first `n` requests was the login, sent by this browser, and its redirect has arrived. -/
def LoggedIn (σ : State Object) (n browser : ℕ) (L : Login Object) : Prop :=
  ∃ j uh page, j < n ∧ σ.threads[j]? = some uh ∧ uh.browser = browser ∧ uh.handler = .received page ∧
    Redirects σ.shared uh L page

/-- One of the first `n` requests was a callback of this browser that stored the result, for a login
of this browser, and its response has arrived. -/
def Obtained (σ : State Object) (n browser : ℕ) (resultId : String) (L : Login Object) : Prop :=
  ∃ j uh page, j < n ∧ σ.threads[j]? = some uh ∧ uh.browser = browser ∧ uh.handler = .received page ∧
    uh.handed = some L.contextId ∧ (⟨resultId,L.contextId⟩ : Stored) ∈ σ.shared.stored ∧
    LoggedIn σ j browser L

end Logins

namespace Handler

/-- A callback has exchanged the code for this state, or shows the result of the context that it was handed. -/
def Verified (handed : Option String) (p : String) : Handler Object → Prop
  | .callbackVerify q _ _ | .callbackStore q _ _ _ | .callbackRender q _ _ _ _ => q = p
  | .responding (.result _) | .received (.result _) => handed = some p
  | _ => False

def refreshes : Handler Object → Option (Option String)
  | .refreshPrune resultId | .refreshLookup resultId => some resultId
  | .refreshExchange k _ | .refreshVerify k _ _ | .refreshWrite k _ _ _ | .refreshTouch k _ _ _
  | .refreshRender k _ _ _ => some (some k)
  | .responding (.result page) | .received (.result page) => some (some page.resultId)
  | _ => none

end Handler

/-- A step puts the state of a login into its own session and redirects, or puts the result of a callback there,
or adds nothing to the session and answers with no redirect. -/
inductive SessionStep (s : Shared Object) (th : Thread Object) (s' : Shared Object) (th' : Thread Object) : Prop
  | redirected (form : LoginForm Object) (claims : Object) (nonce contextId : String)
    (hh : th.handler = .loginRedirect form claims nonce contextId) (hs : s' = s)
    (ht : th' = (th.saveState contextId).respond (redirectPage form claims nonce contextId))
  | stored (state : String) (context : Context Object) (token : TokenResponse Object) (userinfo : Object)
    (resultId : String) (hh : th.handler = .callbackStore state context token userinfo)
    (hs : s' = s.storeResult resultId state token.refreshToken context.claims)
    (ht : th' = (th.saveResult resultId).goto (.callbackRender state context token userinfo resultId))
  | kept (hstates : ∀ p ∈ th'.session.states, p ∈ th.session.states)
    (hresult : th'.session.oidc4acResult = th.session.oidc4acResult)
    (hpage : ∀ p nonce scope claims prompt, th'.handler ≠ .responding (.redirect p nonce scope claims prompt))

theorem mem_states_clearState {th : Thread Object} {p q : String} (h : q ∈ (th.clearState p).session.states) :
    q ∈ th.session.states := by
  unfold clearState at h
  split at h
  · exact List.mem_of_mem_erase h
  · exact h

theorem renderResult_ne_redirect [JsonObject Object] {page : ResultPage Object} {p nonce : String}
    {scope : Option String} {claims : Option Object} {prompt : Option String} :
    renderResult page ≠ .redirect p nonce scope claims prompt := by
  rcases renderResult_cases page with hp | hp <;> rw [hp] <;> exact nofun

theorem session_step [JsonObject Object] {s s' : Shared Object} {th th' : Thread Object} {input : Input Object}
    (h : advance s th input = some (s',th')) : SessionStep s th s' th' := by
  unfold advance at h
  split at h
  case h_4 form claims nonce contextId hh =>
    cases h
    exact .redirected form claims nonce contextId hh rfl rfl
  case h_7 state context refreshes accessToken idToken hh =>
    split at h
    · cases h
      exact .kept (fun p hp => mem_states_clearState hp) (clearState_oidc4acResult th state) nofun
    · cases h
      exact .kept (fun p hp => hp) rfl nofun
  case h_8 state context hh =>
    cases h
    exact .kept (fun p hp => mem_states_clearState hp) (clearState_oidc4acResult th state) nofun
  case h_11 state context token userinfo resultId hh =>
    split at h
    · cases h
      exact .stored state context token userinfo resultId hh rfl rfl
    · cases h
  case h_12 =>
    cases h
    refine .kept (fun p hp => hp) rfl fun p nonce scope claims prompt hpage => ?_
    exact renderResult_ne_redirect (Handler.responding.inj hpage)
  case h_22 =>
    obtain ⟨_,_,heq⟩ := Option.map_eq_some_iff.mp h
    cases heq
    refine .kept (fun p hp => hp) rfl fun p nonce scope claims prompt hpage => ?_
    exact renderResult_ne_redirect (Handler.responding.inj hpage)
  all_goals repeat' split at h
  all_goals first
    | cases h; exact .kept (fun p hp => hp) rfl nofun
    | cases h

variable [JsonObject Object]

theorem loginTraced_mono {s s' : Shared Object} {th : Thread Object} {h : Handler Object}
    (hs : ∀ L ∈ s.logins, L ∈ s'.logins) (ht : LoginTraced s th h) : LoginTraced s' th h := by
  have hpage : ∀ page, PageRedirects s th page → PageRedirects s' th page := by
    intro page hp
    cases page with
    | redirect p nonce scope claims prompt =>
      obtain ⟨L,hL,hform⟩ := hp
      exact ⟨L,hs L hL,hform⟩
    | _ => trivial
  cases h with
  | loginRedirect form claims nonce p =>
    obtain ⟨hr,ha,t,hL⟩ := ht
    exact ⟨hr,ha,t,hs _ hL⟩
  | responding page => exact hpage page ht
  | received page => exact hpage page ht
  | loginPrune _ _ => exact ht
  | loginStore _ _ => exact ht
  | _ => trivial

theorem loginTraced_step {s s' : Shared Object} {th th' : Thread Object} {input : Input Object}
    (h : advance s th input = some (s',th')) (ht : LoginTraced s th th.handler) :
    LoginTraced s' th' th'.handler := by
  cases session_step h with
  | redirected form claims nonce contextId hh hs hth =>
    subst hs hth
    rw [hh] at ht
    obtain ⟨hr,ha,t,hL⟩ := ht
    exact ⟨_,hL,form,hr,ha,rfl⟩
  | stored _ _ _ _ _ _ _ hth => rw [hth]; trivial
  | kept _ _ hpage =>
    cases advance_cases h with
    | settled page _ hh =>
      rw [hh]
      cases page with
      | redirect p nonce scope claims prompt => exact absurd hh (hpage p nonce scope claims prompt)
      | _ => trivial
    | pruned h' hs hth hcases =>
      subst hs hth
      rcases hcases with ⟨_,_,rfl⟩ | ⟨form,claims,hh,rfl⟩ | ⟨_,_,rfl⟩
      · trivial
      · rw [hh] at ht
        exact ht
      · trivial
    | contextStored form claims nonce contextId hh _ _ _ hs hth =>
      subst hs hth
      rw [hh] at ht
      exact ⟨ht.1,ht.2,s.clock,List.mem_cons_self⟩
    | contextPopped _ _ _ _ _ _ hth => rw [hth]; trivial
    | callbackExchanged _ _ _ _ _ _ _ _ hth => rw [hth]; trivial
    | callbackValidated _ _ _ _ _ _ _ hth => rw [hth]; trivial
    | resultStored _ _ _ _ _ _ _ _ hth => rw [hth]; trivial
    | callbackRendered _ _ _ _ _ _ _ _ hth => rw [hth]; trivial
    | refreshFound _ _ _ _ _ _ hth => rw [hth]; trivial
    | refreshExchanged _ _ _ _ _ _ _ hth => rw [hth]; trivial
    | refreshValidated _ _ _ _ _ _ hth => rw [hth]; trivial
    | tokenWritten _ _ _ _ _ _ hth => rw [hth]; trivial
    | entryTouched _ _ _ _ _ _ hth => rw [hth]; trivial
    | refreshRendered _ _ _ _ _ _ _ _ _ hth => rw [hth]; trivial

theorem loginTraced_arrive (σ : State Object) (browser : ℕ) (request : Request Object) :
    LoginTraced σ.shared (arrive σ browser request) (enter (σ.jars browser) request) := by
  cases request with
  | home => trivial
  | login form =>
    simp only [enter]
    by_cases ho : form.omitClaims = true
    · rw [if_pos ho]
      exact ⟨rfl,by rw [LoginForm.Accepts,if_pos ho]⟩
    · rw [if_neg ho]
      cases hp : form.parsed with
      | none => trivial
      | some claims => exact ⟨rfl,by rw [LoginForm.Accepts,if_neg ho,hp]⟩
  | callback error errorDescription state =>
    simp only [enter]
    cases truthy error <;> trivial
  | refresh resultId => trivial

structure Extends (σ τ : State Object) : Prop where
  logins : ∀ L ∈ σ.shared.logins, L ∈ τ.shared.logins
  stored : ∀ r ∈ σ.shared.stored, r ∈ τ.shared.stored
  received : ∀ (j : ℕ) (uh : Thread Object) (page : Page Object), σ.threads[j]? = some uh →
    uh.handler = .received page → τ.threads[j]? = some uh

theorem LoggedIn.mono {σ τ : State Object} {n m browser : ℕ} {L : Login Object} (h : LoggedIn σ n browser L)
    (he : Extends σ τ) (hle : n ≤ m) : LoggedIn τ m browser L := by
  obtain ⟨j,uh,page,hj,huh,hb,hh,hL,hform⟩ := h
  exact ⟨j,uh,page,Nat.lt_of_lt_of_le hj hle,he.received j uh page huh hh,hb,hh,he.logins L hL,hform⟩

theorem Obtained.mono {σ τ : State Object} {n m browser : ℕ} {k : String} {L : Login Object}
    (h : Obtained σ n browser k L) (he : Extends σ τ) (hle : n ≤ m) : Obtained τ m browser k L := by
  obtain ⟨j,uh,page,hj,huh,hb,hh,hown,hk,hL⟩ := h
  exact ⟨j,uh,page,Nat.lt_of_lt_of_le hj hle,he.received j uh page huh hh,hb,hh,hown,he.stored _ hk,
    hL.mono he (Nat.le_refl j)⟩

omit [JsonObject Object] in
theorem Extends.refl (σ : State Object) : Extends σ σ := ⟨fun _ h => h,fun _ h => h,fun _ _ _ h _ => h⟩

theorem advance_shows {s : Shared Object} {th : Thread Object} {input : Input Object} {page : Page Object}
    (h : th.Shows page) : advance s th input = none := by
  rcases h with h | h
  all_goals cases input <;> simp only [advance,h]

theorem extends_step {σ τ : State Object} {l : Label Object} (hσ : Isolated σ) (he : step σ l = some τ) :
    Extends σ τ := by
  cases l with
  | advance i input =>
    cases hth : σ.threads[i]? with
    | none => simp [step,hth] at he
    | some th =>
      obtain ⟨s',th',ha,rfl⟩ := advance_of_step he hth
      have hkeep := ((advance_cases ha).outcome hσ.linked (hσ.traced i th hth)).keeps
      refine ⟨hkeep.logins,fun r hr => hkeep.mem_stored hr,?_⟩
      intro j uh page huh hh
      have hne : i ≠ j := by
        rintro rfl
        rw [hth] at huh
        cases huh
        rw [advance_shows (Or.inr hh)] at ha
        cases ha
      rw [List.getElem?_set_ne hne,huh]
  | receive i =>
    cases step_cases he with
    | received _ th page hl hth hh ht =>
      cases hl
      subst ht
      refine ⟨fun _ h => h,fun _ h => h,?_⟩
      intro j uh page' huh hh'
      have hne : i ≠ j := by
        rintro rfl
        rw [hth] at huh
        cases huh
        rw [hh] at hh'
        cases hh'
      rw [List.getElem?_set_ne hne,huh]
    | ticked _ hl => cases hl
    | sent _ _ hl => cases hl
    | advanced _ _ _ _ _ hl => cases hl
  | tick now =>
    cases step_cases he with
    | ticked _ _ _ ht => exact ht ▸ ⟨fun _ h => h,fun _ h => h,fun _ _ _ h _ => h⟩
    | sent _ _ hl => cases hl
    | advanced _ _ _ _ _ hl => cases hl
    | received _ _ _ hl => cases hl
  | send browser request =>
    cases he
    exact ⟨fun _ h => h,fun _ h => h,fun _ _ _ h _ => getElem?_append_of_some h⟩

/-- The `i`-th request has its states, its result and what it verified from its own browser. -/
structure Own (σ : State Object) (i : ℕ) (th : Thread Object) : Prop where
  login : LoginTraced σ.shared th th.handler
  states : ∀ p ∈ th.session.states, (∃ L, L.contextId = p ∧ LoggedIn σ i th.browser L) ∨
    ∃ nonce scope claims prompt, th.Shows (.redirect p nonce scope claims prompt)
  verified : ∀ p, th.handler.Verified th.handed p → ∃ L, L.contextId = p ∧ LoggedIn σ i th.browser L
  result : ∀ k, th.session.oidc4acResult = some k → ∃ L, Obtained σ i th.browser k L ∨
    th.handed = some L.contextId ∧ (⟨k,L.contextId⟩ : Stored) ∈ σ.shared.stored ∧ LoggedIn σ i th.browser L
  unnamed : ∀ named, th.request = .refresh named → truthy named = none →
    ∀ k, th.handler.refreshes = some k → k = th.session.oidc4acResult

structure OwnCookies (σ : State Object) : Prop where
  isolated : Isolated σ
  threads : ∀ (i : ℕ) (th : Thread Object), σ.threads[i]? = some th → Own σ i th
  states : ∀ browser, ∀ p ∈ (σ.jars browser).states, ∃ L, L.contextId = p ∧ LoggedIn σ σ.threads.length browser L
  result : ∀ browser k, (σ.jars browser).oidc4acResult = some k → ∃ L, Obtained σ σ.threads.length browser k L

theorem ownCookies_initial (start : ℤ) : OwnCookies (initial start : State Object) where
  isolated := isolated_initial start
  threads := by intro i th h; cases h
  states := by intro browser p hp; cases hp
  result := by intro browser k hk; cases hk

theorem Own.mono {σ τ : State Object} {i : ℕ} {th : Thread Object} (h : Own σ i th) (he : Extends σ τ) :
    Own τ i th where
  login := loginTraced_mono he.logins h.login
  states := fun p hp => (h.states p hp).imp_left fun ⟨L,hp,hL⟩ => ⟨L,hp,hL.mono he (Nat.le_refl i)⟩
  verified := fun p hp => (h.verified p hp).imp fun _ hL => ⟨hL.1,hL.2.mono he (Nat.le_refl i)⟩
  result := by
    intro k hk
    obtain ⟨L,hL | ⟨hown,hs,hL⟩⟩ := h.result k hk
    · exact ⟨L,Or.inl (hL.mono he (Nat.le_refl i))⟩
    · exact ⟨L,Or.inr ⟨hown,he.stored _ hs,hL.mono he (Nat.le_refl i)⟩⟩
  unnamed := h.unnamed

omit [JsonObject Object] in
theorem not_refresh_of_handed {s : Shared Object} {th : Thread Object} {p : String} (ht : Traced s th)
    (hp : th.handed = some p) (named : Option String) : th.request ≠ .refresh named := by
  obtain ⟨error,description,hr⟩ := ht.handedRequest p hp
  rw [hr]
  nofun

theorem Own.verified_advance {σ : State Object} {i : ℕ} {th th' : Thread Object} {s' : Shared Object}
    {input : Input Object} (h : Own σ i th) (ht : Traced σ.shared th)
    (ha : advance σ.shared th input = some (s',th')) {p : String} (hp : th'.handler.Verified th'.handed p) :
    ∃ L, L.contextId = p ∧ LoggedIn σ i th.browser L := by
  have hh := ht.handler
  have hv := h.verified p
  cases advance_cases ha with
  | callbackExchanged state context _ _ _ _ hin _ hth =>
    subst hth
    obtain rfl : state = p := hp
    rcases h.states state hin with hL | ⟨_,_,_,_,hs⟩
    · exact hL
    · rw [advance_shows hs] at ha
      cases ha
  | callbackValidated state _ _ _ hk _ _ hth =>
    subst hth
    rw [hk] at hv
    exact hv hp
  | resultStored state _ _ _ _ hk _ _ hth =>
    subst hth
    rw [hk] at hv
    exact hv hp
  | callbackRendered state _ _ _ _ _ hk _ hth =>
    subst hth
    rw [hk] at hh hv
    exact hv (Option.some.inj (hh.1.handed.symm.trans hp))
  | refreshRendered _ _ _ _ _ _ hk _ _ hth =>
    subst hth
    rw [hk] at hh
    obtain ⟨⟨named,hr,_⟩,_⟩ := hh
    exact absurd hr (not_refresh_of_handed ht hp named)
  | settled page _ hk _ _ hplain =>
    rw [hk] at hp
    cases page with
    | result page => exact hplain.elim
    | _ => exact hp.elim
  | pruned _ _ hth hcases =>
    subst hth
    rcases hcases with ⟨_,_,rfl⟩ | ⟨_,_,_,rfl⟩ | ⟨_,_,rfl⟩
    all_goals exact hp.elim
  | contextStored _ _ _ _ _ _ _ _ _ hth => rw [hth] at hp; exact hp.elim
  | contextPopped _ _ _ _ _ _ hth => rw [hth] at hp; exact hp.elim
  | refreshFound _ _ _ _ _ _ hth => rw [hth] at hp; exact hp.elim
  | refreshExchanged _ _ _ _ _ _ _ hth => rw [hth] at hp; exact hp.elim
  | refreshValidated _ _ _ _ _ _ hth => rw [hth] at hp; exact hp.elim
  | tokenWritten _ _ _ _ _ _ hth => rw [hth] at hp; exact hp.elim
  | entryTouched _ _ _ _ _ _ hth => rw [hth] at hp; exact hp.elim

theorem Own.unnamed_advance {σ : State Object} {i : ℕ} {th th' : Thread Object} {s' : Shared Object}
    {input : Input Object} (h : Own σ i th) (ht : Traced σ.shared th)
    (ha : advance σ.shared th input = some (s',th')) {named : Option String} (hr : th.request = .refresh named)
    (hn : truthy named = none) {k : Option String} (hk : th'.handler.refreshes = some k) :
    k = th.session.oidc4acResult := by
  have hu := h.unnamed named hr hn k
  have hh := ht.handler
  cases advance_cases ha with
  | refreshFound _ _ hk' _ _ _ hth =>
    subst hth
    rw [hk'] at hu
    exact hu hk
  | refreshExchanged _ _ _ _ _ hk' _ hth =>
    subst hth
    rw [hk'] at hu
    exact hu hk
  | refreshValidated _ _ _ _ hk' _ hth =>
    subst hth
    rw [hk'] at hu
    exact hu hk
  | tokenWritten _ _ _ _ hk' _ hth =>
    subst hth
    rw [hk'] at hu
    exact hu hk
  | entryTouched _ _ _ _ hk' _ hth =>
    subst hth
    rw [hk'] at hu
    exact hu hk
  | refreshRendered _ _ _ _ _ _ hk' _ _ hth =>
    subst hth
    rw [hk'] at hu
    exact hu hk
  | pruned _ _ hth hcases =>
    subst hth
    rcases hcases with ⟨_,_,rfl⟩ | ⟨_,_,_,rfl⟩ | ⟨_,hk',rfl⟩
    · cases hk
    · cases hk
    · rw [hk'] at hu
      exact hu hk
  | settled page _ hk' _ _ hplain =>
    rw [hk'] at hk
    cases page with
    | result page => exact hplain.elim
    | _ => cases hk
  | callbackRendered _ _ _ _ _ _ hk' _ _ =>
    rw [hk'] at hh
    obtain ⟨_,_,hcallback⟩ := hh.1.request
    rw [hr] at hcallback
    cases hcallback
  | contextStored _ _ _ _ _ _ _ _ _ hth => rw [hth] at hk; cases hk
  | contextPopped _ _ _ _ _ _ hth => rw [hth] at hk; cases hk
  | callbackExchanged _ _ _ _ _ _ _ _ hth => rw [hth] at hk; cases hk
  | callbackValidated _ _ _ _ _ _ _ hth => rw [hth] at hk; cases hk
  | resultStored _ _ _ _ _ _ _ _ hth => rw [hth] at hk; cases hk

theorem Own.advance {σ τ : State Object} {i : ℕ} {th th' : Thread Object} {input : Input Object}
    (h : Own σ i th) (hσ : Isolated σ) (hth : σ.threads[i]? = some th) (he : Extends σ τ)
    (ha : Client.advance σ.shared th input = some (τ.shared,th')) : Own τ i th' := by
  have ht := hσ.traced i th hth
  have hf := advance_cases ha
  have ho := hf.outcome hσ.linked ht
  have hb : th'.browser = th.browser := hf.sameRequest.browser
  have hmove : ∀ L, LoggedIn σ i th.browser L → LoggedIn τ i th'.browser L := by
    intro L hL
    rw [hb]
    exact hL.mono he (Nat.le_refl i)
  refine ⟨loginTraced_step ha h.login,?_,?_,?_,?_⟩
  · intro p hp
    have hold : p ∈ th.session.states → ∃ L, L.contextId = p ∧ LoggedIn τ i th'.browser L := by
      intro hin
      rcases h.states p hin with ⟨L,hp,hL⟩ | ⟨_,_,_,_,hs⟩
      · exact ⟨L,hp,hmove L hL⟩
      · rw [advance_shows hs] at ha
        cases ha
    cases session_step ha with
    | redirected form claims nonce contextId _ _ hth' =>
      subst hth'
      rcases List.mem_cons.mp hp with rfl | hin
      · exact Or.inr ⟨_,_,_,_,Or.inl rfl⟩
      · exact Or.inl (hold hin)
    | stored _ _ _ _ _ _ _ hth' =>
      subst hth'
      exact Or.inl (hold hp)
    | kept hstates _ _ => exact Or.inl (hold (hstates p hp))
  · intro p hp
    obtain ⟨L,hLp,hL⟩ := h.verified_advance ht ha hp
    exact ⟨L,hLp,hmove L hL⟩
  · intro k hk
    have hold : th.session.oidc4acResult = some k → ∃ L, Obtained τ i th'.browser k L ∨
        th'.handed = some L.contextId ∧ (⟨k,L.contextId⟩ : Stored) ∈ τ.shared.stored ∧
          LoggedIn τ i th'.browser L := by
      intro hin
      obtain ⟨L,hL | ⟨hown,hs,hL⟩⟩ := h.result k hin
      · rw [hb]
        exact ⟨L,Or.inl (hL.mono he (Nat.le_refl i))⟩
      · exact ⟨L,Or.inr ⟨ho.handed_mono ht hown,he.stored _ hs,hmove L hL⟩⟩
    cases session_step ha with
    | redirected _ _ _ _ _ _ hth' =>
      subst hth'
      exact hold hk
    | stored state context token userinfo resultId hh hs hth' =>
      subst hth'
      cases hk
      obtain ⟨L,hLp,hL⟩ := h.verified state (by rw [hh]; rfl)
      have hg := ht.handler
      rw [hh] at hg
      refine ⟨L,Or.inr ⟨?_,?_,hmove L hL⟩⟩
      · rw [hLp]
        exact hg.1.1.handed
      · rw [hLp,hs]
        exact List.mem_append_right _ List.mem_cons_self
    | kept _ hresult _ =>
      rw [hresult] at hk
      exact hold hk
  · intro named hr hn k hk
    rw [hf.sameRequest.request] at hr
    have hsame : th'.session.oidc4acResult = th.session.oidc4acResult := by
      cases session_step ha with
      | redirected _ _ _ _ _ _ hth' => rw [hth']; rfl
      | stored _ _ _ _ _ hh _ _ =>
        have hg := ht.handler
        rw [hh] at hg
        exact absurd hr (not_refresh_of_handed ht hg.1.1.handed named)
      | kept _ hresult _ => exact hresult
    rw [hsame]
    exact h.unnamed_advance ht ha hr hn hk

theorem Own.received {σ τ : State Object} {i : ℕ} {th : Thread Object} {page : Page Object} (h : Own σ i th)
    (he : Extends σ τ) (hh : th.handler = .responding page) : Own τ i (th.goto (.received page)) := by
  have hτ := h.mono he
  refine ⟨?_,?_,?_,hτ.result,?_⟩
  · have hl := hτ.login
    rw [hh] at hl
    cases page <;> exact hl
  · intro p hp
    refine (hτ.states p hp).imp_right fun ⟨nonce,scope,claims,prompt,hs⟩ => ⟨nonce,scope,claims,prompt,Or.inr ?_⟩
    rcases hs with hs | hs
    · rw [hh] at hs
      exact congrArg Handler.received (Handler.responding.inj hs)
    · rw [hh] at hs
      cases hs
  · intro p hp
    refine hτ.verified p ?_
    rw [hh]
    cases page with
    | result page => exact hp
    | _ => exact hp.elim
  · intro named hr hn k hk
    refine hτ.unnamed named hr hn k ?_
    rw [hh]
    cases page with
    | result page => exact hk
    | _ => cases hk

theorem own_arrive {σ τ : State Object} (h : OwnCookies σ) (he : Extends σ τ) (browser : ℕ)
    (request : Request Object) : Own τ σ.threads.length (arrive σ browser request) where
  login := loginTraced_mono he.logins (loginTraced_arrive σ browser request)
  states := by
    intro p hp
    obtain ⟨L,hLp,hL⟩ := h.states browser p hp
    exact Or.inl ⟨L,hLp,hL.mono he (Nat.le_refl _)⟩
  verified := by
    intro p hp
    have hnone : ¬ (enter (σ.jars browser) request).Verified none p := by
      cases request with
      | login form =>
        simp only [enter]
        split
        · exact not_false
        · split <;> exact not_false
      | callback error errorDescription state =>
        simp only [enter]
        split <;> exact not_false
      | _ => exact not_false
    exact absurd hp hnone
  result := by
    intro k hk
    obtain ⟨L,hL⟩ := h.result browser k hk
    exact ⟨L,Or.inl (hL.mono he (Nat.le_refl _))⟩
  unnamed := by
    intro named hr hn k hk
    obtain rfl : request = .refresh named := hr
    have hk' : some ((truthy named).or (σ.jars browser).oidc4acResult) = some k := hk
    rw [hn] at hk'
    exact (Option.some.inj hk').symm

/-- The cookie that an answered request sets comes from that request, now among the answered ones. -/
theorem Own.cookie {τ : State Object} {i : ℕ} {th : Thread Object} {page : Page Object} (h : Own τ i th)
    (hth : τ.threads[i]? = some th) (hh : th.handler = .received page) :
    (∀ p ∈ th.session.states, ∃ L, L.contextId = p ∧ LoggedIn τ τ.threads.length th.browser L) ∧
      ∀ k, th.session.oidc4acResult = some k → ∃ L, Obtained τ τ.threads.length th.browser k L := by
  have hlt : i < τ.threads.length := (List.getElem?_eq_some_iff.mp hth).1
  have hx := Extends.refl τ
  constructor
  · intro p hp
    rcases h.states p hp with ⟨L,hLp,hL⟩ | ⟨nonce,scope,claims,prompt,hs | hs⟩
    · exact ⟨L,hLp,hL.mono hx (Nat.le_of_lt hlt)⟩
    · rw [hh] at hs
      cases hs
    · have hl := h.login
      rw [hs] at hl
      obtain ⟨L,hL,form,hr,ha,hpage⟩ := hl
      have hp' : p = L.contextId := (Page.redirect.inj hpage).1
      exact ⟨L,hp'.symm,i,th,_,hlt,hth,rfl,hs,hL,form,hr,ha,hpage⟩
  · intro k hk
    obtain ⟨L,hL | ⟨hown,hs,hL⟩⟩ := h.result k hk
    · exact ⟨L,hL.mono hx (Nat.le_of_lt hlt)⟩
    · exact ⟨L,i,th,page,hlt,hth,rfl,hh,hown,hs,hL⟩

theorem OwnCookies.step {σ τ : State Object} {l : Label Object} (h : OwnCookies σ) (he : step σ l = some τ) :
    OwnCookies τ := by
  have hx := extends_step h.isolated he
  have hjars : ∀ {n : ℕ}, σ.threads.length ≤ n →
      (∀ browser, ∀ p ∈ (σ.jars browser).states, ∃ L, L.contextId = p ∧ LoggedIn τ n browser L) ∧
        ∀ browser k, (σ.jars browser).oidc4acResult = some k → ∃ L, Obtained τ n browser k L := by
    intro n hle
    exact ⟨fun browser p hp => (h.states browser p hp).imp fun _ hL => ⟨hL.1,hL.2.mono hx hle⟩,
      fun browser k hk => (h.result browser k hk).imp fun _ hL => hL.mono hx hle⟩
  have hiso := h.isolated.step he
  cases l with
  | tick now =>
    cases step_cases he with
    | ticked _ _ _ ht =>
      subst ht
      exact ⟨hiso,fun i th hth => (h.threads i th hth).mono hx,(hjars (Nat.le_refl _)).1,(hjars (Nat.le_refl _)).2⟩
    | sent _ _ hl => cases hl
    | advanced _ _ _ _ _ hl => cases hl
    | received _ _ _ hl => cases hl
  | send browser request =>
    cases he
    have hle : σ.threads.length ≤ (σ.threads ++ [arrive σ browser request]).length := by simp
    exact ⟨hiso,forall_append (fun i th hth => (h.threads i th hth).mono hx) (own_arrive h hx browser request),
      (hjars hle).1,(hjars hle).2⟩
  | advance i input =>
    cases hth : σ.threads[i]? with
    | none => simp [Client.step,hth] at he
    | some th =>
      obtain ⟨s',th',ha,ht⟩ := advance_of_step he hth
      have hown : Own τ i th' := (h.threads i th hth).advance h.isolated hth hx (by rw [ht]; exact ha)
      have hle : σ.threads.length ≤ τ.threads.length := by rw [ht]; simp
      have hj := hjars hle
      subst ht
      exact ⟨hiso,forall_set h.threads hown fun _ _ _ _ hj => hj.mono hx,hj.1,hj.2⟩
  | receive i =>
    cases step_cases he with
    | received k th page hl hth hh ht =>
      cases hl
      have hown : Own τ i (th.goto (.received page)) := (h.threads i th hth).received hx hh
      have hthr : τ.threads[i]? = some (th.goto (.received page)) := by
        rw [ht]
        exact getElem?_set_of_some hth
      have hcookie := hown.cookie hthr rfl
      have hle : σ.threads.length ≤ τ.threads.length := by rw [ht]; simp
      have hj := hjars hle
      have hcase : ∀ browser, τ.jars browser = σ.jars browser ∨ browser = th.browser ∧ τ.jars browser = th.session := by
        intro browser
        rw [ht]
        by_cases hm : th.modified = true
        · by_cases hb : browser = th.browser
          · right
            simp [hm,hb]
          · left
            simp [hm,Function.update_of_ne hb]
        · left
          simp [hm]
      refine ⟨hiso,?_,?_,?_⟩
      · rw [ht]
        rw [ht] at hown hx
        exact forall_set h.threads hown fun _ _ _ _ hj => hj.mono hx
      · intro browser p hp
        rcases hcase browser with he | ⟨rfl,he⟩
        · exact hj.1 browser p (he ▸ hp)
        · rw [he] at hp
          exact hcookie.1 p hp
      · intro browser k hk
        rcases hcase browser with he | ⟨rfl,he⟩
        · exact hj.2 browser k (he ▸ hk)
        · rw [he] at hk
          exact hcookie.2 k hk
    | ticked _ hl => cases hl
    | sent _ _ hl => cases hl
    | advanced _ _ _ _ _ hl => cases hl

theorem ownCookies_reachable {start : ℤ} {σ : State Object} (h : Reachable step (initial start) σ) :
    OwnCookies σ := h.invariant OwnCookies.step (ownCookies_initial start)

omit [JsonObject Object] in
theorem Linked.context_of_result {s : Shared Object} (h : Linked s) {k p q : String}
    (hp : (⟨k,p⟩ : Stored) ∈ s.stored) (hq : (⟨k,q⟩ : Stored) ∈ s.stored) : p = q := by
  have he := List.inj_on_of_nodup_map h.resultsDistinct hp hq rfl
  exact congrArg Stored.contextId he

theorem LoggedIn.login {σ : State Object} {n browser : ℕ} {L : Login Object} (h : LoggedIn σ n browser L) :
    L ∈ σ.shared.logins := by
  obtain ⟨_,_,_,_,_,_,_,hL,_⟩ := h
  exact hL

theorem OwnCookies.callback_shown {σ : State Object} (h : OwnCookies σ) {i : ℕ} {th : Thread Object}
    {page : ResultPage Object} {error description state : Option String} (hth : σ.threads[i]? = some th)
    (hp : th.Shows (.result page)) (hr : th.request = .callback error description state) :
    ∃ L, state = some L.contextId ∧ LoggedIn σ i th.browser L ∧ OnlyLogin σ.shared L.contextId L ∧
      page.claims = L.claims ∧ page.idToken.nonce = some L.nonce := by
  obtain ⟨L,hs,hown,hL,hclaims,hnonce⟩ := callback_page h.isolated hth hp hr
  have hv : th.handler.Verified th.handed L.contextId := by
    rw [hown,hs]
    rcases hp with hp | hp
    all_goals rw [hp]; exact rfl
  obtain ⟨M,hM,hlogged⟩ := (h.threads i th hth).verified _ hv
  have hmem : L ∈ σ.shared.logins := by
    have hin : L ∈ σ.shared.logins.filter (fun M => M.contextId == L.contextId) := by
      rw [hL]
      exact List.mem_cons_self
    exact List.mem_of_mem_filter hin
  obtain rfl := h.isolated.linked.login_unique hmem hlogged.login hM.symm
  exact ⟨L,hs,hlogged,hL,hclaims,hnonce⟩

/-- A callback shows a result only for a login of its own browser, whose redirect the browser had
received before it sent the callback. -/
theorem callback_in_own_browser {start : ℤ} {σ : State Object} (hσ : Reachable step (initial start) σ) {i : ℕ}
    {th : Thread Object} {page : ResultPage Object} {error description state : Option String}
    (hth : σ.threads[i]? = some th) (hp : th.Shows (.result page))
    (hr : th.request = .callback error description state) :
    ∃ L, state = some L.contextId ∧ LoggedIn σ i th.browser L ∧ OnlyLogin σ.shared L.contextId L ∧
      page.claims = L.claims ∧ page.idToken.nonce = some L.nonce := by
  exact (ownCookies_reachable hσ).callback_shown hth hp hr

/-- A refresh that names no result shows one that an answered callback of its own browser stored, with
the claims of a login of that browser. -/
theorem refresh_in_own_browser {start : ℤ} {σ : State Object} (hσ : Reachable step (initial start) σ) {i : ℕ}
    {th : Thread Object} {page : ResultPage Object} {named : Option String} (hth : σ.threads[i]? = some th)
    (hp : th.Shows (.result page)) (hr : th.request = .refresh named) (hn : truthy named = none) :
    ∃ L, Obtained σ i th.browser page.resultId L ∧ OnlyLogin σ.shared L.contextId L ∧ page.claims = L.claims := by
  have h := ownCookies_reachable hσ
  have hlinked := h.isolated.linked
  have htr := h.isolated.traced i th hth
  have hk : th.handler.refreshes = some (some page.resultId) := by
    rcases hp with hp | hp
    all_goals rw [hp]; rfl
  have hsession := (h.threads i th hth).unnamed named hr hn _ hk
  obtain ⟨L,hL | ⟨hown,_⟩⟩ := (h.threads i th hth).result _ hsession.symm
  · rcases htr.page hp with ⟨M,hg,_⟩ | ⟨_,M,hM,hclaims,hs⟩
    · exact absurd hr (not_refresh_of_handed htr hg.handed named)
    · obtain ⟨j,uh,answer,hj,huh,hb,hh,hown,hstored,hlogged⟩ := hL
      obtain rfl := hlinked.login_unique hM hlogged.login (hlinked.context_of_result hs hstored)
      exact ⟨M,⟨j,uh,answer,hj,huh,hb,hh,hown,hstored,hlogged⟩,hlinked.onlyLogin hM,hclaims⟩
  · exact absurd hr (not_refresh_of_handed htr hown named)

/-- A browser logs in and refreshes the result in its session. Another browser sends its state in between. -/
def refreshedTab : List (Label (List ℕ)) :=
  [.send 0 (.login (formOf [1])),.advance 0 .proceed,.advance 0 (.drawLogin "n" "s"),.advance 0 .proceed,
    .receive 0,.send 0 (.callback none none (some "s")),.advance 1 .proceed,
    .advance 1 (.tokens true none ⟨some "n",[]⟩),.advance 1 (.validated []),.advance 1 (.drawResult "r"),
    .advance 1 (.discovered []),.receive 1,.send 1 (.callback none none (some "s")),.advance 2 .proceed,
    .send 0 (.refresh none),.advance 3 .proceed,.advance 3 .proceed,.advance 3 (.tokens true none ⟨none,[]⟩),
    .advance 3 (.validated []),.advance 3 .proceed,.advance 3 .proceed,.advance 3 (.discovered [])]

theorem own_callback_shown :
    ∃ σ th page, run step (initial 0) refreshedTab = some σ ∧ σ.threads[1]? = some th ∧
      th.Shows (.result page) ∧ ∃ L, some "s" = some L.contextId ∧ LoggedIn σ 1 th.browser L := by
  have hrun : ∃ σ th page, run step (initial 0) refreshedTab = some σ ∧ σ.threads[1]? = some th ∧
      th.handler = .received (.result page) ∧ th.request = .callback none none (some "s") :=
    ⟨_,_,_,rfl,rfl,rfl,rfl⟩
  obtain ⟨σ,th,page,hσ,hth,hh,hq⟩ := hrun
  obtain ⟨L,hs,hL,_⟩ := callback_in_own_browser ⟨refreshedTab,hσ⟩ hth (Or.inr hh) hq
  exact ⟨σ,th,page,hσ,hth,Or.inr hh,L,hs,hL⟩

theorem own_refresh_shown :
    ∃ σ th page, run step (initial 0) refreshedTab = some σ ∧ σ.threads[3]? = some th ∧
      th.Shows (.result page) ∧ ∃ L, Obtained σ 3 th.browser page.resultId L ∧ page.claims = L.claims := by
  have hrun : ∃ σ th page, run step (initial 0) refreshedTab = some σ ∧ σ.threads[3]? = some th ∧
      th.handler = .responding (.result page) ∧ th.request = .refresh none := ⟨_,_,_,rfl,rfl,rfl,rfl⟩
  obtain ⟨σ,th,page,hσ,hth,hh,hq⟩ := hrun
  obtain ⟨L,hL,_,hclaims⟩ := refresh_in_own_browser ⟨refreshedTab,hσ⟩ hth (Or.inl hh) hq rfl
  exact ⟨σ,th,page,hσ,hth,Or.inl hh,L,hL,hclaims⟩

end Oidc4acLab.Client
