import Oidc4acLab.Client.Model

/-! # Every transition of a handler, once

The inversion lemma lists what one step of one handler can do. Steps that only
answer with a page other than a result are one case; every other case keeps the
exact states before and after it.
-/
namespace Oidc4acLab.Client
open Transition Shared Thread
variable {Object : Type}

/-- What a step never changes about a request. -/
structure SameRequest (th th' : Thread Object) : Prop where
  browser : th'.browser = th.browser
  request : th'.request = th.request
  startedAt : th'.startedAt = th.startedAt

theorem sameRequest_clearState (th : Thread Object) (state : String) (h : Handler Object) :
    SameRequest th ((th.clearState state).goto h) := by
  unfold Thread.clearState
  split <;> exact ⟨rfl,rfl,rfl⟩

@[simp] theorem clearState_handed (th : Thread Object) (state : String) :
    (th.clearState state).handed = th.handed := by
  unfold Thread.clearState
  split <;> rfl

@[simp] theorem clearState_request (th : Thread Object) (state : String) :
    (th.clearState state).request = th.request := by
  unfold Thread.clearState
  split <;> rfl

def Page.Plain : Page Object → Prop
  | .result _ => False
  | _ => True

inductive Effect (s : Shared Object) (th : Thread Object) (s' : Shared Object) (th' : Thread Object) : Prop
  | settled (page : Page Object) (hs : s' = s) (hh : th'.handler = .responding page)
      (hk : th'.handed = th.handed) (hf : SameRequest th th') (hp : page.Plain)
  | pruned (h' : Handler Object) (hs : s' = s.pruneCaches) (ht : th' = th.goto h')
      (hh : (∃ status, th.handler = .homePrune status ∧ h' = .responding (.workbench status)) ∨
        (∃ form claims, th.handler = .loginPrune form claims ∧ h' = .loginStore form claims) ∨
        ∃ resultId, th.handler = .refreshPrune resultId ∧ h' = .refreshLookup resultId)
  | contextStored (form : LoginForm Object) (claims : Object) (nonce contextId : String)
      (hh : th.handler = .loginStore form claims) (hn : s.Fresh nonce) (hc : s.Fresh contextId)
      (hne : nonce ≠ contextId) (hs : s' = s.storeContext contextId nonce claims)
      (ht : th' = th.goto (.loginRedirect form claims nonce contextId))
  | contextPopped (state : String) (context : Context Object)
      (hh : th.handler = .callbackPop (some state)) (hne : state ≠ "")
      (hc : s.authorizationCache state = some context) (hs : s' = s.popContext state)
      (ht : th' = { th with handed := some state, handler := .callbackExchange state context })
  | callbackExchanged (state : String) (context : Context Object) (refreshes : Bool)
      (accessToken : Option String) (idToken : IdToken Object)
      (hh : th.handler = .callbackExchange state context) (hin : state ∈ th.session.states)
      (hs : s' = s.issueToken refreshes)
      (ht : th' = (th.clearState state).goto
        (.callbackVerify state context (receivedToken s refreshes accessToken idToken)))
  | callbackValidated (state : String) (context : Context Object) (token : TokenResponse Object)
      (userinfo : Object) (hh : th.handler = .callbackVerify state context token)
      (hn : token.idToken.nonce = some context.nonce) (hs : s' = s)
      (ht : th' = th.goto (.callbackStore state context token userinfo))
  | resultStored (state : String) (context : Context Object) (token : TokenResponse Object)
      (userinfo : Object) (resultId : String)
      (hh : th.handler = .callbackStore state context token userinfo) (hf : s.Fresh resultId)
      (hs : s' = s.storeResult resultId state token.refreshToken context.claims)
      (ht : th' = (th.saveResult resultId).goto (.callbackRender state context token userinfo resultId))
  | callbackRendered (state : String) (context : Context Object) (token : TokenResponse Object)
      (userinfo : Object) (resultId : String) (discovery : Object)
      (hh : th.handler = .callbackRender state context token userinfo resultId) (hs : s' = s)
      (ht : th' = th.respond
        (.result (resultPage context.claims token userinfo "Authorization code response" resultId discovery)))
  | refreshFound (resultId : String) (cached : ℕ) (hh : th.handler = .refreshLookup (some resultId))
      (hc : s.tokenCache resultId = some cached)
      (ht' : ((s.entries[cached]?).bind Entry.refreshToken).isSome = true) (hs : s' = s)
      (ht : th' = th.goto (.refreshExchange resultId cached))
  | refreshExchanged (resultId : String) (cached : ℕ) (refreshes : Bool)
      (accessToken : Option String) (idToken : IdToken Object)
      (hh : th.handler = .refreshExchange resultId cached) (hs : s' = s.issueToken refreshes)
      (ht : th' = th.goto
        (.refreshVerify resultId cached (receivedToken s refreshes accessToken idToken)))
  | refreshValidated (resultId : String) (cached : ℕ) (token : TokenResponse Object) (userinfo : Object)
      (hh : th.handler = .refreshVerify resultId cached token) (hs : s' = s)
      (ht : th' = th.goto (.refreshWrite resultId cached token userinfo))
  | tokenWritten (resultId : String) (cached : ℕ) (token : TokenResponse Object) (userinfo : Object)
      (hh : th.handler = .refreshWrite resultId cached token userinfo)
      (hs : s' = s.writeToken cached token.refreshToken)
      (ht : th' = th.goto (.refreshTouch resultId cached token userinfo))
  | entryTouched (resultId : String) (cached : ℕ) (token : TokenResponse Object) (userinfo : Object)
      (hh : th.handler = .refreshTouch resultId cached token userinfo) (hs : s' = s.touchEntry cached)
      (ht : th' = th.goto (.refreshRender resultId cached token userinfo))
  | refreshRendered (resultId : String) (cached : ℕ) (token : TokenResponse Object) (userinfo : Object)
      (e : Entry Object) (discovery : Object)
      (hh : th.handler = .refreshRender resultId cached token userinfo)
      (he : s.entries[cached]? = some e) (hs : s' = s)
      (ht : th' = th.respond
        (.result (resultPage e.claims token userinfo "Refresh token response" resultId discovery)))

theorem truthy_eq_some {value : Option String} {v : String} (h : truthy value = some v) :
    value = some v ∧ v ≠ "" := by
  obtain ⟨hv,hne⟩ := Option.filter_eq_some_iff.mp h
  exact ⟨hv,by simpa using hne⟩

theorem renderResult_cases [JsonObject Object] (page : ResultPage Object) :
    renderResult page = .result page ∨ renderResult page = .internalServerError := by
  unfold renderResult
  split
  · exact Or.inl rfl
  · exact Or.inr rfl

theorem advance_cases [JsonObject Object] {s s' : Shared Object} {th th' : Thread Object} {input : Input Object}
    (h : advance s th input = some (s',th')) : Effect s th s' th' := by
  unfold advance at h
  split at h
  · rename_i status hh
    cases h
    exact .pruned _ rfl rfl (Or.inl ⟨status,hh,rfl⟩)
  · rename_i form claims hh
    cases h
    exact .pruned _ rfl rfl (Or.inr (Or.inl ⟨form,claims,hh,rfl⟩))
  · rename_i form claims nonce contextId hh
    split at h
    · rename_i hf
      cases h
      exact .contextStored form claims nonce contextId hh hf.1 hf.2.1 hf.2.2 rfl rfl
    · cases h
  · cases h
    exact .settled _ rfl rfl rfl ⟨rfl,rfl,rfl⟩ trivial
  · cases h
    exact .settled _ rfl rfl rfl ⟨rfl,rfl,rfl⟩ trivial
  · rename_i state hh
    split at h
    · cases h
      exact .settled _ rfl rfl rfl ⟨rfl,rfl,rfl⟩ trivial
    · rename_i k hk
      obtain ⟨rfl,hne⟩ := truthy_eq_some hk
      split at h
      · cases h
        exact .settled _ rfl rfl rfl ⟨rfl,rfl,rfl⟩ trivial
      · rename_i context hc
        cases h
        exact .contextPopped k context hh hne hc rfl rfl
  · rename_i state context refreshes accessToken idToken hh
    split at h
    · rename_i hin
      cases h
      exact .callbackExchanged state context refreshes accessToken idToken hh hin rfl rfl
    · cases h
      exact .settled _ rfl rfl rfl ⟨rfl,rfl,rfl⟩ trivial
  · cases h
    exact .settled _ rfl rfl (by simp [respond,goto]) (sameRequest_clearState ..) trivial
  · rename_i state context token userinfo hh
    split at h
    · rename_i hn
      cases h
      exact .callbackValidated state context token userinfo hh hn rfl rfl
    · cases h
      exact .settled _ rfl rfl rfl ⟨rfl,rfl,rfl⟩ trivial
  · cases h
    exact .settled _ rfl rfl rfl ⟨rfl,rfl,rfl⟩ trivial
  · rename_i state context token userinfo resultId hh
    split at h
    · rename_i hf
      cases h
      exact .resultStored state context token userinfo resultId hh hf rfl rfl
    · cases h
  · rename_i state context token userinfo resultId discovery hh
    cases h
    rcases renderResult_cases (resultPage context.claims token userinfo "Authorization code response" resultId
      discovery) with hpage | hfailed
    · rw [hpage]
      exact .callbackRendered state context token userinfo resultId discovery hh rfl rfl
    · rw [hfailed]
      exact .settled _ rfl rfl rfl ⟨rfl,rfl,rfl⟩ trivial
  · cases h
    exact .settled _ rfl rfl rfl ⟨rfl,rfl,rfl⟩ trivial
  · rename_i resultId hh
    cases h
    exact .pruned _ rfl rfl (Or.inr (Or.inr ⟨resultId,hh,rfl⟩))
  · rename_i resultId hh
    split at h
    · cases h
      exact .settled _ rfl rfl rfl ⟨rfl,rfl,rfl⟩ trivial
    · rename_i k cached hk
      obtain ⟨k',rfl,hk⟩ := Option.bind_eq_some_iff.mp hk
      obtain ⟨c,hc,heq⟩ := Option.map_eq_some_iff.mp hk
      cases heq
      split at h
      · rename_i ht
        cases h
        exact .refreshFound k cached hh hc ht rfl rfl
      · cases h
        exact .settled _ rfl rfl rfl ⟨rfl,rfl,rfl⟩ trivial
  · rename_i resultId cached refreshes accessToken idToken hh
    cases h
    exact .refreshExchanged resultId cached refreshes accessToken idToken hh rfl rfl
  · cases h
    exact .settled _ rfl rfl rfl ⟨rfl,rfl,rfl⟩ trivial
  · rename_i resultId cached token userinfo hh
    cases h
    exact .refreshValidated resultId cached token userinfo hh rfl rfl
  · cases h
    exact .settled _ rfl rfl rfl ⟨rfl,rfl,rfl⟩ trivial
  · rename_i resultId cached token userinfo hh
    cases h
    exact .tokenWritten resultId cached token userinfo hh rfl rfl
  · rename_i resultId cached token userinfo hh
    cases h
    exact .entryTouched resultId cached token userinfo hh rfl rfl
  · rename_i resultId cached token userinfo discovery hh
    obtain ⟨e,he,heq⟩ := Option.map_eq_some_iff.mp h
    cases heq
    rcases renderResult_cases (resultPage e.claims token userinfo "Refresh token response" resultId discovery) with
      hpage | hfailed
    · rw [hpage]
      exact .refreshRendered resultId cached token userinfo e discovery hh he rfl rfl
    · rw [hfailed]
      exact .settled _ rfl rfl rfl ⟨rfl,rfl,rfl⟩ trivial
  · cases h
    exact .settled _ rfl rfl rfl ⟨rfl,rfl,rfl⟩ trivial
  · cases h

theorem Effect.sameRequest {s s' : Shared Object} {th th' : Thread Object} (h : Effect s th s' th') :
    SameRequest th th' := by
  rcases h with ⟨_,_,_,_,hf,_⟩ | ⟨_,_,rfl,_⟩ | ⟨_,_,_,_,_,_,_,_,_,rfl⟩ | ⟨_,_,_,_,_,_,rfl⟩ |
    ⟨_,_,_,_,_,_,_,_,rfl⟩ | ⟨_,_,_,_,_,_,_,rfl⟩ | ⟨_,_,_,_,_,_,_,_,rfl⟩ | ⟨_,_,_,_,_,_,_,_,rfl⟩ |
    ⟨_,_,_,_,_,_,rfl⟩ | ⟨_,_,_,_,_,_,_,rfl⟩ | ⟨_,_,_,_,_,_,rfl⟩ | ⟨_,_,_,_,_,_,rfl⟩ |
    ⟨_,_,_,_,_,_,rfl⟩ | ⟨_,_,_,_,_,_,_,_,_,rfl⟩
  · exact hf
  all_goals first | exact ⟨rfl,rfl,rfl⟩ | exact sameRequest_clearState _ _ _

/-- The handlers that are about to call `prune_caches`. -/
def Handler.Sweeps : Handler Object → Prop
  | .homePrune _ | .loginPrune _ _ | .refreshPrune _ => True
  | _ => False

/-- What one step does to the shared state alone. -/
inductive Change (s : Shared Object) (th th' : Thread Object) : Shared Object → Prop
  | same : Change s th th' s
  | pruned (hh : th.handler.Sweeps) : Change s th th' s.pruneCaches
  | contextStored (contextId nonce : String) (claims : Object) (hf : s.Fresh contextId) :
    Change s th th' (s.storeContext contextId nonce claims)
  | contextPopped (state : String) (context : Context Object) (hh : th.handler = .callbackPop (some state))
    (hc : s.authorizationCache state = some context) (hk : th'.handed = some state) :
    Change s th th' (s.popContext state)
  | tokenIssued (refreshes : Bool) : Change s th th' (s.issueToken refreshes)
  | resultStored (resultId state : String) (refreshToken : Option RefreshToken) (claims : Object)
    (hf : s.Fresh resultId) : Change s th th' (s.storeResult resultId state refreshToken claims)
  | tokenWritten (resultId : String) (cached : ℕ) (token : TokenResponse Object) (userinfo : Object)
    (hh : th.handler = .refreshWrite resultId cached token userinfo) :
    Change s th th' (s.writeToken cached token.refreshToken)
  | entryTouched (cached : ℕ) : Change s th th' (s.touchEntry cached)

theorem Effect.change {s s' : Shared Object} {th th' : Thread Object} (h : Effect s th s' th') :
    Change s th th' s' := by
  cases h with
  | settled _ he => exact he ▸ .same
  | pruned _ he _ hh =>
    subst he
    refine .pruned ?_
    rcases hh with ⟨_,hh,_⟩ | ⟨_,_,hh,_⟩ | ⟨_,hh,_⟩
    all_goals rw [hh]; trivial
  | contextStored _ claims nonce contextId _ _ hf _ he => exact he ▸ .contextStored contextId nonce claims hf
  | contextPopped state context hh _ hc he ht => exact he ▸ .contextPopped state context hh hc (ht ▸ rfl)
  | callbackExchanged _ _ refreshes _ _ _ _ he => exact he ▸ .tokenIssued refreshes
  | refreshExchanged _ _ refreshes _ _ _ he => exact he ▸ .tokenIssued refreshes
  | resultStored state context token _ resultId _ hf he =>
    exact he ▸ .resultStored resultId state token.refreshToken context.claims hf
  | tokenWritten k cached token userinfo hh he => exact he ▸ .tokenWritten k cached token userinfo hh
  | entryTouched _ cached _ _ _ he => exact he ▸ .entryTouched cached
  | callbackValidated _ _ _ _ _ _ he => exact he ▸ .same
  | callbackRendered _ _ _ _ _ _ _ he => exact he ▸ .same
  | refreshFound _ _ _ _ _ he => exact he ▸ .same
  | refreshValidated _ _ _ _ _ he => exact he ▸ .same
  | refreshRendered _ _ _ _ _ _ _ _ he => exact he ▸ .same

variable [JsonObject Object]

inductive StepCase (σ : State Object) (l : Label Object) (τ : State Object) : Prop
  | ticked (now : ℤ) (hl : l = .tick now) (hle : σ.shared.clock ≤ now)
      (ht : τ = { σ with shared := { σ.shared with clock := now } })
  | sent (browser : ℕ) (request : Request Object) (hl : l = .send browser request)
      (ht : τ = { σ with threads := σ.threads ++ [arrive σ browser request] })
  | advanced (i : ℕ) (input : Input Object) (th : Thread Object) (s' : Shared Object)
      (th' : Thread Object) (hl : l = .advance i input) (hth : σ.threads[i]? = some th)
      (he : Effect σ.shared th s' th')
      (ht : τ = { σ with shared := s', threads := σ.threads.set i th' })
  | received (i : ℕ) (th : Thread Object) (page : Page Object) (hl : l = .receive i)
      (hth : σ.threads[i]? = some th) (hh : th.handler = .responding page)
      (ht : τ = { σ with
        threads := σ.threads.set i (th.goto (.received page))
        jars := if th.modified then Function.update σ.jars th.browser th.session else σ.jars })

theorem step_cases {σ τ : State Object} {l : Label Object} (h : step σ l = some τ) : StepCase σ l τ := by
  cases l with
  | tick now =>
    simp only [step] at h
    split at h
    · rename_i hle
      cases h
      exact .ticked now rfl hle rfl
    · cases h
  | send browser request =>
    cases h
    exact .sent browser request rfl rfl
  | advance i input =>
    obtain ⟨th,hth,h⟩ := Option.bind_eq_some_iff.mp h
    obtain ⟨⟨s',th'⟩,ha,heq⟩ := Option.map_eq_some_iff.mp h
    cases heq
    exact .advanced i input th s' th' rfl hth (advance_cases ha) rfl
  | receive i =>
    obtain ⟨th,hth,h⟩ := Option.bind_eq_some_iff.mp h
    split at h
    · rename_i page hh
      cases h
      exact .received i th page rfl hth hh rfl
    · cases h

theorem step_advance {σ : State Object} {j : ℕ} {th th' : Thread Object} {s' : Shared Object}
    {input : Input Object} (hth : σ.threads[j]? = some th)
    (ha : advance σ.shared th input = some (s',th')) :
    step σ (.advance j input) = some { σ with shared := s', threads := σ.threads.set j th' } := by
  simp [step,hth,ha]

theorem advance_of_step {σ τ : State Object} {j : ℕ} {th : Thread Object} {input : Input Object}
    (he : step σ (.advance j input) = some τ) (hth : σ.threads[j]? = some th) :
    ∃ s' th', advance σ.shared th input = some (s',th') ∧
      τ = { σ with shared := s', threads := σ.threads.set j th' } := by
  simp only [step, hth, Option.bind_some] at he
  obtain ⟨⟨s',th'⟩,ha,heq⟩ := Option.map_eq_some_iff.mp he
  exact ⟨s',th',ha,heq.symm⟩

end Oidc4acLab.Client
