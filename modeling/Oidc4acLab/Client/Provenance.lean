import Mathlib.Data.List.Nodup
import Oidc4acLab.Client.Transitions
import Oidc4acLab.Transition.Members

/-! # Where contexts, results and pages come from

`Linked` ties the two caches to the logins and results that were ever stored.
`Traced` ties one request to them: what its handler holds and what it answers
with. A step of one handler keeps the other requests traced by `Keeps`.
-/
namespace Oidc4acLab.Client
open Transition Shared Thread
variable {Object : Type}

/-- The login that a cached context records. -/
def Context.login (c : Context Object) (contextId : String) : Login Object :=
  ⟨contextId,c.claims,c.nonce,c.createdAt⟩

def Shared.Unspent (s : Shared Object) (contextId : String) : Prop :=
  ∀ r ∈ s.stored, r.contextId ≠ contextId

structure Linked (s : Shared Object) : Prop where
  loginNamed : ∀ L ∈ s.logins, L.contextId ≠ ""
  loginIssued : ∀ L ∈ s.logins, L.contextId ∈ s.issuedIds
  loginsDistinct : (s.logins.map Login.contextId).Nodup
  resultIssued : ∀ r ∈ s.stored, r.resultId ∈ s.issuedIds
  resultsDistinct : (s.stored.map Stored.resultId).Nodup
  contextsDistinct : (s.stored.map Stored.contextId).Nodup
  sameLength : s.entries.length = s.stored.length
  storedClaims : ∀ (i : ℕ) (r : Stored) (e : Entry Object), s.stored[i]? = some r → s.entries[i]? = some e →
    ∃ L ∈ s.logins, L.contextId = r.contextId ∧ e.claims = L.claims
  pendingLogin : ∀ p c, s.authorizationCache p = some c → c.login p ∈ s.logins
  pendingUnspent : ∀ p c, s.authorizationCache p = some c → s.Unspent p
  cachedStored : ∀ k i, s.tokenCache k = some i → ∃ p, s.stored[i]? = some ⟨k,p⟩

theorem Linked.entry {s : Shared Object} (h : Linked s) {i : ℕ} {r : Stored} (hr : s.stored[i]? = some r) :
    ∃ e, s.entries[i]? = some e := by
  have hlt : i < s.entries.length := by
    rw [h.sameLength]
    exact (List.getElem?_eq_some_iff.mp hr).1
  exact ⟨s.entries[i],List.getElem?_eq_getElem hlt⟩

theorem Linked.context_unique {s : Shared Object} (h : Linked s) {i j : ℕ} {k k' p : String}
    (hi : s.stored[i]? = some ⟨k,p⟩) (hj : s.stored[j]? = some ⟨k',p⟩) : i = j := by
  have hlt : i < (s.stored.map Stored.contextId).length := by
    rw [List.length_map]
    exact (List.getElem?_eq_some_iff.mp hi).1
  refine (List.getElem?_inj hlt h.contextsDistinct).mp ?_
  simp [hi,hj]

theorem Linked.result_unique {s : Shared Object} (h : Linked s) {i j : ℕ} {k p p' : String}
    (hi : s.stored[i]? = some ⟨k,p⟩) (hj : s.stored[j]? = some ⟨k,p'⟩) : i = j := by
  have hlt : i < (s.stored.map Stored.resultId).length := by
    rw [List.length_map]
    exact (List.getElem?_eq_some_iff.mp hi).1
  refine (List.getElem?_inj hlt h.resultsDistinct).mp ?_
  simp [hi,hj]

theorem linked_initial (start : ℤ) : Linked (initial start : State Object).shared where
  loginNamed := by intro L hL; cases hL
  loginIssued := by intro L hL; cases hL
  loginsDistinct := List.nodup_nil
  resultIssued := by intro r hr; cases hr
  resultsDistinct := List.nodup_nil
  contextsDistinct := List.nodup_nil
  sameLength := rfl
  storedClaims := by intro i r e hr; cases hr
  pendingLogin := by intro p c hc; cases hc
  pendingUnspent := by intro p c hc; cases hc
  cachedStored := by intro k i hi; cases hi

theorem Linked.tick {s : Shared Object} (h : Linked s) (now : ℤ) : Linked { s with clock := now } :=
  ⟨h.loginNamed,h.loginIssued,h.loginsDistinct,h.resultIssued,h.resultsDistinct,h.contextsDistinct,h.sameLength,
    h.storedClaims,h.pendingLogin,h.pendingUnspent,h.cachedStored⟩

theorem authorizationCache_pruneCaches {s : Shared Object} {p : String} {c : Context Object}
    (h : s.pruneCaches.authorizationCache p = some c) :
    s.authorizationCache p = some c ∧ s.cutoff ≤ c.createdAt := by
  obtain ⟨hc,hle⟩ := Option.filter_eq_some_iff.mp h
  exact ⟨hc,by simpa using hle⟩

theorem tokenCache_pruneCaches {s : Shared Object} {k : String} {i : ℕ}
    (h : s.pruneCaches.tokenCache k = some i) : s.tokenCache k = some i ∧ s.expiredEntry i = false := by
  obtain ⟨hi,he⟩ := Option.filter_eq_some_iff.mp h
  exact ⟨hi,by simpa using he⟩

theorem Linked.pruneCaches {s : Shared Object} (h : Linked s) : Linked s.pruneCaches :=
  { h with
    pendingLogin := fun p c hc => h.pendingLogin p c (authorizationCache_pruneCaches hc).1
    pendingUnspent := fun p c hc => h.pendingUnspent p c (authorizationCache_pruneCaches hc).1
    cachedStored := fun k i hi => h.cachedStored k i (tokenCache_pruneCaches hi).1 }

theorem authorizationCache_storeContext {s : Shared Object} {contextId nonce p : String} {claims : Object}
    {c : Context Object} (h : (s.storeContext contextId nonce claims).authorizationCache p = some c) :
    p = contextId ∧ c = ⟨claims,nonce,s.clock⟩ ∨ p ≠ contextId ∧ s.authorizationCache p = some c := by
  by_cases hp : p = contextId
  · subst hp
    simp only [storeContext, Function.update_self, Option.some.injEq] at h
    exact Or.inl ⟨rfl,h.symm⟩
  · simp only [storeContext, Function.update_of_ne hp] at h
    exact Or.inr ⟨hp,h⟩

theorem Linked.storeContext {s : Shared Object} (h : Linked s) {contextId nonce : String} (claims : Object)
    (hunused : s.Unspent contextId) (hf : s.Fresh contextId) :
    Linked (s.storeContext contextId nonce claims) where
  loginNamed := by
    intro L hL
    rcases List.mem_cons.mp hL with rfl | hL
    · exact hf.1
    · exact h.loginNamed L hL
  loginIssued := by
    intro L hL
    rcases List.mem_cons.mp hL with rfl | hL
    · simp [Shared.storeContext]
    · have hi := h.loginIssued L hL
      simp [Shared.storeContext,hi]
  loginsDistinct := by
    have hn : contextId ∉ s.logins.map Login.contextId := by
      intro hm
      obtain ⟨L,hL,rfl⟩ := List.mem_map.mp hm
      exact hf.2 (h.loginIssued L hL)
    exact List.nodup_cons.mpr ⟨hn,h.loginsDistinct⟩
  resultIssued := by
    intro r hr
    have hi := h.resultIssued r hr
    simp [Shared.storeContext,hi]
  resultsDistinct := h.resultsDistinct
  contextsDistinct := h.contextsDistinct
  sameLength := h.sameLength
  storedClaims := by
    intro i r e hr he
    obtain ⟨L,hL,hp⟩ := h.storedClaims i r e hr he
    exact ⟨L,List.mem_cons_of_mem _ hL,hp⟩
  pendingLogin := by
    intro p c hc
    rcases authorizationCache_storeContext hc with ⟨rfl,rfl⟩ | ⟨_,hc⟩
    · exact List.mem_cons_self
    · exact List.mem_cons_of_mem _ (h.pendingLogin p c hc)
  pendingUnspent := by
    intro p c hc
    rcases authorizationCache_storeContext hc with ⟨rfl,_⟩ | ⟨_,hc⟩
    · exact hunused
    · exact h.pendingUnspent p c hc
  cachedStored := h.cachedStored

theorem authorizationCache_popContext {s : Shared Object} {contextId p : String} {c : Context Object}
    (h : (s.popContext contextId).authorizationCache p = some c) :
    p ≠ contextId ∧ s.authorizationCache p = some c := by
  by_cases hp : p = contextId
  · subst hp
    simp [popContext] at h
  · simp only [popContext, Function.update_of_ne hp] at h
    exact ⟨hp,h⟩

theorem Linked.popContext {s : Shared Object} (h : Linked s) (contextId : String) :
    Linked (s.popContext contextId) :=
  { h with
    pendingLogin := fun p c hc => h.pendingLogin p c (authorizationCache_popContext hc).2
    pendingUnspent := fun p c hc => h.pendingUnspent p c (authorizationCache_popContext hc).2 }

@[simp] theorem authorizationCache_issueToken (s : Shared Object) (refreshes : Bool) :
    (s.issueToken refreshes).authorizationCache = s.authorizationCache := by
  unfold issueToken
  split <;> rfl

theorem Linked.issueToken {s : Shared Object} (h : Linked s) (refreshes : Bool) :
    Linked (s.issueToken refreshes) := by
  unfold Shared.issueToken
  split
  · exact ⟨h.loginNamed,h.loginIssued,h.loginsDistinct,h.resultIssued,h.resultsDistinct,h.contextsDistinct,h.sameLength,
      h.storedClaims,h.pendingLogin,h.pendingUnspent,h.cachedStored⟩
  · exact h

theorem tokenCache_storeResult {s : Shared Object} {resultId contextId k : String}
    {refreshToken : Option RefreshToken} {claims : Object} {i : ℕ}
    (h : (s.storeResult resultId contextId refreshToken claims).tokenCache k = some i) :
    k = resultId ∧ i = s.entries.length ∨ k ≠ resultId ∧ s.tokenCache k = some i := by
  by_cases hk : k = resultId
  · subst hk
    simp only [storeResult, Function.update_self, Option.some.injEq] at h
    exact Or.inl ⟨rfl,h.symm⟩
  · simp only [storeResult, Function.update_of_ne hk] at h
    exact Or.inr ⟨hk,h⟩

theorem Linked.storeResult {s : Shared Object} (h : Linked s) {resultId contextId : String}
    {refreshToken : Option RefreshToken} {L : Login Object} (hL : L ∈ s.logins) (hc : L.contextId = contextId)
    (hf : s.Fresh resultId) (hunspent : s.Unspent contextId) (hgone : s.authorizationCache contextId = none) :
    Linked (s.storeResult resultId contextId refreshToken L.claims) where
  loginNamed := h.loginNamed
  loginIssued := by
    intro M hM
    exact List.mem_cons_of_mem _ (h.loginIssued M hM)
  loginsDistinct := h.loginsDistinct
  resultIssued := by
    intro r hr
    rcases List.mem_append.mp hr with hr | hr
    · exact List.mem_cons_of_mem _ (h.resultIssued r hr)
    · cases List.mem_singleton.mp hr
      exact List.mem_cons_self
  resultsDistinct := by
    have hn : resultId ∉ s.stored.map Stored.resultId := by
      intro hm
      obtain ⟨r,hr,rfl⟩ := List.mem_map.mp hm
      exact hf.2 (h.resultIssued r hr)
    simpa [Shared.storeResult] using h.resultsDistinct.append (List.nodup_singleton _)
      (List.disjoint_singleton.mpr hn)
  contextsDistinct := by
    have hn : contextId ∉ s.stored.map Stored.contextId := by
      intro hm
      obtain ⟨r,hr,he⟩ := List.mem_map.mp hm
      exact hunspent r hr he
    simpa [Shared.storeResult] using h.contextsDistinct.append (List.nodup_singleton _)
      (List.disjoint_singleton.mpr hn)
  sameLength := by
    have hlen := h.sameLength
    simp [Shared.storeResult,hlen]
  storedClaims := by
    intro i r e hr he
    rcases getElem?_append_cases hr with hr | ⟨hi,rfl⟩
    · have hlt : i < s.entries.length := by
        rw [h.sameLength]
        exact (List.getElem?_eq_some_iff.mp hr).1
      rcases getElem?_append_cases he with he | ⟨he,_⟩
      · exact h.storedClaims i r e hr he
      · omega
    · rw [← h.sameLength] at hi
      rcases getElem?_append_cases he with he | ⟨_,rfl⟩
      · have hlt := (List.getElem?_eq_some_iff.mp he).1
        omega
      · exact ⟨L,hL,hc,rfl⟩
  pendingLogin := h.pendingLogin
  pendingUnspent := by
    intro p c hp r hr
    rcases List.mem_append.mp hr with hr | hr
    · exact h.pendingUnspent p c hp r hr
    · cases List.mem_singleton.mp hr
      intro he
      have hp' : s.authorizationCache contextId = some c := by
        rw [show contextId = p from he]
        exact hp
      rw [hgone] at hp'
      cases hp'
  cachedStored := by
    intro k i hi
    rcases tokenCache_storeResult hi with ⟨rfl,rfl⟩ | ⟨_,hi⟩
    · exact ⟨contextId,by simp [Shared.storeResult,h.sameLength]⟩
    · obtain ⟨p,hp⟩ := h.cachedStored k i hi
      exact ⟨p,getElem?_append_of_some hp⟩

theorem Linked.modifyEntry {s : Shared Object} (h : Linked s) (cached : ℕ) (f : Entry Object → Entry Object)
    (hf : ∀ e, (f e).claims = e.claims) : Linked { s with entries := s.entries.modify cached f } :=
  { h with
    sameLength := by
      have hlen := h.sameLength
      simp [hlen]
    storedClaims := by
      intro i r e hr he
      obtain ⟨e',he',hcases⟩ := getElem?_modify_cases he
      obtain ⟨L,hL,hp,hc⟩ := h.storedClaims i r e' hr he'
      have hclaims : e.claims = e'.claims := by
        rcases hcases with ⟨_,rfl⟩ | ⟨_,rfl⟩
        · rfl
        · exact hf e'
      exact ⟨L,hL,hp,hclaims.trans hc⟩ }

theorem Linked.writeToken {s : Shared Object} (h : Linked s) (cached : ℕ) (refreshToken : Option RefreshToken) :
    Linked (s.writeToken cached refreshToken) := h.modifyEntry cached _ fun _ => rfl

theorem Linked.touchEntry {s : Shared Object} (h : Linked s) (cached : ℕ) : Linked (s.touchEntry cached) :=
  h.modifyEntry cached _ fun _ => rfl

/-- The request is a callback that was handed the context of this login. -/
structure Given (s : Shared Object) (th : Thread Object) (L : Login Object) : Prop where
  request : ∃ error description, th.request = .callback error description (some L.contextId)
  handed : th.handed = some L.contextId
  login : L ∈ s.logins

/-- The request is a refresh for this result, if it names one explicitly. -/
def Named (th : Thread Object) (resultId : Option String) : Prop :=
  ∃ named, th.request = .refresh named ∧ ∀ k, truthy named = some k → resultId = some k

def ShowsLogin (s : Shared Object) (th : Thread Object) (page : ResultPage Object) : Prop :=
  ∃ L, Given s th L ∧ page.claims = L.claims ∧ page.idToken.nonce = some L.nonce ∧
    (⟨page.resultId,L.contextId⟩ : Stored) ∈ s.stored

def ShowsEntry (s : Shared Object) (th : Thread Object) (page : ResultPage Object) : Prop :=
  Named th (some page.resultId) ∧ ∃ L ∈ s.logins, page.claims = L.claims ∧
    (⟨page.resultId,L.contextId⟩ : Stored) ∈ s.stored

def PageTraced (s : Shared Object) (th : Thread Object) : Page Object → Prop
  | .result page => ShowsLogin s th page ∨ ShowsEntry s th page
  | _ => True

def HandlerTraced (s : Shared Object) (th : Thread Object) : Handler Object → Prop
  | .homePrune _ | .loginPrune _ _ | .loginStore _ _ | .loginRedirect _ _ _ _ => True
  | .callbackPop state => th.handed = none ∧ ∃ error description, th.request = .callback error description state
  | .callbackExchange state context => Given s th (context.login state) ∧ s.Unspent state
  | .callbackVerify state context _ => Given s th (context.login state) ∧ s.Unspent state
  | .callbackStore state context token _ =>
    (Given s th (context.login state) ∧ s.Unspent state) ∧ token.idToken.nonce = some context.nonce
  | .callbackRender state context token _ resultId =>
    Given s th (context.login state) ∧ token.idToken.nonce = some context.nonce ∧
      (⟨resultId,state⟩ : Stored) ∈ s.stored
  | .refreshPrune resultId | .refreshLookup resultId => Named th resultId
  | .refreshExchange resultId cached | .refreshVerify resultId cached _ | .refreshWrite resultId cached _ _
  | .refreshTouch resultId cached _ _ | .refreshRender resultId cached _ _ =>
    Named th (some resultId) ∧ ∃ p, s.stored[cached]? = some ⟨resultId,p⟩
  | .responding page | .received page => PageTraced s th page

structure Traced (s : Shared Object) (th : Thread Object) : Prop where
  handler : HandlerTraced s th th.handler
  handedRequest : ∀ p, th.handed = some p →
    ∃ error description, th.request = .callback error description (some p)
  /-- A context that was handed out is gone for good. -/
  handedGone : ∀ p, th.handed = some p → s.authorizationCache p = none ∧ p ∈ s.issuedIds

/-- What the step of one handler, which holds the context `own`, leaves as it is. -/
structure Keeps (own : Option String) (s s' : Shared Object) : Prop where
  issued : ∀ k ∈ s.issuedIds, k ∈ s'.issuedIds
  logins : ∀ L ∈ s.logins, L ∈ s'.logins
  stored : ∀ (i : ℕ) (r : Stored), s.stored[i]? = some r → s'.stored[i]? = some r
  spends : ∀ r ∈ s'.stored, r ∈ s.stored ∨ own = some r.contextId
  gone : ∀ p ∈ s.issuedIds, s.authorizationCache p = none → s'.authorizationCache p = none

theorem Keeps.refl (own : Option String) (s : Shared Object) : Keeps own s s :=
  ⟨fun _ h => h,fun _ h => h,fun _ _ h => h,fun _ h => Or.inl h,fun _ _ h => h⟩

theorem Keeps.mem_stored {own : Option String} {s s' : Shared Object} (h : Keeps own s s') {r : Stored}
    (hr : r ∈ s.stored) : r ∈ s'.stored := by
  obtain ⟨i,hi⟩ := List.mem_iff_getElem?.mp hr
  exact List.mem_iff_getElem?.mpr ⟨i,h.stored i r hi⟩

theorem Keeps.unspent {own : Option String} {s s' : Shared Object} (h : Keeps own s s') {p : String}
    (hp : s.Unspent p) (hown : own ≠ some p) : s'.Unspent p := by
  intro r hr he
  rcases h.spends r hr with hr | hr
  · exact hp r hr he
  · exact hown (he ▸ hr)

theorem Keeps.given {own : Option String} {s s' : Shared Object} (h : Keeps own s s') {th : Thread Object}
    {L : Login Object} (hg : Given s th L) : Given s' th L :=
  ⟨hg.request,hg.handed,h.logins L hg.login⟩

theorem Keeps.page {own : Option String} {s s' : Shared Object} (h : Keeps own s s') {th : Thread Object}
    {page : Page Object} (hp : PageTraced s th page) : PageTraced s' th page := by
  cases page with
  | result page =>
    rcases hp with ⟨L,hg,hc,hn,hr⟩ | ⟨hn,L,hL,hc,hr⟩
    · exact Or.inl ⟨L,h.given hg,hc,hn,h.mem_stored hr⟩
    · exact Or.inr ⟨hn,L,h.logins L hL,hc,h.mem_stored hr⟩
  | workbench _ => trivial
  | redirect _ _ _ _ _ => trivial
  | error _ _ _ => trivial
  | internalServerError => trivial

theorem Traced.keep {own : Option String} {s s' : Shared Object} {th : Thread Object} (ht : Traced s th)
    (h : Keeps own s s') (hown : ∀ p, th.handed = some p → own ≠ some p) : Traced s' th where
  handler := by
    have hh := ht.handler
    have hgiven : ∀ {L : Login Object}, Given s th L ∧ s.Unspent L.contextId →
        Given s' th L ∧ s'.Unspent L.contextId := fun hL =>
      ⟨h.given hL.1,h.unspent hL.2 (hown _ hL.1.handed)⟩
    generalize th.handler = handler at hh ⊢
    cases handler with
    | homePrune _ => trivial
    | loginPrune _ _ => trivial
    | loginStore _ _ => trivial
    | loginRedirect _ _ _ _ => trivial
    | callbackPop _ => exact hh
    | callbackExchange _ _ => exact hgiven hh
    | callbackVerify _ _ _ => exact hgiven hh
    | callbackStore _ _ _ _ => exact ⟨hgiven hh.1,hh.2⟩
    | callbackRender _ _ _ _ _ => exact ⟨h.given hh.1,hh.2.1,h.mem_stored hh.2.2⟩
    | refreshPrune _ => exact hh
    | refreshLookup _ => exact hh
    | refreshExchange _ _ => exact ⟨hh.1,hh.2.imp fun _ hp => h.stored _ _ hp⟩
    | refreshVerify _ _ _ => exact ⟨hh.1,hh.2.imp fun _ hp => h.stored _ _ hp⟩
    | refreshWrite _ _ _ _ => exact ⟨hh.1,hh.2.imp fun _ hp => h.stored _ _ hp⟩
    | refreshTouch _ _ _ _ => exact ⟨hh.1,hh.2.imp fun _ hp => h.stored _ _ hp⟩
    | refreshRender _ _ _ _ => exact ⟨hh.1,hh.2.imp fun _ hp => h.stored _ _ hp⟩
    | responding _ => exact h.page hh
    | received _ => exact h.page hh
  handedRequest := ht.handedRequest
  handedGone := by
    intro p hp
    obtain ⟨hnone,hi⟩ := ht.handedGone p hp
    exact ⟨h.gone p hi hnone,h.issued p hi⟩

end Oidc4acLab.Client
