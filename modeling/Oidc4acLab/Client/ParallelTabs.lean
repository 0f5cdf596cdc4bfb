import Mathlib.Data.Fintype.EquivFin
import Oidc4acLab.Client.LoginTabs

/-! # Redirecting the states of parallel tabs back

A callback needs its state twice: in the server-side cache, which keeps every
login apart, and in the cookie, which the browser replaces as a whole. If no
login of the browser was sent while another was pending, and a page can show the
claims of each, then every callback reaches its result page, in any order and with
any overlap of the callbacks. Otherwise the state of one of two logins is lost, or
the page of one cannot be rendered.
-/
namespace Oidc4acLab.Client
open Transition Shared Thread
variable {Object : Type}

def Thread.Received (th : Thread Object) : Prop :=
  match th.handler with
  | .received _ => True
  | _ => False

instance (th : Thread Object) : Decidable th.Received := by
  unfold Thread.Received
  split <;> infer_instance

/-- A page can show the objects that the OP and Discovery answer with. -/
def Input.Shown [JsonObject Object] : Input Object → Prop
  | .tokens _ accessToken idToken =>
    @JsonObject.tokenShown Object _ accessToken = true ∧ JsonObject.shown idToken.payload = true
  | .validated userinfo => JsonObject.shown userinfo = true
  | .discovered discovery => JsonObject.shown discovery = true
  | _ => True

/-- The OP redirects the state of a login back to the browser, once and within
the lifetime of the login; its answers succeed, with the nonce of the login, and
can be shown. -/
def ReturnsState [JsonObject Object] (browser : ℕ) (σ : State Object) : Label Object → Prop
  | .send b request => b = browser ∧ ∃ L ∈ σ.shared.logins, ∃ description,
    request = .callback none description (some L.contextId) ∧
      σ.shared.clock - L.storedAt ≤ nanos cacheTtlSeconds ∧
      ∀ th ∈ σ.threads, ∀ error description', th.request ≠ .callback error description' (some L.contextId)
  | .advance i input => (input.Succeeds ∧ input.Shown) ∧ ∀ th ∈ σ.threads[i]?, ∀ p c refreshes accessToken idToken,
    th.handler = .callbackExchange p c → input = .tokens refreshes accessToken idToken →
      idToken.nonce = some c.nonce
  | _ => True

/-- A page can show what the token response holds. -/
def TokenResponse.Shown [JsonObject Object] (token : TokenResponse Object) : Prop :=
  @JsonObject.tokenShown Object _ token.accessToken = true ∧ JsonObject.shown token.idToken.payload = true

variable [JsonObject Object]

inductive OnTrack (s : Shared Object) (th : Thread Object) (p : String) : Prop
  | pop (c : Context Object) (hh : th.handler = .callbackPop (some p))
    (hc : s.authorizationCache p = some c) (hs : JsonObject.shown c.claims = true) (hin : p ∈ th.session.states)
  | exchange (c : Context Object) (hh : th.handler = .callbackExchange p c)
    (hs : JsonObject.shown c.claims = true) (hin : p ∈ th.session.states)
  | verify (c : Context Object) (token : TokenResponse Object) (hh : th.handler = .callbackVerify p c token)
    (hs : JsonObject.shown c.claims = true) (ht : token.Shown) (hn : token.idToken.nonce = some c.nonce)
  | store (c : Context Object) (token : TokenResponse Object) (userinfo : Object)
    (hh : th.handler = .callbackStore p c token userinfo) (hs : JsonObject.shown c.claims = true)
    (ht : token.Shown) (hu : JsonObject.shown userinfo = true)
  | render (c : Context Object) (token : TokenResponse Object) (userinfo : Object) (resultId : String)
    (hh : th.handler = .callbackRender p c token userinfo resultId) (hs : JsonObject.shown c.claims = true)
    (ht : token.Shown) (hu : JsonObject.shown userinfo = true)
  | shown (page : ResultPage Object) (hh : th.Shows (.result page))

theorem OnTrack.keep {s s' : Shared Object} {th : Thread Object} {p : String} (h : OnTrack s th p)
    (hc : s'.authorizationCache p = s.authorizationCache p) : OnTrack s' th p := by
  cases h with
  | pop c hh hp hs hin => exact .pop c hh (hc.trans hp) hs hin
  | exchange c hh hs hin => exact .exchange c hh hs hin
  | verify c token hh hs ht hn => exact .verify c token hh hs ht hn
  | store c token userinfo hh hs ht hu => exact .store c token userinfo hh hs ht hu
  | render c token userinfo resultId hh hs ht hu => exact .render c token userinfo resultId hh hs ht hu
  | shown page hh => exact .shown page hh

/-- What the step of a callback on track does to it and to everybody else. -/
structure Onward (s : Shared Object) (th : Thread Object) (s' : Shared Object) (th' : Thread Object)
    (p : String) : Prop where
  track : OnTrack s' th' p
  others : ∀ q, q ≠ p → q ∈ th.session.states → q ∈ th'.session.states
  cache : ∀ q, q ≠ p → s'.authorizationCache q = s.authorizationCache q
  logins : s'.logins = s.logins

omit [JsonObject Object] in
theorem mem_clearState {th : Thread Object} {p q : String} (hne : q ≠ p) (hq : q ∈ th.session.states) :
    q ∈ (th.clearState p).session.states := by
  unfold clearState
  split
  · exact (List.mem_erase_of_ne hne).mpr hq
  · exact hq

theorem rendered_of_shown {c : Context Object} {token : TokenResponse Object} {userinfo discovery : Object}
    {source resultId : String} (hc : JsonObject.shown c.claims = true) (ht : token.Shown)
    (hu : JsonObject.shown userinfo = true) (hd : JsonObject.shown discovery = true) :
    (resultPage c.claims token userinfo source resultId discovery).rendered = true :=
  ResultPage.rendered_iff.mpr ⟨hc,hd,ht.2,ht.1,hu⟩

theorem OnTrack.onward {s s' : Shared Object} {th th' : Thread Object} {p : String} {input : Input Object}
    (h : OnTrack s th p) (hne : p ≠ "") (ha : advance s th input = some (s',th')) (hi : input.Succeeds)
    (hi' : input.Shown) (hn : ∀ c refreshes accessToken idToken, th.handler = .callbackExchange p c →
      input = .tokens refreshes accessToken idToken → idToken.nonce = some c.nonce) :
    Onward s th s' th' p := by
  cases h with
  | pop c hh hc hs hin =>
    cases input <;> simp only [advance, hh] at ha <;> try cases ha
    have ht : truthy (some p) = some p := by simp [truthy,hne]
    simp only [ht, hc] at ha
    cases ha
    refine ⟨.exchange c rfl hs hin,fun _ _ hq => hq,?_,rfl⟩
    intro q hq
    exact Function.update_of_ne hq _ _
  | exchange c hh hs hin =>
    cases input <;> simp only [advance, hh] at ha <;> try cases ha
    · rename_i refreshes accessToken idToken
      simp only [hin, if_true] at ha
      cases ha
      refine ⟨.verify c _ rfl hs hi' (hn c _ _ _ hh rfl),fun q hne hq => mem_clearState hne hq,?_,?_⟩
      · intro q _
        rw [authorizationCache_issueToken]
      · unfold issueToken
        split <;> rfl
    · exact False.elim hi
  | verify c token hh hs ht htoken =>
    cases input <;> simp only [advance, hh] at ha <;> try cases ha
    · simp only [htoken, if_true] at ha
      cases ha
      exact ⟨.store c token _ rfl hs ht hi',fun _ _ hq => hq,fun _ _ => rfl,rfl⟩
    · exact False.elim hi
  | store c token userinfo hh hs ht hu =>
    cases input <;> simp only [advance, hh] at ha <;> try cases ha
    split at ha
    · cases ha
      exact ⟨.render c token userinfo _ rfl hs ht hu,fun _ _ hq => hq,fun _ _ => rfl,rfl⟩
    · cases ha
  | render c token userinfo resultId hh hs ht hu =>
    cases input <;> simp only [advance, hh] at ha <;> try cases ha
    · rw [renderResult,if_pos (rendered_of_shown hs ht hu hi')]
      exact ⟨.shown _ (Or.inl rfl),fun _ _ hq => hq,fun _ _ => rfl,rfl⟩
    · exact False.elim hi
  | shown page hh =>
    rcases hh with hh | hh
    · cases input <;> simp only [advance, hh] at ha <;> cases ha
    · cases input <;> simp only [advance, hh] at ha <;> cases ha

omit [JsonObject Object] in
def Unsent (σ : State Object) (p : String) : Prop :=
  ∀ th ∈ σ.threads, ∀ error description, th.request ≠ .callback error description (some p)

/-- A callback for the state of a login, on its way to the result page. -/
def Tracked (s : Shared Object) (th : Thread Object) : Prop :=
  ∃ description, ∃ L ∈ s.logins, th.request = .callback none description (some L.contextId) ∧
    OnTrack s th L.contextId

structure Returning (browser : ℕ) (σ : State Object) : Prop where
  isolated : Isolated σ
  sender : ∀ (i : ℕ) (th : Thread Object), σ.threads[i]? = some th → th.browser = browser
  tracked : ∀ (i : ℕ) (th : Thread Object), σ.threads[i]? = some th →
    ((∃ form, th.request = .login form) ∧ th.Received) ∨ Tracked σ.shared th
  once : ∀ (i j : ℕ) (th uh : Thread Object) (d d' : Option String) (p : String), σ.threads[i]? = some th →
    σ.threads[j]? = some uh → th.request = .callback none d (some p) → uh.request = .callback none d' (some p) → i = j
  unsent : ∀ L ∈ σ.shared.logins, Unsent σ L.contextId →
    (∃ c, σ.shared.authorizationCache L.contextId = some c ∧ JsonObject.shown c.claims = true) ∧
      L.contextId ∈ (σ.jars browser).states ∧
      ∀ (i : ℕ) (th : Thread Object), σ.threads[i]? = some th → ¬ th.Received →
        L.contextId ∈ th.session.states

omit [JsonObject Object] in
theorem received_of_shape {th : Thread Object} {page : Page Object} (h : th.handler = .received page) :
    th.Received := by
  unfold Received
  rw [h]
  trivial

theorem not_received_of_advance {s s' : Shared Object} {th th' : Thread Object} {input : Input Object}
    (h : advance s th input = some (s',th')) : ¬ th.Received := by
  intro hr
  unfold Received at hr
  split at hr
  · rename_i page hh
    cases input <;> simp [advance,hh] at h
  · exact hr

omit [JsonObject Object] in
theorem unsent_of_set {σ τ : State Object} {k : ℕ} {th : Thread Object} (th' : Thread Object) {p : String}
    (hth : σ.threads[k]? = some th) (hτ : τ.threads = σ.threads.set k th')
    (hq : th'.request = th.request) (h : Unsent τ p) : Unsent σ p := by
  intro uh hu e d he
  obtain ⟨i,hi⟩ := List.mem_iff_getElem?.mp hu
  by_cases hik : i = k
  · subst hik
    rw [hth] at hi
    cases hi
    have hmem : th' ∈ τ.threads := by
      rw [hτ]
      exact List.mem_iff_getElem?.mpr ⟨i,getElem?_set_of_some hth⟩
    exact h th' hmem e d (hq.trans he)
  · have hmem : uh ∈ τ.threads := by
      rw [hτ]
      exact List.mem_iff_getElem?.mpr ⟨i,(List.getElem?_set_ne (Ne.symm hik)).trans hi⟩
    exact h uh hmem e d he

omit [JsonObject Object] in
theorem once_of_set {threads : List (Thread Object)} {k : ℕ} {th th' : Thread Object}
    (h : ∀ (i j : ℕ) (x y : Thread Object) (d d' : Option String) (p : String), threads[i]? = some x →
      threads[j]? = some y → x.request = .callback none d (some p) →
      y.request = .callback none d' (some p) → i = j)
    (hth : threads[k]? = some th) (hq : th'.request = th.request) :
    ∀ (i j : ℕ) (x y : Thread Object) (d d' : Option String) (p : String),
      (threads.set k th')[i]? = some x → (threads.set k th')[j]? = some y →
      x.request = .callback none d (some p) → y.request = .callback none d' (some p) → i = j := by
  have hold : ∀ {i : ℕ} {x : Thread Object}, (threads.set k th')[i]? = some x →
      ∃ y, threads[i]? = some y ∧ x.request = y.request := by
    intro i x hx
    rcases getElem?_set_cases hx with ⟨_,hx⟩ | ⟨rfl,rfl⟩
    · exact ⟨x,hx,rfl⟩
    · exact ⟨th,hth,hq⟩
  intro i j x y d d' p hx hy hpx hpy
  obtain ⟨x',hx',hxq⟩ := hold hx
  obtain ⟨y',hy',hyq⟩ := hold hy
  exact h i j x' y' d d' p hx' hy' (hxq.symm.trans hpx) (hyq.symm.trans hpy)

theorem Returning.sent {browser : ℕ} {σ : State Object} {L : Login Object} {description : Option String}
    (h : Returning browser σ) (hL : L ∈ σ.shared.logins) (hu : Unsent σ L.contextId)
    (hi : Isolated { σ with
      threads := σ.threads ++ [arrive σ browser (.callback none description (some L.contextId))] }) :
    Returning browser { σ with
      threads := σ.threads ++ [arrive σ browser (.callback none description (some L.contextId))] } := by
  obtain ⟨⟨c,hc,hs⟩,hjar,_⟩ := h.unsent L hL hu
  refine ⟨hi,forall_append h.sender rfl,forall_append h.tracked ?_,?_,?_⟩
  · exact Or.inr ⟨description,L,hL,rfl,.pop c rfl hc hs hjar⟩
  · intro i j th uh d d' p hth huh hp hq
    rcases getElem?_append_cases hth with hth' | ⟨hlast,rfl⟩
    · rcases getElem?_append_cases huh with huh' | ⟨_,rfl⟩
      · exact h.once i j th uh d d' p hth' huh' hp hq
      · cases hq
        exact absurd hp (hu th (List.mem_iff_getElem?.mpr ⟨i,hth'⟩) none d)
    · rcases getElem?_append_cases huh with huh' | ⟨hlast',_⟩
      · cases hp
        exact absurd hq (hu uh (List.mem_iff_getElem?.mpr ⟨j,huh'⟩) none d')
      · exact hlast.trans hlast'.symm
  · intro M hM hunsent
    have hold : Unsent σ M.contextId := fun th hth => hunsent th (List.mem_append_left _ hth)
    obtain ⟨hcache,hmem,hsess⟩ := h.unsent M hM hold
    exact ⟨hcache,hmem,forall_append hsess fun _ => hmem⟩

theorem Returning.step {browser : ℕ} {σ τ : State Object} {l : Label Object} (h : Returning browser σ)
    (hg : ReturnsState browser σ l) (he : step σ l = some τ) : Returning browser τ := by
  have hiso := h.isolated.step he
  cases l with
  | tick now =>
    simp only [Client.step] at he
    split at he
    · cases he
      refine ⟨hiso,h.sender,fun i th hth => (h.tracked i th hth).imp_right ?_,h.once,h.unsent⟩
      rintro ⟨d,L,hL,hq,ht⟩
      exact ⟨d,L,hL,hq,ht.keep rfl⟩
    · cases he
  | send b request =>
    obtain ⟨rfl,L,hL,description,rfl,_,hu⟩ := hg
    cases he
    exact h.sent hL hu hiso
  | advance k input =>
    obtain ⟨th,hth,hm⟩ := Option.bind_eq_some_iff.mp he
    obtain ⟨⟨s',th'⟩,ha,hτ⟩ := Option.map_eq_some_iff.mp hm
    subst hτ
    have hsame := (advance_cases ha).sameRequest
    rcases h.tracked k th hth with ⟨_,hr⟩ | ⟨d,L,hL,hq,ht⟩
    · exact absurd hr (not_received_of_advance ha)
    · have ho := ht.onward (h.isolated.linked.loginNamed L hL) ha hg.1.1 hg.1.2
        fun c refreshes accessToken idToken => hg.2 th hth L.contextId c refreshes accessToken idToken
      refine ⟨hiso,?_,?_,once_of_set h.once hth hsame.request,?_⟩
      · exact forall_set h.sender (hsame.browser.trans (h.sender k th hth)) fun _ _ _ _ hb => hb
      · refine forall_set h.tracked ?_ ?_
        · exact Or.inr ⟨d,L,by rw [ho.logins]; exact hL,hsame.request.trans hq,ho.track⟩
        · intro j uh hne huh hu
          refine hu.imp_right ?_
          rintro ⟨d',M,hM,hq',ht'⟩
          have hpq : M.contextId ≠ L.contextId := by
            intro heq
            rw [heq] at hq'
            exact hne (h.once j k uh th d' d L.contextId huh hth hq' hq)
          exact ⟨d',M,by rw [ho.logins]; exact hM,hq',ht'.keep (ho.cache M.contextId hpq)⟩
      · intro M hM hunsent
        rw [ho.logins] at hM
        have hold : Unsent σ M.contextId := unsent_of_set th' hth rfl hsame.request hunsent
        have hpq : M.contextId ≠ L.contextId := by
          intro heq
          exact hold th (List.mem_iff_getElem?.mpr ⟨k,hth⟩) none d (heq ▸ hq)
        obtain ⟨⟨c,hc,hs⟩,hmem,hsess⟩ := h.unsent M hM hold
        refine ⟨⟨c,(ho.cache M.contextId hpq).trans hc,hs⟩,hmem,?_⟩
        refine forall_set hsess (fun _ => ?_) fun _ _ _ _ hs => hs
        exact ho.others M.contextId hpq (hsess k th hth (not_received_of_advance ha))
  | receive k =>
    obtain ⟨th,hth,hm⟩ := Option.bind_eq_some_iff.mp he
    split at hm
    · rename_i page hh
      cases hm
      have hnot : ¬ th.Received := by
        unfold Received
        rw [hh]
        exact fun hr => hr
      refine ⟨hiso,?_,?_,once_of_set h.once hth rfl,?_⟩
      · exact forall_set h.sender (h.sender k th hth) fun _ _ _ _ hb => hb
      · refine forall_set h.tracked ?_ fun _ _ _ _ ht => ht
        rcases h.tracked k th hth with ⟨_,hr⟩ | ⟨d,L,hL,hq,ht⟩
        · exact absurd hr hnot
        · refine Or.inr ⟨d,L,hL,hq,?_⟩
          cases ht with
          | shown rp hs =>
            refine .shown rp (Or.inr ?_)
            rcases hs with hs | hs
            · rw [hh] at hs
              cases hs
              rfl
            · rw [hh] at hs
              cases hs
          | pop _ hp => rw [hh] at hp; cases hp
          | exchange _ hp => rw [hh] at hp; cases hp
          | verify _ _ hp => rw [hh] at hp; cases hp
          | store _ _ _ hp => rw [hh] at hp; cases hp
          | render _ _ _ _ hp => rw [hh] at hp; cases hp
      · intro M hM hunsent
        have hold : Unsent σ M.contextId := unsent_of_set (th.goto (.received page)) hth rfl rfl hunsent
        obtain ⟨hcache,hmem,hsess⟩ := h.unsent M hM hold
        refine ⟨hcache,?_,?_⟩
        · -- the new cookie is the session of a request that was sent before
          by_cases hmod : th.modified = true
          · have hb := h.sender k th hth
            simp only [hmod, if_true, hb, Function.update_self]
            exact hsess k th hth hnot
          · simp only [hmod]
            exact hmem
        · refine forall_set hsess (fun hn => ?_) fun _ _ _ _ hs => hs
          exact absurd (received_of_shape rfl) hn
    · cases hm

/-- The callback can go on to its result page while the OP answers. -/
def ReachesResult (browser : ℕ) (σ : State Object) (i : ℕ) : Prop :=
  Leads step (ReturnsState browser) σ
    (fun τ => ∃ th page, τ.threads[i]? = some th ∧ th.Shows (.result page))

omit [JsonObject Object] in
theorem exists_fresh (s : Shared Object) : ∃ k, s.Fresh k := by
  obtain ⟨k,hk⟩ := Infinite.exists_notMem_finset ("" :: s.issuedIds).toFinset
  rw [List.mem_toFinset, List.mem_cons, not_or] at hk
  exact ⟨k,hk⟩

theorem returns_advance {browser : ℕ} {σ : State Object} {i : ℕ} {th : Thread Object} {input : Input Object}
    (hth : σ.threads[i]? = some th) (hi : input.Succeeds) (hi' : input.Shown)
    (hn : ∀ p c refreshes accessToken idToken, th.handler = .callbackExchange p c →
      input = .tokens refreshes accessToken idToken → idToken.nonce = some c.nonce) :
    ReturnsState browser σ (.advance i input) := by
  refine ⟨⟨hi,hi'⟩,?_⟩
  intro uh hu
  rw [hth] at hu
  cases hu
  exact hn

theorem advance_pop {s : Shared Object} {th : Thread Object} {p : String} {c : Context Object}
    (hh : th.handler = .callbackPop (some p)) (hne : p ≠ "") (hc : s.authorizationCache p = some c) :
    advance s th .proceed = some (s.popContext p,{ th with handed := some p, handler := .callbackExchange p c }) := by
  have ht : truthy (some p) = some p := by simp [truthy,hne]
  simp only [advance, hh, ht, hc]

theorem advance_exchange_lost {s : Shared Object} {th : Thread Object} {p : String} {c : Context Object}
    {refreshes : Bool} {accessToken : Option String} {idToken : IdToken Object}
    (hh : th.handler = .callbackExchange p c) (hlost : p ∉ th.session.states) :
    advance s th (.tokens refreshes accessToken idToken) = some (s,th.respond tokenValidationFailed) := by
  simp only [advance, hh, hlost, if_false]

/-- The OP answers with empty objects. -/
def answered (nonce : String) : TokenResponse Object := ⟨none,none,⟨some nonce,∅⟩⟩

theorem answered_shown (nonce : String) : (answered nonce : TokenResponse Object).Shown :=
  ⟨JsonObject.tokenShown_none,JsonObject.shown_empty⟩

section Reaching
variable {browser i : ℕ} {σ : State Object} {th : Thread Object} {p : String} {c : Context Object}
  {token : TokenResponse Object} {userinfo : Object} {P : State Object → Prop}

theorem leads_of_store (hth : σ.threads[i]? = some th) (hh : th.handler = .callbackStore p c token userinfo)
    (h : ∀ {υ uh resultId}, υ.threads[i]? = some uh → uh.request = th.request →
      uh.handler = .callbackRender p c token userinfo resultId → Leads step (ReturnsState browser) υ P) :
    Leads step (ReturnsState browser) σ P := by
  obtain ⟨resultId,hf⟩ := exists_fresh σ.shared
  have ha : advance σ.shared th (.drawResult resultId) = some
      (σ.shared.storeResult resultId p token.refreshToken c.claims,
        (th.saveResult resultId).goto (.callbackRender p c token userinfo resultId)) := by
    simp [advance,hh,hf]
  have hg : ReturnsState browser σ (.advance i (.drawResult resultId)) :=
    returns_advance hth trivial trivial fun _ _ _ _ _ _ he => by cases he
  exact Leads.step hg (step_advance hth ha) (h (getElem?_set_of_some hth) rfl rfl)

theorem leads_of_verify (hth : σ.threads[i]? = some th) (hh : th.handler = .callbackVerify p c token)
    (hn : token.idToken.nonce = some c.nonce)
    (h : ∀ {υ uh}, υ.threads[i]? = some uh → uh.request = th.request →
      uh.handler = .callbackStore p c token ∅ → Leads step (ReturnsState browser) υ P) :
    Leads step (ReturnsState browser) σ P := by
  have ha : advance σ.shared th (.validated ∅) = some (σ.shared,th.goto (.callbackStore p c token ∅)) := by
    simp [advance,hh,hn]
  have hg : ReturnsState browser σ (.advance i (.validated ∅)) :=
    returns_advance hth trivial JsonObject.shown_empty fun _ _ _ _ _ _ he => by cases he
  exact Leads.step hg (step_advance hth ha) (h (getElem?_set_of_some hth) rfl rfl)

theorem leads_of_exchange (hth : σ.threads[i]? = some th) (hh : th.handler = .callbackExchange p c)
    (hin : p ∈ th.session.states)
    (h : ∀ {υ uh}, υ.threads[i]? = some uh → uh.request = th.request →
      uh.handler = .callbackVerify p c (answered c.nonce) → Leads step (ReturnsState browser) υ P) :
    Leads step (ReturnsState browser) σ P := by
  have ha : advance σ.shared th (.tokens false none ⟨some c.nonce,∅⟩) = some (σ.shared,(th.clearState p).goto
      (.callbackVerify p c (answered c.nonce))) := by
    simp [advance,hh,hin,issueToken,receivedToken,answered]
  have hg : ReturnsState browser σ (.advance i (.tokens false none ⟨some c.nonce,∅⟩)) := by
    refine returns_advance hth trivial (answered_shown c.nonce) ?_
    intro p' c' refreshes accessToken idToken hh' he
    rw [hh] at hh'
    cases hh'
    cases he
    rfl
  exact Leads.step hg (step_advance hth ha) (h (getElem?_set_of_some hth) (clearState_request th p) rfl)

theorem leads_of_render {resultId : String} (hth : σ.threads[i]? = some th)
    (hh : th.handler = .callbackRender p c token userinfo resultId)
    (h : ∀ {υ uh}, υ.threads[i]? = some uh → uh.request = th.request → uh.Shows (renderResult
      (resultPage c.claims token userinfo "Authorization code response" resultId ∅)) →
      Leads step (ReturnsState browser) υ P) : Leads step (ReturnsState browser) σ P := by
  have ha : advance σ.shared th (.discovered ∅) = some (σ.shared,th.respond (renderResult
      (resultPage c.claims token userinfo "Authorization code response" resultId ∅))) := by
    simp [advance,hh]
  have hg : ReturnsState browser σ (.advance i (.discovered ∅)) :=
    returns_advance hth trivial JsonObject.shown_empty fun _ _ _ _ _ _ he => by cases he
  exact Leads.step hg (step_advance hth ha) (h (getElem?_set_of_some hth) rfl (Or.inl rfl))

theorem leads_of_pop (hth : σ.threads[i]? = some th) (hh : th.handler = .callbackPop (some p)) (hne : p ≠ "")
    (hc : σ.shared.authorizationCache p = some c)
    (h : ∀ {υ uh}, υ.threads[i]? = some uh → uh.request = th.request → uh.session = th.session →
      uh.handler = .callbackExchange p c → Leads step (ReturnsState browser) υ P) :
    Leads step (ReturnsState browser) σ P := by
  have hg : ReturnsState browser σ (.advance i .proceed) :=
    returns_advance hth trivial trivial fun _ _ _ _ _ _ he => by cases he
  exact Leads.step hg (step_advance hth (advance_pop hh hne hc)) (h (getElem?_set_of_some hth) rfl rfl rfl)

end Reaching

theorem OnTrack.reaches {browser : ℕ} {σ : State Object} {i : ℕ} {th : Thread Object} {p : String}
    (h : OnTrack σ.shared th p) (hne : p ≠ "") (hth : σ.threads[i]? = some th) :
    ReachesResult browser σ i := by
  -- backwards from the last remote call
  have hrender : ∀ {υ : State Object} {uh : Thread Object} {c : Context Object} {token : TokenResponse Object}
      {userinfo : Object} {resultId : String}, υ.threads[i]? = some uh →
      uh.handler = .callbackRender p c token userinfo resultId → JsonObject.shown c.claims = true → token.Shown →
      JsonObject.shown userinfo = true → ReachesResult browser υ i := by
    intro υ uh c token userinfo resultId hu hh hs ht huser
    refine leads_of_render hu hh fun {υ' uh'} hu' _ hshows => ?_
    rw [renderResult,if_pos (rendered_of_shown hs ht huser JsonObject.shown_empty)] at hshows
    exact Leads.here ⟨uh',_,hu',hshows⟩
  have hstore : ∀ {υ : State Object} {uh : Thread Object} {c : Context Object} {token : TokenResponse Object}
      {userinfo : Object}, υ.threads[i]? = some uh → uh.handler = .callbackStore p c token userinfo →
      JsonObject.shown c.claims = true → token.Shown → JsonObject.shown userinfo = true →
      ReachesResult browser υ i := by
    intro υ uh c token userinfo hu hh hs ht huser
    exact leads_of_store hu hh fun hu' _ hh' => hrender hu' hh' hs ht huser
  have hverify : ∀ {υ : State Object} {uh : Thread Object} {c : Context Object} {token : TokenResponse Object},
      υ.threads[i]? = some uh → uh.handler = .callbackVerify p c token → JsonObject.shown c.claims = true →
      token.Shown → token.idToken.nonce = some c.nonce → ReachesResult browser υ i := by
    intro υ uh c token hu hh hs ht hn
    exact leads_of_verify hu hh hn fun hu' _ hh' => hstore hu' hh' hs ht JsonObject.shown_empty
  have hexchange : ∀ {υ : State Object} {uh : Thread Object} {c : Context Object},
      υ.threads[i]? = some uh → uh.handler = .callbackExchange p c → JsonObject.shown c.claims = true →
      p ∈ uh.session.states → ReachesResult browser υ i := by
    intro υ uh c hu hh hs hin
    exact leads_of_exchange hu hh hin fun hu' _ hh' => hverify hu' hh' hs (answered_shown c.nonce) rfl
  cases h with
  | pop c hh hc hs hin =>
    exact leads_of_pop hth hh hne hc fun hu _ hsession hh' => hexchange hu hh' hs (hsession ▸ hin)
  | exchange c hh hs hin => exact hexchange hth hh hs hin
  | verify c token hh hs ht hn => exact hverify hth hh hs ht hn
  | store c token userinfo hh hs ht hu => exact hstore hth hh hs ht hu
  | render c token userinfo resultId hh hs ht hu => exact hrender hth hh hs ht hu
  | shown page hh => exact Leads.here ⟨th,page,hth,hh⟩

omit [JsonObject Object] in
theorem unsent_of_tabs {browser : ℕ} {σ : State Object} (h : Tabs browser σ) (p : String) : Unsent σ p := by
  intro th hth e d he
  obtain ⟨i,hi⟩ := List.mem_iff_getElem?.mp hth
  obtain ⟨_,⟨form,hform⟩,_⟩ := h.own i th hi
  rw [hform] at he
  cases he

omit [JsonObject Object] in
theorem pending_of_alive {browser : ℕ} {σ : State Object} (h : Tabs browser σ) {L : Login Object}
    (hL : L ∈ σ.shared.logins) (halive : σ.shared.clock - L.storedAt ≤ nanos cacheTtlSeconds) :
    ∃ c, σ.shared.authorizationCache L.contextId = some c ∧ c.claims = L.claims := by
  have hlinked := h.aging.isolated.linked
  rcases h.aging.accounted L hL with ⟨c,hc,_⟩ | ⟨th,hth,hp⟩ | ⟨t,ht,hx⟩
  · exact ⟨c,hc,congrArg Login.claims (hlinked.login_unique (hlinked.pendingLogin _ c hc) hL rfl)⟩
  · obtain ⟨i,hi⟩ := List.mem_iff_getElem?.mp hth
    obtain ⟨e,d,he⟩ := (h.aging.isolated.traced i th hi).handedRequest _ hp
    exact absurd he (unsent_of_tabs h L.contextId th hth e d)
  · have hle := h.aging.sweepsPast t ht
    have hnow := hx.mono hle
    exact absurd halive (Int.not_le.mpr hnow)

omit [JsonObject Object] in
theorem Received.notPending {th : Thread Object} (h : th.Received) : ¬ th.handler.LoginPending := by
  unfold Received at h
  split at h
  · rename_i hh
    rw [hh]
    exact fun hp => hp
  · exact False.elim h

theorem returning_of_nested {browser : ℕ} {σ : State Object} (h : Nested browser σ)
    (hreceived : ∀ th ∈ σ.threads, th.Received)
    (hshown : ∀ L ∈ σ.shared.logins, JsonObject.shown L.claims = true)
    (halive : ∀ L ∈ σ.shared.logins, σ.shared.clock - L.storedAt ≤ nanos cacheTtlSeconds) :
    Returning browser σ where
  isolated := h.tabs.aging.isolated
  sender := fun i th hth => (h.tabs.own i th hth).1
  tracked := fun i th hth =>
    Or.inl ⟨(h.tabs.own i th hth).2.1,hreceived th (List.mem_iff_getElem?.mpr ⟨i,hth⟩)⟩
  once := by
    intro i j th uh d d' p hth _ hp _
    exact absurd hp (unsent_of_tabs h.tabs p th (List.mem_iff_getElem?.mpr ⟨i,hth⟩) none d)
  unsent := by
    intro L hL _
    obtain ⟨c,hc,hclaims⟩ := pending_of_alive h.tabs hL (halive L hL)
    refine ⟨⟨c,hc,hclaims ▸ hshown L hL⟩,?_,?_⟩
    · obtain ⟨i,th,hth,hp⟩ := h.tabs.listed L hL
      have hr := hreceived th (List.mem_iff_getElem?.mpr ⟨i,hth⟩)
      exact h.kept i th L.contextId hth (Received.notPending hr) hp
    · intro i th hth hn
      exact absurd (hreceived th (List.mem_iff_getElem?.mpr ⟨i,hth⟩)) hn

theorem Shows.step {σ τ : State Object} {l : Label Object} {i : ℕ} {page : Page Object}
    (h : ∃ th, σ.threads[i]? = some th ∧ th.Shows page) (he : step σ l = some τ) :
    ∃ th, τ.threads[i]? = some th ∧ th.Shows page := by
  obtain ⟨th,hth,hs⟩ := h
  cases l with
  | tick now =>
    simp only [Client.step] at he
    split at he
    · cases he
      exact ⟨th,hth,hs⟩
    · cases he
  | send b request =>
    cases he
    exact ⟨th,getElem?_append_of_some hth,hs⟩
  | advance k input =>
    obtain ⟨uh,huh,hm⟩ := Option.bind_eq_some_iff.mp he
    obtain ⟨⟨s',uh'⟩,ha,ht⟩ := Option.map_eq_some_iff.mp hm
    subst ht
    have hne : k ≠ i := by
      rintro rfl
      rw [hth] at huh
      cases huh
      rcases hs with hh | hh
      · cases input <;> simp only [advance, hh] at ha <;> cases ha
      · cases input <;> simp only [advance, hh] at ha <;> cases ha
    exact ⟨th,(List.getElem?_set_ne hne).trans hth,hs⟩
  | receive k =>
    obtain ⟨uh,huh,hm⟩ := Option.bind_eq_some_iff.mp he
    split at hm
    · rename_i page' hh
      cases hm
      by_cases hk : k = i
      · subst hk
        rw [hth] at huh
        cases huh
        refine ⟨_,getElem?_set_of_some hth,Or.inr ?_⟩
        rcases hs with hs | hs
        · rw [hh] at hs
          cases hs
          rfl
        · rw [hh] at hs
          cases hs
      · exact ⟨th,(List.getElem?_set_ne hk).trans hth,hs⟩
    · cases hm

theorem not_reachesResult {browser : ℕ} {σ : State Object} {i : ℕ} {th : Thread Object} {page : Page Object}
    (hth : σ.threads[i]? = some th) (hs : th.Shows page) (hp : page.Plain) : ¬ ReachesResult browser σ i := by
  rintro ⟨ls,τ,_,hr,uh,rp,huh,hu⟩
  obtain ⟨wh,hwh,hw⟩ := run_invariant Shows.step ⟨th,hth,hs⟩ hr
  rw [huh] at hwh
  cases hwh
  rcases hw with hw | hw <;> rcases hu with hu | hu <;> rw [hw] at hu <;> cases hu <;> exact hp

/-- The page of the callback of a login is another one than its result. -/
def Fails (browser : ℕ) (p : String) (σ : State Object) : Prop :=
  ∃ ms υ i th, Along step (ReturnsState browser) σ ms ∧ run step σ ms = some υ ∧ υ.threads[i]? = some th ∧
    (∃ d, th.request = .callback none d (some p)) ∧ ¬ ReachesResult browser υ i

/-- A callback fails when its state is not in the cookie, after the pop, and when no page can show its claims. -/
theorem callback_fails {browser : ℕ} {σ : State Object} (h : Tabs browser σ) {L : Login Object}
    (hL : L ∈ σ.shared.logins) (halive : σ.shared.clock - L.storedAt ≤ nanos cacheTtlSeconds)
    (hbad : L.contextId ∉ (σ.jars browser).states ∨ JsonObject.shown L.claims ≠ true) :
    Fails browser L.contextId σ := by
  obtain ⟨c,hc,hclaims⟩ := pending_of_alive h hL halive
  have hne : L.contextId ≠ "" := h.aging.isolated.linked.loginNamed L hL
  have hsent : Leads step (ReturnsState browser) σ (fun υ => ∃ (i : ℕ) (th : Thread Object) (page : Page Object),
      υ.threads[i]? = some th ∧ (∃ d, th.request = .callback none d (some L.contextId)) ∧ th.Shows page ∧
        page.Plain) := by
    have hu := unsent_of_tabs h L.contextId
    have hg : ReturnsState browser σ (.send browser (.callback none none (some L.contextId))) :=
      ⟨rfl,L,hL,none,rfl,halive,fun th hth e d => hu th hth e d⟩
    refine Leads.step hg rfl ?_
    have hth : (σ.threads ++ [arrive σ browser (.callback none none (some L.contextId))])[σ.threads.length]? =
        some (arrive σ browser (.callback none none (some L.contextId))) := by simp
    refine leads_of_pop hth rfl hne hc fun {υ uh} huh hrequest hsession hh => ?_
    by_cases hin : L.contextId ∈ (σ.jars browser).states
    · have hunshown : JsonObject.shown c.claims ≠ true := hclaims ▸ hbad.resolve_left (fun hlost => hlost hin)
      refine leads_of_exchange huh hh (hsession ▸ hin) fun {υ₁ uh₁} huh₁ hreq₁ hh₁ => ?_
      refine leads_of_verify huh₁ hh₁ rfl fun {υ₂ uh₂} huh₂ hreq₂ hh₂ => ?_
      refine leads_of_store huh₂ hh₂ fun {υ₃ uh₃ resultId} huh₃ hreq₃ hh₃ => ?_
      refine leads_of_render huh₃ hh₃ fun {υ₄ uh₄} huh₄ hreq₄ hshows => ?_
      have hrequest₄ : uh₄.request = .callback none none (some L.contextId) :=
        hreq₄.trans (hreq₃.trans (hreq₂.trans (hreq₁.trans hrequest)))
      refine Leads.here ⟨_,uh₄,_,huh₄,⟨none,hrequest₄⟩,hshows,?_⟩
      rw [renderResult,if_neg]
      · trivial
      · simp [ResultPage.rendered,resultPage,hunshown]
    · have ha : advance υ.shared uh (.tokens false none ⟨some c.nonce,∅⟩) =
          some (υ.shared,uh.respond tokenValidationFailed) := advance_exchange_lost hh (hsession ▸ hin)
      have hexchanges : Input.Succeeds (.tokens false none ⟨some c.nonce,∅⟩ : Input Object) := trivial
      refine Leads.step (returns_advance huh hexchanges (answered_shown c.nonce) ?_) (step_advance huh ha) ?_
      · intro p' c' refreshes accessToken idToken hh' he
        rw [hh] at hh'
        cases hh'
        cases he
        rfl
      · exact Leads.here ⟨_,_,_,getElem?_set_of_some huh,⟨none,hrequest⟩,Or.inl rfl,trivial⟩
  obtain ⟨ms,υ,hall,hr,i,th,page,hth,hq,hs,hplain⟩ := hsent
  exact ⟨ms,υ,i,th,hall,hr,hth,hq,not_reachesResult hth hs hplain⟩

theorem overlap_loses {browser : ℕ} {start : ℤ} {ls : List (Label Object)} {σ : State Object}
    (hr : run step (initial start) ls = some σ) (hg : Along step (LogsIn browser) (initial start) ls)
    (hreceived : ∀ th ∈ σ.threads, th.Received) (hbad : ¬ Along step (OneAtATime browser) (initial start) ls) :
    ∃ L ∈ σ.shared.logins, L.contextId ∉ (σ.jars browser).states := by
  obtain ⟨xs,l,ys,υ,rfl,-,hυ,hover⟩ := exists_rejected hr hbad
  have htabs : Tabs browser υ := run_invariant_along Tabs.step (tabs_initial start browser) hg.left hυ
  obtain ⟨hgl,hgys⟩ := hg.append hυ
  rw [run_append, hυ, Option.bind_some, run_cons] at hr
  obtain ⟨ω,he,hys⟩ := Option.bind_eq_some_iff.mp hr
  cases l with
  | send b request =>
    cases request with
    | login form =>
      have hb : b = browser := hgl
      subst hb
      simp only [OneAtATime, not_forall, not_not] at hover
      obtain ⟨hvalid,th,hth,_,hpend⟩ := hover
      obtain ⟨i,hi⟩ := List.mem_iff_getElem?.mp hth
      have hrival : Rival b i υ.threads.length ω := by
        cases he
        exact rival_of_overlap htabs hi hpend hvalid
      have hboth : Tabs b σ ∧ Rival b i υ.threads.length σ := by
        have hstep : ∀ {s : State Object} {l : Label Object} {t : State Object},
            Tabs b s ∧ Rival b i υ.threads.length s → LogsIn b s l → step s l = some t →
            Tabs b t ∧ Rival b i υ.threads.length t := by
          intro s l t hs hg ht
          exact ⟨hs.1.step hg ht,hs.2.step hs.1 hg ht⟩
        exact run_invariant_along hstep ⟨htabs.step hgl he,hrival⟩ (hgys ω he) hys
      obtain ⟨ht,h⟩ := hboth
      -- both logins were answered, so both drew a state
      have hissued : ∀ {k : ℕ} (hk : k < σ.threads.length),
          (∀ x, σ.threads[k]? = some x → x.handler.Opens) →
          ∃ x p, σ.threads[k]? = some x ∧ x.handler.issued = some p := by
        intro k hk ho
        have hx := List.getElem?_eq_getElem hk
        rcases ho _ hx with hp | hp
        · exact absurd hp (Received.notPending (hreceived _ (List.getElem_mem hk)))
        · obtain ⟨p,hp⟩ := Option.isSome_iff_exists.mp hp
          exact ⟨_,p,hx,hp⟩
      obtain ⟨x,p,hx,hp⟩ := hissued h.left h.opens
      obtain ⟨y,q,hy,hq⟩ := hissued h.right h.opens'
      obtain ⟨L,hL,hLp⟩ := ht.issuedKnown _ x hx p hp
      obtain ⟨M,hM,hMq⟩ := ht.issuedKnown _ y hy q hq
      rcases Decidable.not_and_iff_not_or_not.mp (h.jar x y p q hx hy hp hq) with hlost | hlost
      · exact ⟨L,hL,hLp ▸ hlost⟩
      · exact ⟨M,hM,hMq ▸ hlost⟩
    | home => exact False.elim hgl
    | callback _ _ _ => exact False.elim hgl
    | refresh _ => exact False.elim hgl
  | tick _ => exact absurd trivial hover
  | advance _ _ => exact absurd trivial hover
  | receive _ => exact absurd trivial hover

/-- After any run of logins of one browser, all answered and none expired, the
callbacks of all their states reach the result page, in every order and overlap,
exactly if no login was sent while another one was pending and a page can show the
claims of each. -/
theorem parallel_tabs_iff {browser : ℕ} {start : ℤ} {ls : List (Label Object)} {σ : State Object}
    (hr : run step (initial start) ls = some σ) (hg : Along step (LogsIn browser) (initial start) ls)
    (hreceived : ∀ th ∈ σ.threads, th.Received)
    (halive : ∀ L ∈ σ.shared.logins, σ.shared.clock - L.storedAt ≤ nanos cacheTtlSeconds) :
    (∀ ms υ i th, Along step (ReturnsState browser) σ ms → run step σ ms = some υ → υ.threads[i]? = some th →
      (∃ error description state, th.request = .callback error description state) →
      ReachesResult browser υ i) ↔
    Along step (OneAtATime browser) (initial start) ls ∧ ∀ L ∈ σ.shared.logins, JsonObject.shown L.claims = true := by
  have ht : Tabs browser σ := run_invariant_along Tabs.step (tabs_initial start browser) hg hr
  constructor
  · intro h
    have hnever : ∀ L ∈ σ.shared.logins,
        ¬ (L.contextId ∉ (σ.jars browser).states ∨ JsonObject.shown L.claims ≠ true) := by
      intro L hL hbad
      obtain ⟨ms,υ,i,th,hms,hυ,hth,⟨d,hq⟩,hfail⟩ := callback_fails ht hL (halive L hL) hbad
      exact hfail (h ms υ i th hms hυ hth ⟨none,d,some L.contextId,hq⟩)
    constructor
    · by_contra hbad
      obtain ⟨L,hL,hlost⟩ := overlap_loses hr hg hreceived hbad
      exact hnever L hL (Or.inl hlost)
    · intro L hL
      by_contra hbad
      exact hnever L hL (Or.inr hbad)
  · rintro ⟨hone,hshown⟩ ms υ i th hms hυ hth hq
    have hnested : Nested browser σ :=
      run_invariant_along Nested.step (nested_initial start browser) (hg.and hone) hr
    have hreturning : Returning browser υ :=
      run_invariant_along Returning.step (returning_of_nested hnested hreceived hshown halive) hms hυ
    rcases hreturning.tracked i th hth with ⟨⟨form,hform⟩,_⟩ | ⟨d,L,hL,_,htrack⟩
    · obtain ⟨e,d,s,he⟩ := hq
      rw [hform] at he
      cases he
    · exact htrack.reaches (hreturning.isolated.linked.loginNamed L hL) hth

instance (input : Input Object) : Decidable input.Succeeds := by
  unfold Input.Succeeds
  split <;> infer_instance

instance (browser : ℕ) (σ : State Object) (l : Label Object) : Decidable (LogsIn browser σ l) :=
  match l with
  | .send b (.login _) => inferInstanceAs (Decidable (b = browser))
  | .send _ .home | .send _ (.callback ..) | .send _ (.refresh _) => .isFalse not_false
  | .advance _ input => inferInstanceAs (Decidable input.Succeeds)
  | .tick _ | .receive _ => .isTrue trivial

instance (browser : ℕ) (σ : State Object) (l : Label Object) : Decidable (OneAtATime browser σ l) :=
  match l with
  | .send _ (.login form) =>
    inferInstanceAs (Decidable ((form.omitClaims = true ∨ form.parsed.isSome = true) →
      ∀ th ∈ σ.threads, th.browser = browser → ¬ th.handler.LoginPending))
  | .send _ .home | .send _ (.callback ..) | .send _ (.refresh _) | .tick _ | .advance .. | .receive _ =>
    .isTrue trivial

/-- The second tab sends its login before the first tab has its answer. -/
def overlappingLogins : List (Label (List ℕ)) :=
  [.send 0 (.login (formOf [1])),.send 0 (.login (formOf [2])),.advance 0 .proceed,.advance 1 .proceed,
    .advance 0 (.drawLogin "n1" "s1"),.advance 1 (.drawLogin "n2" "s2"),.advance 0 .proceed,
    .advance 1 .proceed,.receive 0,.receive 1]

def loginsInTurn : List (Label (List ℕ)) :=
  [.send 0 (.login (formOf [1])),.advance 0 .proceed,.advance 0 (.drawLogin "n1" "s1"),.advance 0 .proceed,
    .receive 0,.send 0 (.login (formOf [2])),.advance 1 .proceed,.advance 1 (.drawLogin "n2" "s2"),
    .advance 1 .proceed,.receive 1]

theorem overlapping_tab_lost :
    ¬ ∀ (start : ℤ) (ls ms : List (Label (List ℕ))) (σ υ : State (List ℕ)) (i : ℕ) (th : Thread (List ℕ)),
      run step (initial start) ls = some σ → Along step (LogsIn 0) (initial start) ls →
      (∀ th ∈ σ.threads, th.Received) →
      (∀ L ∈ σ.shared.logins, σ.shared.clock - L.storedAt ≤ nanos cacheTtlSeconds) →
      Along step (ReturnsState 0) σ ms → run step σ ms = some υ → υ.threads[i]? = some th →
      (∃ error description state, th.request = .callback error description state) → ReachesResult 0 υ i := by
  intro h
  have hrun : ∃ σ, run step (initial 0) overlappingLogins = some σ ∧ (∀ th ∈ σ.threads, th.Received) ∧
      (∀ L ∈ σ.shared.logins, σ.shared.clock - L.storedAt ≤ nanos cacheTtlSeconds) ∧
      (σ.jars 0).states = ["s2"] ∧ ∃ L ∈ σ.shared.logins, L.contextId = "s1" :=
    ⟨_,rfl,by decide,by decide,rfl,_,List.mem_cons_of_mem _ List.mem_cons_self,rfl⟩
  obtain ⟨σ,hr,hreceived,halive,hjar,L,hL,hs⟩ := hrun
  have hg : Along step (LogsIn 0) (initial 0) overlappingLogins := by decide
  have ht : Tabs 0 σ := run_invariant_along Tabs.step (tabs_initial 0 0) hg hr
  have hlost : L.contextId ∉ (σ.jars 0).states := by
    rw [hs, hjar]
    decide
  obtain ⟨ms,υ,i,th,hms,hυ,hth,⟨d,hq⟩,hfail⟩ := callback_fails ht hL (halive L hL) (Or.inl hlost)
  exact hfail (h 0 _ ms σ υ i th hr hg hreceived halive hms hυ hth ⟨none,d,some L.contextId,hq⟩)

/-- Two logins in turn: both states come back to their result pages. -/
theorem parallel_tabs_in_turn :
    ∃ σ, run step (initial 0) loginsInTurn = some σ ∧
      ∀ ms υ i th, Along step (ReturnsState 0) σ ms → run step σ ms = some υ → υ.threads[i]? = some th →
        (∃ error description state, th.request = .callback error description state) →
        ReachesResult 0 υ i := by
  have hrun : ∃ σ, run step (initial 0) loginsInTurn = some σ ∧ (∀ th ∈ σ.threads, th.Received) ∧
      (∀ L ∈ σ.shared.logins, σ.shared.clock - L.storedAt ≤ nanos cacheTtlSeconds) ∧
      ∀ L ∈ σ.shared.logins, JsonObject.shown L.claims = true :=
    ⟨_,rfl,by decide,by decide,by decide⟩
  obtain ⟨σ,hr,hreceived,halive,hshown⟩ := hrun
  exact ⟨σ,hr,(parallel_tabs_iff hr (by decide) hreceived halive).mpr ⟨by decide,hshown⟩⟩

end Oidc4acLab.Client
