import Oidc4acLab.Client.Provenance

/-! # Concurrent authorizations do not mix

One step of a handler keeps the caches linked, keeps every other request traced
and traces its own. Over whole runs, a context goes to one callback at most, a
result page shows the claims of the login behind it, and a context that has not
expired stays until its own callback takes it.
-/
namespace Oidc4acLab.Client
open Transition Shared Thread
variable {Object : Type}

theorem keeps_pruneCaches (own : Option String) (s : Shared Object) : Keeps own s s.pruneCaches :=
  { Keeps.refl own s with
    gone := by
      intro p _ hp
      simp [pruneCaches,hp] }

theorem keeps_storeContext (own : Option String) {s : Shared Object} {contextId : String} (nonce : String)
    (claims : Object) (hf : s.Fresh contextId) : Keeps own s (s.storeContext contextId nonce claims) where
  issued := by
    intro k hk
    simp [storeContext,hk]
  logins := fun L hL => List.mem_cons_of_mem _ hL
  stored := fun _ _ h => h
  spends := fun _ h => Or.inl h
  gone := by
    intro p hp hnone
    have hne : p ≠ contextId := by
      rintro rfl
      exact hf.2 hp
    simp [storeContext,Function.update_of_ne hne,hnone]

theorem keeps_popContext (own : Option String) (s : Shared Object) (contextId : String) :
    Keeps own s (s.popContext contextId) :=
  { Keeps.refl own s with
    gone := by
      intro p _ hnone
      cases hc : (s.popContext contextId).authorizationCache p with
      | none => rfl
      | some c =>
        have hp := (authorizationCache_popContext hc).2
        rw [hnone] at hp
        cases hp }

theorem keeps_issueToken (own : Option String) (s : Shared Object) (refreshes : Bool) :
    Keeps own s (s.issueToken refreshes) := by
  unfold issueToken
  split <;> exact ⟨fun _ h => h,fun _ h => h,fun _ _ h => h,fun _ h => Or.inl h,fun _ _ h => h⟩

theorem keeps_storeResult (s : Shared Object) (resultId contextId : String)
    (refreshToken : Option RefreshToken) (claims : Object) :
    Keeps (some contextId) s (s.storeResult resultId contextId refreshToken claims) where
  issued := fun k hk => List.mem_cons_of_mem _ hk
  logins := fun _ h => h
  stored := fun _ _ h => getElem?_append_of_some h
  spends := by
    intro r hr
    rcases List.mem_append.mp hr with hr | hr
    · exact Or.inl hr
    · cases List.mem_singleton.mp hr
      exact Or.inr rfl
  gone := fun _ _ h => h

theorem keeps_modifyEntry (own : Option String) (s : Shared Object) (cached : ℕ)
    (f : Entry Object → Entry Object) : Keeps own s { s with entries := s.entries.modify cached f } :=
  ⟨fun _ h => h,fun _ h => h,fun _ _ h => h,fun _ h => Or.inl h,fun _ _ h => h⟩

theorem Linked.unspent_of_fresh {s : Shared Object} (h : Linked s) {contextId : String}
    (hf : s.Fresh contextId) : s.Unspent contextId := by
  intro r hr he
  obtain ⟨i,hi⟩ := List.mem_iff_getElem?.mp hr
  obtain ⟨e,hentry⟩ := h.entry hi
  obtain ⟨L,hL,hc,_⟩ := h.storedClaims i r e hi hentry
  exact hf.2 (he ▸ hc ▸ h.loginIssued L hL)

/-- What a handler's step leaves behind. -/
structure Outcome (s : Shared Object) (th : Thread Object) (s' : Shared Object) (th' : Thread Object) : Prop where
  linked : Linked s'
  keeps : Keeps th'.handed s s'
  handler : HandlerTraced s' th' th'.handler
  request : th'.request = th.request
  handed : th'.handed = th.handed ∨
    ∃ p c, th.handler = .callbackPop (some p) ∧ th'.handed = some p ∧ s.authorizationCache p = some c ∧
      s'.authorizationCache p = none

theorem Given.move {s : Shared Object} {th th' : Thread Object} {L : Login Object} (h : Given s th L)
    (hr : th'.request = th.request) (hh : th'.handed = th.handed) : Given s th' L :=
  ⟨hr ▸ h.request,hh ▸ h.handed,h.login⟩

theorem Named.move {th th' : Thread Object} {k : Option String} (h : Named th k)
    (hr : th'.request = th.request) : Named th' k := by
  obtain ⟨named,hn,hk⟩ := h
  exact ⟨named,hr ▸ hn,hk⟩

theorem pageTraced_of_plain {s : Shared Object} {th : Thread Object} {page : Page Object} (h : page.Plain) :
    PageTraced s th page := by
  cases page with
  | result page => exact h.elim
  | workbench _ => trivial
  | redirect _ _ _ _ _ => trivial
  | error _ _ _ => trivial
  | internalServerError => trivial

theorem Effect.outcome {s s' : Shared Object} {th th' : Thread Object} (h : Effect s th s' th')
    (hs : Linked s) (ht : Traced s th) : Outcome s th s' th' := by
  have hh := ht.handler
  have hr := h.sameRequest.request
  cases h with
  | settled page he hp hk _ hplain =>
    subst he
    refine ⟨hs,Keeps.refl _ _,?_,hr,Or.inl hk⟩
    rw [hp]
    exact pageTraced_of_plain hplain
  | pruned h' he hth hcases =>
    subst he hth
    refine ⟨hs.pruneCaches,keeps_pruneCaches _ _,?_,hr,Or.inl rfl⟩
    rcases hcases with ⟨status,_,rfl⟩ | ⟨form,claims,_,rfl⟩ | ⟨k,hk,rfl⟩
    · trivial
    · trivial
    · rw [hk] at hh
      exact Named.move hh rfl
  | contextStored form claims nonce contextId hk hn hc hne he hth =>
    subst he hth
    exact ⟨hs.storeContext claims (hs.unspent_of_fresh hc) hc,keeps_storeContext _ nonce claims hc,trivial,
      hr,Or.inl rfl⟩
  | contextPopped state context hk hne hc he hth =>
    subst he hth
    rw [hk] at hh
    have hgone : (s.popContext state).authorizationCache state = none := by simp [popContext]
    refine ⟨hs.popContext state,keeps_popContext _ s state,?_,hr,Or.inr ⟨state,context,hk,rfl,hc,hgone⟩⟩
    exact ⟨⟨hh.2,rfl,hs.pendingLogin state context hc⟩,hs.pendingUnspent state context hc⟩
  | callbackExchanged state context refreshes accessToken idToken hk hin he hth =>
    subst he hth
    rw [hk] at hh
    have hkeep := keeps_issueToken none s refreshes
    refine ⟨hs.issueToken refreshes,keeps_issueToken _ s refreshes,?_,hr,Or.inl (by simp [goto])⟩
    exact ⟨hkeep.given (hh.1.move (by simp [goto]) (by simp [goto])),hkeep.unspent hh.2 (by simp)⟩
  | callbackValidated state context token userinfo hk hn he hth =>
    subst he hth
    rw [hk] at hh
    exact ⟨hs,Keeps.refl _ _,⟨⟨hh.1.move rfl rfl,hh.2⟩,hn⟩,hr,Or.inl rfl⟩
  | resultStored state context token userinfo resultId hk hf he hth =>
    subst he hth
    rw [hk] at hh
    obtain ⟨⟨hg,hu⟩,hn⟩ := hh
    have hgone := (ht.handedGone state hg.handed).1
    have hkeep := keeps_storeResult s resultId state token.refreshToken context.claims
    refine ⟨hs.storeResult hg.login rfl hf hu hgone,?_,?_,hr,Or.inl rfl⟩
    · have hown : ((th.saveResult resultId).goto
          (.callbackRender state context token userinfo resultId)).handed = some state := hg.handed
      rw [hown]
      exact hkeep
    · exact ⟨hkeep.given (hg.move rfl rfl),hn,List.mem_append_right _ List.mem_cons_self⟩
  | callbackRendered state context token userinfo resultId discovery hk he hth =>
    subst he hth
    rw [hk] at hh
    exact ⟨hs,Keeps.refl _ _,Or.inl ⟨context.login state,hh.1.move rfl rfl,rfl,hh.2.1,hh.2.2⟩,hr,
      Or.inl rfl⟩
  | refreshFound k cached hk hc _ he hth =>
    subst he hth
    rw [hk] at hh
    exact ⟨hs,Keeps.refl _ _,⟨Named.move hh rfl,hs.cachedStored k cached hc⟩,hr,Or.inl rfl⟩
  | refreshExchanged k cached refreshes accessToken idToken hk he hth =>
    subst he hth
    rw [hk] at hh
    have hkeep := keeps_issueToken none s refreshes
    refine ⟨hs.issueToken refreshes,keeps_issueToken _ s refreshes,?_,hr,Or.inl rfl⟩
    exact ⟨Named.move hh.1 rfl,hh.2.imp fun _ hp => hkeep.stored _ _ hp⟩
  | refreshValidated k cached token userinfo hk he hth =>
    subst he hth
    rw [hk] at hh
    exact ⟨hs,Keeps.refl _ _,⟨Named.move hh.1 rfl,hh.2⟩,hr,Or.inl rfl⟩
  | tokenWritten k cached token userinfo hk he hth =>
    subst he hth
    rw [hk] at hh
    exact ⟨hs.writeToken cached token.refreshToken,keeps_modifyEntry _ s cached _,⟨Named.move hh.1 rfl,hh.2⟩,
      hr,Or.inl rfl⟩
  | entryTouched k cached token userinfo hk he hth =>
    subst he hth
    rw [hk] at hh
    exact ⟨hs.touchEntry cached,keeps_modifyEntry _ s cached _,⟨Named.move hh.1 rfl,hh.2⟩,
      hr,Or.inl rfl⟩
  | refreshRendered k cached token userinfo e discovery hk he hq hth =>
    subst hq hth
    rw [hk] at hh
    obtain ⟨hn,p,hp⟩ := hh
    obtain ⟨L,hL,hc,hclaims⟩ := hs.storedClaims cached ⟨k,p⟩ e hp he
    refine ⟨hs,Keeps.refl _ _,Or.inr ⟨Named.move hn rfl,L,hL,hclaims,?_⟩,hr,Or.inl rfl⟩
    rw [hc]
    exact List.mem_iff_getElem?.mpr ⟨cached,hp⟩

theorem Outcome.handed_mono {s s' : Shared Object} {th th' : Thread Object} (h : Outcome s th s' th')
    (ht : Traced s th) {p : String} (hp : th.handed = some p) : th'.handed = some p := by
  rcases h.handed with he | ⟨q,c,hpop,_⟩
  · rw [he]
    exact hp
  · have hh := ht.handler
    rw [hpop] at hh
    rw [hh.1] at hp
    cases hp

theorem Outcome.traced {s s' : Shared Object} {th th' : Thread Object} (h : Outcome s th s' th')
    (hs : Linked s) (ht : Traced s th) : Traced s' th' where
  handler := h.handler
  handedRequest := by
    intro p hp
    rw [h.request]
    rcases h.handed with he | ⟨q,c,hpop,hq,_⟩
    · exact ht.handedRequest p (he ▸ hp)
    · have hh := ht.handler
      rw [hpop] at hh
      rw [hq] at hp
      cases hp
      exact hh.2
  handedGone := by
    intro p hp
    rcases h.handed with he | ⟨q,c,_,hq,hc,hgone⟩
    · obtain ⟨hnone,hi⟩ := ht.handedGone p (he ▸ hp)
      exact ⟨h.keeps.gone p hi hnone,h.keeps.issued p hi⟩
    · rw [hq] at hp
      cases hp
      exact ⟨hgone,h.keeps.issued _ (hs.loginIssued _ (hs.pendingLogin _ c hc))⟩

/-- A context leaves the cache by a sweep that finds it expired or by a callback
with its state. -/
theorem Effect.authorizationCache {s s' : Shared Object} {th th' : Thread Object} (h : Effect s th s' th')
    (hs : Linked s) {p : String} {c : Context Object} (hc : s.authorizationCache p = some c) :
    s'.authorizationCache p = some c ∨ c.createdAt < s.cutoff ∨ th.handler = .callbackPop (some p) := by
  have hch := h.change
  cases hch with
  | pruned _ =>
    by_cases hlt : c.createdAt < s.cutoff
    · exact Or.inr (Or.inl hlt)
    · left
      simp [pruneCaches,hc,hlt]
  | contextStored contextId nonce claims hf =>
    have hne : p ≠ contextId := by
      rintro rfl
      exact hf.2 (hs.loginIssued _ (hs.pendingLogin _ c hc))
    left
    simp [storeContext,Function.update_of_ne hne,hc]
  | contextPopped state _ hh _ _ =>
    by_cases hp : p = state
    · exact Or.inr (Or.inr (hp ▸ hh))
    · left
      simp [popContext,Function.update_of_ne hp,hc]
  | tokenIssued refreshes => exact Or.inl ((authorizationCache_issueToken s refreshes).symm ▸ hc)
  | same => exact Or.inl hc
  | resultStored _ _ _ _ _ => exact Or.inl hc
  | tokenWritten _ _ _ _ _ => exact Or.inl hc
  | entryTouched _ => exact Or.inl hc

structure Isolated (σ : State Object) : Prop where
  linked : Linked σ.shared
  traced : ∀ (i : ℕ) (th : Thread Object), σ.threads[i]? = some th → Traced σ.shared th
  handedOnce : ∀ (i j : ℕ) (th uh : Thread Object) (p : String), σ.threads[i]? = some th →
    σ.threads[j]? = some uh → th.handed = some p → uh.handed = some p → i = j

theorem traced_received {s : Shared Object} {th : Thread Object} {page : Page Object} (ht : Traced s th)
    (hh : th.handler = .responding page) : Traced s (th.goto (.received page)) where
  handler := by
    have hp := ht.handler
    rw [hh] at hp
    cases page with
    | result page =>
      rcases hp with ⟨L,hg,h⟩ | ⟨hn,h⟩
      · exact Or.inl ⟨L,hg.move rfl rfl,h⟩
      · exact Or.inr ⟨Named.move hn rfl,h⟩
    | workbench _ => trivial
    | redirect _ _ _ _ _ => trivial
    | error _ _ _ => trivial
    | internalServerError => trivial
  handedRequest := ht.handedRequest
  handedGone := ht.handedGone

theorem isolated_initial (start : ℤ) : Isolated (initial start : State Object) where
  linked := linked_initial start
  traced := by intro i th h; cases h
  handedOnce := by intro i j th uh p h; cases h

/-- Replacing a request by one that holds nothing new keeps every context with
one holder. -/
theorem handedOnce_set {threads : List (Thread Object)} {k : ℕ} {old new : Thread Object}
    (h : ∀ (i j : ℕ) (th uh : Thread Object) (p : String), threads[i]? = some th → threads[j]? = some uh →
      th.handed = some p → uh.handed = some p → i = j)
    (hold : threads[k]? = some old)
    (hnew : ∀ p, new.handed = some p → old.handed = some p ∨
      ∀ (j : ℕ) (uh : Thread Object), threads[j]? = some uh → uh.handed ≠ some p) :
    ∀ (i j : ℕ) (th uh : Thread Object) (p : String), (threads.set k new)[i]? = some th →
      (threads.set k new)[j]? = some uh → th.handed = some p → uh.handed = some p → i = j := by
  intro i j th uh p hi hj hth huh
  rcases getElem?_set_cases hi with ⟨_,hi'⟩ | ⟨rfl,rfl⟩
  · rcases getElem?_set_cases hj with ⟨_,hj'⟩ | ⟨rfl,rfl⟩
    · exact h i j th uh p hi' hj' hth huh
    · rcases hnew p huh with ho | hnone
      · exact h i j th old p hi' hold hth ho
      · exact absurd hth (hnone i th hi')
  · rcases getElem?_set_cases hj with ⟨_,hj'⟩ | ⟨rfl,rfl⟩
    · rcases hnew p hth with ho | hnone
      · exact h i j old uh p hold hj' ho huh
      · exact absurd huh (hnone j uh hj')
    · rfl

/-- The page that the request was answered with. -/
def Thread.Shows (th : Thread Object) (page : Page Object) : Prop :=
  th.handler = .responding page ∨ th.handler = .received page

/-- Exactly one login was ever stored under the context. -/
def OnlyLogin (s : Shared Object) (contextId : String) (L : Login Object) : Prop :=
  s.logins.filter (fun M => M.contextId == contextId) = [L]

theorem Linked.login_unique {s : Shared Object} (h : Linked s) {L M : Login Object} (hL : L ∈ s.logins)
    (hM : M ∈ s.logins) (he : L.contextId = M.contextId) : L = M := List.inj_on_of_nodup_map h.loginsDistinct hL hM he

theorem Linked.onlyLogin {s : Shared Object} (h : Linked s) {L : Login Object} (hL : L ∈ s.logins) :
    OnlyLogin s L.contextId L := by
  have hd := h.loginsDistinct
  unfold OnlyLogin
  generalize s.logins = logins at hd hL
  induction logins with
  | nil => cases hL
  | cons M logins ih =>
    obtain ⟨hM,hd⟩ := List.nodup_cons.mp hd
    rcases List.mem_cons.mp hL with rfl | hL
    · have hnone : logins.filter (fun M => M.contextId == L.contextId) = [] := by
        refine List.filter_eq_nil_iff.mpr ?_
        intro N hN he
        exact hM (List.mem_map.mpr ⟨N,hN,by simpa using he⟩)
      simp [hnone]
    · have hne : (M.contextId == L.contextId) = false := by
        refine beq_eq_false_iff_ne.mpr ?_
        intro he
        exact hM (he ▸ List.mem_map_of_mem hL)
      rw [List.filter_cons, hne]
      exact ih hd hL

theorem Traced.page {s : Shared Object} {th : Thread Object} {page : ResultPage Object} (h : Traced s th)
    (hp : th.Shows (.result page)) : ShowsLogin s th page ∨ ShowsEntry s th page := by
  have hh := h.handler
  rcases hp with hp | hp
  · rw [hp] at hh
    exact hh
  · rw [hp] at hh
    exact hh

theorem callback_page {σ : State Object} (h : Isolated σ) {i : ℕ} {th : Thread Object}
    {page : ResultPage Object} (hth : σ.threads[i]? = some th) (hp : th.Shows (.result page))
    {error description state : Option String} (hr : th.request = .callback error description state) :
    ∃ L, state = some L.contextId ∧ th.handed = state ∧ OnlyLogin σ.shared L.contextId L ∧
      page.claims = L.claims ∧ page.idToken.nonce = some L.nonce := by
  rcases (h.traced i th hth).page hp with ⟨L,hg,hc,hn,_⟩ | ⟨⟨named,hn,_⟩,_⟩
  · obtain ⟨e,d,hreq⟩ := hg.request
    rw [hr] at hreq
    cases hreq
    exact ⟨L,rfl,hg.handed,h.linked.onlyLogin hg.login,hc,hn⟩
  · rw [hr] at hn
    cases hn

theorem refresh_page {σ : State Object} (h : Isolated σ) {i : ℕ} {th : Thread Object}
    {page : ResultPage Object} (hth : σ.threads[i]? = some th) (hp : th.Shows (.result page)) {k : String}
    (hr : th.request = .refresh (some k)) (hk : k ≠ "") :
    page.resultId = k ∧ ∃ L, (⟨k,L.contextId⟩ : Stored) ∈ σ.shared.stored ∧
      OnlyLogin σ.shared L.contextId L ∧ page.claims = L.claims := by
  rcases (h.traced i th hth).page hp with ⟨L,hg,_⟩ | ⟨⟨named,hn,hv⟩,L,hL,hc,hs⟩
  · obtain ⟨e,d,hreq⟩ := hg.request
    rw [hr] at hreq
    cases hreq
  · rw [hr] at hn
    cases hn
    have ht : truthy (some k) = some k := by simp [truthy,hk]
    have he : page.resultId = k := Option.some.inj (hv k ht)
    rw [he] at hs
    exact ⟨he,L,hs,h.linked.onlyLogin hL,hc⟩

variable [JsonObject Object]

theorem traced_arrive (σ : State Object) (browser : ℕ) (request : Request Object) :
    Traced σ.shared (arrive σ browser request) where
  handler := by
    unfold arrive
    cases request with
    | home => trivial
    | login form =>
      simp only [enter]
      split
      · trivial
      · split <;> trivial
    | callback error errorDescription state =>
      simp only [enter]
      split
      · trivial
      · exact ⟨rfl,error,errorDescription,rfl⟩
    | refresh resultId =>
      refine ⟨resultId,rfl,?_⟩
      intro k hk
      simp [hk]
  handedRequest := by
    intro p hp
    cases hp
  handedGone := by
    intro p hp
    cases hp

theorem handed_arrive {σ : State Object} {browser : ℕ} {request : Request Object} {i : ℕ} {th : Thread Object}
    {p : String} (h : (σ.threads ++ [arrive σ browser request])[i]? = some th) (hp : th.handed = some p) :
    σ.threads[i]? = some th := by
  rcases getElem?_append_cases h with h | ⟨_,rfl⟩
  · exact h
  · cases hp

theorem Isolated.step {σ τ : State Object} {l : Label Object} (h : Isolated σ)
    (he : step σ l = some τ) : Isolated τ := by
  cases step_cases he with
  | ticked now _ _ ht =>
    subst ht
    have hk : Keeps none σ.shared { σ.shared with clock := now } :=
      ⟨fun _ h => h,fun _ h => h,fun _ _ h => h,fun _ h => Or.inl h,fun _ _ h => h⟩
    exact ⟨h.linked.tick now,fun i th hth => (h.traced i th hth).keep hk (by simp),h.handedOnce⟩
  | sent browser request _ ht =>
    subst ht
    refine ⟨h.linked,forall_append h.traced (traced_arrive σ browser request),?_⟩
    intro i j th uh p hi hj hth huh
    exact h.handedOnce i j th uh p (handed_arrive hi hth) (handed_arrive hj huh) hth huh
  | advanced k input th s' th' _ hth hf ht =>
    subst ht
    have ho := hf.outcome h.linked (h.traced k th hth)
    -- nobody else holds a context that is still cached
    have hnew : ∀ p, th'.handed = some p → th.handed = some p ∨
        ∀ (j : ℕ) (uh : Thread Object), σ.threads[j]? = some uh → uh.handed ≠ some p := by
      intro p hp
      rcases ho.handed with heq | ⟨q,c,_,hq,hc,_⟩
      · exact Or.inl (heq ▸ hp)
      · right
        intro j uh hj huh
        have hgone := ((h.traced j uh hj).handedGone p huh).1
        rw [hq] at hp
        cases hp
        rw [hc] at hgone
        cases hgone
    have hother : ∀ (j : ℕ) (uh : Thread Object), j ≠ k → σ.threads[j]? = some uh → Traced σ.shared uh →
        Traced s' uh := by
      intro j uh hne hj htr
      refine htr.keep ho.keeps ?_
      intro p hp hown
      rcases hnew p hown with hold | hnone
      · exact hne (h.handedOnce j k uh th p hj hth hp hold)
      · exact hnone j uh hj hp
    exact ⟨ho.linked,forall_set h.traced (ho.traced h.linked (h.traced k th hth)) hother,
      handedOnce_set h.handedOnce hth hnew⟩
  | received k th page _ hth hh ht =>
    subst ht
    refine ⟨h.linked,forall_set h.traced (traced_received (h.traced k th hth) hh) fun _ _ _ _ ht => ht,?_⟩
    exact handedOnce_set h.handedOnce hth fun p hp => Or.inl hp

theorem isolated_reachable {start : ℤ} {σ : State Object} (h : Reachable step (initial start) σ) :
    Isolated σ := h.invariant Isolated.step (isolated_initial start)

theorem pending_removed {σ τ : State Object} {l : Label Object} (h : Isolated σ) (he : step σ l = some τ)
    {p : String} {c : Context Object} (hc : σ.shared.authorizationCache p = some c)
    (hage : σ.shared.clock - c.createdAt ≤ nanos cacheTtlSeconds)
    (hgone : τ.shared.authorizationCache p ≠ some c) :
    ∃ i input th, l = .advance i input ∧ σ.threads[i]? = some th ∧ th.handler = .callbackPop (some p) ∧
      ∃ error description, th.request = .callback error description (some p) := by
  cases step_cases he with
  | ticked now _ _ ht =>
    subst ht
    exact absurd hc hgone
  | sent browser request _ ht =>
    subst ht
    exact absurd hc hgone
  | advanced i input th s' th' hl hth hf ht =>
    subst ht
    rcases hf.authorizationCache h.linked hc with hkept | hlt | hpop
    · exact absurd hkept hgone
    · have hle : σ.shared.cutoff ≤ c.createdAt := by
        unfold cutoff
        omega
      omega
    · have hh := (h.traced i th hth).handler
      rw [hpop] at hh
      exact ⟨i,input,th,hl,hth,hpop,hh.2⟩
  | received i th page _ _ _ ht =>
    subst ht
    exact absurd hc hgone

/-- In every reachable state of any interleaving: a context is handed to one
callback at most; a callback's result page has the nonce and the claims of the
login that issued its state; a step takes a context that has not expired out of
the cache only as the pop of a callback with its state; an entry of the token
cache has the claims of exactly one login, and two entries come from different
logins; a refresh with an explicit result shows the claims of its login. -/
theorem authorizations_isolated {start : ℤ} {σ : State Object} (hσ : Reachable step (initial start) σ) :
    (∀ (i j : ℕ) (th uh : Thread Object) (p : String), σ.threads[i]? = some th →
      σ.threads[j]? = some uh → th.handed = some p → uh.handed = some p → i = j) ∧
    (∀ (i : ℕ) (th : Thread Object) (page : ResultPage Object) (error description state : Option String),
      σ.threads[i]? = some th → th.Shows (.result page) →
      th.request = .callback error description state →
      ∃ L, state = some L.contextId ∧ th.handed = state ∧ OnlyLogin σ.shared L.contextId L ∧
        page.claims = L.claims ∧ page.idToken.nonce = some L.nonce) ∧
    (∀ l τ p c, step σ l = some τ → σ.shared.authorizationCache p = some c →
      σ.shared.clock - c.createdAt ≤ nanos cacheTtlSeconds → τ.shared.authorizationCache p ≠ some c →
      ∃ i input th, l = .advance i input ∧ σ.threads[i]? = some th ∧
        th.handler = .callbackPop (some p) ∧
        ∃ error description, th.request = .callback error description (some p)) ∧
    (∀ k cached, σ.shared.tokenCache k = some cached →
      ∃ e L, σ.shared.entries[cached]? = some e ∧ σ.shared.stored[cached]? = some ⟨k,L.contextId⟩ ∧
        OnlyLogin σ.shared L.contextId L ∧ e.claims = L.claims) ∧
    (∀ (k k' : String) (cached cached' : ℕ) (p : String), σ.shared.tokenCache k = some cached →
      σ.shared.tokenCache k' = some cached' →
      σ.shared.stored[cached]? = some ⟨k,p⟩ → σ.shared.stored[cached']? = some ⟨k',p⟩ →
      k = k' ∧ cached = cached') ∧
    (∀ (i : ℕ) (th : Thread Object) (page : ResultPage Object) (k : String), σ.threads[i]? = some th →
      th.Shows (.result page) → th.request = .refresh (some k) → k ≠ "" →
      page.resultId = k ∧ ∃ L, (⟨k,L.contextId⟩ : Stored) ∈ σ.shared.stored ∧
        OnlyLogin σ.shared L.contextId L ∧ page.claims = L.claims) := by
  have h := isolated_reachable hσ
  refine ⟨h.handedOnce,?_,?_,?_,?_,?_⟩
  · intro i th page error description state hth hp hr
    exact callback_page h hth hp hr
  · intro l τ p c he hc hage hgone
    exact pending_removed h he hc hage hgone
  · intro k cached hk
    obtain ⟨p,hp⟩ := h.linked.cachedStored k cached hk
    obtain ⟨e,he⟩ := h.linked.entry hp
    obtain ⟨L,hL,rfl,hclaims⟩ := h.linked.storedClaims cached ⟨k,p⟩ e hp he
    exact ⟨e,L,he,hp,h.linked.onlyLogin hL,hclaims⟩
  · intro k k' cached cached' p _ _ hp hp'
    have hi := h.linked.context_unique hp hp'
    subst hi
    rw [hp] at hp'
    cases hp'
    exact ⟨rfl,rfl⟩
  · intro i th page k hth hp hr hk
    exact refresh_page h hth hp hr hk

def formOf (claims : List ℕ) : LoginForm (List ℕ) := ⟨some claims,false,true,false⟩

/-- Two tabs whose logins and callbacks overlap at every step. -/
def overlappingTabs : List (Label (List ℕ)) :=
  [.send 0 (.login (formOf [1])),.send 1 (.login (formOf [2])),.advance 0 .proceed,.advance 1 .proceed,
    .advance 1 (.drawLogin "n2" "s2"),.advance 0 (.drawLogin "n1" "s1"),.advance 0 .proceed,
    .advance 1 .proceed,.receive 0,.receive 1,.send 0 (.callback none none (some "s1")),
    .send 1 (.callback none none (some "s2")),.advance 3 .proceed,.advance 2 .proceed,
    .advance 3 (.tokens true none ⟨some "n2",[]⟩),.advance 2 (.tokens true none ⟨some "n1",[]⟩),
    .advance 2 (.validated []),.advance 3 (.validated []),.advance 3 (.drawResult "r2"),
    .advance 2 (.drawResult "r1"),.advance 2 (.discovered []),.advance 3 (.discovered [])]

theorem authorizations_isolated_tabs :
    ∃ σ th page, run step (initial 0) overlappingTabs = some σ ∧ σ.threads[3]? = some th ∧
      th.handler = .responding (.result page) ∧ page.claims = [2] ∧
      ∃ L, some "s2" = some L.contextId ∧ OnlyLogin σ.shared L.contextId L ∧ page.claims = L.claims := by
  have hrun : ∃ σ th page, run step (initial 0) overlappingTabs = some σ ∧ σ.threads[3]? = some th ∧
      th.handler = .responding (.result page) ∧ page.claims = [2] ∧
      th.request = .callback none none (some "s2") := ⟨_,_,_,rfl,rfl,rfl,rfl,rfl⟩
  obtain ⟨σ,th,page,hσ,hth,hh,hc,hq⟩ := hrun
  obtain ⟨L,hs,_,hL,hclaims,_⟩ := (authorizations_isolated ⟨overlappingTabs,hσ⟩).2.1 3 th page none none
    (some "s2") hth (Or.inl hh) hq
  exact ⟨σ,th,page,hσ,hth,hh,hc,L,hs,hL,hclaims⟩

end Oidc4acLab.Client
