import Oidc4acLab.Client.Lifetime

/-! # Logins from several tabs of one browser

The state that a login issues enters the session of its own request, and the
cookie takes over that session as a whole when the response arrives. Logins that
overlap were sent with cookies that lack one another's state, and no session
ever has both states. Logins one after the other pile up in the cookie.
-/
namespace Oidc4acLab.Client
open Transition Shared Thread
variable {Object : Type}

/-- The remote call did not fail. -/
def Input.Succeeds : Input Object → Prop
  | .failure => False
  | _ => True

namespace Handler

/-- The state that a login has drawn. -/
def issued : Handler Object → Option String
  | .loginRedirect _ _ _ p | .responding (.redirect p _ _ _ _) | .received (.redirect p _ _ _ _) => some p
  | _ => none

/-- A login that passed `parse_claims` and whose response has not been received. -/
def LoginPending : Handler Object → Prop
  | .loginPrune _ _ | .loginStore _ _ | .loginRedirect _ _ _ _ | .responding (.redirect _ _ _ _ _) => True
  | _ => False

/-- A login that passed `parse_claims`, pending or received. -/
def Opens (h : Handler Object) : Prop := h.LoginPending ∨ h.issued.isSome = true

instance (h : Handler Object) : Decidable h.LoginPending :=
  match h with
  | .loginPrune .. | .loginStore .. | .loginRedirect .. | .responding (.redirect ..) => .isTrue trivial
  | .homePrune .. | .callbackPop .. | .callbackExchange .. | .callbackVerify .. | .callbackStore .. |
    .callbackRender .. | .refreshPrune .. | .refreshLookup .. | .refreshExchange .. | .refreshVerify .. |
    .refreshWrite .. | .refreshTouch .. | .refreshRender .. | .responding (.workbench ..) | .responding (.error ..) |
    .responding (.result ..) | .responding .internalServerError | .received .. => .isFalse not_false

end Handler

/-- Requests of one browser's tabs that only log in, and whose calls succeed. -/
def LogsIn (browser : ℕ) (_ : State Object) : Label Object → Prop
  | .send b (.login _) => b = browser
  | .send _ _ => False
  | .advance _ input => input.Succeeds
  | _ => True

/-- A login is sent only while no other login of the browser is pending. -/
def OneAtATime (browser : ℕ) (σ : State Object) : Label Object → Prop
  | .send _ (.login form) => (form.omitClaims = true ∨ form.parsed.isSome = true) →
    ∀ th ∈ σ.threads, th.browser = browser → ¬ th.handler.LoginPending
  | _ => True

/-- Where a login can stand, and what it has saved in its session by then. -/
def LoginShape (th : Thread Object) : Handler Object → Prop
  | .homePrune _ | .responding (.workbench _) | .received (.workbench _) => th.modified = false
  | .loginPrune _ _ | .loginStore _ _ | .loginRedirect _ _ _ _ => True
  | .responding (.redirect p _ _ _ _) | .received (.redirect p _ _ _ _) =>
    th.modified = true ∧ p ∈ th.session.states
  | _ => False

inductive LoginStep (s : Shared Object) (th : Thread Object) (s' : Shared Object) (th' : Thread Object) : Prop
  | rejected (status : ℕ) (hh : th.handler = .homePrune status) (hs : s' = s.pruneCaches)
    (ht : th' = th.respond (.workbench status))
  | pruned (form : LoginForm Object) (claims : Object) (hh : th.handler = .loginPrune form claims)
    (hs : s' = s.pruneCaches) (ht : th' = th.goto (.loginStore form claims))
  | stored (form : LoginForm Object) (claims : Object) (nonce contextId : String)
    (hh : th.handler = .loginStore form claims) (hc : s.Fresh contextId)
    (hs : s' = s.storeContext contextId nonce claims)
    (ht : th' = th.goto (.loginRedirect form claims nonce contextId))
  | redirected (form : LoginForm Object) (claims : Object) (nonce contextId : String)
    (hh : th.handler = .loginRedirect form claims nonce contextId) (hs : s' = s)
    (ht : th' = (th.saveState contextId).respond (redirectPage form claims nonce contextId))

theorem login_step [JsonObject Object] {s s' : Shared Object} {th th' : Thread Object} {input : Input Object}
    (h : advance s th input = some (s',th')) (hl : LoginShape th th.handler) (hi : input.Succeeds) :
    LoginStep s th s' th' := by
  unfold advance at h
  split at h
  · rename_i status hh
    cases h
    exact .rejected status hh rfl rfl
  · rename_i form claims hh
    cases h
    exact .pruned form claims hh rfl rfl
  · rename_i form claims nonce contextId hh
    split at h
    · rename_i hf
      cases h
      exact .stored form claims nonce contextId hh hf.2.1 rfl rfl
    · cases h
  · rename_i form claims nonce contextId hh
    cases h
    exact .redirected form claims nonce contextId hh rfl rfl
  all_goals first
    | exact False.elim hi
    | rename_i hh; rw [hh] at hl; exact False.elim hl
    | cases h

structure Tabs (browser : ℕ) (σ : State Object) : Prop where
  aging : Aging σ
  own : ∀ (i : ℕ) (th : Thread Object), σ.threads[i]? = some th →
    th.browser = browser ∧ (∃ form, th.request = .login form) ∧ LoginShape th th.handler
  jarKnown : ∀ p ∈ (σ.jars browser).states, p ∈ σ.shared.issuedIds
  sessionKnown : ∀ (i : ℕ) (th : Thread Object), σ.threads[i]? = some th →
    ∀ p ∈ th.session.states, p ∈ σ.shared.issuedIds
  issuedKnown : ∀ (i : ℕ) (th : Thread Object), σ.threads[i]? = some th →
    ∀ p, th.handler.issued = some p → ∃ L ∈ σ.shared.logins, L.contextId = p
  listed : ∀ L ∈ σ.shared.logins, ∃ (i : ℕ) (th : Thread Object), σ.threads[i]? = some th ∧
    th.handler.issued = some L.contextId
  issuedOnce : ∀ (i j : ℕ) (th uh : Thread Object) (p : String), σ.threads[i]? = some th →
    σ.threads[j]? = some uh → th.handler.issued = some p → uh.handler.issued = some p → i = j
  /-- The state of a pending login is in its own session only. -/
  unshared : ∀ (i : ℕ) (th : Thread Object) (p : String), σ.threads[i]? = some th →
    th.handler.LoginPending → th.handler.issued = some p →
    p ∉ (σ.jars browser).states ∧
      ∀ (j : ℕ) (uh : Thread Object), j ≠ i → σ.threads[j]? = some uh → p ∉ uh.session.states

theorem tabs_initial (start : ℤ) (browser : ℕ) : Tabs browser (initial start : State Object) where
  aging := aging_initial start
  own := by intro i th h; cases h
  jarKnown := by intro p hp; cases hp
  sessionKnown := by intro i th h; cases h
  issuedKnown := by intro i th h; cases h
  listed := by intro L hL; cases hL
  issuedOnce := by intro i j th uh p h; cases h
  unshared := by intro i th p h; cases h

theorem Tabs.issued_fresh {browser : ℕ} {σ : State Object} (h : Tabs browser σ) {p : String}
    (hf : σ.shared.Fresh p) {i : ℕ} {th : Thread Object} (hth : σ.threads[i]? = some th) :
    th.handler.issued ≠ some p := by
  intro hp
  obtain ⟨L,hL,hc⟩ := h.issuedKnown i th hth p hp
  exact hf.2 (hc ▸ h.aging.isolated.linked.loginIssued L hL)

/-- A request takes a step that draws no new state. Its session gains its own
state at most, and the cookie takes over the session of an answered request. -/
structure Replaced (browser : ℕ) (σ τ : State Object) (k : ℕ) (th th' : Thread Object) : Prop where
  threads : τ.threads = σ.threads.set k th'
  logins : τ.shared.logins = σ.shared.logins
  issuedIds : τ.shared.issuedIds = σ.shared.issuedIds
  own : th'.browser = th.browser ∧ th'.request = th.request ∧ LoginShape th' th'.handler
  issued : th'.handler.issued = th.handler.issued
  session : ∀ p ∈ th'.session.states, p ∈ th.session.states ∨ th.handler.issued = some p
  grows : ∀ p ∈ th.session.states, p ∈ th'.session.states
  cookie : τ.jars browser = σ.jars browser ∧ (th'.handler.LoginPending ↔ th.handler.LoginPending) ∨
    th.handler.LoginPending ∧ ¬ th'.handler.LoginPending ∧ τ.jars browser = th'.session ∧
      ∃ p ∈ th'.session.states, th'.handler.issued = some p

theorem Replaced.pending {browser : ℕ} {σ τ : State Object} {k : ℕ} {th th' : Thread Object}
    (hr : Replaced browser σ τ k th th') (hp : th'.handler.LoginPending) : th.handler.LoginPending := by
  rcases hr.cookie with ⟨_,hiff⟩ | ⟨_,hnot,_⟩
  · exact hiff.mp hp
  · exact absurd hp hnot

theorem Replaced.jar {browser : ℕ} {σ τ : State Object} {k : ℕ} {th th' : Thread Object}
    (hr : Replaced browser σ τ k th th') {p : String} (hp : p ∈ (τ.jars browser).states) :
    p ∈ (σ.jars browser).states ∨ p ∈ th'.session.states ∧ ¬ th'.handler.LoginPending := by
  rcases hr.cookie with ⟨hjar,_⟩ | ⟨_,hnot,hjar,_⟩
  · exact Or.inl (hjar ▸ hp)
  · exact Or.inr ⟨hjar ▸ hp,hnot⟩

theorem Tabs.replaced {browser : ℕ} {σ τ : State Object} {k : ℕ} {th th' : Thread Object}
    (h : Tabs browser σ) (hτ : Aging τ) (hth : σ.threads[k]? = some th)
    (hr : Replaced browser σ τ k th th') : Tabs browser τ := by
  have hsession : ∀ p ∈ th'.session.states, p ∈ σ.shared.issuedIds := by
    intro p hp
    rcases hr.session p hp with hp | hp
    · exact h.sessionKnown k th hth p hp
    · obtain ⟨L,hL,rfl⟩ := h.issuedKnown k th hth p hp
      exact h.aging.isolated.linked.loginIssued L hL
  -- the state of another pending login does not enter this session
  have hforeign : ∀ (i : ℕ) (uh : Thread Object) (p : String), i ≠ k → σ.threads[i]? = some uh →
      uh.handler.LoginPending → uh.handler.issued = some p → p ∉ th'.session.states := by
    intro i uh p hne hi hpend hp hmem
    rcases hr.session p hmem with hmem | hmem
    · exact (h.unshared i uh p hi hpend hp).2 k th (Ne.symm hne) hth hmem
    · exact hne (h.issuedOnce i k uh th p hi hth hp hmem)
  refine ⟨hτ,?_,?_,?_,?_,?_,?_,?_⟩
  · rw [hr.threads]
    refine forall_set h.own ?_ fun _ _ _ _ ho => ho
    obtain ⟨hb,hq,_⟩ := h.own k th hth
    exact ⟨hr.own.1.trans hb,hr.own.2.1 ▸ hq,hr.own.2.2⟩
  · intro p hp
    rw [hr.issuedIds]
    rcases hr.jar hp with hp | ⟨hp,_⟩
    · exact h.jarKnown p hp
    · exact hsession p hp
  · rw [hr.threads, hr.issuedIds]
    exact forall_set h.sessionKnown hsession fun _ _ _ _ ho => ho
  · rw [hr.threads, hr.logins]
    refine forall_set h.issuedKnown ?_ fun _ _ _ _ ho => ho
    intro p hp
    exact h.issuedKnown k th hth p (hr.issued ▸ hp)
  · intro L hL
    rw [hr.logins] at hL
    obtain ⟨i,uh,hi,hp⟩ := h.listed L hL
    rw [hr.threads]
    by_cases hik : i = k
    · subst hik
      rw [hth] at hi
      cases hi
      exact ⟨i,th',getElem?_set_of_some hth,hr.issued.trans hp⟩
    · exact ⟨i,uh,(List.getElem?_set_ne (Ne.symm hik)).trans hi,hp⟩
  · intro i j uh wh p hi hj hp hq
    rw [hr.threads] at hi hj
    rcases getElem?_set_cases hi with ⟨_,hi'⟩ | ⟨rfl,rfl⟩
    · rcases getElem?_set_cases hj with ⟨_,hj'⟩ | ⟨rfl,rfl⟩
      · exact h.issuedOnce i j uh wh p hi' hj' hp hq
      · exact h.issuedOnce i j uh th p hi' hth hp (hr.issued ▸ hq)
    · rcases getElem?_set_cases hj with ⟨_,hj'⟩ | ⟨rfl,rfl⟩
      · exact h.issuedOnce i j th wh p hth hj' (hr.issued ▸ hp) hq
      · rfl
  · intro i uh p hi hpend hp
    rw [hr.threads] at hi ⊢
    rcases getElem?_set_cases hi with ⟨hne,hi'⟩ | ⟨rfl,rfl⟩
    · obtain ⟨hjar,hothers⟩ := h.unshared i uh p hi' hpend hp
      refine ⟨?_,?_⟩
      · intro hmem
        rcases hr.jar hmem with hmem | ⟨hmem,_⟩
        · exact hjar hmem
        · exact hforeign i uh p hne hi' hpend hp hmem
      · intro j wh hji hj
        rcases getElem?_set_cases hj with ⟨_,hj'⟩ | ⟨rfl,rfl⟩
        · exact hothers j wh hji hj'
        · exact hforeign i uh p hne hi' hpend hp
    · obtain ⟨hjar,hothers⟩ := h.unshared i th p hth (hr.pending hpend) (hr.issued ▸ hp)
      refine ⟨?_,?_⟩
      · intro hmem
        rcases hr.jar hmem with hmem | ⟨_,hnot⟩
        · exact hjar hmem
        · exact hnot hpend
      · intro j wh hji hj
        rcases getElem?_set_cases hj with ⟨_,hj'⟩ | ⟨hjk,_⟩
        · exact hothers j wh hji hj'
        · exact absurd hjk hji

theorem Tabs.stored {browser : ℕ} {σ : State Object} {k : ℕ} {th : Thread Object} {form : LoginForm Object}
    {claims : Object} {nonce contextId : String} (h : Tabs browser σ) (hth : σ.threads[k]? = some th)
    (hh : th.handler = .loginStore form claims) (hf : σ.shared.Fresh contextId)
    (hτ : Aging { σ with
      shared := σ.shared.storeContext contextId nonce claims
      threads := σ.threads.set k (th.goto (.loginRedirect form claims nonce contextId)) }) :
    Tabs browser { σ with
      shared := σ.shared.storeContext contextId nonce claims
      threads := σ.threads.set k (th.goto (.loginRedirect form claims nonce contextId)) } where
  aging := hτ
  own := by
    refine forall_set h.own ?_ fun _ _ _ _ ho => ho
    obtain ⟨hb,hq,_⟩ := h.own k th hth
    exact ⟨hb,hq,trivial⟩
  jarKnown := by
    intro p hp
    have hi := h.jarKnown p hp
    simp [storeContext,hi]
  sessionKnown := by
    have hmono : ∀ p ∈ σ.shared.issuedIds, p ∈ (σ.shared.storeContext contextId nonce claims).issuedIds := by
      intro p hp
      simp [storeContext,hp]
    refine forall_set h.sessionKnown ?_ fun _ _ _ _ ho p hp => hmono p (ho p hp)
    intro p hp
    exact hmono p (h.sessionKnown k th hth p hp)
  issuedKnown := by
    refine forall_set h.issuedKnown ?_ ?_
    · intro p hp
      cases hp
      exact ⟨_,List.mem_cons_self,rfl⟩
    · intro j uh _ _ ho p hp
      obtain ⟨L,hL,hc⟩ := ho p hp
      exact ⟨L,List.mem_cons_of_mem _ hL,hc⟩
  listed := by
    intro L hL
    rcases List.mem_cons.mp hL with rfl | hL
    · exact ⟨k,_,getElem?_set_of_some hth,rfl⟩
    · obtain ⟨i,uh,hi,hp⟩ := h.listed L hL
      have hne : i ≠ k := by
        rintro rfl
        rw [hth] at hi
        cases hi
        rw [hh] at hp
        cases hp
      exact ⟨i,uh,(List.getElem?_set_ne (Ne.symm hne)).trans hi,hp⟩
  issuedOnce := by
    intro i j uh wh p hi hj hp hq
    rcases getElem?_set_cases hi with ⟨_,hi'⟩ | ⟨rfl,rfl⟩
    · rcases getElem?_set_cases hj with ⟨_,hj'⟩ | ⟨rfl,rfl⟩
      · exact h.issuedOnce i j uh wh p hi' hj' hp hq
      · cases hq
        exact absurd hp (h.issued_fresh hf hi')
    · rcases getElem?_set_cases hj with ⟨_,hj'⟩ | ⟨rfl,rfl⟩
      · cases hp
        exact absurd hq (h.issued_fresh hf hj')
      · rfl
  unshared := by
    intro i uh p hi hpend hp
    rcases getElem?_set_cases hi with ⟨hne,hi'⟩ | ⟨rfl,rfl⟩
    · obtain ⟨hjar,hothers⟩ := h.unshared i uh p hi' hpend hp
      refine ⟨hjar,?_⟩
      intro j wh hji hj
      rcases getElem?_set_cases hj with ⟨_,hj'⟩ | ⟨rfl,rfl⟩
      · exact hothers j wh hji hj'
      · exact hothers j th hji hth
    · cases hp
      refine ⟨fun hmem => hf.2 (h.jarKnown _ hmem),?_⟩
      intro j wh hji hj
      rcases getElem?_set_cases hj with ⟨_,hj'⟩ | ⟨hjk,_⟩
      · exact fun hmem => hf.2 (h.sessionKnown j wh hj' _ hmem)
      · exact absurd hjk hji

theorem replaced_of_login {browser : ℕ} {σ : State Object} {k : ℕ} {th th' : Thread Object}
    {s' : Shared Object} (hl : LoginStep σ.shared th s' th') (hshape : LoginShape th th.handler)
    (hstore : ∀ form claims, th.handler ≠ .loginStore form claims) :
    Replaced browser σ { σ with shared := s', threads := σ.threads.set k th' } k th th' := by
  cases hl with
  | rejected status hh hs ht =>
    subst hs ht
    rw [hh] at hshape
    exact ⟨rfl,rfl,rfl,⟨rfl,rfl,hshape⟩,by rw [hh]; rfl,fun p hp => Or.inl hp,fun p hp => hp,
      Or.inl ⟨rfl,by rw [hh]; rfl⟩⟩
  | pruned form claims hh hs ht =>
    subst hs ht
    exact ⟨rfl,rfl,rfl,⟨rfl,rfl,trivial⟩,by rw [hh]; rfl,fun p hp => Or.inl hp,fun p hp => hp,
      Or.inl ⟨rfl,by rw [hh]; rfl⟩⟩
  | stored form claims nonce contextId hh hc hs ht => exact absurd hh (hstore form claims)
  | redirected form claims nonce contextId hh hs ht =>
    subst hs ht
    refine ⟨rfl,rfl,rfl,⟨rfl,rfl,rfl,List.mem_cons_self⟩,by rw [hh]; rfl,?_,
      fun p hp => List.mem_cons_of_mem _ hp,Or.inl ⟨rfl,by rw [hh]; rfl⟩⟩
    intro p hp
    rcases List.mem_cons.mp hp with rfl | hp
    · right
      rw [hh]
      rfl
    · exact Or.inl hp

theorem loginShape_received {th : Thread Object} {page : Page Object}
    (h : LoginShape th (.responding page)) : LoginShape (th.goto (.received page)) (.received page) := by
  cases page with
  | workbench _ => exact h
  | redirect _ _ _ _ _ => exact h
  | error _ _ _ => exact h
  | result _ => exact h
  | internalServerError => exact h

theorem issued_received (page : Page Object) :
    (Handler.received page).issued = (Handler.responding page).issued := by
  cases page <;> rfl

theorem replaced_of_receive {browser : ℕ} {σ : State Object} {k : ℕ} {th : Thread Object}
    {page : Page Object} (hb : th.browser = browser) (hshape : LoginShape th th.handler)
    (hh : th.handler = .responding page) :
    Replaced browser σ
      { σ with
        threads := σ.threads.set k (th.goto (.received page))
        jars := if th.modified then Function.update σ.jars th.browser th.session else σ.jars }
      k th (th.goto (.received page)) := by
  rw [hh] at hshape
  refine ⟨rfl,rfl,rfl,⟨rfl,rfl,loginShape_received hshape⟩,by rw [hh]; exact issued_received page,
    fun p hp => Or.inl hp,fun p hp => hp,?_⟩
  cases page with
  | workbench status =>
    have hm : th.modified = false := hshape
    left
    rw [hh]
    simp [hm,goto,Handler.LoginPending]
  | redirect p nonce scope claims prompt =>
    obtain ⟨hm,hp⟩ := hshape
    right
    refine ⟨by rw [hh]; trivial,fun hpend => hpend,?_,?_⟩
    · simp [hm,hb,goto]
    · exact ⟨p,hp,rfl⟩
  | error _ _ _ => exact False.elim hshape
  | result _ => exact False.elim hshape
  | internalServerError => exact False.elim hshape

variable [JsonObject Object]

theorem arrive_login (σ : State Object) (browser : ℕ) (form : LoginForm Object) :
    LoginShape (arrive σ browser (.login form)) (arrive σ browser (.login form)).handler ∧
      (arrive σ browser (.login form)).handler.issued = none := by
  unfold arrive
  simp only [enter]
  split
  · exact ⟨trivial,rfl⟩
  · split
    · exact ⟨rfl,rfl⟩
    · exact ⟨trivial,rfl⟩

theorem arrive_pending {σ : State Object} {browser : ℕ} {form : LoginForm Object} :
    (arrive σ browser (.login form)).handler.LoginPending ↔
      form.omitClaims = true ∨ form.parsed.isSome = true := by
  unfold arrive
  simp only [enter]
  split
  · rename_i ho
    simp [ho,Handler.LoginPending]
  · rename_i ho
    split
    · rename_i hn
      simp [ho,hn,Handler.LoginPending]
    · rename_i claims hs
      simp [ho,hs,Handler.LoginPending]

theorem Tabs.sent {browser : ℕ} {σ : State Object} (h : Tabs browser σ) (form : LoginForm Object)
    (hτ : Aging { σ with threads := σ.threads ++ [arrive σ browser (.login form)] }) :
    Tabs browser { σ with threads := σ.threads ++ [arrive σ browser (.login form)] } := by
  obtain ⟨hshape,hnone⟩ := arrive_login σ browser form
  refine ⟨hτ,?_,h.jarKnown,?_,?_,?_,?_,?_⟩
  · exact forall_append h.own ⟨rfl,⟨form,rfl⟩,hshape⟩
  · exact forall_append h.sessionKnown h.jarKnown
  · refine forall_append h.issuedKnown ?_
    intro p hp
    rw [hnone] at hp
    cases hp
  · intro L hL
    obtain ⟨i,th,hi,hp⟩ := h.listed L hL
    exact ⟨i,th,getElem?_append_of_some hi,hp⟩
  · intro i j th uh p hi hj hp hq
    rcases getElem?_append_cases hi with hi | ⟨_,rfl⟩
    · rcases getElem?_append_cases hj with hj | ⟨_,rfl⟩
      · exact h.issuedOnce i j th uh p hi hj hp hq
      · rw [hnone] at hq
        cases hq
    · rw [hnone] at hp
      cases hp
  · intro i th p hi hpend hp
    rcases getElem?_append_cases hi with hi | ⟨_,rfl⟩
    · obtain ⟨hjar,hothers⟩ := h.unshared i th p hi hpend hp
      refine ⟨hjar,?_⟩
      intro j uh hji hj
      rcases getElem?_append_cases hj with hj | ⟨_,rfl⟩
      · exact hothers j uh hji hj
      · exact hjar
    · rw [hnone] at hp
      cases hp

/-- What a step of a run of logins is, for the invariants below. -/
inductive TabStep (browser : ℕ) (σ τ : State Object) : Label Object → Prop
  | ticked (now : ℤ) (ht : τ = { σ with shared := { σ.shared with clock := now } }) :
    TabStep browser σ τ (.tick now)
  | sent (form : LoginForm Object) (ht : τ = { σ with threads := σ.threads ++ [arrive σ browser (.login form)] }) :
    TabStep browser σ τ (.send browser (.login form))
  | stored (k : ℕ) (input : Input Object) (th : Thread Object) (form : LoginForm Object) (claims : Object)
    (nonce contextId : String) (hth : σ.threads[k]? = some th) (hh : th.handler = .loginStore form claims)
    (hf : σ.shared.Fresh contextId)
    (ht : τ = { σ with
      shared := σ.shared.storeContext contextId nonce claims
      threads := σ.threads.set k (th.goto (.loginRedirect form claims nonce contextId)) }) :
    TabStep browser σ τ (.advance k input)
  | replaced (k : ℕ) (l : Label Object) (th th' : Thread Object) (hth : σ.threads[k]? = some th)
    (hr : Replaced browser σ τ k th th') : TabStep browser σ τ l

theorem tabStep {browser : ℕ} {σ τ : State Object} {l : Label Object} (h : Tabs browser σ)
    (hg : LogsIn browser σ l) (he : step σ l = some τ) : TabStep browser σ τ l := by
  cases l with
  | tick now =>
    simp only [step] at he
    split at he
    · cases he
      exact .ticked now rfl
    · cases he
  | send b request =>
    cases request with
    | login form =>
      cases hg
      cases he
      exact .sent form rfl
    | home => exact False.elim hg
    | callback _ _ _ => exact False.elim hg
    | refresh _ => exact False.elim hg
  | advance k input =>
    obtain ⟨th,hth,hm⟩ := Option.bind_eq_some_iff.mp he
    obtain ⟨⟨s',th'⟩,ha,ht⟩ := Option.map_eq_some_iff.mp hm
    subst ht
    obtain ⟨_,_,hshape⟩ := h.own k th hth
    have hl := login_step ha hshape hg
    by_cases hstore : ∃ form claims, th.handler = .loginStore form claims
    · obtain ⟨form,claims,hh⟩ := hstore
      cases hl with
      | stored form' claims' nonce contextId hh' hc hs ht =>
        subst hs ht
        exact .stored k input th form' claims' nonce contextId hth hh' hc rfl
      | rejected _ hh' => rw [hh] at hh'; cases hh'
      | pruned _ _ hh' => rw [hh] at hh'; cases hh'
      | redirected _ _ _ _ hh' => rw [hh] at hh'; cases hh'
    · refine .replaced k _ th th' hth (replaced_of_login hl hshape ?_)
      intro form claims hh
      exact hstore ⟨form,claims,hh⟩
  | receive k =>
    obtain ⟨th,hth,hm⟩ := Option.bind_eq_some_iff.mp he
    obtain ⟨hb,_,hshape⟩ := h.own k th hth
    split at hm
    · rename_i page hh
      cases hm
      exact .replaced k _ th _ hth (replaced_of_receive hb hshape hh)
    · cases hm

theorem Tabs.step {browser : ℕ} {σ τ : State Object} {l : Label Object} (h : Tabs browser σ)
    (hg : LogsIn browser σ l) (he : step σ l = some τ) : Tabs browser τ := by
  have hτ := h.aging.step he
  cases tabStep h hg he with
  | ticked now ht =>
    subst ht
    exact ⟨hτ,h.own,h.jarKnown,h.sessionKnown,h.issuedKnown,h.listed,h.issuedOnce,h.unshared⟩
  | sent form ht =>
    subst ht
    exact h.sent form hτ
  | stored k input th form claims nonce contextId hth hh hf ht =>
    subst ht
    exact h.stored hth hh hf hτ
  | replaced k l th th' hth hr => exact h.replaced hτ hth hr

/-- The session of request `i` lacks the state that request `j` issues. -/
def Unseen (i j : ℕ) (σ : State Object) : Prop :=
  ∀ th uh p, σ.threads[i]? = some th → σ.threads[j]? = some uh → uh.handler.issued = some p →
    p ∉ th.session.states

/-- No session has the states of both requests, and neither has the cookie. -/
structure Rival (browser i j : ℕ) (σ : State Object) : Prop where
  ne : i ≠ j
  left : i < σ.threads.length
  right : j < σ.threads.length
  opens : ∀ th, σ.threads[i]? = some th → th.handler.Opens
  opens' : ∀ th, σ.threads[j]? = some th → th.handler.Opens
  unseen : Unseen i j σ
  unseen' : Unseen j i σ
  jar : ∀ th uh p q, σ.threads[i]? = some th → σ.threads[j]? = some uh → th.handler.issued = some p →
    uh.handler.issued = some q → ¬ (p ∈ (σ.jars browser).states ∧ q ∈ (σ.jars browser).states)
  session : ∀ th uh p q, σ.threads[i]? = some th → σ.threads[j]? = some uh → th.handler.issued = some p →
    uh.handler.issued = some q → ∀ (k : ℕ) (wh : Thread Object), σ.threads[k]? = some wh →
      ¬ (p ∈ wh.session.states ∧ q ∈ wh.session.states)

omit [JsonObject Object] in
theorem Replaced.before {browser : ℕ} {σ τ : State Object} {k i : ℕ} {th th' x : Thread Object}
    (hr : Replaced browser σ τ k th th') (hth : σ.threads[k]? = some th) (hx : τ.threads[i]? = some x) :
    ∃ y, σ.threads[i]? = some y ∧ y.handler.issued = x.handler.issued ∧
      ∀ p ∈ x.session.states, p ∈ y.session.states ∨ y.handler.issued = some p := by
  rw [hr.threads] at hx
  rcases getElem?_set_cases hx with ⟨_,hx⟩ | ⟨rfl,rfl⟩
  · exact ⟨x,hx,rfl,fun p hp => Or.inl hp⟩
  · exact ⟨th,hth,hr.issued.symm,hr.session⟩

omit [JsonObject Object] in
theorem Replaced.opens {browser : ℕ} {σ τ : State Object} {k i : ℕ} {th th' : Thread Object}
    (hr : Replaced browser σ τ k th th') (hth : σ.threads[k]? = some th)
    (h : ∀ x, σ.threads[i]? = some x → x.handler.Opens) : ∀ x, τ.threads[i]? = some x → x.handler.Opens := by
  intro x hx
  rw [hr.threads] at hx
  rcases getElem?_set_cases hx with ⟨_,hx⟩ | ⟨rfl,rfl⟩
  · exact h x hx
  · rcases hr.cookie with ⟨_,hiff⟩ | ⟨_,_,_,p,_,hp⟩
    · rcases h th hth with hpend | hiss
      · exact Or.inl (hiff.mpr hpend)
      · exact Or.inr (hr.issued ▸ hiss)
    · exact Or.inr (by rw [hp]; rfl)

omit [JsonObject Object] in
theorem Unseen.replaced {browser : ℕ} {σ τ : State Object} {i j k : ℕ} {th th' : Thread Object}
    (h : Unseen i j σ) (ht : Tabs browser σ) (hne : i ≠ j) (hth : σ.threads[k]? = some th)
    (hr : Replaced browser σ τ k th th') : Unseen i j τ := by
  intro x y p hx hy hp hmem
  obtain ⟨x',hx',_,hs⟩ := hr.before hth hx
  obtain ⟨y',hy',hiss,_⟩ := hr.before hth hy
  rcases hs p hmem with hmem | hown
  · exact h x' y' p hx' hy' (hiss.trans hp) hmem
  · exact hne (ht.issuedOnce i j x' y' p hx' hy' hown (hiss.trans hp))

omit [JsonObject Object] in
theorem Rival.replaced {browser : ℕ} {σ τ : State Object} {i j k : ℕ} {th th' : Thread Object}
    (h : Rival browser i j σ) (ht : Tabs browser σ) (hth : σ.threads[k]? = some th)
    (hr : Replaced browser σ τ k th th') : Rival browser i j τ := by
  have hlen : τ.threads.length = σ.threads.length := by
    rw [hr.threads, List.length_set]
  have hsession : ∀ x y p q, τ.threads[i]? = some x → τ.threads[j]? = some y → x.handler.issued = some p →
      y.handler.issued = some q → ∀ (m : ℕ) (wh : Thread Object), τ.threads[m]? = some wh →
        ¬ (p ∈ wh.session.states ∧ q ∈ wh.session.states) := by
    intro x y p q hx hy hp hq m wh hw
    obtain ⟨x',hx',hxi,_⟩ := hr.before hth hx
    obtain ⟨y',hy',hyi,_⟩ := hr.before hth hy
    obtain ⟨w',hw',_,hs⟩ := hr.before hth hw
    have hp' := hxi.trans hp
    have hq' := hyi.trans hq
    rintro ⟨hpw,hqw⟩
    rcases hs p hpw with hpw | hpw
    · rcases hs q hqw with hqw | hqw
      · exact h.session x' y' p q hx' hy' hp' hq' m w' hw' ⟨hpw,hqw⟩
      · -- the session is the one of request j
        have hm := ht.issuedOnce m j w' y' q hw' hy' hqw hq'
        subst hm
        exact h.unseen' w' x' p hw' hx' hp' hpw
    · have hm := ht.issuedOnce m i w' x' p hw' hx' hpw hp'
      subst hm
      rcases hs q hqw with hqw | hqw
      · exact h.unseen w' y' q hw' hy' hq' hqw
      · exact h.ne (ht.issuedOnce m j w' y' q hw' hy' hqw hq')
  refine ⟨h.ne,by rw [hlen]; exact h.left,by rw [hlen]; exact h.right,hr.opens hth h.opens,
    hr.opens hth h.opens',h.unseen.replaced ht h.ne hth hr,
    h.unseen'.replaced ht h.ne.symm hth hr,?_,hsession⟩
  intro x y p q hx hy hp hq
  rcases hr.cookie with ⟨hjar,_⟩ | ⟨_,_,hjar,_⟩
  · obtain ⟨x',hx',hxi,_⟩ := hr.before hth hx
    obtain ⟨y',hy',hyi,_⟩ := hr.before hth hy
    rw [hjar]
    exact h.jar x' y' p q hx' hy' (hxi.trans hp) (hyi.trans hq)
  · have hk : τ.threads[k]? = some th' := by
      rw [hr.threads]
      exact getElem?_set_of_some hth
    rw [hjar]
    exact hsession x y p q hx hy hp hq k th' hk

omit [JsonObject Object] in
theorem before_stored {σ : State Object} {k i : ℕ} {th x : Thread Object} {s' : Shared Object}
    {form : LoginForm Object} {claims : Object} {nonce contextId : String} (hth : σ.threads[k]? = some th)
    (hx : ({ σ with
      shared := s'
      threads := σ.threads.set k (th.goto (.loginRedirect form claims nonce contextId)) } :
        State Object).threads[i]? = some x) :
    ∃ y, σ.threads[i]? = some y ∧ y.session = x.session ∧
      (y.handler.issued = x.handler.issued ∨ x.handler.issued = some contextId) := by
  rcases getElem?_set_cases hx with ⟨_,hx⟩ | ⟨rfl,rfl⟩
  · exact ⟨x,hx,rfl,Or.inl rfl⟩
  · exact ⟨th,hth,rfl,Or.inr rfl⟩

omit [JsonObject Object] in
theorem Rival.stored {browser : ℕ} {σ : State Object} {i j k : ℕ} {th : Thread Object} {s' : Shared Object}
    {form : LoginForm Object} {claims : Object} {nonce contextId : String} (h : Rival browser i j σ)
    (ht : Tabs browser σ) (hth : σ.threads[k]? = some th) (hf : σ.shared.Fresh contextId) :
    Rival browser i j { σ with
      shared := s'
      threads := σ.threads.set k (th.goto (.loginRedirect form claims nonce contextId)) } := by
  have hjar : contextId ∉ (σ.jars browser).states := fun hm => hf.2 (ht.jarKnown _ hm)
  have hsess : ∀ (m : ℕ) (wh : Thread Object), σ.threads[m]? = some wh → contextId ∉ wh.session.states :=
    fun m wh hw hm => hf.2 (ht.sessionKnown m wh hw _ hm)
  have hunseen : ∀ {a b : ℕ}, Unseen a b σ → Unseen a b { σ with
      shared := s'
      threads := σ.threads.set k (th.goto (.loginRedirect form claims nonce contextId)) } := by
    intro a b hu x y p hx hy hp
    obtain ⟨x',hx',hxs,_⟩ := before_stored hth hx
    obtain ⟨y',hy',_,hyi⟩ := before_stored hth hy
    rw [← hxs]
    rcases hyi with hyi | hyi
    · exact hu x' y' p hx' hy' (hyi.trans hp)
    · rw [hyi] at hp
      cases hp
      exact hsess a x' hx'
  have hopens : ∀ {a : ℕ}, (∀ x, σ.threads[a]? = some x → x.handler.Opens) → ∀ x,
      (σ.threads.set k (th.goto (.loginRedirect form claims nonce contextId)))[a]? = some x →
      x.handler.Opens := by
    intro a ho x hx
    rcases getElem?_set_cases hx with ⟨_,hx⟩ | ⟨_,rfl⟩
    · exact ho x hx
    · exact Or.inl trivial
  refine ⟨h.ne,by simpa using h.left,by simpa using h.right,hopens h.opens,hopens h.opens',
    hunseen h.unseen,hunseen h.unseen',?_,?_⟩
  · intro x y p q hx hy hp hq
    obtain ⟨x',hx',_,hxi⟩ := before_stored hth hx
    obtain ⟨y',hy',_,hyi⟩ := before_stored hth hy
    rcases hxi with hxi | hxi
    · rcases hyi with hyi | hyi
      · exact h.jar x' y' p q hx' hy' (hxi.trans hp) (hyi.trans hq)
      · rw [hyi] at hq
        cases hq
        exact fun hm => hjar hm.2
    · rw [hxi] at hp
      cases hp
      exact fun hm => hjar hm.1
  · intro x y p q hx hy hp hq m wh hw
    obtain ⟨x',hx',_,hxi⟩ := before_stored hth hx
    obtain ⟨y',hy',_,hyi⟩ := before_stored hth hy
    obtain ⟨w',hw',hws,_⟩ := before_stored hth hw
    rw [← hws]
    rcases hxi with hxi | hxi
    · rcases hyi with hyi | hyi
      · exact h.session x' y' p q hx' hy' (hxi.trans hp) (hyi.trans hq) m w' hw'
      · rw [hyi] at hq
        cases hq
        exact fun hm => hsess m w' hw' hm.2
    · rw [hxi] at hp
      cases hp
      exact fun hm => hsess m w' hw' hm.1

omit [JsonObject Object] in
theorem getElem?_append_of_lt {A : Type} {xs : List A} {a b : A} {i : ℕ} (hi : i < xs.length)
    (h : (xs ++ [a])[i]? = some b) : xs[i]? = some b := by
  rcases getElem?_append_cases h with h | ⟨hlen,_⟩
  · exact h
  · omega

theorem Rival.sent {browser : ℕ} {σ : State Object} {i j : ℕ} (h : Rival browser i j σ)
    (request : Request Object) :
    Rival browser i j { σ with threads := σ.threads ++ [arrive σ browser request] } := by
  have hlen : σ.threads.length ≤ (σ.threads ++ [arrive σ browser request]).length := by simp
  refine ⟨h.ne,Nat.lt_of_lt_of_le h.left hlen,Nat.lt_of_lt_of_le h.right hlen,?_,?_,?_,?_,?_,?_⟩
  · intro x hx
    exact h.opens x (getElem?_append_of_lt h.left hx)
  · intro x hx
    exact h.opens' x (getElem?_append_of_lt h.right hx)
  · intro x y p hx hy
    exact h.unseen x y p (getElem?_append_of_lt h.left hx) (getElem?_append_of_lt h.right hy)
  · intro x y p hx hy
    exact h.unseen' x y p (getElem?_append_of_lt h.right hx) (getElem?_append_of_lt h.left hy)
  · intro x y p q hx hy
    exact h.jar x y p q (getElem?_append_of_lt h.left hx) (getElem?_append_of_lt h.right hy)
  · intro x y p q hx hy hp hq k wh hw
    have hx' := getElem?_append_of_lt h.left hx
    have hy' := getElem?_append_of_lt h.right hy
    rcases getElem?_append_cases hw with hw | ⟨_,rfl⟩
    · exact h.session x y p q hx' hy' hp hq k wh hw
    · exact h.jar x y p q hx' hy' hp hq

theorem Rival.step {browser : ℕ} {σ τ : State Object} {i j : ℕ} {l : Label Object} (h : Rival browser i j σ)
    (ht : Tabs browser σ) (hg : LogsIn browser σ l) (he : step σ l = some τ) : Rival browser i j τ := by
  cases tabStep ht hg he with
  | ticked now hτ =>
    subst hτ
    exact ⟨h.ne,h.left,h.right,h.opens,h.opens',h.unseen,h.unseen',h.jar,h.session⟩
  | sent form hτ =>
    subst hτ
    exact h.sent _
  | stored k input th form claims nonce contextId hth hh hf hτ =>
    subst hτ
    exact h.stored ht hth hf
  | replaced k l th th' hth hr => exact h.replaced ht hth hr

theorem rival_of_overlap {browser : ℕ} {σ : State Object} (ht : Tabs browser σ) {i : ℕ} {th : Thread Object}
    (hth : σ.threads[i]? = some th) (hpend : th.handler.LoginPending) {form : LoginForm Object}
    (hvalid : form.omitClaims = true ∨ form.parsed.isSome = true) :
    Rival browser i σ.threads.length
      { σ with threads := σ.threads ++ [arrive σ browser (.login form)] } := by
  have hnone := (arrive_login σ browser form).2
  have hlt : i < σ.threads.length := (List.getElem?_eq_some_iff.mp hth).1
  have hnew : ∀ {uh : Thread Object}, (σ.threads ++ [arrive σ browser (.login form)])[σ.threads.length]? = some uh →
      uh = arrive σ browser (.login form) := by
    intro uh hu
    simpa using hu.symm
  refine ⟨Nat.ne_of_lt hlt,by simp; omega,by simp,?_,?_,?_,?_,?_,?_⟩
  · intro x hx
    have hx' := getElem?_append_of_lt hlt hx
    rw [hth] at hx'
    cases hx'
    exact Or.inl hpend
  · intro y hy
    rw [hnew hy]
    exact Or.inl (arrive_pending.mpr hvalid)
  · intro x y p _ hy hp
    rw [hnew hy, hnone] at hp
    cases hp
  · intro y x p hy hx hp
    have hx' := getElem?_append_of_lt hlt hx
    rw [hth] at hx'
    cases hx'
    rw [hnew hy]
    exact (ht.unshared i th p hth hpend hp).1
  · intro x y p q _ hy _ hq
    rw [hnew hy, hnone] at hq
    cases hq
  · intro x y p q _ hy _ hq
    rw [hnew hy, hnone] at hq
    cases hq

structure Nested (browser : ℕ) (σ : State Object) : Prop where
  tabs : Tabs browser σ
  kept : ∀ (i : ℕ) (th : Thread Object) (p : String), σ.threads[i]? = some th → ¬ th.handler.LoginPending →
    th.handler.issued = some p → p ∈ (σ.jars browser).states
  grown : ∀ (i : ℕ) (th : Thread Object), σ.threads[i]? = some th → th.handler.LoginPending →
    ∀ p ∈ (σ.jars browser).states, p ∈ th.session.states
  single : ∀ (i j : ℕ) (th uh : Thread Object), σ.threads[i]? = some th → σ.threads[j]? = some uh →
    th.handler.LoginPending → uh.handler.LoginPending → i = j

omit [JsonObject Object] in
theorem nested_initial (start : ℤ) (browser : ℕ) : Nested browser (initial start : State Object) where
  tabs := tabs_initial start browser
  kept := by intro i th p h; cases h
  grown := by intro i th h; cases h
  single := by intro i j th uh h; cases h

omit [JsonObject Object] in
theorem Nested.replaced {browser : ℕ} {σ τ : State Object} {k : ℕ} {th th' : Thread Object}
    (h : Nested browser σ) (hτ : Tabs browser τ) (hth : σ.threads[k]? = some th)
    (hr : Replaced browser σ τ k th th') : Nested browser τ := by
  have hsingle : ∀ (i j : ℕ) (x y : Thread Object), τ.threads[i]? = some x → τ.threads[j]? = some y →
      x.handler.LoginPending → y.handler.LoginPending → i = j := by
    intro i j x y hx hy hpx hpy
    rw [hr.threads] at hx hy
    rcases getElem?_set_cases hx with ⟨_,hx'⟩ | ⟨rfl,rfl⟩
    · rcases getElem?_set_cases hy with ⟨_,hy'⟩ | ⟨rfl,rfl⟩
      · exact h.single i j x y hx' hy' hpx hpy
      · exact h.single i j x th hx' hth hpx (hr.pending hpy)
    · rcases getElem?_set_cases hy with ⟨_,hy'⟩ | ⟨rfl,rfl⟩
      · exact h.single i j th y hth hy' (hr.pending hpx) hpy
      · rfl
  rcases hr.cookie with ⟨hjar,hiff⟩ | ⟨hpend,hnot,hjar,hown⟩
  · refine ⟨hτ,?_,?_,hsingle⟩
    · rw [hr.threads, hjar]
      intro i x p hx hn hp
      rcases getElem?_set_cases hx with ⟨_,hx'⟩ | ⟨rfl,rfl⟩
      · exact h.kept i x p hx' hn hp
      · exact h.kept i th p hth (fun hpend => hn (hiff.mpr hpend)) (hr.issued ▸ hp)
    · rw [hr.threads, hjar]
      intro i x hx hp p hmem
      rcases getElem?_set_cases hx with ⟨_,hx'⟩ | ⟨rfl,rfl⟩
      · exact h.grown i x hx' hp p hmem
      · exact hr.grows p (h.grown i th hth (hiff.mp hp) p hmem)
  · -- the only pending login has been received, and its session contains the old cookie
    refine ⟨hτ,?_,?_,hsingle⟩
    · rw [hr.threads, hjar]
      intro i x p hx hn hp
      rcases getElem?_set_cases hx with ⟨_,hx'⟩ | ⟨rfl,rfl⟩
      · exact hr.grows p (h.grown k th hth hpend p (h.kept i x p hx' hn hp))
      · obtain ⟨q,hq,hiss⟩ := hown
        rw [hp] at hiss
        cases hiss
        exact hq
    · rw [hr.threads]
      intro i x hx hp
      rcases getElem?_set_cases hx with ⟨hne,hx'⟩ | ⟨rfl,rfl⟩
      · exact absurd (h.single i k x th hx' hth hp hpend) hne
      · exact absurd hp hnot

theorem Nested.step {browser : ℕ} {σ τ : State Object} {l : Label Object} (h : Nested browser σ)
    (hg : LogsIn browser σ l ∧ OneAtATime browser σ l) (he : step σ l = some τ) : Nested browser τ := by
  have hτ := h.tabs.step hg.1 he
  cases tabStep h.tabs hg.1 he with
  | ticked now ht =>
    subst ht
    exact ⟨hτ,h.kept,h.grown,h.single⟩
  | sent form ht =>
    subst ht
    -- a pending login is either old or new, not both
    have hone : (arrive σ browser (.login form)).handler.LoginPending →
        ∀ (i : ℕ) (th : Thread Object), σ.threads[i]? = some th → ¬ th.handler.LoginPending := by
      intro hp i th hth
      have hb := (h.tabs.own i th hth).1
      exact hg.2 (arrive_pending.mp hp) th (List.mem_iff_getElem?.mpr ⟨i,hth⟩) hb
    refine ⟨hτ,?_,?_,?_⟩
    · intro i th p hth hn hp
      rcases getElem?_append_cases hth with hth | ⟨_,rfl⟩
      · exact h.kept i th p hth hn hp
      · rw [(arrive_login σ browser form).2] at hp
        cases hp
    · intro i th hth hp
      rcases getElem?_append_cases hth with hth | ⟨_,rfl⟩
      · exact h.grown i th hth hp
      · exact fun p hmem => hmem
    · intro i j th uh hi hj hpi hpj
      rcases getElem?_append_cases hi with hi' | ⟨hlast,rfl⟩
      · rcases getElem?_append_cases hj with hj' | ⟨_,rfl⟩
        · exact h.single i j th uh hi' hj' hpi hpj
        · exact absurd hpi (hone hpj i th hi')
      · rcases getElem?_append_cases hj with hj' | ⟨hlast',_⟩
        · exact absurd hpj (hone hpi j uh hj')
        · exact hlast.trans hlast'.symm
  | stored k input th form claims nonce contextId hth hh hf ht =>
    subst ht
    have hpend : th.handler.LoginPending := by
      rw [hh]
      trivial
    refine ⟨hτ,?_,?_,?_⟩
    · intro i x p hx hn hp
      rcases getElem?_set_cases hx with ⟨_,hx⟩ | ⟨_,rfl⟩
      · exact h.kept i x p hx hn hp
      · exact absurd trivial hn
    · intro i x hx hp
      rcases getElem?_set_cases hx with ⟨_,hx⟩ | ⟨rfl,rfl⟩
      · exact h.grown i x hx hp
      · exact h.grown i th hth hpend
    · intro i j x y hi hj hpi hpj
      rcases getElem?_set_cases hi with ⟨_,hi'⟩ | ⟨rfl,rfl⟩
      · rcases getElem?_set_cases hj with ⟨_,hj'⟩ | ⟨rfl,rfl⟩
        · exact h.single i j x y hi' hj' hpi hpj
        · exact h.single i j x th hi' hth hpi hpend
      · rcases getElem?_set_cases hj with ⟨_,hj'⟩ | ⟨rfl,rfl⟩
        · exact h.single i j th y hth hj' hpend hpj
        · rfl
  | replaced k l th th' hth hr => exact h.replaced hτ hth hr

end Oidc4acLab.Client
