import Oidc4acLab.Client.Lifetime

/-! # Overlapping refreshes

A refresh keeps a reference to its cache entry across two remote calls and then
writes the token it received without the lock. What it wrote can be lost in two
ways: a sweep removes the entry in between, or another refresh of the entry
writes an older token after it. Runs without these two keep every refresh.
-/
namespace Oidc4acLab.Client
open Transition Shared Thread
variable {Object : Type}

namespace Handler

/-- The result and the entry of a refresh between its lookup and its answer. -/
def inFlight : Handler Object → Option (String × ℕ)
  | .refreshExchange k cached | .refreshVerify k cached _ | .refreshWrite k cached _ _
  | .refreshTouch k cached _ _ | .refreshRender k cached _ _ => some (k,cached)
  | _ => none

def writing : Handler Object → Option (ℕ × RefreshToken)
  | .refreshWrite _ cached token _ => token.refreshToken.map (fun n => (cached,n))
  | _ => none

/-- The entry and the token that an unfinished refresh has written. -/
def written : Handler Object → Option (ℕ × RefreshToken)
  | .refreshTouch _ cached token _ | .refreshRender _ cached token _ =>
    token.refreshToken.map (fun n => (cached,n))
  | _ => none

instance (h : Handler Object) : Decidable h.Sweeps :=
  match h with
  | .homePrune .. | .loginPrune .. | .refreshPrune .. => .isTrue trivial
  | .loginStore .. | .loginRedirect .. | .callbackPop .. | .callbackExchange .. | .callbackVerify .. |
    .callbackStore .. | .callbackRender .. | .refreshLookup .. | .refreshExchange .. | .refreshVerify .. |
    .refreshWrite .. | .refreshTouch .. | .refreshRender .. | .responding .. | .received .. => .isFalse not_false

theorem Sweeps.inFlight {h : Handler Object} (hs : h.Sweeps) : h.inFlight = none := by
  cases h <;> first | rfl | exact False.elim hs

end Handler

/-- The cache has the result, with a token issued no earlier than the received one. -/
def Kept (s : Shared Object) (resultId : String) (received : Option RefreshToken) : Prop :=
  ∃ cached e, s.tokenCache resultId = some cached ∧ s.entries[cached]? = some e ∧
    ∀ n, received = some n → ∃ m, e.refreshToken = some m ∧ n ≤ m

/-- If the step completes the result page of a refresh, then what it received is kept. -/
def RefreshKept (σ : State Object) (l : Label Object) : Prop :=
  ∀ i discovery th k cached token userinfo, l = .advance i (.discovered discovery) →
    σ.threads[i]? = some th → th.handler = .refreshRender k cached token userinfo →
    Kept σ.shared k token.refreshToken

/-- The step neither sweeps an entry whose refresh is in flight nor overwrites
the newer token of a refresh that has not answered yet. -/
def RaceFree (σ : State Object) : Label Object → Prop
  | .advance i _ => ∀ th ∈ σ.threads[i]?,
    (th.handler.Sweeps → ∀ uh ∈ σ.threads, ∀ q ∈ uh.handler.inFlight,
      σ.shared.tokenCache q.1 = some q.2 → σ.shared.expiredEntry q.2 = false) ∧
    ∀ w ∈ th.handler.writing, ∀ uh ∈ σ.threads, ∀ r ∈ uh.handler.written, r.1 = w.1 → r.2 ≤ w.2
  | _ => True

structure Current (s : Shared Object) (th : Thread Object) : Prop where
  cached : ∀ k cached, th.handler.inFlight = some (k,cached) → s.tokenCache k = some cached
  newest : ∀ cached n, th.handler.written = some (cached,n) →
    ∃ e m, s.entries[cached]? = some e ∧ e.refreshToken = some m ∧ n ≤ m

theorem current_of_idle {s : Shared Object} {th : Thread Object} (hi : th.handler.inFlight = none)
    (hw : th.handler.written = none) : Current s th where
  cached := by
    intro k cached h
    rw [hi] at h
    cases h
  newest := by
    intro cached n h
    rw [hw] at h
    cases h

theorem Change.token {s s' : Shared Object} {th th' : Thread Object} (h : Change s th th' s') {cached : ℕ}
    {e : Entry Object} (he : s.entries[cached]? = some e) :
    ∃ e', s'.entries[cached]? = some e' ∧
      (e'.refreshToken = e.refreshToken ∨ ∃ n, th.handler.writing = some (cached,n) ∧ e'.refreshToken = some n) := by
  cases h with
  | tokenWritten k j token userinfo hh =>
    refine ⟨if j = cached then { e with refreshToken := token.refreshToken.or e.refreshToken } else e,?_,?_⟩
    · simp only [writeToken, List.getElem?_modify, he]
      split <;> rfl
    · split
      · rename_i hj
        subst hj
        cases hn : token.refreshToken with
        | none => exact Or.inl rfl
        | some n => exact Or.inr ⟨n,by simp [hh,Handler.writing,hn],rfl⟩
      · exact Or.inl rfl
  | entryTouched j =>
    refine ⟨if j = cached then { e with createdAt := s.clock } else e,?_,?_⟩
    · simp only [touchEntry, List.getElem?_modify, he]
      split <;> rfl
    · split <;> exact Or.inl rfl
  | resultStored _ _ _ _ _ => exact ⟨e,getElem?_append_of_some he,Or.inl rfl⟩
  | tokenIssued refreshes =>
    refine ⟨e,?_,Or.inl rfl⟩
    unfold issueToken
    split <;> exact he
  | same => exact ⟨e,he,Or.inl rfl⟩
  | pruned _ => exact ⟨e,he,Or.inl rfl⟩
  | contextStored _ _ _ _ => exact ⟨e,he,Or.inl rfl⟩
  | contextPopped _ _ _ _ _ => exact ⟨e,he,Or.inl rfl⟩

theorem Change.cached {s s' : Shared Object} {th th' : Thread Object} (h : Change s th th' s') (hs : Linked s)
    {k : String} {cached : ℕ} (hk : s.tokenCache k = some cached)
    (hsweep : th.handler.Sweeps → s.expiredEntry cached = false) : s'.tokenCache k = some cached := by
  rcases h.tokenCache hs hk with hk | ⟨hsw,e,he,hlt⟩
  · exact hk
  · have hx := hsweep hsw
    simp [expiredEntry,he,hlt] at hx

theorem Current.keep {s s' : Shared Object} {th th' uh : Thread Object} (hu : Current s uh)
    (h : Change s th th' s') (hs : Linked s)
    (hsweep : th.handler.Sweeps → ∀ q ∈ uh.handler.inFlight, s.tokenCache q.1 = some q.2 →
      s.expiredEntry q.2 = false)
    (hwrite : ∀ w ∈ th.handler.writing, ∀ r ∈ uh.handler.written, r.1 = w.1 → r.2 ≤ w.2) :
    Current s' uh where
  cached := by
    intro k cached hq
    have hk := hu.cached k cached hq
    exact h.cached hs hk fun hsw => hsweep hsw (k,cached) hq hk
  newest := by
    intro cached n hr
    obtain ⟨e,m,he,hm,hle⟩ := hu.newest cached n hr
    obtain ⟨e',he',hcases⟩ := h.token he
    rcases hcases with hsame | ⟨n',hw,hn'⟩
    · exact ⟨e',m,he',hsame.trans hm,hle⟩
    · exact ⟨e',n',he',hn',hwrite _ hw _ hr rfl⟩

theorem Effect.current {s s' : Shared Object} {th th' : Thread Object} (h : Effect s th s' th')
    (hs : Linked s) (ht : Traced s th) (hc : Current s th) : Current s' th' := by
  have hch := h.change
  -- a refresh in flight is no sweep, so its entry stays cached
  have hkept : ∀ {k : String} {cached : ℕ}, th.handler.inFlight = some (k,cached) →
      s'.tokenCache k = some cached := by
    intro k cached hq
    refine hch.cached hs (hc.cached k cached hq) ?_
    intro hsw
    rw [hsw.inFlight] at hq
    cases hq
  have hflight : ∀ {k : String} {cached : ℕ}, th.handler.inFlight = some (k,cached) →
      th'.handler.inFlight = some (k,cached) → th'.handler.written = none → Current s' th' := by
    intro k cached hq hq' hw
    refine ⟨?_,?_⟩
    · intro k' cached' he
      rw [hq'] at he
      cases he
      exact hkept hq
    · intro cached' n he
      rw [hw] at he
      cases he
  cases h with
  | settled page _ hp => exact current_of_idle (by rw [hp]; rfl) (by rw [hp]; rfl)
  | pruned h' _ hth hcases =>
    subst hth
    rcases hcases with ⟨_,_,rfl⟩ | ⟨_,_,_,rfl⟩ | ⟨_,_,rfl⟩
    all_goals exact current_of_idle rfl rfl
  | contextStored _ _ _ _ _ _ _ _ _ hth => subst hth; exact current_of_idle rfl rfl
  | contextPopped _ _ _ _ _ _ hth => subst hth; exact current_of_idle rfl rfl
  | callbackExchanged _ _ _ _ _ _ _ _ hth => subst hth; exact current_of_idle rfl rfl
  | callbackValidated _ _ _ _ _ _ _ hth => subst hth; exact current_of_idle rfl rfl
  | resultStored _ _ _ _ _ _ _ _ hth => subst hth; exact current_of_idle rfl rfl
  | callbackRendered _ _ _ _ _ _ _ _ hth => subst hth; exact current_of_idle rfl rfl
  | refreshRendered _ _ _ _ _ _ _ _ _ hth => subst hth; exact current_of_idle rfl rfl
  | refreshFound k cached _ hk _ he hth =>
    subst he hth
    refine ⟨?_,by intro cached' n hr; cases hr⟩
    intro k' cached' hq
    cases hq
    exact hk
  | refreshExchanged k cached _ _ _ hh _ hth => subst hth; exact hflight (by rw [hh]; rfl) rfl rfl
  | refreshValidated k cached _ _ hh _ hth => subst hth; exact hflight (by rw [hh]; rfl) rfl rfl
  | tokenWritten k cached token userinfo hh he hth =>
    subst he hth
    have hq : th.handler.inFlight = some (k,cached) := by rw [hh]; rfl
    refine ⟨?_,?_⟩
    · intro k' cached' he
      cases he
      exact hkept hq
    · intro cached' n hr
      obtain ⟨n',hn,heq⟩ := Option.map_eq_some_iff.mp hr
      cases heq
      have htr := ht.handler
      rw [hh] at htr
      obtain ⟨p,hp⟩ := htr.2
      obtain ⟨e,he⟩ := hs.entry hp
      refine ⟨{ e with refreshToken := token.refreshToken.or e.refreshToken },n,?_,?_,Nat.le_refl _⟩
      · simp [writeToken,he]
      · simp [hn]
  | entryTouched k cached token userinfo hh he hth =>
    subst he hth
    have hq : th.handler.inFlight = some (k,cached) := by rw [hh]; rfl
    refine ⟨?_,?_⟩
    · intro k' cached' he
      cases he
      exact hkept hq
    · intro cached' n hr
      obtain ⟨e,m,he,hm,hle⟩ := hc.newest cached' n (by rw [hh]; exact hr)
      obtain ⟨e',he',hcases⟩ := hch.token he
      rcases hcases with hsame | ⟨n',hw,_⟩
      · exact ⟨e',m,he',hsame.trans hm,hle⟩
      · rw [hh] at hw
        cases hw

structure RefreshesCurrent (σ : State Object) : Prop where
  isolated : Isolated σ
  current : ∀ (i : ℕ) (th : Thread Object), σ.threads[i]? = some th → Current σ.shared th

theorem refreshesCurrent_initial (start : ℤ) : RefreshesCurrent (initial start : State Object) where
  isolated := isolated_initial start
  current := by intro i th h; cases h

theorem RefreshesCurrent.kept {σ : State Object} {l : Label Object} (h : RefreshesCurrent σ) :
    RefreshKept σ l := by
  intro i discovery th k cached token userinfo _ hth hh
  have hc := h.current i th hth
  have hk : σ.shared.tokenCache k = some cached := hc.cached k cached (by rw [hh]; rfl)
  cases hn : token.refreshToken with
  | none =>
    obtain ⟨p,hp⟩ := h.isolated.linked.cachedStored k cached hk
    obtain ⟨e,he⟩ := h.isolated.linked.entry hp
    exact ⟨cached,e,hk,he,by intro n hn'; cases hn'⟩
  | some n =>
    have hw : th.handler.written = some (cached,n) := by
      rw [hh]
      simp [Handler.written,hn]
    obtain ⟨e,m,he,hm,hle⟩ := hc.newest cached n hw
    refine ⟨cached,e,hk,he,?_⟩
    intro n' hn'
    cases hn'
    exact ⟨m,hm,hle⟩

variable [JsonObject Object]

theorem current_arrive (σ : State Object) (browser : ℕ) (request : Request Object) :
    Current σ.shared (arrive σ browser request) := by
  have hidle : (enter (σ.jars browser) request).inFlight = none ∧
      (enter (σ.jars browser) request).written = none := by
    cases request with
    | home => exact ⟨rfl,rfl⟩
    | login form =>
      simp only [enter]
      split
      · exact ⟨rfl,rfl⟩
      · split <;> exact ⟨rfl,rfl⟩
    | callback error errorDescription state =>
      simp only [enter]
      split <;> exact ⟨rfl,rfl⟩
    | refresh _ => exact ⟨rfl,rfl⟩
  exact current_of_idle hidle.1 hidle.2

theorem RefreshesCurrent.step {σ τ : State Object} {l : Label Object} (h : RefreshesCurrent σ)
    (hfree : RaceFree σ l) (he : step σ l = some τ) : RefreshesCurrent τ := by
  refine ⟨h.isolated.step he,?_⟩
  cases step_cases he with
  | ticked now _ _ ht =>
    subst ht
    intro i th hth
    have hc := h.current i th hth
    exact ⟨hc.cached,hc.newest⟩
  | sent browser request _ ht =>
    subst ht
    exact forall_append h.current (current_arrive σ browser request)
  | advanced k input th s' th' hl hth hf ht =>
    subst hl ht
    have hg := hfree th hth
    have hlinked := h.isolated.linked
    refine forall_set h.current (hf.current hlinked (h.isolated.traced k th hth) (h.current k th hth)) ?_
    intro j uh _ huh hc
    have hmem : uh ∈ σ.threads := List.mem_iff_getElem?.mpr ⟨j,huh⟩
    exact hc.keep hf.change hlinked (fun hsw => hg.1 hsw uh hmem) fun w hw => hg.2 w hw uh hmem
  | received k th page _ _ _ ht =>
    subst ht
    exact forall_set h.current (current_of_idle rfl rfl) fun _ _ _ _ hc => hc

def Anything (_ : State Object) (_ : Label Object) : Prop := True

def AtRender (j : ℕ) (k : String) (received : Option RefreshToken) (σ : State Object) : Prop :=
  ∃ th cached token userinfo, σ.threads[j]? = some th ∧ th.handler = .refreshRender k cached token userinfo ∧
    token.refreshToken = received

theorem leads_of_touch {σ : State Object} {j : ℕ} {th : Thread Object} {k : String} {cached : ℕ}
    {token : TokenResponse Object} {userinfo : Object} {P : State Object → Prop}
    (hth : σ.threads[j]? = some th) (hh : th.handler = .refreshTouch k cached token userinfo)
    (hp : P { σ with
      shared := σ.shared.touchEntry cached
      threads := σ.threads.set j (th.goto (.refreshRender k cached token userinfo)) }) : Leads step Anything σ P := by
  have ha : advance σ.shared th .proceed = some (σ.shared.touchEntry cached,
      th.goto (.refreshRender k cached token userinfo)) := by simp [advance,hh]
  exact Leads.step trivial (step_advance hth ha) (Leads.here hp)

theorem leads_to_render {σ : State Object} {j : ℕ} {th : Thread Object} {k : String} {cached : ℕ}
    (hth : σ.threads[j]? = some th) (hq : th.handler.inFlight = some (k,cached)) :
    Leads step Anything σ (fun υ => υ.shared.tokenCache = σ.shared.tokenCache ∧ ∃ received, AtRender j k received υ) := by
  -- the steps are chained backwards from the last one
  have htouch : ∀ {υ : State Object} {uh : Thread Object} {token : TokenResponse Object} {userinfo : Object},
      υ.threads[j]? = some uh → uh.handler = .refreshTouch k cached token userinfo →
      Leads step Anything υ (fun ω => ω.shared.tokenCache = υ.shared.tokenCache ∧ ∃ received, AtRender j k received ω) := by
    intro υ uh token userinfo hu hh
    exact leads_of_touch hu hh ⟨rfl,token.refreshToken,_,cached,token,userinfo,getElem?_set_of_some hu,rfl,rfl⟩
  have hwrite : ∀ {υ : State Object} {uh : Thread Object} {token : TokenResponse Object} {userinfo : Object},
      υ.threads[j]? = some uh → uh.handler = .refreshWrite k cached token userinfo →
      Leads step Anything υ (fun ω => ω.shared.tokenCache = υ.shared.tokenCache ∧ ∃ received, AtRender j k received ω) := by
    intro υ uh token userinfo hu hh
    have ha : advance υ.shared uh .proceed = some (υ.shared.writeToken cached token.refreshToken,
        uh.goto (.refreshTouch k cached token userinfo)) := by simp [advance,hh]
    exact Leads.step trivial (step_advance hu ha) (htouch (getElem?_set_of_some hu) rfl)
  have hverify : ∀ {υ : State Object} {uh : Thread Object} {token : TokenResponse Object},
      υ.threads[j]? = some uh → uh.handler = .refreshVerify k cached token →
      Leads step Anything υ (fun ω => ω.shared.tokenCache = υ.shared.tokenCache ∧ ∃ received, AtRender j k received ω) := by
    intro υ uh token hu hh
    have ha : advance υ.shared uh (.validated ∅) = some (υ.shared,uh.goto (.refreshWrite k cached token ∅)) := by
      simp [advance,hh]
    exact Leads.step trivial (step_advance hu ha) (hwrite (getElem?_set_of_some hu) rfl)
  cases hh : th.handler with
  | refreshExchange k' cached' =>
    rw [hh] at hq
    cases hq
    have ha : advance σ.shared th (.tokens false none ⟨none,∅⟩) = some (σ.shared,
        th.goto (.refreshVerify k cached (receivedToken σ.shared false none ⟨none,∅⟩))) := by
      simp [advance,hh,issueToken]
    exact Leads.step trivial (step_advance hth ha) (hverify (getElem?_set_of_some hth) rfl)
  | refreshVerify k' cached' token =>
    rw [hh] at hq
    cases hq
    exact hverify hth hh
  | refreshWrite k' cached' token userinfo =>
    rw [hh] at hq
    cases hq
    exact hwrite hth hh
  | refreshTouch k' cached' token userinfo =>
    rw [hh] at hq
    cases hq
    exact htouch hth hh
  | refreshRender k' cached' token userinfo =>
    rw [hh] at hq
    cases hq
    exact Leads.here ⟨rfl,token.refreshToken,th,cached,token,userinfo,hth,hh,rfl⟩
  | _ =>
    rw [hh] at hq
    cases hq

theorem lost_of_leads {τ : State Object} (hτ : Isolated τ) {j : ℕ} {k : String} {received : Option RefreshToken}
    (h : Leads step Anything τ (fun υ => ¬ Kept υ.shared k received ∧ AtRender j k received υ)) :
    ∃ more υ, run step τ more = some υ ∧ ¬ Along step RefreshKept τ more := by
  obtain ⟨more,υ,_,hr,hlost,th,cached,token,userinfo,hth,hh,rfl⟩ := h
  have hυ : Isolated υ := run_invariant Isolated.step hτ hr
  have htr := (hυ.traced j th hth).handler
  rw [hh] at htr
  obtain ⟨_,p,hp⟩ := htr
  obtain ⟨e,he⟩ := hυ.linked.entry hp
  have ha : advance υ.shared th (.discovered ∅) = some (υ.shared,
      th.respond (renderResult (resultPage e.claims token userinfo "Refresh token response" k ∅))) := by
    simp [advance,hh,he]
  refine ⟨more ++ [.advance j (.discovered ∅)],_,run_snoc hr (step_advance hth ha),?_⟩
  intro hall
  exact hlost ((hall.append hr).1 j ∅ th k cached token userinfo rfl hth hh)

omit [JsonObject Object] in
theorem not_kept_of_older {s : Shared Object} (hs : Linked s) {cached : ℕ} {e : Entry Object} {k p : String}
    {n m : RefreshToken} (hp : s.stored[cached]? = some ⟨k,p⟩) (he : s.entries[cached]? = some e)
    (hn : e.refreshToken = some n) (hlt : n < m) : ¬ Kept s k (some m) := by
  rintro ⟨cached',e',hk,he',h⟩
  obtain ⟨p',hp'⟩ := hs.cachedStored k cached' hk
  have hi := hs.result_unique hp hp'
  subst hi
  rw [he] at he'
  cases he'
  obtain ⟨m',hm',hle⟩ := h m rfl
  rw [hn] at hm'
  cases hm'
  exact absurd hle (Nat.not_le_of_lt hlt)

theorem advance_sweeps {s s' : Shared Object} {th th' : Thread Object} {input : Input Object}
    (h : advance s th input = some (s',th')) (hsw : th.handler.Sweeps) : s' = s.pruneCaches := by
  unfold advance at h
  split at h
  all_goals first
    | cases h; rfl
    | rename_i hh; rw [hh] at hsw; exact False.elim hsw
    | cases h

theorem sweep_loses {σ τ : State Object} (hσ : Isolated σ) {i j : ℕ} {input : Input Object}
    {th uh : Thread Object} (he : step σ (.advance i input) = some τ) (hth : σ.threads[i]? = some th)
    (hsw : th.handler.Sweeps) (huh : σ.threads[j]? = some uh) {k : String} {cached : ℕ}
    (hq : uh.handler.inFlight = some (k,cached)) (hk : σ.shared.tokenCache k = some cached)
    (hx : σ.shared.expiredEntry cached = true) :
    ∃ more υ, run step τ more = some υ ∧ ¬ Along step RefreshKept τ more := by
  have hτ := hσ.step he
  obtain ⟨s',th',ha,ht⟩ := advance_of_step he hth
  have hs' := advance_sweeps ha hsw
  have hne : i ≠ j := by
    rintro rfl
    rw [hth] at huh
    cases huh
    rw [hsw.inFlight] at hq
    cases hq
  have huh' : τ.threads[j]? = some uh := by
    rw [ht]
    exact (List.getElem?_set_ne hne).trans huh
  have hnone : τ.shared.tokenCache k = none := by
    rw [ht, hs']
    simp [pruneCaches,hk,hx]
  obtain ⟨more,υ,hall,hr,hcache,received,hat⟩ := leads_to_render huh' hq
  refine lost_of_leads hτ ⟨more,υ,hall,hr,?_,hat⟩
  rintro ⟨cached',_,hk',_⟩
  rw [hcache] at hk'
  rw [hnone] at hk'
  cases hk'

omit [JsonObject Object] in
theorem writing_cases {h : Handler Object} {cached : ℕ} {n : RefreshToken} (hw : h.writing = some (cached,n)) :
    ∃ k token userinfo, h = .refreshWrite k cached token userinfo ∧ token.refreshToken = some n := by
  unfold Handler.writing at hw
  split at hw
  · obtain ⟨n',hn,he⟩ := Option.map_eq_some_iff.mp hw
    cases he
    exact ⟨_,_,_,rfl,hn⟩
  · cases hw

omit [JsonObject Object] in
theorem written_cases {h : Handler Object} {cached : ℕ} {m : RefreshToken} (hw : h.written = some (cached,m)) :
    ∃ k token userinfo, token.refreshToken = some m ∧ h.inFlight = some (k,cached) ∧
      (h = .refreshTouch k cached token userinfo ∨ h = .refreshRender k cached token userinfo) := by
  unfold Handler.written at hw
  split at hw
  · obtain ⟨m',hm,he⟩ := Option.map_eq_some_iff.mp hw
    cases he
    exact ⟨_,_,_,hm,rfl,Or.inl rfl⟩
  · obtain ⟨m',hm,he⟩ := Option.map_eq_some_iff.mp hw
    cases he
    exact ⟨_,_,_,hm,rfl,Or.inr rfl⟩
  · cases hw

theorem advance_write {s s' : Shared Object} {th th' : Thread Object} {input : Input Object} {k : String}
    {cached : ℕ} {token : TokenResponse Object} {userinfo : Object}
    (h : advance s th input = some (s',th')) (hh : th.handler = .refreshWrite k cached token userinfo) :
    s' = s.writeToken cached token.refreshToken := by
  cases input <;> simp only [advance, hh] at h <;> cases h
  rfl

omit [JsonObject Object] in
theorem HandlerTraced.stored {s : Shared Object} {th : Thread Object} {h : Handler Object} {k : String}
    {cached : ℕ} (ht : HandlerTraced s th h) (hq : h.inFlight = some (k,cached)) :
    ∃ p, s.stored[cached]? = some ⟨k,p⟩ := by
  cases h <;> cases hq <;> exact ht.2

theorem overwrite_loses {σ τ : State Object} (hσ : Isolated σ) {i j : ℕ} {input : Input Object}
    {th uh : Thread Object} (he : step σ (.advance i input) = some τ) (hth : σ.threads[i]? = some th)
    (huh : σ.threads[j]? = some uh) {cached : ℕ} {n m : RefreshToken}
    (hw : th.handler.writing = some (cached,n)) (hr : uh.handler.written = some (cached,m)) (hlt : n < m) :
    ∃ more υ, run step τ more = some υ ∧ ¬ Along step RefreshKept τ more := by
  have hτ := hσ.step he
  obtain ⟨s',th',ha,ht⟩ := advance_of_step he hth
  obtain ⟨k',token',userinfo',hh',hn⟩ := writing_cases hw
  obtain ⟨k,token,userinfo,hm,hq,hcases⟩ := written_cases hr
  have hs' := advance_write ha hh'
  have hne : i ≠ j := by
    rintro rfl
    rw [hth] at huh
    cases huh
    rw [hh'] at hr
    cases hr
  have huh' : τ.threads[j]? = some uh := by
    rw [ht]
    exact (List.getElem?_set_ne hne).trans huh
  -- the entry now holds the older token
  obtain ⟨p,hp⟩ := (hτ.traced j uh huh').handler.stored hq
  have hold : ∃ e, τ.shared.entries[cached]? = some e ∧ e.refreshToken = some n := by
    obtain ⟨p',hp'⟩ := (hσ.traced j uh huh).handler.stored hq
    obtain ⟨e,he⟩ := hσ.linked.entry hp'
    refine ⟨{ e with refreshToken := token'.refreshToken.or e.refreshToken },?_,?_⟩
    · rw [ht, hs']
      simp [writeToken,he]
    · simp [hn]
  obtain ⟨e,he',hen⟩ := hold
  have hlead : Leads step Anything τ (fun υ => ¬ Kept υ.shared k (some m) ∧ AtRender j k (some m) υ) := by
    rcases hcases with hh | hh
    · refine leads_of_touch huh' hh ⟨?_,?_⟩
      · have htouched : (τ.shared.touchEntry cached).entries[cached]? =
            some { e with createdAt := τ.shared.clock } := by simp [touchEntry,he']
        exact not_kept_of_older (hτ.linked.touchEntry cached) hp htouched hen hlt
      · exact ⟨_,cached,token,userinfo,getElem?_set_of_some huh',rfl,hm⟩
    · exact Leads.here ⟨not_kept_of_older hτ.linked hp he' hen hlt,uh,cached,token,userinfo,huh',hh,hm⟩
  exact lost_of_leads hτ hlead

/-- Runs without races keep every refresh. The condition is exact: after a step
that breaks it, some continuation completes the page of a refresh that is lost. -/
theorem refresh_kept (start : ℤ) (ls : List (Label Object)) :
    (Along step RaceFree (initial start) ls → Along step RefreshKept (initial start) ls) ∧
    ∀ σ l τ, run step (initial start) ls = some σ → step σ l = some τ → ¬ RaceFree σ l →
      ∃ more υ, run step τ more = some υ ∧ ¬ Along step RefreshKept τ more := by
  constructor
  · exact Along.imp RefreshesCurrent.step RefreshesCurrent.kept (refreshesCurrent_initial start)
  · intro σ l τ hr he hbad
    have hσ : Isolated σ := run_invariant Isolated.step (isolated_initial start) hr
    cases l with
    | advance i input =>
      simp only [RaceFree, not_forall] at hbad
      obtain ⟨th,hth,hbad⟩ := hbad
      rcases Decidable.not_and_iff_not_or_not.mp hbad with hsweep | hwrite
      · simp only [not_forall] at hsweep
        obtain ⟨hsw,uh,hu,⟨k,cached⟩,hq,hk,hx⟩ := hsweep
        obtain ⟨j,hj⟩ := List.mem_iff_getElem?.mp hu
        exact sweep_loses hσ he hth hsw hj hq hk (by simpa using hx)
      · simp only [not_forall] at hwrite
        obtain ⟨⟨cached,n⟩,hw,uh,hu,⟨cached',m⟩,hr',hsame,hle⟩ := hwrite
        obtain ⟨j,hj⟩ := List.mem_iff_getElem?.mp hu
        cases hsame
        exact overwrite_loses hσ he hth hj hw hr' (Nat.lt_of_not_le hle)
    | tick _ => exact absurd trivial hbad
    | send _ _ => exact absurd trivial hbad
    | receive _ => exact absurd trivial hbad

instance (σ : State Object) (l : Label Object) : Decidable (RaceFree σ l) :=
  match l with
  | .advance i _ =>
    inferInstanceAs (Decidable (∀ th ∈ σ.threads[i]?,
      (th.handler.Sweeps → ∀ uh ∈ σ.threads, ∀ q ∈ uh.handler.inFlight,
        σ.shared.tokenCache q.1 = some q.2 → σ.shared.expiredEntry q.2 = false) ∧
      ∀ w ∈ th.handler.writing, ∀ uh ∈ σ.threads, ∀ r ∈ uh.handler.written, r.1 = w.1 → r.2 ≤ w.2))
  | .tick _ | .send .. | .receive _ => .isTrue trivial

/-- One tab has logged in and holds the result `r` with the first refresh token. -/
def loggedIn : List (Label (List ℕ)) :=
  [.send 0 (.login (formOf [1])),.advance 0 .proceed,.advance 0 (.drawLogin "n" "s"),.advance 0 .proceed,
    .receive 0,.send 0 (.callback none none (some "s")),.advance 1 .proceed,
    .advance 1 (.tokens true none ⟨some "n",[]⟩),.advance 1 (.validated []),.advance 1 (.drawResult "r"),
    .advance 1 (.discovered []),.receive 1]

/-- Two refreshes of `r`: the one that got the newer token writes first. -/
def overtakenRefresh : List (Label (List ℕ)) :=
  loggedIn ++ [.send 0 (.refresh (some "r")),.send 0 (.refresh (some "r")),.advance 2 .proceed,
    .advance 2 .proceed,.advance 3 .proceed,.advance 3 .proceed,.advance 2 (.tokens true none ⟨none,[]⟩),
    .advance 3 (.tokens true none ⟨none,[]⟩),.advance 2 (.validated []),.advance 3 (.validated []),
    .advance 3 .proceed,.advance 2 .proceed,.advance 3 .proceed]

theorem newer_token_overwritten :
    ¬ ∀ (start : ℤ) (ls : List (Label (List ℕ))) (σ : State (List ℕ)),
      run step (initial start) ls = some σ → Along step RefreshKept (initial start) ls := by
  intro h
  have hrun : ∃ σ τ th token e, run step (initial 0) overtakenRefresh = some σ ∧
      step σ (.advance 3 (.discovered [])) = some τ ∧ σ.threads[3]? = some th ∧
      th.handler = .refreshRender "r" 0 token [] ∧ token.refreshToken = some 2 ∧
      σ.shared.tokenCache "r" = some 0 ∧ σ.shared.entries[0]? = some e ∧ e.refreshToken = some 1 :=
    ⟨_,_,_,_,_,rfl,rfl,rfl,rfl,rfl,rfl,rfl,rfl⟩
  obtain ⟨σ,τ,th,token,e,hr,he,hth,hh,htoken,hk,hentry,hold⟩ := hrun
  have hall := (h 0 _ τ (run_snoc hr he)).append hr
  obtain ⟨cached,e',hk',he',hkept⟩ := hall.1 3 [] th "r" 0 token [] rfl hth hh
  rw [hk] at hk'
  cases hk'
  rw [hentry] at he'
  cases he'
  obtain ⟨m,hm,hle⟩ := hkept 2 htoken
  rw [hold] at hm
  cases hm
  exact absurd hle (by decide)

/-- Two refreshes of `r` that overlap, and the one that got the newer token writes last. -/
theorem refresh_kept_overlapping :
    Along step RefreshKept (initial 0) (loggedIn ++ [.send 0 (.refresh (some "r")),.send 0 (.refresh (some "r")),
      .advance 2 .proceed,.advance 2 .proceed,.advance 3 .proceed,.advance 3 .proceed,
      .advance 2 (.tokens true none ⟨none,[]⟩),.advance 3 (.tokens true none ⟨none,[]⟩),.advance 2 (.validated []),
      .advance 3 (.validated []),.advance 2 .proceed,.advance 3 .proceed,.advance 2 .proceed,
      .advance 2 (.discovered []),.advance 3 .proceed,.advance 3 (.discovered [])]) :=
  (refresh_kept 0 _).1 (by decide)

end Oidc4acLab.Client
