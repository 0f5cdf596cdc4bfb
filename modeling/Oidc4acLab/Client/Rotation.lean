import Oidc4acLab.Client.Alone

/-! # Refreshes against an OP that rotates refresh tokens

Every exchange that succeeds spends the token it presents, and the OP then accepts only the
one it has returned. The client stores that one only after the ID Token and UserInfo have
been fetched and validated, so a failure in between loses the grant.
-/
namespace Oidc4acLab.Client
open Transition Shared Thread
variable {Object : Type}

namespace Handler

/-- The token response that a handler has received and not yet used up. -/
def holds : Handler Object → Option (TokenResponse Object)
  | .callbackVerify _ _ token | .callbackStore _ _ token _ | .refreshVerify _ _ token
  | .refreshWrite _ _ token _ => some token
  | _ => none

end Handler

def TokenIssued (s : Shared Object) (token : Option RefreshToken) : Prop :=
  ∀ n ∈ token, n < s.issuedTokens

/-- Every stored refresh token was issued before. -/
structure EntriesIssued (s : Shared Object) : Prop where
  entry : ∀ (i : ℕ) (e : Entry Object), s.entries[i]? = some e → TokenIssued s e.refreshToken

def HandlerIssued (s : Shared Object) (h : Handler Object) : Prop :=
  ∀ token ∈ h.holds, TokenIssued s token.refreshToken

theorem issuedTokens_le_issueToken (s : Shared Object) (refreshes : Bool) :
    s.issuedTokens ≤ (s.issueToken refreshes).issuedTokens := by
  unfold issueToken
  split
  · exact Nat.le_succ _
  · exact Nat.le_refl _

@[simp] theorem entries_issueToken (s : Shared Object) (refreshes : Bool) :
    (s.issueToken refreshes).entries = s.entries := by
  unfold issueToken
  split <;> rfl

theorem tokenIssued_receivedToken (s : Shared Object) (refreshes : Bool) (accessToken : Option String)
    (idToken : IdToken Object) :
    TokenIssued (s.issueToken refreshes) (receivedToken s refreshes accessToken idToken).refreshToken := by
  intro n hn
  cases refreshes with
  | true =>
    cases hn
    exact Nat.lt_succ_self _
  | false => cases hn

theorem TokenIssued.mono {s s' : Shared Object} {token : Option RefreshToken} (h : TokenIssued s token)
    (hle : s.issuedTokens ≤ s'.issuedTokens) : TokenIssued s' token :=
  fun n hn => Nat.lt_of_lt_of_le (h n hn) hle

theorem Change.issuedTokens_le {s s' : Shared Object} {th th' : Thread Object} (h : Change s th th' s') :
    s.issuedTokens ≤ s'.issuedTokens := by
  cases h with
  | tokenIssued refreshes => exact issuedTokens_le_issueToken s refreshes
  | _ => exact Nat.le_refl _

theorem Effect.entriesIssued {s s' : Shared Object} {th th' : Thread Object} (h : Effect s th s' th')
    (hs : EntriesIssued s) (hth : HandlerIssued s th.handler) : EntriesIssued s' := by
  cases h with
  | resultStored state context token userinfo resultId hh _ he =>
    subst he
    refine ⟨?_⟩
    intro i e hi
    rcases getElem?_append_cases hi with hi | ⟨-,rfl⟩
    · exact hs.entry i e hi
    · exact hth token (by rw [hh]; rfl)
  | tokenWritten k cached token userinfo hh he =>
    subst he
    refine ⟨?_⟩
    intro i e hi
    obtain ⟨a,ha,⟨-,rfl⟩ | ⟨-,rfl⟩⟩ := getElem?_modify_cases hi
    · exact hs.entry i _ ha
    · intro n hn
      rcases Option.or_eq_some_iff.mp hn with hn | ⟨-,hn⟩
      · exact hth token (by rw [hh]; rfl) n hn
      · exact hs.entry i a ha n hn
  | entryTouched k cached token userinfo hh he =>
    subst he
    refine ⟨?_⟩
    intro i e hi
    obtain ⟨a,ha,⟨-,rfl⟩ | ⟨-,rfl⟩⟩ := getElem?_modify_cases hi
    · exact hs.entry i _ ha
    · exact hs.entry i a ha
  | callbackExchanged _ _ refreshes _ _ _ _ he =>
    subst he
    refine ⟨?_⟩
    intro i e hi
    rw [entries_issueToken] at hi
    exact (hs.entry i e hi).mono (issuedTokens_le_issueToken s refreshes)
  | refreshExchanged _ _ refreshes _ _ _ he =>
    subst he
    refine ⟨?_⟩
    intro i e hi
    rw [entries_issueToken] at hi
    exact (hs.entry i e hi).mono (issuedTokens_le_issueToken s refreshes)
  | settled _ he => exact he ▸ hs
  | pruned _ he => subst he; exact ⟨hs.entry⟩
  | contextStored _ _ _ _ _ _ _ _ he => subst he; exact ⟨hs.entry⟩
  | contextPopped _ _ _ _ _ he => subst he; exact ⟨hs.entry⟩
  | callbackValidated _ _ _ _ _ _ he => exact he ▸ hs
  | callbackRendered _ _ _ _ _ _ _ he => exact he ▸ hs
  | refreshFound _ _ _ _ _ he => exact he ▸ hs
  | refreshValidated _ _ _ _ _ he => exact he ▸ hs
  | refreshRendered _ _ _ _ _ _ _ _ he => exact he ▸ hs

theorem Effect.handlerIssued {s s' : Shared Object} {th th' : Thread Object} (h : Effect s th s' th')
    (hth : HandlerIssued s th.handler) : HandlerIssued s' th'.handler := by
  have hle := h.change.issuedTokens_le
  have hnone : ∀ {h' : Handler Object}, h'.holds = none → HandlerIssued s' h' := by
    intro h' hh token ht
    rw [hh] at ht
    cases ht
  have hkeep : ∀ {h' : Handler Object} {token : TokenResponse Object}, th.handler.holds = some token →
      h'.holds = some token → HandlerIssued s' h' := by
    intro h' token ht ht' token' hm
    rw [ht'] at hm
    cases hm
    exact (hth token ht).mono hle
  cases h with
  | settled page _ hp => exact hnone (by rw [hp]; rfl)
  | pruned h' _ ht hcases =>
    subst ht
    rcases hcases with ⟨_,_,rfl⟩ | ⟨_,_,_,rfl⟩ | ⟨_,_,rfl⟩
    all_goals exact hnone rfl
  | callbackExchanged state context refreshes accessToken idToken _ _ he ht =>
    subst he ht
    intro token hm
    cases hm
    exact tokenIssued_receivedToken s refreshes accessToken idToken
  | refreshExchanged k cached refreshes accessToken idToken _ he ht =>
    subst he ht
    intro token hm
    cases hm
    exact tokenIssued_receivedToken s refreshes accessToken idToken
  | callbackValidated _ _ _ _ hh _ _ ht => exact hkeep (by rw [hh]; rfl) (by rw [ht]; rfl)
  | refreshValidated _ _ _ _ hh _ ht => exact hkeep (by rw [hh]; rfl) (by rw [ht]; rfl)
  | contextStored _ _ _ _ _ _ _ _ _ ht => exact hnone (by rw [ht]; rfl)
  | contextPopped _ _ _ _ _ _ ht => exact hnone (by rw [ht]; rfl)
  | resultStored _ _ _ _ _ _ _ _ ht => exact hnone (by rw [ht]; rfl)
  | callbackRendered _ _ _ _ _ _ _ _ ht => exact hnone (by rw [ht]; rfl)
  | refreshFound _ _ _ _ _ _ ht => exact hnone (by rw [ht]; rfl)
  | tokenWritten _ _ _ _ _ _ ht => exact hnone (by rw [ht]; rfl)
  | entryTouched _ _ _ _ _ _ ht => exact hnone (by rw [ht]; rfl)
  | refreshRendered _ _ _ _ _ _ _ _ _ ht => exact hnone (by rw [ht]; rfl)

/-- Every refresh token that the client has anywhere was issued before. -/
structure TokensIssued (σ : State Object) : Prop where
  entries : EntriesIssued σ.shared
  handlers : ∀ (i : ℕ) (th : Thread Object), σ.threads[i]? = some th → HandlerIssued σ.shared th.handler

theorem tokensIssued_initial (start : ℤ) : TokensIssued (initial start : State Object) where
  entries := ⟨by intro i e h; cases h⟩
  handlers := by intro i th h; cases h

variable [JsonObject Object]

theorem holds_enter (session : Session) (request : Request Object) : (enter session request).holds = none := by
  cases request with
  | login form =>
    simp only [enter]
    split
    · rfl
    · split <;> rfl
  | callback error errorDescription state =>
    simp only [enter]
    split <;> rfl
  | _ => rfl

theorem TokensIssued.step {σ τ : State Object} {l : Label Object} (h : TokensIssued σ)
    (he : step σ l = some τ) : TokensIssued τ := by
  cases step_cases he with
  | ticked now _ _ ht =>
    subst ht
    exact ⟨⟨h.entries.entry⟩,h.handlers⟩
  | sent browser request _ ht =>
    subst ht
    refine ⟨h.entries,forall_append h.handlers ?_⟩
    intro token hm
    have hnone := holds_enter (σ.jars browser) request
    rw [arrive,hnone] at hm
    cases hm
  | advanced i input th s' th' _ hth hf ht =>
    subst ht
    have hown := h.handlers i th hth
    refine ⟨hf.entriesIssued h.entries hown,forall_set h.handlers (hf.handlerIssued hown) ?_⟩
    intro j uh _ _ hj token hm
    exact (hj token hm).mono hf.change.issuedTokens_le
  | received i th page _ hth hh ht =>
    subst ht
    refine ⟨h.entries,forall_set h.handlers ?_ fun _ _ _ _ hj => hj⟩
    intro token hm
    cases hm

/-- The client, and the refresh token that the OP accepts for one of its results. -/
structure Grant (Object : Type) where
  client : State Object
  accepted : RefreshToken

/-- `TOKEN_CACHE` holds this token under the name of the result. -/
def Shared.Holds (s : Shared Object) (k : String) (token : RefreshToken) : Prop :=
  ∃ e, s.lookupEntry k = some e ∧ e.refreshToken = some token

/-- The token that the OP accepts after a step of a handler. An exchange for the grant succeeds only
with the accepted token and returns the next one. -/
def accept (k : String) (accepted : RefreshToken) (s : Shared Object) :
    Handler Object → Input Object → Option RefreshToken
  | .refreshExchange resultId cached, .tokens refreshes _ _ =>
    if resultId = k then
      if refreshes = true ∧ (s.entries[cached]?).bind Entry.refreshToken = some accepted then
        some s.issuedTokens
      else none
    else some accepted
  | _, _ => some accepted

def rotate (k : String) (g : Grant Object) (l : Label Object) : Option (Grant Object) :=
  match l with
  | .advance i input =>
    (g.client.threads[i]?).bind fun th =>
      (accept k g.accepted g.client.shared th.handler input).bind fun accepted =>
        (step g.client (.advance i input)).map fun τ => ⟨τ,accepted⟩
  | l => (step g.client l).map fun τ => ⟨τ,g.accepted⟩

/-- One request for a refresh: who sends it with which `result_id`, and the steps that handle it. -/
structure Attempt (Object : Type) where
  browser : ℕ
  resultId : Option String
  steps : List (Label Object)

def Attempt.labels (a : Attempt Object) : List (Label Object) :=
  .send a.browser (.refresh a.resultId) :: a.steps

/-- Requests on the result are handled one after the other. -/
def attempt (k : String) (g : Grant Object) (a : Attempt Object) : Option (Grant Object) :=
  if namedResult (g.client.jars a.browser) a.resultId = some k ∧
      ∀ l ∈ a.steps, Alone g.client.threads.length l then
    run (rotate k) g (a.labels ++ [.receive g.client.threads.length])
  else none

def Handler.Verifying : Handler Object → Prop
  | .refreshVerify _ _ _ => True
  | _ => False

instance (h : Handler Object) : Decidable h.Verifying :=
  match h with
  | .refreshVerify .. => .isTrue trivial
  | .homePrune .. | .loginPrune .. | .loginStore .. | .loginRedirect .. | .callbackPop .. | .callbackExchange .. |
    .callbackVerify .. | .callbackStore .. | .callbackRender .. | .refreshPrune .. | .refreshLookup .. |
    .refreshExchange .. | .refreshWrite .. | .refreshTouch .. | .refreshRender .. | .responding .. |
    .received .. => .isFalse not_false

/-- The step neither fails to validate what an exchange has returned nor sweeps the expired entry of
the refresh that it begins. -/
def Unbroken (g : Grant Object) (l : Label Object) : Prop := Smooth Handler.Verifying g.client l

instance (g : Grant Object) (l : Label Object) : Decidable (Unbroken g l) :=
  inferInstanceAs (Decidable (Smooth _ _ _))

/-- Where a refresh of the result stands while nothing breaks the grant. -/
inductive Holding (k : String) (accepted : RefreshToken) (s : Shared Object) : Handler Object → Prop
  | prune (h : s.Holds k accepted) : Holding k accepted s (.refreshPrune (some k))
  | lookup (h : s.Holds k accepted) : Holding k accepted s (.refreshLookup (some k))
  | exchange {cached : ℕ} (hk : s.tokenCache k = some cached) (h : s.Holds k accepted) :
    Holding k accepted s (.refreshExchange k cached)
  | verify {cached : ℕ} {token : TokenResponse Object} {e : Entry Object} (hk : s.tokenCache k = some cached)
    (he : s.entries[cached]? = some e) (hold : e.refreshToken ≠ some accepted)
    (ht : token.refreshToken = some accepted) : Holding k accepted s (.refreshVerify k cached token)
  | write {cached : ℕ} {token : TokenResponse Object} {userinfo : Object} {e : Entry Object}
    (hk : s.tokenCache k = some cached) (he : s.entries[cached]? = some e)
    (ht : token.refreshToken = some accepted) : Holding k accepted s (.refreshWrite k cached token userinfo)
  | touch {cached : ℕ} {token : TokenResponse Object} {userinfo : Object} (h : s.Holds k accepted) :
    Holding k accepted s (.refreshTouch k cached token userinfo)
  | render {cached : ℕ} {token : TokenResponse Object} {userinfo : Object} (h : s.Holds k accepted) :
    Holding k accepted s (.refreshRender k cached token userinfo)
  | responding {page : Page Object} (h : s.Holds k accepted) : Holding k accepted s (.responding page)

omit [JsonObject Object] in
theorem Holds.of_cached {s : Shared Object} {k : String} {cached : ℕ} {accepted : RefreshToken}
    (hk : s.tokenCache k = some cached) (h : s.Holds k accepted) :
    ∃ e, s.entries[cached]? = some e ∧ e.refreshToken = some accepted := by
  obtain ⟨e,he,ht⟩ := h
  rw [Shared.lookupEntry,hk] at he
  exact ⟨e,he,ht⟩

omit [JsonObject Object] in
theorem holds_pruneCaches {s : Shared Object} {k : String} {accepted : RefreshToken}
    (h : s.Holds k accepted) (hfresh : ∀ e ∈ s.lookupEntry k, s.cutoff ≤ e.createdAt) :
    s.pruneCaches.Holds k accepted := by
  obtain ⟨e,he,ht⟩ := h
  refine ⟨e,?_,ht⟩
  have hle := hfresh e he
  rw [lookupEntry_pruneCaches,he]
  simp [hle]

omit [JsonObject Object] in
theorem holds_touchEntry {s : Shared Object} {k : String} {accepted : RefreshToken} (cached : ℕ)
    (h : s.Holds k accepted) : (s.touchEntry cached).Holds k accepted := by
  obtain ⟨e,he,ht⟩ := h
  obtain ⟨i,hk,he⟩ := Option.bind_eq_some_iff.mp he
  by_cases hi : i = cached
  · subst hi
    refine ⟨{ e with createdAt := s.clock },?_,ht⟩
    simp [Shared.lookupEntry,touchEntry,hk,he]
  · refine ⟨e,?_,ht⟩
    have hne : cached ≠ i := Ne.symm hi
    simp [Shared.lookupEntry,touchEntry,hk,List.getElem?_modify,hne,he]

omit [JsonObject Object] in
theorem holds_writeToken {s : Shared Object} {k : String} {cached : ℕ} {e : Entry Object}
    {accepted : RefreshToken} (hk : s.tokenCache k = some cached) (he : s.entries[cached]? = some e) :
    (s.writeToken cached (some accepted)).Holds k accepted := by
  refine ⟨{ e with refreshToken := some accepted },?_,rfl⟩
  simp [Shared.lookupEntry,writeToken,hk,he]

omit [JsonObject Object] in
theorem Holding.tick {k : String} {accepted : RefreshToken} {s : Shared Object} {h : Handler Object}
    (hh : Holding k accepted s h) (now : ℤ) : Holding k accepted { s with clock := now } h := by
  cases hh with
  | prune h => exact .prune h
  | lookup h => exact .lookup h
  | exchange hk h => exact .exchange hk h
  | verify hk he hold ht => exact .verify hk he hold ht
  | write hk he ht => exact .write hk he ht
  | touch h => exact .touch h
  | render h => exact .render h
  | responding h => exact .responding h

theorem holding_advance {k : String} {accepted accepted' : RefreshToken} {s s' : Shared Object}
    {th th' : Thread Object} {input : Input Object} (h : Holding k accepted s th.handler)
    (hlt : accepted < s.issuedTokens) (hverify : th.handler.Verifying → input.failed = false)
    (hprune : ∀ k ∈ th.handler.sweptName, ∀ e ∈ s.lookupEntry k, s.cutoff ≤ e.createdAt)
    (hop : accept k accepted s th.handler input = some accepted')
    (ha : advance s th input = some (s',th')) :
    Holding k accepted' s' th'.handler ∧ accepted' < s'.issuedTokens := by
  generalize hh : th.handler = h' at h
  rw [hh] at hop
  cases h with
  | prune h =>
    cases input <;> simp only [advance,hh,reduceCtorEq] at ha
    cases ha
    cases hop
    exact ⟨.lookup (holds_pruneCaches h (hprune k (by rw [hh]; rfl))),hlt⟩
  | lookup h =>
    cases input <;> simp only [advance,hh,reduceCtorEq] at ha
    cases hop
    split at ha
    · cases ha
      exact ⟨.responding h,hlt⟩
    · rename_i k' cached hfound
      obtain ⟨k'',hk'',hfound⟩ := Option.bind_eq_some_iff.mp hfound
      obtain ⟨cached',hk,heq⟩ := Option.map_eq_some_iff.mp hfound
      cases hk''
      cases heq
      split at ha
      · cases ha
        exact ⟨.exchange hk h,hlt⟩
      · cases ha
        exact ⟨.responding h,hlt⟩
  | exchange hk h =>
    cases input <;> simp only [advance,hh,reduceCtorEq] at ha
    · cases ha
      simp only [accept,↓reduceIte] at hop
      split at hop
      · rename_i refreshes _ _ hok
        cases hop
        obtain ⟨e,he,ht⟩ := Holds.of_cached hk h
        obtain ⟨rfl,-⟩ := hok
        refine ⟨.verify (e := e) hk he ?_ rfl,Nat.lt_succ_self _⟩
        rw [ht]
        intro heq
        exact absurd (Option.some.inj heq) (Nat.ne_of_lt hlt)
      · cases hop
    · cases ha
      cases hop
      exact ⟨.responding h,hlt⟩
  | verify hk he hold ht =>
    cases input <;> simp only [advance,hh,reduceCtorEq] at ha
    · cases ha
      cases hop
      exact ⟨.write hk he ht,hlt⟩
    · exact absurd (hverify (by rw [hh]; trivial)) (by simp [Input.failed])
  | write hk he ht =>
    cases input <;> simp only [advance,hh,reduceCtorEq] at ha
    cases ha
    cases hop
    rw [ht]
    exact ⟨.touch (holds_writeToken hk he),hlt⟩
  | touch h =>
    cases input <;> simp only [advance,hh,reduceCtorEq] at ha
    cases ha
    cases hop
    exact ⟨.render (holds_touchEntry _ h),hlt⟩
  | render h =>
    cases input <;> simp only [advance,hh,reduceCtorEq] at ha
    · obtain ⟨e,-,he⟩ := Option.map_eq_some_iff.mp ha
      cases he
      cases hop
      exact ⟨.responding h,hlt⟩
    · cases ha
      cases hop
      exact ⟨.responding h,hlt⟩
  | responding h => cases input <;> simp [advance,hh] at ha

theorem rotate_advance {k : String} {g g' : Grant Object} {i : ℕ} {input : Input Object} {th : Thread Object}
    (h : rotate k g (.advance i input) = some g') (hth : g.client.threads[i]? = some th) :
    ∃ s' th', accept k g.accepted g.client.shared th.handler input = some g'.accepted ∧
      advance g.client.shared th input = some (s',th') ∧
      g'.client = { g.client with shared := s', threads := g.client.threads.set i th' } := by
  simp only [rotate,hth,Option.bind_some] at h
  obtain ⟨accepted,hop,h⟩ := Option.bind_eq_some_iff.mp h
  obtain ⟨τ,hτ,rfl⟩ := Option.map_eq_some_iff.mp h
  obtain ⟨s',th',ha,ht⟩ := advance_of_step hτ hth
  exact ⟨s',th',hop,ha,ht⟩

/-- What holds of the request at place `n` after each step that keeps `P`. -/
theorem rotate_alone {k : String} {n : ℕ} {P : RefreshToken → Shared Object → Thread Object → Prop}
    {G : Grant Object → Label Object → Prop}
    (htick : ∀ {accepted s th} now, P accepted s th → P accepted { s with clock := now } th)
    (hadvance : ∀ {g : Grant Object} {th th' input s' accepted'}, P g.accepted g.client.shared th →
      g.client.threads[n]? = some th → G g (.advance n input) →
      accept k g.accepted g.client.shared th.handler input = some accepted' →
      advance g.client.shared th input = some (s',th') → P accepted' s' th')
    {g g' : Grant Object} {ls : List (Label Object)} {th : Thread Object} (hal : ∀ l ∈ ls, Alone n l)
    (hg : Along (rotate k) G g ls) (hr : run (rotate k) g ls = some g')
    (hth : g.client.threads[n]? = some th) (hp : P g.accepted g.client.shared th) :
    ∃ th', g'.client.threads[n]? = some th' ∧ P g'.accepted g'.client.shared th' := by
  induction ls generalizing g th with
  | nil =>
    cases hr
    exact ⟨th,hth,hp⟩
  | cons l ls ih =>
    obtain ⟨u,hu,hrest⟩ := Option.bind_eq_some_iff.mp hr
    have hal' : ∀ l ∈ ls, Alone n l := fun m hm => hal m (List.mem_cons_of_mem l hm)
    have hl := hal l List.mem_cons_self
    cases l with
    | tick now =>
      obtain ⟨τ,hτ,rfl⟩ := Option.map_eq_some_iff.mp hu
      rcases alone_step hτ hl hth with ⟨now',heq,rfl⟩ | ⟨_,_,_,heq,_⟩
      · exact ih hal' (hg.2 _ hu) hrest hth (htick now' hp)
      · cases heq
    | advance i input =>
      cases hl
      obtain ⟨s',th',hop,ha,ht⟩ := rotate_advance hu hth
      have hset : u.client.threads[n]? = some th' := by
        rw [ht]
        exact getElem?_set_of_some hth
      refine ih hal' (hg.2 _ hu) hrest hset ?_
      rw [ht]
      exact hadvance hp hth hg.1 hop ha
    | send _ _ => cases hl
    | receive _ => cases hl

/-- The client holds the accepted token, and the OP has issued it. -/
structure Held (k : String) (g : Grant Object) : Prop where
  holds : g.client.shared.Holds k g.accepted
  issued : g.accepted < g.client.shared.issuedTokens

/-- No step of the request breaks the grant. -/
def Continuous (k : String) (g : Grant Object) (a : Attempt Object) : Prop :=
  Along (rotate k) Unbroken g a.labels

instance (k : String) (g : Grant Object) (a : Attempt Object) : Decidable (Continuous k g a) :=
  inferInstanceAs (Decidable (Along _ _ _ _))

theorem holding_run {k : String} {n : ℕ} {g g' : Grant Object} {ls : List (Label Object)} {th : Thread Object}
    (hal : ∀ l ∈ ls, Alone n l) (hg : Along (rotate k) Unbroken g ls) (hr : run (rotate k) g ls = some g')
    (hth : g.client.threads[n]? = some th) (hp : Holding k g.accepted g.client.shared th.handler)
    (hlt : g.accepted < g.client.shared.issuedTokens) :
    ∃ th', g'.client.threads[n]? = some th' ∧ Holding k g'.accepted g'.client.shared th'.handler ∧
      g'.accepted < g'.client.shared.issuedTokens := by
  refine rotate_alone (P := fun accepted s th => Holding k accepted s th.handler ∧ accepted < s.issuedTokens)
    (fun now hp => ⟨hp.1.tick now,hp.2⟩) ?_ hal hg hr hth ⟨hp,hlt⟩
  intro g th th' input s' accepted' hp hth hu hop ha
  exact holding_advance hp.1 hp.2 (hu th hth).1 (hu th hth).2 hop ha

/-- The request goes on without the grant. -/
structure Lost (k : String) (accepted : RefreshToken) (s : Shared Object) (h : Handler Object) : Prop where
  unheld : ¬ s.Holds k accepted
  way : (h = .refreshLookup (some k) ∧ s.tokenCache k = none) ∨ ∃ page, h = .responding page

theorem lost_run {k : String} {n : ℕ} {g g' : Grant Object} {ls : List (Label Object)} {th : Thread Object}
    (hal : ∀ l ∈ ls, Alone n l) (hr : run (rotate k) g ls = some g')
    (hth : g.client.threads[n]? = some th) (hp : Lost k g.accepted g.client.shared th.handler) :
    ¬ g'.client.shared.Holds k g'.accepted := by
  have hadvance : ∀ {g : Grant Object} {th th' : Thread Object} {input : Input Object} {s' : Shared Object}
      {accepted' : RefreshToken}, Lost k g.accepted g.client.shared th.handler →
      g.client.threads[n]? = some th → True →
      accept k g.accepted g.client.shared th.handler input = some accepted' →
      advance g.client.shared th input = some (s',th') → Lost k accepted' s' th'.handler := by
    intro g th th' input s' accepted' hp _ _ hop ha
    rcases hp.way with ⟨hh,hk⟩ | ⟨page,hh⟩
    · rw [hh] at hop
      cases input <;> simp [advance,hh,hk] at ha
      obtain ⟨rfl,rfl⟩ := ha
      cases hop
      exact ⟨hp.unheld,Or.inr ⟨_,rfl⟩⟩
    · cases input <;> simp [advance,hh] at ha
  have hkeep := rotate_alone (P := fun accepted s th => Lost k accepted s th.handler) (G := fun _ _ => True)
    (fun now hp => ⟨hp.unheld,hp.way⟩) hadvance hal (Along.of_forall (fun _ _ => trivial) _ _) hr hth hp
  obtain ⟨_,-,hlost⟩ := hkeep
  exact hlost.unheld

theorem rotate_send {k : String} {g g' : Grant Object} {browser : ℕ} {request : Request Object}
    (h : rotate k g (.send browser request) = some g') :
    g' = { g with client := { g.client with threads := g.client.threads ++ [arrive g.client browser request] } } := by
  cases h
  rfl

theorem rotate_receive {k : String} {g g' : Grant Object} {n : ℕ} (h : rotate k g (.receive n) = some g') :
    g'.accepted = g.accepted ∧ g'.client.shared = g.client.shared ∧
      ∃ th page, g.client.threads[n]? = some th ∧ th.handler = .responding page := by
  obtain ⟨τ,hτ,rfl⟩ := Option.map_eq_some_iff.mp h
  cases step_cases hτ with
  | received i th page hl hth hh ht =>
    cases hl
    exact ⟨rfl,by rw [ht],th,page,hth,hh⟩
  | ticked _ hl => cases hl
  | sent _ _ hl => cases hl
  | advanced _ _ _ _ _ hl => cases hl

theorem lost_of_failure {k : String} {n : ℕ} {g g' : Grant Object} {ys : List (Label Object)}
    {th : Thread Object} (hal : ∀ l ∈ ys, Alone n l) (hth : g.client.threads[n]? = some th)
    (hh : Holding k g.accepted g.client.shared th.handler) (hverify : th.handler.Verifying)
    (hr : run (rotate k) g (.advance n .failure :: ys) = some g') :
    ¬ g'.client.shared.Holds k g'.accepted := by
  obtain ⟨u,hu,hr⟩ := Option.bind_eq_some_iff.mp hr
  obtain ⟨s',th',hop,ha,ht⟩ := rotate_advance hu hth
  have hset : u.client.threads[n]? = some th' := by
    rw [ht]
    exact getElem?_set_of_some hth
  refine lost_run hal hr hset ?_
  generalize heq : th.handler = h at hh
  rw [heq] at hop
  cases hh with
  | verify hk he hold htoken =>
    simp only [advance,heq] at ha
    cases ha
    have hsame : g.accepted = u.accepted := Option.some.inj hop
    rw [ht,← hsame]
    refine ⟨?_,Or.inr ⟨_,rfl⟩⟩
    intro hheld
    obtain ⟨e,he',haccepted⟩ := Holds.of_cached hk hheld
    rw [he] at he'
    cases he'
    exact hold haccepted
  | _ =>
    rw [heq] at hverify
    exact False.elim hverify

theorem lost_of_sweep {k k' : String} {n : ℕ} {g g' : Grant Object} {ys : List (Label Object)}
    {input : Input Object} {th : Thread Object} {e : Entry Object} (hal : ∀ l ∈ ys, Alone n l)
    (hth : g.client.threads[n]? = some th) (hh : Holding k g.accepted g.client.shared th.handler)
    (hprune : th.handler = .refreshPrune (some k')) (he : g.client.shared.lookupEntry k' = some e)
    (hlt : e.createdAt < g.client.shared.cutoff)
    (hr : run (rotate k) g (.advance n input :: ys) = some g') :
    ¬ g'.client.shared.Holds k g'.accepted := by
  obtain ⟨u,hu,hr⟩ := Option.bind_eq_some_iff.mp hr
  obtain ⟨s',th',hop,ha,ht⟩ := rotate_advance hu hth
  have hset : u.client.threads[n]? = some th' := by
    rw [ht]
    exact getElem?_set_of_some hth
  refine lost_run hal hr hset ?_
  rw [hprune] at hh
  cases hh
  cases input <;> simp only [advance,hprune,reduceCtorEq] at ha
  cases ha
  have hgone := tokenCache_pruneCaches_of_expired he hlt
  rw [ht]
  refine ⟨?_,Or.inl ⟨rfl,hgone⟩⟩
  rintro ⟨e',he',-⟩
  rw [Shared.lookupEntry,hgone] at he'
  cases he'

/-- After a whole request the client still holds the accepted token exactly if no step of the
request broke the grant. -/
theorem held_attempt {k : String} {g g' : Grant Object} {a : Attempt Object} (hg : Held k g)
    (h : attempt k g a = some g') :
    (Continuous k g a → Held k g') ∧ (g'.client.shared.Holds k g'.accepted → Continuous k g a) := by
  unfold attempt at h
  split at h
  · rename_i hok
    obtain ⟨hnamed,hal⟩ := hok
    rw [run_append] at h
    obtain ⟨u,hu,hlast⟩ := Option.bind_eq_some_iff.mp h
    obtain ⟨v,hv,hu⟩ := Option.bind_eq_some_iff.mp hu
    have hreceive : rotate k u (.receive g.client.threads.length) = some g' := by simpa using hlast
    obtain ⟨haccepted,hshared,th,page,hth,hpage⟩ := rotate_receive hreceive
    have harrived : v.client.threads[g.client.threads.length]? = some (arrive g.client a.browser (.refresh a.resultId)) := by
      rw [rotate_send hv]
      simp
    have hbegin : Holding k v.accepted v.client.shared (arrive g.client a.browser (.refresh a.resultId)).handler ∧
        v.accepted < v.client.shared.issuedTokens := by
      rw [rotate_send hv]
      refine ⟨?_,hg.issued⟩
      rw [arrive,enter,show (truthy a.resultId).or (g.client.jars a.browser).oidc4acResult = some k from hnamed]
      exact .prune hg.holds
    constructor
    · intro hall
      obtain ⟨th',hth',hholding,hlt⟩ := holding_run hal (hall.2 v hv) hu harrived hbegin.1 hbegin.2
      rw [hth] at hth'
      cases hth'
      rw [hpage] at hholding
      cases hholding with
      | responding hholds =>
        exact ⟨by rw [haccepted,hshared]; exact hholds,by rw [haccepted,hshared]; exact hlt⟩
    · intro hholds
      rw [haccepted,hshared] at hholds
      refine ⟨trivial,?_⟩
      intro v' hv'
      rw [hv] at hv'
      cases hv'
      by_contra hbad
      obtain ⟨xs,l,ys,w,heq,hxs,hw,hl⟩ := exists_rejected hu hbad
      rw [heq] at hal hu
      have hxal : ∀ m ∈ xs, Alone g.client.threads.length m := fun m hm => hal m (List.mem_append_left _ hm)
      have hyal : ∀ m ∈ ys, Alone g.client.threads.length m :=
        fun m hm => hal m (List.mem_append_right _ (List.mem_cons_of_mem l hm))
      obtain ⟨wh,hwh,hholding,hlt⟩ := holding_run hxal hxs hw harrived hbegin.1 hbegin.2
      rw [run_append,hw,Option.bind_some] at hu
      obtain ⟨input,wh',rfl,hwh',hcases⟩ := not_smooth_cases (hal l (by simp)) hl
      rw [hwh] at hwh'
      cases hwh'
      rcases hcases with ⟨hverify,rfl⟩ | ⟨k',e,hprune,he,hexpired⟩
      · exact lost_of_failure hyal hwh hholding hverify hu hholds
      · exact lost_of_sweep hyal hwh hholding hprune he hexpired hu hholds
  · cases h

/-- After the request the client holds the token that the OP accepts. -/
def KeptAfter (k : String) (g : Grant Object) (a : Attempt Object) : Prop :=
  ∀ g', attempt k g a = some g' → g'.client.shared.Holds k g'.accepted

/-- In a serial run of refreshes the client holds the accepted token after every request exactly if
every validation after an exchange succeeds and no entry expires. -/
theorem kept_after_iff {start : ℤ} {σ : State Object} {k : String} {accepted : RefreshToken}
    (hσ : Reachable step (initial start) σ) (hk : σ.shared.Holds k accepted) {attempts : List (Attempt Object)}
    {g : Grant Object} (hr : run (attempt k) ⟨σ,accepted⟩ attempts = some g) :
    Along (attempt k) (KeptAfter k) ⟨σ,accepted⟩ attempts ↔
      Along (attempt k) (Continuous k) ⟨σ,accepted⟩ attempts := by
  have hissued := hσ.invariant TokensIssued.step (tokensIssued_initial start)
  have hheld : Held k ⟨σ,accepted⟩ := by
    refine ⟨hk,?_⟩
    obtain ⟨e,he,ht⟩ := hk
    obtain ⟨i,-,he⟩ := Option.bind_eq_some_iff.mp he
    exact hissued.entries.entry i e he accepted ht
  generalize (⟨σ,accepted⟩ : Grant Object) = g₀ at hr hheld ⊢
  induction attempts generalizing g₀ with
  | nil => exact Iff.rfl
  | cons a attempts ih =>
    obtain ⟨g₁,hg₁,hrest⟩ := Option.bind_eq_some_iff.mp hr
    obtain ⟨hkeep,hconverse⟩ := held_attempt hheld hg₁
    constructor
    · intro hall
      have hfirst := hconverse (hall.1 g₁ hg₁)
      refine ⟨hfirst,?_⟩
      intro g₁' hg₁'
      rw [hg₁] at hg₁'
      cases hg₁'
      exact (ih g₁ hrest (hkeep hfirst)).mp (hall.2 g₁ hg₁)
    · intro hall
      have hfirst := hkeep hall.1
      constructor
      · intro g₁' hg₁'
        rw [hg₁] at hg₁'
        cases hg₁'
        exact hfirst.holds
      · intro g₁' hg₁'
        rw [hg₁] at hg₁'
        cases hg₁'
        exact (ih g₁ hrest hfirst).mpr (hall.2 g₁ hg₁)

/-- One result `r` with the refresh token 0. -/
def granted : List (Label (List ℕ)) :=
  [.send 0 (.login ⟨some [1],false,true,false⟩),.advance 0 .proceed,.advance 0 (.drawLogin "n" "s"),
    .advance 0 .proceed,.receive 0,.send 0 (.callback none none (some "s")),.advance 1 .proceed,
    .advance 1 (.tokens true none ⟨some "n",[]⟩),.advance 1 (.validated []),.advance 1 (.drawResult "r"),
    .advance 1 (.discovered []),.receive 1]

def exchanged (n : ℕ) : List (Label (List ℕ)) :=
  [.advance n .proceed,.advance n .proceed,.advance n (.tokens true none ⟨none,[]⟩)]

/-- The exchange succeeds and the UserInfo request after it fails. -/
theorem failed_validation_loses_grant :
    ¬ ∀ (start : ℤ) (σ : State (List ℕ)) (k : String) (accepted : RefreshToken)
      (attempts : List (Attempt (List ℕ))) (g : Grant (List ℕ)),
      Reachable step (initial start) σ → σ.shared.Holds k accepted →
      run (attempt k) ⟨σ,accepted⟩ attempts = some g →
      Along (attempt k) (KeptAfter k) ⟨σ,accepted⟩ attempts := by
  intro h
  have hrun : ∃ σ g e, run step (initial 0) granted = some σ ∧ σ.shared.lookupEntry "r" = some e ∧
      e.refreshToken = some 0 ∧
      attempt "r" ⟨σ,0⟩ ⟨0,some "r",exchanged 2 ++ [.advance 2 .failure]⟩ = some g ∧ g.accepted = 1 ∧
      (g.client.shared.lookupEntry "r").bind Entry.refreshToken = some 0 :=
    ⟨_,_,_,rfl,rfl,rfl,rfl,rfl,rfl⟩
  obtain ⟨σ,g,e,hσ,he,ht,hg,haccepted,hstale⟩ := hrun
  have hall := h 0 σ "r" 0 [⟨0,some "r",exchanged 2 ++ [.advance 2 .failure]⟩] g ⟨granted,hσ⟩ ⟨e,he,ht⟩
    (by rw [run_cons,hg]; rfl)
  obtain ⟨e',he',ht'⟩ := hall.1 g hg
  rw [he',Option.bind_some,ht',haccepted] at hstale
  cases hstale

def renewed : Attempt (List ℕ) :=
  ⟨0,some "r",exchanged 2 ++ [.advance 2 (.validated []),.advance 2 .proceed,.advance 2 .proceed,
    .advance 2 (.discovered [])]⟩

/-- A refresh that the token endpoint refuses. -/
def refused : Attempt (List ℕ) := ⟨0,none,(exchanged 3).take 2 ++ [.advance 3 .failure]⟩

theorem refused_exchange_keeps_grant :
    ∃ σ : State (List ℕ), run step (initial 0) granted = some σ ∧
      Along (attempt "r") (KeptAfter "r") ⟨σ,0⟩ [renewed,refused] := by
  have hrun : ∃ σ g₁ g₂ e, run step (initial 0) granted = some σ ∧ σ.shared.lookupEntry "r" = some e ∧
      e.refreshToken = some 0 ∧ attempt "r" ⟨σ,0⟩ renewed = some g₁ ∧ attempt "r" g₁ refused = some g₂ ∧
      Continuous "r" ⟨σ,0⟩ renewed ∧ Continuous "r" g₁ refused :=
    ⟨_,_,_,_,rfl,rfl,rfl,rfl,rfl,by decide,by decide⟩
  obtain ⟨σ,g₁,g₂,e,hσ,he,ht,hg₁,hg₂,hc₁,hc₂⟩ := hrun
  refine ⟨σ,hσ,(kept_after_iff ⟨granted,hσ⟩ ⟨e,he,ht⟩ (g := g₂) ?_).mpr ⟨hc₁,?_⟩⟩
  · rw [run_cons,hg₁,Option.bind_some,run_cons,hg₂]
    rfl
  · intro g hg
    rw [hg₁] at hg
    cases hg
    exact ⟨hc₂,fun _ _ => trivial⟩

end Oidc4acLab.Client
