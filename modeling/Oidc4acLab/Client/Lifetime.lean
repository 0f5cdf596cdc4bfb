import Oidc4acLab.Client.Isolation

/-! # The lifetime of cache entries

Expiry is not checked where an entry is used. `prune_caches` removes what has
expired, and `/callback` does not call it. The invariant accounts for every
login: its context is pending, was handed to a callback, or was swept.
-/
namespace Oidc4acLab.Client
open Transition Shared Thread
variable {Object : Type}

def Expired (now createdAt : ℤ) : Prop := nanos cacheTtlSeconds < now - createdAt

theorem Expired.mono {now later createdAt : ℤ} (h : Expired now createdAt) (hle : now ≤ later) :
    Expired later createdAt := by
  unfold Expired at *
  omega

theorem expired_iff_cutoff (s : Shared Object) (createdAt : ℤ) :
    Expired s.clock createdAt ↔ createdAt < s.cutoff := by
  unfold Expired cutoff
  omega

theorem not_expired_of_le {now createdAt : ℤ} (h : now ≤ createdAt) : ¬ Expired now createdAt := by
  intro he
  have hlt : (900000000000 : ℤ) < now - createdAt := he
  omega

@[simp] theorem sweeps_issueToken (s : Shared Object) (refreshes : Bool) :
    (s.issueToken refreshes).sweeps = s.sweeps := by
  unfold issueToken
  split <;> rfl

theorem Change.clock {s s' : Shared Object} {th th' : Thread Object} (h : Change s th th' s') :
    s'.clock = s.clock := by
  cases h with
  | tokenIssued refreshes =>
    unfold issueToken
    split <;> rfl
  | _ => rfl

theorem Change.sweeps {s s' : Shared Object} {th th' : Thread Object} (h : Change s th th' s') :
    s'.sweeps = s.sweeps ∨ s' = s.pruneCaches := by
  cases h with
  | pruned _ => exact Or.inr rfl
  | tokenIssued refreshes => exact Or.inl (sweeps_issueToken s refreshes)
  | _ => exact Or.inl rfl

/-- A cached result of the new state was cached before, with an entry that is
not younger, or its entry was made or renewed now. -/
def Spares (s s' : Shared Object) : Prop :=
  ∀ k cached e', s'.tokenCache k = some cached → s'.entries[cached]? = some e' →
    (∃ e, s.tokenCache k = some cached ∧ s.entries[cached]? = some e ∧ e.createdAt ≤ e'.createdAt) ∨
      e'.createdAt = s.clock

theorem spares_of_eq {s s' : Shared Object} (ht : s'.tokenCache = s.tokenCache) (he : s'.entries = s.entries) :
    Spares s s' := by
  intro k cached e' hk hc
  rw [ht] at hk
  rw [he] at hc
  exact Or.inl ⟨e',hk,hc,Int.le_refl _⟩

theorem Change.spares {s s' : Shared Object} {th th' : Thread Object} (h : Change s th th' s') :
    Spares s s' := by
  cases h with
  | same => exact spares_of_eq rfl rfl
  | contextStored _ _ _ _ => exact spares_of_eq rfl rfl
  | contextPopped _ _ _ _ _ => exact spares_of_eq rfl rfl
  | tokenIssued refreshes =>
    unfold issueToken
    split <;> exact spares_of_eq rfl rfl
  | pruned _ =>
    intro k cached e' hk he
    exact Or.inl ⟨e',(tokenCache_pruneCaches hk).1,he,Int.le_refl _⟩
  | resultStored resultId contextId refreshToken claims _ =>
    intro k cached e' hk he
    rcases getElem?_append_cases he with he | ⟨_,rfl⟩
    · rcases tokenCache_storeResult hk with ⟨_,hi⟩ | ⟨_,hk⟩
      · have hlt := (List.getElem?_eq_some_iff.mp he).1
        omega
      · exact Or.inl ⟨e',hk,he,Int.le_refl _⟩
    · exact Or.inr rfl
  | tokenWritten _ j token _ _ =>
    intro k cached e' hk he
    obtain ⟨e,hold,⟨_,rfl⟩ | ⟨_,rfl⟩⟩ := getElem?_modify_cases he
    · exact Or.inl ⟨_,hk,hold,Int.le_refl _⟩
    · exact Or.inl ⟨_,hk,hold,Int.le_refl _⟩
  | entryTouched j =>
    intro k cached e' hk he
    obtain ⟨e,hold,⟨_,rfl⟩ | ⟨_,rfl⟩⟩ := getElem?_modify_cases he
    · exact Or.inl ⟨_,hk,hold,Int.le_refl _⟩
    · exact Or.inr rfl

structure Timely (s : Shared Object) (th : Thread Object) : Prop where
  started : th.startedAt ≤ s.clock
  lookup : ∀ resultId, th.handler = .refreshLookup resultId → ∀ k cached e, s.tokenCache k = some cached →
    s.entries[cached]? = some e → ¬ Expired th.startedAt e.createdAt

theorem Timely.keep {s s' : Shared Object} {th : Thread Object} (h : Timely s th) (hs : Spares s s')
    (hc : s.clock ≤ s'.clock) : Timely s' th where
  started := Int.le_trans h.started hc
  lookup := by
    intro resultId hh k cached e' hk he
    rcases hs k cached e' hk he with ⟨e,hk,he,hle⟩ | hnew
    · have hn := h.lookup resultId hh k cached e hk he
      unfold Expired at *
      omega
    · refine not_expired_of_le ?_
      rw [hnew]
      exact h.started

theorem Effect.timely {s s' : Shared Object} {th th' : Thread Object} (h : Effect s th s' th')
    (ht : Timely s th) : Timely s' th' where
  started := by
    rw [h.sameRequest.startedAt, h.change.clock]
    exact ht.started
  lookup := by
    intro resultId hh
    cases h with
    | pruned h' he hth _ =>
      subst he hth
      intro k cached e hk he hx
      have hkept := (tokenCache_pruneCaches hk).2
      have hentry : s.entries[cached]? = some e := he
      have hnot : ¬ e.createdAt < s.cutoff := by simpa [expiredEntry,hentry] using hkept
      exact hnot ((expired_iff_cutoff s e.createdAt).mp (hx.mono ht.started))
    | settled page _ hp =>
      rw [hp] at hh
      cases hh
    | contextStored _ _ _ _ _ _ _ _ _ ht => subst ht; cases hh
    | contextPopped _ _ _ _ _ _ ht => subst ht; cases hh
    | callbackExchanged _ _ _ _ _ _ _ _ ht => subst ht; cases hh
    | callbackValidated _ _ _ _ _ _ _ ht => subst ht; cases hh
    | resultStored _ _ _ _ _ _ _ _ ht => subst ht; cases hh
    | callbackRendered _ _ _ _ _ _ _ _ ht => subst ht; cases hh
    | refreshFound _ _ _ _ _ _ ht => subst ht; cases hh
    | refreshExchanged _ _ _ _ _ _ _ ht => subst ht; cases hh
    | refreshValidated _ _ _ _ _ _ ht => subst ht; cases hh
    | tokenWritten _ _ _ _ _ _ ht => subst ht; cases hh
    | entryTouched _ _ _ _ _ _ ht => subst ht; cases hh
    | refreshRendered _ _ _ _ _ _ _ _ _ ht => subst ht; cases hh

def Handed (threads : List (Thread Object)) (p : String) : Prop := ∃ th ∈ threads, th.handed = some p

def Pending (s : Shared Object) (L : Login Object) : Prop :=
  ∃ c, s.authorizationCache L.contextId = some c ∧ c.createdAt = L.storedAt

def SweptAway (s : Shared Object) (L : Login Object) : Prop := ∃ t ∈ s.sweeps, Expired t L.storedAt

theorem handed_set {threads : List (Thread Object)} {k : ℕ} {th th' : Thread Object} {p : String}
    (hth : threads[k]? = some th) (hmono : th.handed = some p → th'.handed = some p)
    (h : Handed threads p) : Handed (threads.set k th') p := by
  obtain ⟨uh,hu,hp⟩ := h
  obtain ⟨j,hj⟩ := List.mem_iff_getElem?.mp hu
  have hlt : k < threads.length := (List.getElem?_eq_some_iff.mp hth).1
  by_cases hjk : j = k
  · subst hjk
    rw [hth] at hj
    cases hj
    exact ⟨th',List.mem_iff_getElem?.mpr ⟨j,by simp [hlt]⟩,hmono hp⟩
  · exact ⟨uh,List.mem_iff_getElem?.mpr ⟨j,by simpa [Ne.symm hjk] using hj⟩,hp⟩

structure Aging (σ : State Object) : Prop where
  isolated : Isolated σ
  sweepsPast : ∀ t ∈ σ.shared.sweeps, t ≤ σ.shared.clock
  unswept : ∀ p c, σ.shared.authorizationCache p = some c → ∀ t ∈ σ.shared.sweeps, ¬ Expired t c.createdAt
  accounted : ∀ L ∈ σ.shared.logins,
    Pending σ.shared L ∨ Handed σ.threads L.contextId ∨ SweptAway σ.shared L
  timely : ∀ (i : ℕ) (th : Thread Object), σ.threads[i]? = some th → Timely σ.shared th

theorem aging_initial (start : ℤ) : Aging (initial start : State Object) where
  isolated := isolated_initial start
  sweepsPast := by intro t ht; cases ht
  unswept := by intro p c hc; cases hc
  accounted := by intro L hL; cases hL
  timely := by intro i th hth; cases hth

theorem Change.unswept {s s' : Shared Object} {th th' : Thread Object} (h : Change s th th' s')
    (hpast : ∀ t ∈ s.sweeps, t ≤ s.clock)
    (hu : ∀ p c, s.authorizationCache p = some c → ∀ t ∈ s.sweeps, ¬ Expired t c.createdAt) :
    ∀ p c, s'.authorizationCache p = some c → ∀ t ∈ s'.sweeps, ¬ Expired t c.createdAt := by
  intro p c hc t ht
  cases h with
  | pruned _ =>
    obtain ⟨hc,hle⟩ := authorizationCache_pruneCaches hc
    rcases List.mem_cons.mp ht with rfl | ht
    · intro hx
      have hlt := (expired_iff_cutoff s c.createdAt).mp hx
      omega
    · exact hu p c hc t ht
  | contextStored contextId nonce claims _ =>
    rcases authorizationCache_storeContext hc with ⟨_,rfl⟩ | ⟨_,hc⟩
    · exact not_expired_of_le (hpast t ht)
    · exact hu p c hc t ht
  | contextPopped state _ _ _ _ => exact hu p c (authorizationCache_popContext hc).2 t ht
  | tokenIssued refreshes =>
    rw [authorizationCache_issueToken] at hc
    rw [sweeps_issueToken] at ht
    exact hu p c hc t ht
  | same => exact hu p c hc t ht
  | resultStored _ _ _ _ _ => exact hu p c hc t ht
  | tokenWritten _ _ _ _ _ => exact hu p c hc t ht
  | entryTouched _ => exact hu p c hc t ht

theorem mem_logins_change {s s' : Shared Object} {th th' : Thread Object} (h : Change s th th' s')
    {L : Login Object} (hL : L ∈ s'.logins) :
    L ∈ s.logins ∨ s.Fresh L.contextId ∧ Pending s' L := by
  cases h with
  | contextStored contextId nonce claims hf =>
    rcases List.mem_cons.mp hL with rfl | hL
    · exact Or.inr ⟨hf,⟨claims,nonce,s.clock⟩,by simp [storeContext],rfl⟩
    · exact Or.inl hL
  | tokenIssued refreshes =>
    left
    unfold issueToken at hL
    split at hL <;> exact hL
  | same => exact Or.inl hL
  | pruned _ => exact Or.inl hL
  | contextPopped _ _ _ _ _ => exact Or.inl hL
  | resultStored _ _ _ _ _ => exact Or.inl hL
  | tokenWritten _ _ _ _ _ => exact Or.inl hL
  | entryTouched _ => exact Or.inl hL

theorem Change.pending {s s' : Shared Object} {th th' : Thread Object} (h : Change s th th' s')
    (hs : Linked s) {L : Login Object} (hL : L ∈ s.logins) (hp : Pending s L) :
    Pending s' L ∨ th'.handed = some L.contextId ∨ SweptAway s' L := by
  obtain ⟨c,hc,hat⟩ := hp
  cases h with
  | pruned _ =>
    by_cases hlt : c.createdAt < s.cutoff
    · have hx : Expired s.clock L.storedAt := by
        rw [← hat]
        exact (expired_iff_cutoff s c.createdAt).mpr hlt
      exact Or.inr (Or.inr ⟨s.clock,List.mem_cons_self,hx⟩)
    · exact Or.inl ⟨c,by simp [pruneCaches,hc,hlt],hat⟩
  | contextStored contextId nonce claims hf =>
    have hne : L.contextId ≠ contextId := by
      intro he
      exact hf.2 (he ▸ hs.loginIssued L hL)
    exact Or.inl ⟨c,by simp [storeContext,Function.update_of_ne hne,hc],hat⟩
  | contextPopped state _ _ _ hk =>
    by_cases he : L.contextId = state
    · rw [he]
      exact Or.inr (Or.inl hk)
    · exact Or.inl ⟨c,by simp [popContext,Function.update_of_ne he,hc],hat⟩
  | tokenIssued refreshes => exact Or.inl ⟨c,by rw [authorizationCache_issueToken]; exact hc,hat⟩
  | same => exact Or.inl ⟨c,hc,hat⟩
  | resultStored _ _ _ _ _ => exact Or.inl ⟨c,hc,hat⟩
  | tokenWritten _ _ _ _ _ => exact Or.inl ⟨c,hc,hat⟩
  | entryTouched _ => exact Or.inl ⟨c,hc,hat⟩

theorem Change.sweptAway {s s' : Shared Object} {th th' : Thread Object} (h : Change s th th' s')
    {L : Login Object} (hw : SweptAway s L) : SweptAway s' L := by
  obtain ⟨t,ht,hx⟩ := hw
  rcases h.sweeps with he | rfl
  · exact ⟨t,he ▸ ht,hx⟩
  · exact ⟨t,List.mem_cons_of_mem _ ht,hx⟩

variable [JsonObject Object]

theorem timely_arrive (σ : State Object) (browser : ℕ) (request : Request Object) :
    Timely σ.shared (arrive σ browser request) where
  started := Int.le_refl _
  lookup := by
    intro resultId hh
    cases request with
    | home => cases hh
    | login form =>
      simp only [arrive, enter] at hh
      split at hh
      · cases hh
      · split at hh <;> cases hh
    | callback error errorDescription state =>
      simp only [arrive, enter] at hh
      split at hh <;> cases hh
    | refresh _ => cases hh

theorem Aging.step {σ τ : State Object} {l : Label Object} (h : Aging σ) (he : step σ l = some τ) :
    Aging τ := by
  have hiso := h.isolated.step he
  cases step_cases he with
  | ticked now _ hle ht =>
    subst ht
    refine ⟨hiso,fun t ht => Int.le_trans (h.sweepsPast t ht) hle,h.unswept,h.accounted,?_⟩
    intro i th hth
    exact (h.timely i th hth).keep (spares_of_eq rfl rfl) hle
  | sent browser request _ ht =>
    subst ht
    refine ⟨hiso,h.sweepsPast,h.unswept,?_,forall_append h.timely (timely_arrive σ browser request)⟩
    intro L hL
    refine (h.accounted L hL).imp_right (Or.imp_left ?_)
    rintro ⟨th,hth,hp⟩
    exact ⟨th,List.mem_append_left _ hth,hp⟩
  | advanced k input th s' th' _ hth hf ht =>
    subst ht
    have hch := hf.change
    have ho := hf.outcome h.isolated.linked (h.isolated.traced k th hth)
    have hk' : (σ.threads.set k th')[k]? = some th' := by
      simp [(List.getElem?_eq_some_iff.mp hth).1]
    refine ⟨hiso,?_,hch.unswept h.sweepsPast h.unswept,?_,?_⟩
    · intro t ht
      rcases hch.sweeps with hsw | hsw
      · have hle := h.sweepsPast t (hsw ▸ ht)
        exact Int.le_trans hle (Int.le_of_eq hch.clock.symm)
      · subst hsw
        rcases List.mem_cons.mp ht with rfl | ht
        · exact Int.le_refl _
        · exact h.sweepsPast t ht
    · intro L hL
      rcases mem_logins_change hch hL with hL | ⟨_,hp⟩
      · rcases h.accounted L hL with hp | hh | hw
        · rcases hch.pending h.isolated.linked hL hp with hp | hh | hw
          · exact Or.inl hp
          · exact Or.inr (Or.inl ⟨th',List.mem_iff_getElem?.mpr ⟨k,hk'⟩,hh⟩)
          · exact Or.inr (Or.inr hw)
        · exact Or.inr (Or.inl (handed_set hth (ho.handed_mono (h.isolated.traced k th hth)) hh))
        · exact Or.inr (Or.inr (hch.sweptAway hw))
      · exact Or.inl hp
    · refine forall_set h.timely (hf.timely (h.timely k th hth)) ?_
      intro j uh _ _ ht
      exact ht.keep hch.spares (Int.le_of_eq hch.clock.symm)
  | received k th page _ hth hh ht =>
    subst ht
    refine ⟨hiso,h.sweepsPast,h.unswept,?_,?_⟩
    · intro L hL
      exact (h.accounted L hL).imp_right (Or.imp_left (handed_set hth fun hp => hp))
    · refine forall_set h.timely ?_ fun _ _ _ _ ht => ht
      exact ⟨(h.timely k th hth).started,fun _ hc => by cases hc⟩

/-- No handler acts on an entry that had expired when it started, and no sweep
removes an entry that has not expired. -/
structure LifetimeEnforced (σ : State Object) (l : Label Object) : Prop where
  callback : ∀ i input th p c, l = .advance i input → σ.threads[i]? = some th →
    th.handler = .callbackPop (some p) → σ.shared.authorizationCache p = some c →
    th.startedAt - c.createdAt ≤ nanos cacheTtlSeconds
  refresh : ∀ i input th k cached e, l = .advance i input → σ.threads[i]? = some th →
    th.handler = .refreshLookup (some k) → σ.shared.tokenCache k = some cached →
    σ.shared.entries[cached]? = some e → th.startedAt - e.createdAt ≤ nanos cacheTtlSeconds
  sweepContexts : ∀ i input th τ p c, l = .advance i input → σ.threads[i]? = some th → th.handler.Sweeps →
    step σ l = some τ → σ.shared.authorizationCache p = some c → τ.shared.authorizationCache p ≠ some c →
    σ.shared.clock - c.createdAt > nanos cacheTtlSeconds
  sweepResults : ∀ τ k cached, step σ l = some τ → σ.shared.tokenCache k = some cached →
    τ.shared.tokenCache k ≠ some cached →
    ∃ e, σ.shared.entries[cached]? = some e ∧ σ.shared.clock - e.createdAt > nanos cacheTtlSeconds

/-- A callback is about to look up the state of a login: it started within the
lifetime of the login, or the state was handed out before, or a sweep has run
since the login expired. -/
def PopsInTime (σ : State Object) (l : Label Object) : Prop :=
  ∀ i input th L, l = .advance i input → σ.threads[i]? = some th → L ∈ σ.shared.logins →
    th.handler = .callbackPop (some L.contextId) →
    th.startedAt - L.storedAt ≤ nanos cacheTtlSeconds ∨
      (∃ uh ∈ σ.threads, uh.handed = some L.contextId) ∨
      ∃ t ∈ σ.shared.sweeps, t - L.storedAt > nanos cacheTtlSeconds

omit [JsonObject Object] in
theorem Change.tokenCache {s s' : Shared Object} {th th' : Thread Object} (h : Change s th th' s')
    (hs : Linked s) {k : String} {cached : ℕ} (hk : s.tokenCache k = some cached) :
    s'.tokenCache k = some cached ∨
      th.handler.Sweeps ∧ ∃ e, s.entries[cached]? = some e ∧ e.createdAt < s.cutoff := by
  obtain ⟨p,hp⟩ := hs.cachedStored k cached hk
  cases h with
  | pruned hsw =>
    obtain ⟨e,he⟩ := hs.entry hp
    by_cases hlt : e.createdAt < s.cutoff
    · exact Or.inr ⟨hsw,e,he,hlt⟩
    · left
      simp [pruneCaches,hk,expiredEntry,he,hlt]
  | resultStored resultId state refreshToken claims hf =>
    have hne : k ≠ resultId := by
      rintro rfl
      exact hf.2 (hs.resultIssued _ (List.mem_iff_getElem?.mpr ⟨cached,hp⟩))
    left
    simp [storeResult,Function.update_of_ne hne,hk]
  | tokenIssued refreshes =>
    left
    unfold issueToken
    split <;> exact hk
  | same => exact Or.inl hk
  | contextStored _ _ _ _ => exact Or.inl hk
  | contextPopped _ _ _ _ _ => exact Or.inl hk
  | tokenWritten _ _ _ _ _ => exact Or.inl hk
  | entryTouched _ => exact Or.inl hk

theorem sweep_contexts {σ τ : State Object} (h : Isolated σ) {i : ℕ} {input : Input Object} {th : Thread Object}
    (hth : σ.threads[i]? = some th) (hsw : th.handler.Sweeps) (he : step σ (.advance i input) = some τ)
    {p : String} {c : Context Object} (hc : σ.shared.authorizationCache p = some c)
    (hgone : τ.shared.authorizationCache p ≠ some c) : Expired σ.shared.clock c.createdAt := by
  cases step_cases he with
  | advanced j input' uh s' uh' hl huh hf ht =>
    cases hl
    rw [hth] at huh
    cases huh
    subst ht
    rcases hf.authorizationCache h.linked hc with hkept | hlt | hpop
    · exact absurd hkept hgone
    · exact (expired_iff_cutoff _ _).mpr hlt
    · rw [hpop] at hsw
      exact hsw.elim
  | ticked _ hl => cases hl
  | sent _ _ hl => cases hl
  | received _ _ _ hl => cases hl

theorem sweep_results {σ τ : State Object} (h : Isolated σ) {l : Label Object} (he : step σ l = some τ)
    {k : String} {cached : ℕ} (hk : σ.shared.tokenCache k = some cached)
    (hgone : τ.shared.tokenCache k ≠ some cached) :
    ∃ e, σ.shared.entries[cached]? = some e ∧ Expired σ.shared.clock e.createdAt := by
  cases step_cases he with
  | advanced i input th s' th' _ _ hf ht =>
    subst ht
    rcases hf.change.tokenCache h.linked hk with hkept | ⟨_,e,hentry,hlt⟩
    · exact absurd hkept hgone
    · exact ⟨e,hentry,(expired_iff_cutoff _ _).mpr hlt⟩
  | ticked _ _ _ ht =>
    subst ht
    exact absurd hk hgone
  | sent _ _ _ ht =>
    subst ht
    exact absurd hk hgone
  | received _ _ _ _ _ _ ht =>
    subst ht
    exact absurd hk hgone

theorem Aging.enforced_iff {σ : State Object} {l : Label Object} (h : Aging σ) :
    LifetimeEnforced σ l ↔ PopsInTime σ l := by
  constructor
  · intro he i input th L hl hth hL hh
    rcases h.accounted L hL with ⟨c,hc,hat⟩ | hhanded | hswept
    · have hle := he.callback i input th L.contextId c hl hth hh hc
      rw [hat] at hle
      exact Or.inl hle
    · exact Or.inr (Or.inl hhanded)
    · exact Or.inr (Or.inr hswept)
  · intro hp
    refine ⟨?_,?_,?_,?_⟩
    · intro i input th p c hl hth hh hc
      have hL := h.isolated.linked.pendingLogin p c hc
      rcases hp i input th (c.login p) hl hth hL hh with hle | ⟨uh,hu,hhanded⟩ | ⟨t,ht,hx⟩
      · exact hle
      · obtain ⟨j,hj⟩ := List.mem_iff_getElem?.mp hu
        have hnone := ((h.isolated.traced j uh hj).handedGone p hhanded).1
        rw [hc] at hnone
        cases hnone
      · exact absurd hx (h.unswept p c hc t ht)
    · intro i input th k cached e _ hth hh hk he
      have hn := (h.timely i th hth).lookup (some k) hh k cached e hk he
      exact Int.not_lt.mp hn
    · intro i input th τ p c hl hth hsw he hc hgone
      subst hl
      exact sweep_contexts h.isolated hth hsw he hc hgone
    · intro τ k cached he hk hgone
      exact sweep_results h.isolated he hk hgone

/-- A run enforces the lifetime at every step exactly if every callback pops in
time. The refresh and the sweeps keep to the lifetime on every run. -/
theorem lifetime_enforced_iff (start : ℤ) (ls : List (Label Object)) :
    Along step LifetimeEnforced (initial start) ls ↔ Along step PopsInTime (initial start) ls :=
  along_congr Aging.step (fun h => h.enforced_iff) (aging_initial start) ls

/-- Nobody else calls for a quarter of an hour, and the state is still accepted. -/
theorem expired_context_accepted :
    ¬ ∀ (start : ℤ) (ls : List (Label (List ℕ))) (σ : State (List ℕ)),
      run step (initial start) ls = some σ → Along step LifetimeEnforced (initial start) ls := by
  intro h
  have hrun : ∃ σ τ th c, run step (initial 0) [.send 0 (.login (formOf [1])),.advance 0 .proceed,
      .advance 0 (.drawLogin "n" "s"),.advance 0 .proceed,.receive 0,.tick (nanos 901),
      .send 0 (.callback none none (some "s"))] = some σ ∧ step σ (.advance 1 .proceed) = some τ ∧
      σ.threads[1]? = some th ∧ th.handler = .callbackPop (some "s") ∧
      σ.shared.authorizationCache "s" = some c ∧ th.startedAt = nanos 901 ∧ c.createdAt = 0 :=
    ⟨_,_,_,_,rfl,rfl,rfl,rfl,rfl,rfl,rfl⟩
  obtain ⟨σ,τ,th,c,hr,he,hth,hh,hc,hstart,hcreated⟩ := hrun
  have hall : run step (initial 0) ([.send 0 (.login (formOf [1])),.advance 0 .proceed,
      .advance 0 (.drawLogin "n" "s"),.advance 0 .proceed,.receive 0,.tick (nanos 901),
      .send 0 (.callback none none (some "s"))] ++ [.advance 1 .proceed]) = some τ := by
    rw [run_append, hr]
    simp [he]
  have hle := ((h 0 _ τ hall).append hr).1.callback 1 .proceed th "s" c rfl hth hh hc
  rw [hstart, hcreated] at hle
  exact absurd hle (by decide)

end Oidc4acLab.Client
