import Oidc4acLab.Client.Cookies

/-! # Refresh tokens stay with their authorization

A refresh token is held by the entry of a result and by the handlers that have just received
it. Whoever holds it, now or later, holds it for the authorization that the OP issued it for:
a new token has a number that nobody holds yet, and every other step hands on a token of the
same authorization.
-/
namespace Oidc4acLab.Client
open Transition Shared Thread
variable {Object : Type}

def Shared.contextOf (s : Shared Object) (cached : ℕ) : Option String := (s.stored[cached]?).map Stored.contextId

/-- The authorization for which a handler has received tokens, and the refresh token among them. -/
def Handler.holding (s : Shared Object) : Handler Object → Option (Option String × Option RefreshToken)
  | .callbackVerify p _ token | .callbackStore p _ token _ | .callbackRender p _ token _ _ =>
    some (some p,token.refreshToken)
  | .refreshVerify _ cached token | .refreshWrite _ cached token _ | .refreshTouch _ cached token _
  | .refreshRender _ cached token _ => some (s.contextOf cached,token.refreshToken)
  | _ => none

def EntryHolds (s : Shared Object) (n : RefreshToken) (p : String) : Prop :=
  ∃ i e, s.contextOf i = some p ∧ s.entries[i]? = some e ∧ e.refreshToken = some n

def HandlerHolds (s : Shared Object) (h : Handler Object) (n : RefreshToken) (p : String) : Prop :=
  h.holding s = some (some p,some n)

/-- Somewhere in the client the token is held for this authorization. -/
def Holds (σ : State Object) (n : RefreshToken) (p : String) : Prop :=
  EntryHolds σ.shared n p ∨ ∃ (i : ℕ) (th : Thread Object), σ.threads[i]? = some th ∧
    HandlerHolds σ.shared th.handler n p

theorem entryHolds_issueToken {s : Shared Object} {refreshes : Bool} {n : RefreshToken} {p : String}
    (h : EntryHolds (s.issueToken refreshes) n p) : EntryHolds s n p := by
  unfold issueToken at h
  split at h <;> exact h

/-- The token that the OP has just issued is one that nobody holds. -/
structure Issued (s s' : Shared Object) (th' : Thread Object) (n : RefreshToken) (p : String) : Prop where
  number : n = s.issuedTokens
  counted : s'.issuedTokens = s.issuedTokens+1
  held : HandlerHolds s' th'.handler n p

theorem issued_of_received {s s' : Shared Object} {th' : Thread Object} {refreshes : Bool} {n : RefreshToken}
    {p : String} (hs : s' = s.issueToken refreshes) (hh : HandlerHolds s' th'.handler n p)
    (hn : (if refreshes then some s.issuedTokens else none) = some n) : Issued s s' th' n p := by
  subst hs
  cases refreshes with
  | true =>
    cases hn
    exact ⟨rfl,rfl,hh⟩
  | false => cases hn

theorem Effect.entryHolds {s s' : Shared Object} {th th' : Thread Object} (h : Effect s th s' th')
    (hs : Linked s) {n : RefreshToken} {p : String} (hn : EntryHolds s' n p) :
    EntryHolds s n p ∨ HandlerHolds s th.handler n p := by
  cases h with
  | resultStored state context token userinfo resultId hh _ he =>
    subst he
    obtain ⟨i,e,hc,hi,htoken⟩ := hn
    obtain ⟨r,hr,hrp⟩ := Option.map_eq_some_iff.mp hc
    rcases getElem?_append_cases hi with hi | ⟨rfl,rfl⟩
    · rcases getElem?_append_cases hr with hr | ⟨hlen,_⟩
      · exact Or.inl ⟨i,e,by rw [contextOf,hr]; exact congrArg some hrp,hi,htoken⟩
      · have hlt := (List.getElem?_eq_some_iff.mp hi).1
        rw [hs.sameLength,← hlen] at hlt
        exact absurd hlt (Nat.lt_irrefl i)
    · rcases getElem?_append_cases hr with hr | ⟨_,rfl⟩
      · have hlt := (List.getElem?_eq_some_iff.mp hr).1
        rw [hs.sameLength] at hlt
        exact absurd hlt (Nat.lt_irrefl _)
      · right
        rw [HandlerHolds,hh]
        cases hrp
        exact congrArg (fun m => some (some _,m)) htoken
  | tokenWritten k cached token userinfo hh he =>
    subst he
    obtain ⟨i,e,hc,hi,htoken⟩ := hn
    obtain ⟨a,ha,⟨-,rfl⟩ | ⟨rfl,rfl⟩⟩ := getElem?_modify_cases hi
    · exact Or.inl ⟨i,_,hc,ha,htoken⟩
    · rcases Option.or_eq_some_iff.mp htoken with htoken | ⟨-,htoken⟩
      · right
        rw [HandlerHolds,hh,Handler.holding,htoken]
        exact congrArg (fun q => some (q,some n)) hc
      · exact Or.inl ⟨i,a,hc,ha,htoken⟩
  | entryTouched k cached token userinfo _ he =>
    subst he
    obtain ⟨i,e,hc,hi,htoken⟩ := hn
    obtain ⟨a,ha,⟨-,rfl⟩ | ⟨-,rfl⟩⟩ := getElem?_modify_cases hi
    · exact Or.inl ⟨i,_,hc,ha,htoken⟩
    · exact Or.inl ⟨i,a,hc,ha,htoken⟩
  | callbackExchanged _ _ _ _ _ _ _ he => exact Or.inl (entryHolds_issueToken (he ▸ hn))
  | refreshExchanged _ _ _ _ _ _ he => exact Or.inl (entryHolds_issueToken (he ▸ hn))
  | settled _ he => exact Or.inl (he ▸ hn)
  | pruned _ he => subst he; exact Or.inl hn
  | contextStored _ _ _ _ _ _ _ _ he => subst he; exact Or.inl hn
  | contextPopped _ _ _ _ _ he => subst he; exact Or.inl hn
  | callbackValidated _ _ _ _ _ _ he => exact Or.inl (he ▸ hn)
  | callbackRendered _ _ _ _ _ _ _ he => exact Or.inl (he ▸ hn)
  | refreshFound _ _ _ _ _ he => exact Or.inl (he ▸ hn)
  | refreshValidated _ _ _ _ _ he => exact Or.inl (he ▸ hn)
  | refreshRendered _ _ _ _ _ _ _ _ he => exact Or.inl (he ▸ hn)

theorem Effect.handlerHolds {s s' : Shared Object} {th th' : Thread Object} (h : Effect s th s' th')
    {n : RefreshToken} {p : String} (hn : HandlerHolds s' th'.handler n p) :
    HandlerHolds s th.handler n p ∨ Issued s s' th' n p := by
  cases h with
  | callbackExchanged state context refreshes accessToken idToken _ _ he ht =>
    right
    refine issued_of_received he hn ?_
    rw [ht] at hn
    exact congrArg Prod.snd (Option.some.inj hn)
  | refreshExchanged k cached refreshes accessToken idToken _ he ht =>
    right
    refine issued_of_received he hn ?_
    rw [ht] at hn
    exact congrArg Prod.snd (Option.some.inj hn)
  | callbackValidated _ _ _ _ hh _ he ht => subst he ht; left; rw [hh]; exact hn
  | resultStored _ _ _ _ _ hh _ _ ht => subst ht; left; rw [hh]; exact hn
  | refreshValidated _ _ _ _ hh he ht => subst he ht; left; rw [hh]; exact hn
  | tokenWritten _ _ _ _ hh he ht => subst he ht; left; rw [hh]; exact hn
  | entryTouched _ _ _ _ hh he ht => subst he ht; left; rw [hh]; exact hn
  | settled page _ hp => rw [HandlerHolds,hp] at hn; cases hn
  | pruned h' _ ht hcases =>
    subst ht
    rcases hcases with ⟨_,_,rfl⟩ | ⟨_,_,_,rfl⟩ | ⟨_,_,rfl⟩
    all_goals cases hn
  | contextStored _ _ _ _ _ _ _ _ _ ht => rw [ht] at hn; cases hn
  | contextPopped _ _ _ _ _ _ ht => rw [ht] at hn; cases hn
  | callbackRendered _ _ _ _ _ _ _ _ ht => rw [ht] at hn; cases hn
  | refreshFound _ _ _ _ _ _ ht => rw [ht] at hn; cases hn
  | refreshRendered _ _ _ _ _ _ _ _ _ ht => rw [ht] at hn; cases hn

theorem Traced.handlerHolds {s s' : Shared Object} {th : Thread Object} {own : Option String} (ht : Traced s th)
    (hs : Keeps own s s') {n : RefreshToken} {p : String} (hn : HandlerHolds s' th.handler n p) :
    HandlerHolds s th.handler n p := by
  have hh := ht.handler
  have hentry : ∀ {cached : ℕ} {k : String} {token : Option RefreshToken}, (∃ q, s.stored[cached]? = some ⟨k,q⟩) →
      some (s'.contextOf cached,token) = some (some p,some n) →
      some (s.contextOf cached,token) = some (some p,some n) := by
    rintro cached k token ⟨q,hq⟩ he
    rw [contextOf,hs.stored cached _ hq] at he
    rw [contextOf,hq]
    exact he
  unfold HandlerHolds at hn ⊢
  cases hk : th.handler with
  | refreshVerify k cached token =>
    rw [hk] at hh hn
    exact hentry hh.2 hn
  | refreshWrite k cached token _ =>
    rw [hk] at hh hn
    exact hentry hh.2 hn
  | refreshTouch k cached token _ =>
    rw [hk] at hh hn
    exact hentry hh.2 hn
  | refreshRender k cached token _ =>
    rw [hk] at hh hn
    exact hentry hh.2 hn
  | _ =>
    rw [hk] at hn
    exact hn

variable [JsonObject Object]

def OwnedBy (owner : RefreshToken → Option String) (σ : State Object) : Prop :=
  ∀ n p, Holds σ n p → owner n = some p ∧ n < σ.shared.issuedTokens

/-- A step changes at most what it is about, and the tokens issued before keep their owners. -/
theorem OwnedBy.step {owner : RefreshToken → Option String} {σ τ : State Object} {l : Label Object}
    (h : OwnedBy owner σ) (hσ : Isolated σ) (he : Client.step σ l = some τ) :
    σ.shared.issuedTokens ≤ τ.shared.issuedTokens ∧
      ∃ owner', (∀ n < σ.shared.issuedTokens, owner' n = owner n) ∧ OwnedBy owner' τ := by
  cases step_cases he with
  | ticked now _ _ ht => exact ht ▸ ⟨Nat.le_refl _,owner,fun _ _ => rfl,h⟩
  | sent browser request _ ht =>
    subst ht
    refine ⟨Nat.le_refl _,owner,fun _ _ => rfl,?_⟩
    rintro n p (hn | ⟨i,th,hth,hn⟩)
    · exact h n p (Or.inl hn)
    · rcases getElem?_append_cases hth with hth | ⟨_,rfl⟩
      · exact h n p (Or.inr ⟨i,th,hth,hn⟩)
      · have hnone : (enter (σ.jars browser) request).holding σ.shared = none := by
          cases request with
          | login form =>
            simp only [enter]
            split
            · rfl
            · split <;> rfl
          | callback error errorDescription state =>
            simp only [enter]
            split <;> rfl
          | _ => rfl
        have hsome : (enter (σ.jars browser) request).holding σ.shared = some (some p,some n) := hn
        rw [hnone] at hsome
        cases hsome
  | received i th page _ hth hh ht =>
    subst ht
    refine ⟨Nat.le_refl _,owner,fun _ _ => rfl,?_⟩
    rintro n p (hn | ⟨j,uh,huh,hn⟩)
    · exact h n p (Or.inl hn)
    · rcases getElem?_set_cases huh with ⟨_,huh⟩ | ⟨_,rfl⟩
      · exact h n p (Or.inr ⟨j,uh,huh,hn⟩)
      · cases hn
  | advanced i input th s' th' _ hth hf ht =>
    subst ht
    have ho := hf.outcome hσ.linked (hσ.traced i th hth)
    have hle : σ.shared.issuedTokens ≤ s'.issuedTokens := by
      cases hf.change with
      | tokenIssued refreshes =>
        unfold issueToken
        split
        · exact Nat.le_succ _
        · exact Nat.le_refl _
      | _ => exact Nat.le_refl _
    refine ⟨hle,fun n => if n < σ.shared.issuedTokens then owner n else (th'.handler.holding s').bind Prod.fst,
      fun n hn => if_pos hn,?_⟩
    have hold : ∀ n p, Holds σ n p → (if n < σ.shared.issuedTokens then owner n
        else (th'.handler.holding s').bind Prod.fst) = some p ∧ n < s'.issuedTokens := by
      intro n p hn
      obtain ⟨hown,hlt⟩ := h n p hn
      exact ⟨by rw [if_pos hlt,hown],Nat.lt_of_lt_of_le hlt hle⟩
    rintro n p (hn | ⟨j,uh,huh,hn⟩)
    · rcases hf.entryHolds hσ.linked hn with hn | hn
      · exact hold n p (Or.inl hn)
      · exact hold n p (Or.inr ⟨i,th,hth,hn⟩)
    · rcases getElem?_set_cases huh with ⟨_,huh⟩ | ⟨_,rfl⟩
      · exact hold n p (Or.inr ⟨j,uh,huh,(hσ.traced j uh huh).handlerHolds ho.keeps hn⟩)
      · rcases hf.handlerHolds hn with hn | ⟨rfl,hcount,hheld⟩
        · exact hold n p (Or.inr ⟨i,th,hth,hn⟩)
        · refine ⟨?_,by rw [hcount]; exact Nat.lt_succ_self _⟩
          have hheld' : uh.handler.holding s' = some (some p,some σ.shared.issuedTokens) := hheld
          exact (if_neg (Nat.lt_irrefl _)).trans (by rw [hheld']; rfl)

theorem OwnedBy.run {owner : RefreshToken → Option String} {σ τ : State Object} {ls : List (Label Object)}
    (h : OwnedBy owner σ) (hσ : Isolated σ) (hr : Transition.run Client.step σ ls = some τ) :
    ∃ owner', (∀ n < σ.shared.issuedTokens, owner' n = owner n) ∧ OwnedBy owner' τ := by
  induction ls generalizing σ owner with
  | nil =>
    cases hr
    exact ⟨owner,fun _ _ => rfl,h⟩
  | cons l ls ih =>
    obtain ⟨υ,he,hr⟩ := Option.bind_eq_some_iff.mp hr
    obtain ⟨hle,owner',hsame,hυ⟩ := h.step hσ he
    obtain ⟨owner'',hsame',hτ⟩ := ih hυ (hσ.step he) hr
    exact ⟨owner'',fun n hn => (hsame' n (Nat.lt_of_lt_of_le hn hle)).trans (hsame n hn),hτ⟩

omit [JsonObject Object] in
theorem ownedBy_initial (start : ℤ) : OwnedBy (fun _ => none) (initial start : State Object) := by
  rintro n p (⟨i,e,_,he,_⟩ | ⟨i,th,hth,_⟩)
  · cases he
  · cases hth

theorem stored_run {σ τ : State Object} {ls : List (Label Object)} (hσ : Isolated σ)
    (hr : Transition.run Client.step σ ls = some τ) : ∀ r ∈ σ.shared.stored, r ∈ τ.shared.stored := by
  induction ls generalizing σ with
  | nil =>
    cases hr
    exact fun _ h => h
  | cons l ls ih =>
    obtain ⟨υ,he,hr⟩ := Option.bind_eq_some_iff.mp hr
    exact fun r h => ih (hσ.step he) hr r ((extends_step hσ he).stored r h)

omit [JsonObject Object] in
/-- A refresh is about to present this token to the OP for this result. -/
def Presents (σ : State Object) (k : String) (n : RefreshToken) : Prop :=
  ∃ (i : ℕ) (th : Thread Object) (cached : ℕ), σ.threads[i]? = some th ∧ th.handler = .refreshExchange k cached ∧
    ((σ.shared.entries[cached]?).bind Entry.refreshToken) = some n

omit [JsonObject Object] in
theorem Presents.holds {σ : State Object} {k : String} {n : RefreshToken} (h : Presents σ k n) (hσ : Isolated σ) :
    ∃ p, (⟨k,p⟩ : Stored) ∈ σ.shared.stored ∧ Holds σ n p := by
  obtain ⟨i,th,cached,hth,hh,hn⟩ := h
  have ht := (hσ.traced i th hth).handler
  rw [hh] at ht
  obtain ⟨_,p,hp⟩ := ht
  obtain ⟨e,he,htoken⟩ := Option.bind_eq_some_iff.mp hn
  exact ⟨p,List.mem_iff_getElem?.mpr ⟨cached,hp⟩,Or.inl ⟨cached,e,by rw [contextOf,hp]; rfl,he,htoken⟩⟩

/-- A refresh token that is held for an authorization in some state of a run is held for no other one,
neither in that state nor later, and is presented to the OP for one result only. -/
theorem tokens_confined {start : ℤ} {σ τ : State Object} {ls : List (Label Object)}
    (hσ : Reachable Client.step (initial start) σ) (hr : Transition.run Client.step σ ls = some τ) :
    (∀ n p q, Holds σ n p → Holds τ n q → q = p) ∧ ∀ n k l, Presents σ k n → Presents τ l n → l = k := by
  obtain ⟨ks,hks⟩ := hσ
  have hiso : Isolated σ := isolated_reachable ⟨ks,hks⟩
  have hiso' : Isolated τ := isolated_reachable (Reachable.run ⟨ks,hks⟩ hr)
  obtain ⟨owner,_,hown⟩ := (ownedBy_initial start).run (isolated_initial start) hks
  obtain ⟨owner',hsame,hown'⟩ := hown.run hiso hr
  have hone : ∀ n p q, Holds σ n p → Holds τ n q → q = p := by
    intro n p q hp hq
    obtain ⟨hnp,hlt⟩ := hown n p hp
    have hnq := (hown' n q hq).1
    rw [hsame n hlt,hnp] at hnq
    exact (Option.some.inj hnq).symm
  refine ⟨hone,?_⟩
  intro n k l hk hl
  obtain ⟨p,hkp,hp⟩ := hk.holds hiso
  obtain ⟨q,hlq,hq⟩ := hl.holds hiso'
  rw [hone n p q hp hq] at hlq
  have he := List.inj_on_of_nodup_map hiso'.linked.contextsDistinct hlq (stored_run hiso hr _ hkp) rfl
  exact congrArg Stored.resultId he

/-- Two authorizations of one browser, the first about to be refreshed. -/
def twoGrants : List (Label (List ℕ)) :=
  [.send 0 (.login (formOf [1])),.advance 0 .proceed,.advance 0 (.drawLogin "n" "s"),.advance 0 .proceed,
    .receive 0,.send 0 (.callback none none (some "s")),.advance 1 .proceed,
    .advance 1 (.tokens true none ⟨some "n",[]⟩),.advance 1 (.validated []),.advance 1 (.drawResult "r"),
    .send 0 (.refresh (some "r")),.advance 2 .proceed,.advance 2 .proceed]

/-- The token of the first exchange stays with `s` through a refresh. -/
theorem tokens_confined_refreshed :
    ∃ σ τ, run step (initial 0) twoGrants = some σ ∧ run step σ [.advance 2 (.tokens true none ⟨none,[]⟩)] = some τ ∧
      Presents σ "r" 0 ∧ Holds σ 0 "s" ∧ ∀ q, Holds τ 0 q → q = "s" := by
  have hrun : ∃ σ τ th e, run step (initial 0) twoGrants = some σ ∧
      run step σ [.advance 2 (.tokens true none ⟨none,[]⟩)] = some τ ∧ σ.threads[2]? = some th ∧
      th.handler = .refreshExchange "r" 0 ∧ σ.shared.entries[0]? = some e ∧ e.refreshToken = some 0 ∧
      σ.shared.contextOf 0 = some "s" := ⟨_,_,_,_,rfl,rfl,rfl,rfl,rfl,rfl,rfl⟩
  obtain ⟨σ,τ,th,e,hσ,hτ,hth,hh,he,htoken,hc⟩ := hrun
  have hs : Holds σ 0 "s" := Or.inl ⟨0,e,hc,he,htoken⟩
  have hpresents : Presents σ "r" 0 := ⟨2,th,0,hth,hh,by rw [he]; exact htoken⟩
  exact ⟨σ,τ,hσ,hτ,hpresents,hs,fun q hq => (tokens_confined ⟨twoGrants,hσ⟩ hτ).1 0 "s" q hs hq⟩

end Oidc4acLab.Client
