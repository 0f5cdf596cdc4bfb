import Oidc4acLab.Client.Isolation

/-! # What ends a pending authorization

A callback without an error takes its context out of the cache before anything else can
fail, and no identifier comes back, so no later request is accepted with the same state.
A callback with an error is answered at once and leaves the context where it is.
-/
namespace Oidc4acLab.Client
open Transition Shared Thread
variable {Object : Type} [JsonObject Object]

/-- Once the request is answered its context is not pending, and no later request takes it. -/
def EndsPending (σ : State Object) (browser : ℕ) (request : Request Object) (k : String) : Prop :=
  ∀ ls τ th page, run step σ (.send browser request :: ls) = some τ →
    τ.threads[σ.threads.length]? = some th → th.Shows page →
      τ.shared.authorizationCache k = none ∧
      ∀ ks υ j uh, run step τ ks = some υ → τ.threads.length ≤ j → υ.threads[j]? = some uh → uh.handed ≠ some k

/-- The identifier was issued and is not pending. -/
structure Spent (s : Shared Object) (k : String) : Prop where
  issued : k ∈ s.issuedIds
  gone : s.authorizationCache k = none

def PendingNamed (σ : State Object) : Prop := ∀ c, σ.shared.authorizationCache "" ≠ some c

omit [JsonObject Object] in
theorem Change.pendingNamed {s s' : Shared Object} {th th' : Thread Object} (h : Change s th th' s')
    (hs : ∀ c, s.authorizationCache "" ≠ some c) : ∀ c, s'.authorizationCache "" ≠ some c := by
  intro c hc
  cases h with
  | same | resultStored _ _ _ _ _ | tokenWritten _ _ _ _ _ | entryTouched _ => exact hs c hc
  | tokenIssued refreshes =>
    rw [authorizationCache_issueToken] at hc
    exact hs c hc
  | pruned _ => exact hs c (authorizationCache_pruneCaches hc).1
  | contextPopped state context _ _ _ => exact hs c (authorizationCache_popContext hc).2
  | contextStored contextId nonce claims hf =>
    rw [storeContext] at hc
    simp only [Function.update_of_ne (Ne.symm hf.1)] at hc
    exact hs c hc

theorem PendingNamed.step {σ τ : State Object} {l : Label Object} (h : PendingNamed σ)
    (he : step σ l = some τ) : PendingNamed τ := by
  cases step_cases he with
  | ticked now _ _ ht =>
    subst ht
    exact h
  | sent browser request _ ht =>
    subst ht
    exact h
  | advanced i input th s' th' _ _ hf ht =>
    subst ht
    exact hf.change.pendingNamed h
  | received i th page _ _ _ ht =>
    subst ht
    exact h

theorem pending_ne_empty {start : ℤ} {σ : State Object} (hσ : Reachable step (initial start) σ) {k : String}
    {c : Context Object} (hc : σ.shared.authorizationCache k = some c) : k ≠ "" := by
  have hnamed : PendingNamed σ := hσ.invariant PendingNamed.step (by intro c hc; cases hc)
  rintro rfl
  exact hnamed c hc

theorem Spent.step {σ τ : State Object} {l : Label Object} {k : String} (h : Spent σ.shared k) (hi : Isolated σ)
    (he : step σ l = some τ) : Spent τ.shared k := by
  cases step_cases he with
  | ticked now _ _ ht =>
    subst ht
    exact ⟨h.issued,h.gone⟩
  | sent browser request _ ht =>
    subst ht
    exact h
  | advanced i input th s' th' _ hth hf ht =>
    subst ht
    have hkeeps := (hf.outcome hi.linked (hi.traced i th hth)).keeps
    exact ⟨hkeeps.issued k h.issued,hkeeps.gone k h.issued h.gone⟩
  | received i th page _ _ _ ht =>
    subst ht
    exact h

/-- The identifier is spent, and no request from `first` on holds its context. -/
structure Refused (first : ℕ) (k : String) (σ : State Object) : Prop where
  isolated : Isolated σ
  spent : Spent σ.shared k
  unheld : ∀ j uh, first ≤ j → σ.threads[j]? = some uh → uh.handed ≠ some k

theorem Refused.step {first : ℕ} {k : String} {σ τ : State Object} {l : Label Object} (h : Refused first k σ)
    (he : step σ l = some τ) : Refused first k τ := by
  refine ⟨h.isolated.step he,h.spent.step h.isolated he,?_⟩
  cases step_cases he with
  | ticked now _ _ ht =>
    subst ht
    exact h.unheld
  | sent browser request _ ht =>
    subst ht
    intro j uh hj huh hhanded
    exact h.unheld j uh hj (handed_arrive huh hhanded) hhanded
  | advanced i input th s' th' _ hth hf ht =>
    subst ht
    intro j uh hj huh hhanded
    rcases getElem?_set_cases huh with ⟨_,huh⟩ | ⟨rfl,rfl⟩
    · exact h.unheld j uh hj huh hhanded
    · rcases (hf.outcome h.isolated.linked (h.isolated.traced j th hth)).handed with heq | ⟨p,c,_,hp,hc,_⟩
      · exact h.unheld j th hj hth (heq ▸ hhanded)
      · rw [hp] at hhanded
        cases hhanded
        rw [h.spent.gone] at hc
        cases hc
  | received i th page _ hth _ ht =>
    subst ht
    intro j uh hj huh hhanded
    rcases getElem?_set_cases huh with ⟨_,huh⟩ | ⟨rfl,rfl⟩
    · exact h.unheld j uh hj huh hhanded
    · exact h.unheld j th hj hth hhanded

/-- The callback at `n` has yet to pop its context, or the context is gone. -/
structure Ending (n : ℕ) (k : String) (σ : State Object) : Prop where
  isolated : Isolated σ
  issued : k ∈ σ.shared.issuedIds
  ends : (∃ th, σ.threads[n]? = some th ∧ th.handler = .callbackPop (some k)) ∨ σ.shared.authorizationCache k = none

theorem advance_callbackPop {s s' : Shared Object} {th th' : Thread Object} {input : Input Object} {k : String}
    (hk : k ≠ "") (hh : th.handler = .callbackPop (some k)) (h : advance s th input = some (s',th')) :
    s'.authorizationCache k = none := by
  have htruthy : truthy (some k) = some k := by simp [truthy,hk]
  cases input with
  | proceed =>
    simp only [advance,hh,htruthy] at h
    cases hc : s.authorizationCache k with
    | none =>
      rw [hc] at h
      cases h
      exact hc
    | some c =>
      rw [hc] at h
      cases h
      simp [popContext]
  | drawLogin | drawResult | tokens | validated | discovered | failure =>
    simp only [advance,hh] at h
    cases h

theorem Ending.step {n : ℕ} {k : String} (hk : k ≠ "") {σ τ : State Object} {l : Label Object} (h : Ending n k σ)
    (he : step σ l = some τ) : Ending n k τ := by
  have hgone : σ.shared.authorizationCache k = none → Ending n k τ := fun hnone =>
    have hspent := (Spent.mk h.issued hnone).step h.isolated he
    ⟨h.isolated.step he,hspent.issued,Or.inr hspent.gone⟩
  rcases h.ends with ⟨th,hth,hh⟩ | hnone
  · refine ⟨h.isolated.step he,?_,?_⟩
    · cases step_cases he with
      | ticked now _ _ ht =>
        subst ht
        exact h.issued
      | sent browser request _ ht =>
        subst ht
        exact h.issued
      | advanced i input uh s' uh' _ huh hf ht =>
        subst ht
        exact (hf.outcome h.isolated.linked (h.isolated.traced i uh huh)).keeps.issued k h.issued
      | received i uh page _ _ _ ht =>
        subst ht
        exact h.issued
    · cases l with
      | tick now =>
        cases step_cases he with
        | ticked _ _ _ ht =>
          subst ht
          exact Or.inl ⟨th,hth,hh⟩
        | sent _ _ hl | advanced _ _ _ _ _ hl | received _ _ _ hl => cases hl
      | send browser request =>
        cases step_cases he with
        | sent _ _ _ ht =>
          subst ht
          exact Or.inl ⟨th,getElem?_append_of_some hth,hh⟩
        | ticked _ hl | advanced _ _ _ _ _ hl | received _ _ _ hl => cases hl
      | advance i input =>
        by_cases hi : i = n
        · subst hi
          obtain ⟨s',th',ha,rfl⟩ := advance_of_step he hth
          exact Or.inr (advance_callbackPop hk hh ha)
        · cases step_cases he with
          | advanced _ _ _ _ _ hl _ _ ht =>
            cases hl
            subst ht
            exact Or.inl ⟨th,by rw [List.getElem?_set_ne hi]; exact hth,hh⟩
          | ticked _ hl | sent _ _ hl | received _ _ _ hl => cases hl
      | receive i =>
        cases step_cases he with
        | received _ uh page hl huh hresponding ht =>
          cases hl
          subst ht
          have hi : i ≠ n := by
            rintro rfl
            rw [hth] at huh
            cases huh
            rw [hh] at hresponding
            cases hresponding
          exact Or.inl ⟨th,by rw [List.getElem?_set_ne hi]; exact hth,hh⟩
        | ticked _ hl | sent _ _ hl | advanced _ _ _ _ _ hl => cases hl
  · exact hgone hnone

/-- A callback ends the authorization that its state names exactly if it carries no error. -/
theorem callback_ends_pending_iff {start : ℤ} {σ : State Object} (hσ : Reachable step (initial start) σ)
    {k : String} {c : Context Object} (hc : σ.shared.authorizationCache k = some c) (browser : ℕ)
    (error errorDescription : Option String) :
    EndsPending σ browser (.callback error errorDescription (some k)) k ↔ truthy error = none := by
  constructor
  · intro h
    by_contra hne
    obtain ⟨e,he⟩ := Option.ne_none_iff_exists'.mp hne
    have hsent : run step σ [.send browser (.callback error errorDescription (some k))] = some
        { σ with threads := σ.threads ++ [arrive σ browser (.callback error errorDescription (some k))] } := rfl
    have hshows : (arrive σ browser (.callback error errorDescription (some k))).Shows
        (.error e (errorDescription.getD "No public description was returned.") 200) := by
      refine Or.inl ?_
      simp only [arrive,enter,he]
    have hgone := (h [] _ _ _ hsent (by simp) hshows).1
    rw [hc] at hgone
    cases hgone
  · intro hnone ls τ th page hr hth hshows
    have hk := pending_ne_empty hσ hc
    have hi := isolated_reachable hσ
    obtain ⟨σ',hs,hr⟩ := Option.bind_eq_some_iff.mp hr
    have hsent : Ending σ.threads.length k σ' := by
      have hisolated := hi.step hs
      cases hs
      have hissued := hi.linked.loginIssued _ (hi.linked.pendingLogin k c hc)
      refine ⟨hisolated,hissued,Or.inl ⟨_,List.getElem?_concat_length,?_⟩⟩
      simp only [arrive,enter,hnone]
    have hend : Ending σ.threads.length k τ := run_invariant (Ending.step hk) hsent hr
    have hgone : τ.shared.authorizationCache k = none := by
      rcases hend.ends with ⟨uh,huh,hpop⟩ | hgone
      · rw [hth] at huh
        cases huh
        rcases hshows with hp | hp
        · rw [hpop] at hp
          cases hp
        · rw [hpop] at hp
          cases hp
      · exact hgone
    refine ⟨hgone,fun ks υ j uh hks hj huh => ?_⟩
    have hrefused : Refused τ.threads.length k τ := by
      refine ⟨hend.isolated,⟨hend.issued,hgone⟩,fun j uh hj huh => ?_⟩
      rw [List.getElem?_eq_none hj] at huh
      cases huh
    exact (run_invariant Refused.step hrefused hks).unheld j uh hj huh

/-- A callback with a code, after a login. -/
theorem completed_authorization_ended : ∃ σ : State (List ℕ), Reachable step (initial 0) σ ∧
    (σ.shared.authorizationCache "s").isSome = true ∧
      EndsPending σ 0 (.callback none none (some "s")) "s" := by
  have hrun : ∃ σ c, run step (initial 0) [.send 0 (.login (formOf [1])),.advance 0 .proceed,
      .advance 0 (.drawLogin "n" "s")] = some σ ∧ σ.shared.authorizationCache "s" = some c :=
    ⟨_,_,rfl,rfl⟩
  obtain ⟨σ,c,hσ,hc⟩ := hrun
  exact ⟨σ,⟨_,hσ⟩,by rw [hc]; rfl,(callback_ends_pending_iff ⟨_,hσ⟩ hc 0 none none).mpr rfl⟩

/-- The user cancels, and the same state is accepted afterwards. -/
theorem cancelled_authorization_pending : ∃ σ : State (List ℕ), Reachable step (initial 0) σ ∧
    (σ.shared.authorizationCache "s").isSome = true ∧
      ¬ EndsPending σ 0 (.callback (some "access_denied") none (some "s")) "s" := by
  have hrun : ∃ σ τ υ th uh c, run step (initial 0) [.send 0 (.login (formOf [1])),.advance 0 .proceed,
      .advance 0 (.drawLogin "n" "s"),.advance 0 .proceed,.receive 0] = some σ ∧
      run step σ [.send 0 (.callback (some "access_denied") none (some "s")),.receive 1] = some τ ∧
      run step τ [.send 0 (.callback none none (some "s")),.advance 2 .proceed] = some υ ∧
      τ.threads[1]? = some th ∧ th.handler =
        .received (.error "access_denied" "No public description was returned." 200) ∧
      υ.threads[2]? = some uh ∧ uh.handed = some "s" ∧ σ.shared.authorizationCache "s" = some c ∧
      σ.threads.length = 1 ∧ τ.threads.length = 2 :=
    ⟨_,_,_,_,_,_,rfl,rfl,rfl,rfl,rfl,rfl,rfl,rfl,rfl,rfl⟩
  obtain ⟨σ,τ,υ,th,uh,c,hσ,hτ,hυ,hth,hh,huh,hhanded,hc,hlen,hlen'⟩ := hrun
  refine ⟨σ,⟨_,hσ⟩,by rw [hc]; rfl,fun h => ?_⟩
  have hlater := (h _ τ th _ hτ (by rw [hlen]; exact hth) (Or.inr hh)).2
  exact hlater _ υ 2 uh hυ (Nat.le_of_eq hlen') huh hhanded

end Oidc4acLab.Client
