import Oidc4acLab.Client.Transitions
import Oidc4acLab.Transition.Members

/-! # One request handled alone

While a request is handled only its own handler advances, and time passes. What the
handler keeps step by step then holds when it answers.
-/
namespace Oidc4acLab.Client
open Transition Shared Thread
variable {Object : Type}

/-- The entry of `TOKEN_CACHE` under an identifier. -/
def Shared.lookupEntry (s : Shared Object) (k : String) : Option (Entry Object) :=
  (s.tokenCache k).bind fun cached => s.entries[cached]?

def namedResult (session : Session) (resultId : Option String) : Option String :=
  (truthy resultId).or session.oidc4acResult

def Handler.sweptName : Handler Object → Option String
  | .refreshPrune resultId => resultId
  | _ => none

def Input.failed : Input Object → Bool
  | .failure => true
  | _ => false

/-- The step neither fails where a failure matters nor sweeps the expired entry of the refresh that
it begins. -/
def Smooth (critical : Handler Object → Prop) (σ : State Object) : Label Object → Prop
  | .advance i input => ∀ th ∈ σ.threads[i]?, (critical th.handler → input.failed = false) ∧
      ∀ k ∈ th.handler.sweptName, ∀ e ∈ σ.shared.lookupEntry k, σ.shared.cutoff ≤ e.createdAt
  | _ => True

instance (critical : Handler Object → Prop) [DecidablePred critical] (σ : State Object) (l : Label Object) :
    Decidable (Smooth critical σ l) := by
  cases l <;> unfold Smooth <;> infer_instance

/-- Only the request at this place advances. -/
def Alone (i : ℕ) : Label Object → Prop
  | .advance j _ => j = i
  | .tick _ => True
  | _ => False

instance (i : ℕ) (l : Label Object) : Decidable (Alone i l) := by
  cases l <;> unfold Alone <;> infer_instance

@[simp] theorem lookupEntry_issueToken (s : Shared Object) (refreshes : Bool) (k : String) :
    (s.issueToken refreshes).lookupEntry k = s.lookupEntry k := by
  unfold issueToken
  split <;> rfl

@[simp] theorem clearState_oidc4acResult (th : Thread Object) (state : String) :
    (th.clearState state).session.oidc4acResult = th.session.oidc4acResult := by
  unfold Thread.clearState
  split <;> rfl

theorem lookupEntry_pruneCaches (s : Shared Object) (k : String) :
    s.pruneCaches.lookupEntry k = (s.lookupEntry k).filter fun e => !decide (e.createdAt < s.cutoff) := by
  have hprune : s.pruneCaches.lookupEntry k =
      ((s.tokenCache k).filter fun cached => !s.expiredEntry cached).bind
        fun cached => s.entries[cached]? := rfl
  rw [hprune,lookupEntry]
  cases s.tokenCache k with
  | none => rfl
  | some cached =>
    rw [Option.bind_some,Option.filter_some,expiredEntry]
    cases he : s.entries[cached]? with
    | none => simp [he]
    | some e =>
      by_cases hlt : e.createdAt < s.cutoff
      · simp [Option.filter_some,hlt]
      · simp [Option.filter_some,hlt,he]

theorem tokenCache_pruneCaches_of_expired {s : Shared Object} {k : String} {e : Entry Object}
    (he : s.lookupEntry k = some e) (hlt : e.createdAt < s.cutoff) : s.pruneCaches.tokenCache k = none := by
  obtain ⟨cached,hc,he⟩ := Option.bind_eq_some_iff.mp he
  simp [pruneCaches,hc,expiredEntry,he,hlt]

theorem not_smooth_cases {critical : Handler Object → Prop} {σ : State Object} {l : Label Object} {i : ℕ}
    (hal : Alone i l) (h : ¬ Smooth critical σ l) :
    ∃ input th, l = .advance i input ∧ σ.threads[i]? = some th ∧
      ((critical th.handler ∧ input = .failure) ∨
        ∃ k e, th.handler = .refreshPrune (some k) ∧ σ.shared.lookupEntry k = some e ∧
          e.createdAt < σ.shared.cutoff) := by
  cases l with
  | advance j input =>
    cases hal
    unfold Smooth at h
    push Not at h
    obtain ⟨th,hth,hbad⟩ := h
    refine ⟨input,th,rfl,hth,?_⟩
    by_cases hcritical : critical th.handler → input.failed = false
    · obtain ⟨k,hk,e,he,hlt⟩ := hbad hcritical
      refine Or.inr ⟨k,e,?_,he,by omega⟩
      cases hh : th.handler with
      | refreshPrune resultId =>
        rw [hh] at hk
        exact congrArg Handler.refreshPrune hk
      | _ =>
        rw [hh] at hk
        cases hk
    · push Not at hcritical
      refine Or.inl ⟨hcritical.1,?_⟩
      cases input with
      | failure => rfl
      | _ => exact absurd rfl hcritical.2
  | tick _ => exact absurd trivial h
  | send _ _ => cases hal
  | receive _ => cases hal

variable [JsonObject Object]

theorem alone_step {σ τ : State Object} {l : Label Object} {i : ℕ} {th : Thread Object}
    (he : step σ l = some τ) (hl : Alone i l) (hth : σ.threads[i]? = some th) :
    (∃ now, l = .tick now ∧ τ = { σ with shared := { σ.shared with clock := now } }) ∨
    ∃ input s' th', l = .advance i input ∧ advance σ.shared th input = some (s',th') ∧
      τ = { σ with shared := s', threads := σ.threads.set i th' } := by
  cases l with
  | tick now =>
    cases step_cases he with
    | ticked now' hl' _ ht =>
      cases hl'
      exact Or.inl ⟨now,rfl,ht⟩
    | sent _ _ hl' => cases hl'
    | advanced _ _ _ _ _ hl' => cases hl'
    | received _ _ _ hl' => cases hl'
  | advance j input =>
    cases hl
    obtain ⟨s',th',ha,ht⟩ := advance_of_step he hth
    exact Or.inr ⟨input,s',th',rfl,ha,ht⟩
  | send _ _ => cases hl
  | receive _ => cases hl

/-- What each admitted step of the handler and the passing of time keep holds after the run. -/
theorem alone_run {P : Shared Object → Thread Object → Prop} {G : State Object → Label Object → Prop}
    {i : ℕ} (htick : ∀ {s th} now, P s th → P { s with clock := now } th)
    (hadvance : ∀ {σ : State Object} {th th' input s'}, P σ.shared th → σ.threads[i]? = some th →
      G σ (.advance i input) → advance σ.shared th input = some (s',th') → P s' th')
    {σ τ : State Object} {ls : List (Label Object)} {th : Thread Object}
    (hal : ∀ l ∈ ls, Alone i l) (hg : Along step G σ ls) (hr : run step σ ls = some τ)
    (hth : σ.threads[i]? = some th) (hp : P σ.shared th) :
    τ.jars = σ.jars ∧ ∃ th', τ.threads[i]? = some th' ∧ P τ.shared th' := by
  induction ls generalizing σ th with
  | nil =>
    cases hr
    exact ⟨rfl,th,hth,hp⟩
  | cons l ls ih =>
    obtain ⟨υ,he,hr⟩ := Option.bind_eq_some_iff.mp hr
    have hal' : ∀ k ∈ ls, Alone i k := fun k hk => hal k (List.mem_cons_of_mem l hk)
    rcases alone_step he (hal l List.mem_cons_self) hth with ⟨now,rfl,rfl⟩ | ⟨input,s',th',rfl,ha,rfl⟩
    · have hrest := hg.2 _ he
      have hkeep := ih hal' hrest hr hth (htick now hp)
      exact hkeep
    · have hrest := hg.2 _ he
      have hkeep := ih hal' hrest hr (getElem?_set_of_some hth) (hadvance hp hth hg.1 ha)
      exact hkeep

theorem alone_answered {i : ℕ} {σ τ : State Object} {ls : List (Label Object)} {th : Thread Object}
    {page : Page Object} (hal : ∀ l ∈ ls, Alone i l) (hr : run step σ ls = some τ)
    (hth : σ.threads[i]? = some th) (hh : th.handler = .responding page) :
    τ.threads[i]? = some th ∧ τ.shared.tokenCache = σ.shared.tokenCache := by
  have hkeep := alone_run
    (P := fun s uh => uh = th ∧ s.tokenCache = σ.shared.tokenCache)
    (G := fun _ _ => True) (fun _ h => h)
    (fun {υ uh uh' input s'} hp _ _ ha => by
      obtain ⟨rfl,-⟩ := hp
      cases input <;> simp [advance,hh] at ha) hal (Along.of_forall (fun _ _ => trivial) _ _) hr hth
    ⟨rfl,rfl⟩
  obtain ⟨-,th',hth',rfl,hcache⟩ := hkeep
  exact ⟨hth',hcache⟩

end Oidc4acLab.Client
