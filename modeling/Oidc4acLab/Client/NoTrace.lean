import Oidc4acLab.Client.Alone

/-! # Requests that fail

A callback or a refresh that answers with another page than the result should leave the
stored results as they were. Both handlers store first and render the result page afterwards,
for which they fetch Discovery; when the fetch fails, or when one of the objects cannot be
dumped or its text not encoded, no page is returned and what was stored stays.
-/
namespace Oidc4acLab.Client
open Transition Shared Thread
variable {Object : Type}

def Handler.Rendering : Handler Object → Prop
  | .callbackRender _ _ _ _ _ | .refreshRender _ _ _ _ => True
  | _ => False

instance (h : Handler Object) : Decidable h.Rendering := by
  unfold Handler.Rendering
  split <;> infer_instance

def Handler.pageOf (s : Shared Object) (discovery : Object) : Handler Object → Option (ResultPage Object)
  | .callbackRender _ context token userinfo resultId =>
    some (resultPage context.claims token userinfo "Authorization code response" resultId discovery)
  | .refreshRender resultId cached token userinfo =>
    (s.entries[cached]?).map fun e => resultPage e.claims token userinfo "Refresh token response" resultId discovery
  | _ => none

def Page.IsError : Page Object → Prop
  | .error _ _ _ => True
  | _ => False

/-- For a callback all stored results and the browser's own are as before, for a refresh the
entry it refers to. -/
def Untouched (σ τ : State Object) (browser : ℕ) : Request Object → Prop
  | .callback _ _ _ => (∀ k, τ.shared.lookupEntry k = σ.shared.lookupEntry k) ∧
      (τ.jars browser).oidc4acResult = (σ.jars browser).oidc4acResult
  | .refresh resultId => ∀ k, namedResult (σ.jars browser) resultId = some k →
      τ.shared.lookupEntry k = σ.shared.lookupEntry k
  | _ => True

/-- A callback or a refresh. -/
def Request.ShowsResult : Request Object → Prop
  | .callback _ _ _ | .refresh _ => True
  | _ => False

def Request.Concerns (session : Session) : Request Object → String → Prop
  | .callback _ _ _, _ => True
  | .refresh resultId, k => namedResult session resultId = some k
  | _, _ => False

/-- A request that does not return the result page returns an error page and leaves no trace. -/
def NoTrace (σ τ : State Object) (browser : ℕ) (request : Request Object) (page : Page Object) : Prop :=
  (∀ r, page ≠ .result r) → page.IsError ∧ Untouched σ τ browser request

/-- The texts of the result page that the step completes are dumped and can be encoded. -/
def Renders [JsonObject Object] (σ : State Object) : Label Object → Prop
  | .advance i (.discovered discovery) =>
    ∀ th ∈ σ.threads[i]?, ∀ page ∈ th.handler.pageOf σ.shared discovery, page.rendered = true
  | _ => True

instance [JsonObject Object] (σ : State Object) (l : Label Object) : Decidable (Renders σ l) :=
  match l with
  | .advance i (.discovered discovery) =>
    inferInstanceAs (Decidable (∀ th ∈ σ.threads[i]?, ∀ page ∈ th.handler.pageOf σ.shared discovery,
      page.rendered = true))
  | .advance _ .proceed | .advance _ (.drawLogin ..) | .advance _ (.drawResult _) | .advance _ (.tokens ..)
  | .advance _ (.validated _) | .advance _ .failure | .tick _ | .send .. | .receive _ => .isTrue trivial

/-- The step neither fails to fetch Discovery for a result page, nor to render the page, nor sweeps
the expired entry of the refresh that it begins. -/
def Untroubled [JsonObject Object] (σ : State Object) (l : Label Object) : Prop :=
  Smooth Handler.Rendering σ l ∧ Renders σ l

instance [JsonObject Object] (σ : State Object) (l : Label Object) : Decidable (Untroubled σ l) :=
  inferInstanceAs (Decidable (_ ∧ _))

/-- The entries under the names in `K` and the stored result id are the old ones. -/
structure Clean (K : String → Prop) (old : String → Option (Entry Object)) (rid : Option String)
    (s : Shared Object) (th : Thread Object) : Prop where
  entries : ∀ k, K k → s.lookupEntry k = old k
  result : th.session.oidc4acResult = rid

namespace Handler

def Before (K : String → Prop) : Handler Object → Prop
  | .callbackPop _ | .callbackExchange _ _ | .callbackVerify _ _ _ | .callbackStore _ _ _ _ => True
  | .refreshPrune resultId => ∀ k, K k ↔ resultId = some k
  | .refreshLookup _ | .refreshExchange _ _ | .refreshVerify _ _ _ | .refreshWrite _ _ _ _ => True
  | _ => False

def After : Handler Object → Prop
  | .callbackRender _ _ _ _ _ | .refreshTouch _ _ _ _ | .refreshRender _ _ _ _ => True
  | _ => False

/-- Where the handler of a callback or a refresh stands while nothing troubles it. -/
inductive At (K : String → Prop) (clean : Prop) : Handler Object → Prop
  | before {h : Handler Object} (hh : h.Before K) (hc : clean) : At K clean h
  | after {h : Handler Object} (hh : h.After) : At K clean h
  | error (error description : String) (status : ℕ) (hc : clean) :
    At K clean (.responding (.error error description status))
  | result (page : ResultPage Object) : At K clean (.responding (.result page))

end Handler

theorem Handler.At.imp {K : String → Prop} {clean clean' : Prop} {h : Handler Object} (hat : h.At K clean)
    (himp : clean → clean') : h.At K clean' := by
  cases hat with
  | before hh hc => exact .before hh (himp hc)
  | after hh => exact .after hh
  | error error description status hc => exact .error error description status (himp hc)
  | result page => exact .result page

theorem Clean.goto {K : String → Prop} {old : String → Option (Entry Object)} {rid : Option String}
    {s s' : Shared Object} {th : Thread Object} (h : Clean K old rid s th)
    (hs : ∀ k, K k → s'.lookupEntry k = s.lookupEntry k) (h' : Handler Object) :
    Clean K old rid s' (th.goto h') :=
  ⟨fun k hk => (hs k hk).trans (h.entries k hk),h.result⟩

theorem Clean.clearState {K : String → Prop} {old : String → Option (Entry Object)}
    {rid : Option String} {s : Shared Object} {th : Thread Object} (h : Clean K old rid s th)
    (state : String) : Clean K old rid s (th.clearState state) :=
  ⟨h.entries,by rw [clearState_oidc4acResult]; exact h.result⟩

/-- The handler stays on its way when its page is rendered and the sweep finds no entry expired. -/
theorem at_advance [JsonObject Object] {K : String → Prop} {old : String → Option (Entry Object)} {rid : Option String}
    {s s' : Shared Object} {th th' : Thread Object} {input : Input Object}
    (h : th.handler.At K (Clean K old rid s th))
    (hrender : th.handler.Rendering → input.failed = false)
    (hpage : ∀ discovery, input = .discovered discovery →
      ∀ page ∈ th.handler.pageOf s discovery, page.rendered = true)
    (hprune : ∀ k ∈ th.handler.sweptName, ∀ e ∈ s.lookupEntry k, s.cutoff ≤ e.createdAt)
    (ha : advance s th input = some (s',th')) :
    th'.handler.At K (Clean K old rid s' th') := by
  generalize hh : th.handler = h' at h
  cases h with
  | before hb hc =>
    cases h' with
    | callbackPop state =>
      cases input <;> simp only [advance,hh,reduceCtorEq] at ha
      split at ha
      · cases ha
        exact .error _ _ _ (hc.goto (fun _ _ => rfl) _)
      · split at ha
        · cases ha
          exact .error _ _ _ (hc.goto (fun _ _ => rfl) _)
        · cases ha
          exact .before trivial ⟨hc.entries,hc.result⟩
    | callbackExchange state context =>
      cases input <;> simp only [advance,hh,reduceCtorEq] at ha
      · split at ha
        · cases ha
          exact .before trivial ((hc.clearState state).goto (fun k _ => lookupEntry_issueToken s _ k) _)
        · cases ha
          exact .error _ _ _ (hc.goto (fun _ _ => rfl) _)
      · cases ha
        exact .error _ _ _ ((hc.clearState state).goto (fun _ _ => rfl) _)
    | callbackVerify state context token =>
      cases input <;> simp only [advance,hh,reduceCtorEq] at ha
      · split at ha
        · cases ha
          exact .before trivial (hc.goto (fun _ _ => rfl) _)
        · cases ha
          exact .error _ _ _ (hc.goto (fun _ _ => rfl) _)
      · cases ha
        exact .error _ _ _ (hc.goto (fun _ _ => rfl) _)
    | callbackStore state context token userinfo =>
      cases input <;> simp only [advance,hh,reduceCtorEq] at ha
      split at ha
      · cases ha
        exact .after trivial
      · cases ha
    | refreshPrune resultId =>
      cases input <;> simp only [advance,hh,reduceCtorEq] at ha
      cases ha
      refine .before trivial (hc.goto ?_ _)
      intro k hk
      have hkeep : ∀ e ∈ s.lookupEntry k, (!decide (e.createdAt < s.cutoff)) = true := by
        intro e he
        have hle := hprune k (by rw [hh,(hb k).mp hk]; rfl) e he
        simp [hle]
      rw [lookupEntry_pruneCaches]
      cases he : s.lookupEntry k with
      | none => rfl
      | some e => exact Option.filter_eq_some_iff.mpr ⟨rfl,hkeep e he⟩
    | refreshLookup resultId =>
      cases input <;> simp only [advance,hh,reduceCtorEq] at ha
      split at ha
      · cases ha
        exact .error _ _ _ (hc.goto (fun _ _ => rfl) _)
      · split at ha
        · cases ha
          exact .before trivial (hc.goto (fun _ _ => rfl) _)
        · cases ha
          exact .error _ _ _ (hc.goto (fun _ _ => rfl) _)
    | refreshExchange resultId cached =>
      cases input <;> simp only [advance,hh,reduceCtorEq] at ha
      · cases ha
        exact .before trivial (hc.goto (fun k _ => lookupEntry_issueToken s _ k) _)
      · cases ha
        exact .error _ _ _ (hc.goto (fun _ _ => rfl) _)
    | refreshVerify resultId cached token =>
      cases input <;> simp only [advance,hh,reduceCtorEq] at ha
      · cases ha
        exact .before trivial (hc.goto (fun _ _ => rfl) _)
      · cases ha
        exact .error _ _ _ (hc.goto (fun _ _ => rfl) _)
    | refreshWrite resultId cached token userinfo =>
      cases input <;> simp only [advance,hh,reduceCtorEq] at ha
      cases ha
      exact .after trivial
    | _ => exact False.elim hb
  | after hafter =>
    cases h' with
    | callbackRender state context token userinfo resultId =>
      cases input <;> simp only [advance,hh,reduceCtorEq] at ha
      · rename_i discovery
        have hp := hpage discovery rfl _ (by rw [hh]; rfl)
        rw [renderResult,if_pos hp] at ha
        cases ha
        exact .result _
      · exact absurd (hrender (by rw [hh]; trivial)) (by simp [Input.failed])
    | refreshTouch resultId cached token userinfo =>
      cases input <;> simp only [advance,hh,reduceCtorEq] at ha
      cases ha
      exact .after trivial
    | refreshRender resultId cached token userinfo =>
      cases input <;> simp only [advance,hh,reduceCtorEq] at ha
      · rename_i discovery
        obtain ⟨e,hentry,he⟩ := Option.map_eq_some_iff.mp ha
        have hp := hpage discovery rfl _ (by rw [hh,Handler.pageOf,hentry]; rfl)
        rw [renderResult,if_pos hp] at he
        cases he
        exact .result _
      · exact absurd (hrender (by rw [hh]; trivial)) (by simp [Input.failed])
    | _ => exact False.elim hafter
  | error => cases input <;> simp [advance,hh] at ha
  | result => cases input <;> simp [advance,hh] at ha

theorem untouched_of_clean {σ τ : State Object} {browser : ℕ} {request : Request Object}
    (hentries : ∀ k, request.Concerns (σ.jars browser) k → τ.shared.lookupEntry k = σ.shared.lookupEntry k)
    (hresult : (τ.jars browser).oidc4acResult = (σ.jars browser).oidc4acResult) :
    Untouched σ τ browser request := by
  cases request with
  | callback => exact ⟨fun k => hentries k trivial,hresult⟩
  | refresh resultId => exact hentries
  | _ => trivial

theorem Untouched.entry {σ τ : State Object} {browser : ℕ} {request : Request Object}
    (h : Untouched σ τ browser request) {k : String} (hk : request.Concerns (σ.jars browser) k) :
    τ.shared.lookupEntry k = σ.shared.lookupEntry k := by
  cases request with
  | callback => exact h.1 k
  | refresh resultId => exact h k hk
  | _ => exact False.elim hk

variable [JsonObject Object]

def Going (σ : State Object) (browser : ℕ) (request : Request Object) (s : Shared Object)
    (th : Thread Object) : Prop :=
  th.browser = browser ∧ th.handler.At (request.Concerns (σ.jars browser))
    (Clean (request.Concerns (σ.jars browser)) σ.shared.lookupEntry (σ.jars browser).oidc4acResult s th)

theorem going_arrive {σ : State Object} {browser : ℕ} {request : Request Object}
    (hreq : request.ShowsResult) : Going σ browser request σ.shared (arrive σ browser request) := by
  have hclean : ∀ h : Handler Object, Clean (request.Concerns (σ.jars browser)) σ.shared.lookupEntry
      (σ.jars browser).oidc4acResult σ.shared ((arrive σ browser request).goto h) :=
    fun _ => ⟨fun _ _ => rfl,rfl⟩
  refine ⟨rfl,?_⟩
  cases request with
  | callback error errorDescription state =>
    simp only [arrive,enter]
    split
    · exact .error _ _ _ (hclean _)
    · exact .before trivial (hclean _)
  | refresh resultId => exact .before (fun _ => Iff.rfl) (hclean _)
  | _ => exact False.elim hreq

theorem going_run {σ υ : State Object} {browser : ℕ} {request : Request Object} {ls : List (Label Object)}
    (hreq : request.ShowsResult) (hal : ∀ l ∈ ls, Alone σ.threads.length l)
    (hg : Along step Untroubled { σ with threads := σ.threads ++ [arrive σ browser request] } ls)
    (hr : run step { σ with threads := σ.threads ++ [arrive σ browser request] } ls = some υ) :
    υ.jars = σ.jars ∧ ∃ th, υ.threads[σ.threads.length]? = some th ∧ Going σ browser request υ.shared th := by
  have htick : ∀ {s : Shared Object} {th : Thread Object} (now : ℤ), Going σ browser request s th →
      Going σ browser request { s with clock := now } th := by
    intro s th now hp
    exact ⟨hp.1,hp.2.imp fun hc => ⟨hc.entries,hc.result⟩⟩
  have hadvance : ∀ {υ : State Object} {th th' : Thread Object} {input : Input Object} {s' : Shared Object},
      Going σ browser request υ.shared th → υ.threads[σ.threads.length]? = some th →
      Untroubled υ (.advance σ.threads.length input) → advance υ.shared th input = some (s',th') →
      Going σ browser request s' th' := by
    intro υ th th' input s' hp hth hu ha
    have hu' := hu.1 th hth
    have hpage : ∀ discovery, input = .discovered discovery →
        ∀ page ∈ th.handler.pageOf υ.shared discovery, page.rendered = true := by
      rintro discovery rfl
      exact hu.2 th hth
    exact ⟨(advance_cases ha).sameRequest.browser.trans hp.1,at_advance hp.2 hu'.1 hpage hu'.2 ha⟩
  have hth : (σ.threads ++ [arrive σ browser request])[σ.threads.length]? = some (arrive σ browser request) := by
    simp
  have hkeep := alone_run (P := Going σ browser request) htick hadvance hal hg hr hth (going_arrive hreq)
  exact hkeep

theorem answered_of_run {σ τ : State Object} {browser : ℕ} {request : Request Object}
    {ls : List (Label Object)} {th : Thread Object} {page : Page Object}
    (hr : run step σ (.send browser request :: (ls ++ [.receive σ.threads.length])) = some τ)
    (hth : τ.threads[σ.threads.length]? = some th) (hh : th.handler = .received page) :
    ∃ υ uh, run step { σ with threads := σ.threads ++ [arrive σ browser request] } ls = some υ ∧
      υ.threads[σ.threads.length]? = some uh ∧ uh.handler = .responding page ∧ τ.shared = υ.shared ∧
      τ.jars = if uh.modified then Function.update υ.jars uh.browser uh.session else υ.jars := by
  have hrest : run step { σ with threads := σ.threads ++ [arrive σ browser request] }
      (ls ++ [.receive σ.threads.length]) = some τ := hr
  rw [run_append] at hrest
  obtain ⟨υ,hυ,hlast⟩ := Option.bind_eq_some_iff.mp hrest
  have hstep : step υ (.receive σ.threads.length) = some τ := by simpa using hlast
  cases step_cases hstep with
  | received i uh page' hl huh hp ht =>
    cases hl
    subst ht
    have heq : th = uh.goto (.received page') := by
      rw [getElem?_set_of_some huh] at hth
      exact (Option.some.inj hth).symm
    subst heq
    cases hh
    exact ⟨υ,uh,hυ,huh,hp,rfl,rfl⟩
  | ticked _ hl => cases hl
  | sent _ _ hl => cases hl
  | advanced _ _ _ _ _ hl => cases hl

theorem swept_run {σ τ : State Object} {i : ℕ} {k : String} {th : Thread Object} {ls : List (Label Object)}
    (hal : ∀ l ∈ ls, Alone i l) (hr : run step σ ls = some τ) (hth : σ.threads[i]? = some th)
    (hk : σ.shared.tokenCache k = none) (hh : th.handler = .refreshLookup (some k)) :
    τ.shared.tokenCache k = none ∧ ∃ th', τ.threads[i]? = some th' ∧
      ∀ page, th'.handler = .responding page → page = noRefreshToken := by
  have hkeep := alone_run
    (P := fun s uh => s.tokenCache k = none ∧
      (uh.handler = .refreshLookup (some k) ∨ uh.handler = .responding noRefreshToken))
    (G := fun _ _ => True) (fun _ h => h)
    (fun {υ uh uh' input s'} hp _ _ ha => by
      obtain ⟨hc,hl | hl⟩ := hp
      · cases input <;> simp [advance,hl,hc] at ha
        obtain ⟨rfl,rfl⟩ := ha
        exact ⟨hc,Or.inr rfl⟩
      · cases input <;> simp [advance,hl] at ha) hal (Along.of_forall (fun _ _ => trivial) _ _) hr hth
    ⟨hk,Or.inl hh⟩
  obtain ⟨-,th',hth',hc,hh'⟩ := hkeep
  refine ⟨hc,th',hth',?_⟩
  intro page hp
  rcases hh' with hh' | hh'
  · rw [hh'] at hp
    cases hp
  · rw [hh'] at hp
    cases hp
    rfl

theorem advance_rendering_failure {s s' : Shared Object} {th th' : Thread Object}
    (hrender : th.handler.Rendering) (ha : advance s th .failure = some (s',th')) :
    th'.handler = .responding .internalServerError := by
  cases hh : th.handler with
  | callbackRender state context token userinfo resultId =>
    simp only [advance,hh] at ha
    cases ha
    rfl
  | refreshRender resultId cached token userinfo =>
    simp only [advance,hh] at ha
    cases ha
    rfl
  | _ =>
    rw [hh] at hrender
    exact False.elim hrender

theorem advance_unrendered {s s' : Shared Object} {th th' : Thread Object} {discovery : Object}
    {page : ResultPage Object} (hpage : th.handler.pageOf s discovery = some page) (hbad : page.rendered ≠ true)
    (ha : advance s th (.discovered discovery) = some (s',th')) : th'.handler = .responding .internalServerError := by
  cases hh : th.handler with
  | callbackRender state context token userinfo resultId =>
    rw [hh] at hpage
    cases hpage
    simp only [advance,hh,renderResult,if_neg hbad] at ha
    cases ha
    rfl
  | refreshRender resultId cached token userinfo =>
    rw [hh] at hpage
    obtain ⟨e,he,rfl⟩ := Option.map_eq_some_iff.mp hpage
    simp only [advance,hh,he,Option.map_some,renderResult,if_neg hbad] at ha
    cases ha
    rfl
  | _ =>
    rw [hh] at hpage
    cases hpage

theorem not_noTrace_of_failure {σ τ ω υ : State Object} {browser i : ℕ} {request : Request Object}
    {ys : List (Label Object)} {th uh : Thread Object} {page : Page Object} {input : Input Object}
    (hal : ∀ l ∈ ys, Alone i l) (hth : ω.threads[i]? = some th)
    (hfails : ∀ {s' th'}, advance ω.shared th input = some (s',th') → th'.handler = .responding .internalServerError)
    (hr : run step ω (.advance i input :: ys) = some υ) (huh : υ.threads[i]? = some uh)
    (hp : uh.handler = .responding page) : ¬ NoTrace σ τ browser request page := by
  intro hno
  obtain ⟨ω',hstep,hr⟩ := Option.bind_eq_some_iff.mp hr
  obtain ⟨s',th',ha,rfl⟩ := advance_of_step hstep hth
  have hfailed := hfails ha
  obtain ⟨hkeep,-⟩ := alone_answered hal hr (getElem?_set_of_some hth) hfailed
  rw [huh] at hkeep
  cases hkeep
  rw [hp] at hfailed
  cases hfailed
  exact (hno (by intro r h; cases h)).1

theorem not_renders_cases {σ : State Object} {l : Label Object} {i : ℕ} (hal : Alone i l) (h : ¬ Renders σ l) :
    ∃ discovery th page, l = .advance i (.discovered discovery) ∧ σ.threads[i]? = some th ∧
      th.handler.pageOf σ.shared discovery = some page ∧ page.rendered ≠ true := by
  cases l with
  | advance j input =>
    cases hal
    cases input with
    | discovered discovery =>
      unfold Renders at h
      push Not at h
      obtain ⟨th,hth,page,hpage,hbad⟩ := h
      exact ⟨discovery,th,page,rfl,hth,hpage,hbad⟩
    | _ => exact absurd trivial h
  | tick _ => exact absurd trivial h
  | send _ _ => cases hal
  | receive _ => cases hal

/-- Once its own entry was swept, the refresh answers with an error and the entry is gone. -/
theorem not_noTrace_of_sweep {σ τ ω υ : State Object} {browser i : ℕ} {request : Request Object}
    {ys : List (Label Object)} {th uh : Thread Object} {page : Page Object} {input : Input Object}
    {k : String} {e : Entry Object} (hal : ∀ l ∈ ys, Alone i l) (hth : ω.threads[i]? = some th)
    (hh : th.handler = .refreshPrune (some k)) (he : ω.shared.lookupEntry k = some e)
    (hlt : e.createdAt < ω.shared.cutoff) (hgoing : Going σ browser request ω.shared th)
    (hr : run step ω (.advance i input :: ys) = some υ) (huh : υ.threads[i]? = some uh)
    (hp : uh.handler = .responding page) (hshared : τ.shared = υ.shared) :
    ¬ NoTrace σ τ browser request page := by
  intro hno
  obtain ⟨ω',hstep,hr⟩ := Option.bind_eq_some_iff.mp hr
  obtain ⟨s',th',ha,rfl⟩ := advance_of_step hstep hth
  cases input <;> simp only [advance,hh,reduceCtorEq] at ha
  cases ha
  obtain ⟨hgone,uh',huh',hpage⟩ := swept_run hal hr (getElem?_set_of_some hth)
    (tokenCache_pruneCaches_of_expired he hlt) rfl
  rw [huh] at huh'
  cases huh'
  have hno := (hno (by rw [hpage page hp]; intro r h; cases h)).2
  have hat := hgoing.2
  rw [hh] at hat
  cases hat with
  | before hb hc =>
    have hk := (hb k).mpr rfl
    have hold : υ.shared.lookupEntry k = some e := by
      rw [← hshared,hno.entry hk,← hc.entries k hk,he]
    rw [Shared.lookupEntry,hgone] at hold
    cases hold
  | after h => exact h

/-- The request leaves no trace when it fails exactly if the result page is rendered whenever the
other calls have succeeded and a refresh does not begin by sweeping its own entry. -/
theorem no_trace_iff {σ τ : State Object} {browser : ℕ} {request : Request Object}
    {ls : List (Label Object)} {th : Thread Object} {page : Page Object} (hreq : request.ShowsResult)
    (hal : ∀ l ∈ ls, Alone σ.threads.length l)
    (hr : run step σ (.send browser request :: (ls ++ [.receive σ.threads.length])) = some τ)
    (hth : τ.threads[σ.threads.length]? = some th) (hh : th.handler = .received page) :
    NoTrace σ τ browser request page ↔ Along step Untroubled σ (.send browser request :: ls) := by
  obtain ⟨υ,uh,hυ,huh,hp,hshared,hjars⟩ := answered_of_run hr hth hh
  constructor
  · intro hno
    refine ⟨⟨trivial,trivial⟩,?_⟩
    intro t ht
    cases ht
    by_contra hbad
    obtain ⟨xs,l,ys,ω,rfl,hxs,hω,hl⟩ := exists_rejected hυ hbad
    have hxal : ∀ k ∈ xs, Alone σ.threads.length k := fun k hk => hal k (List.mem_append_left _ hk)
    have hyal : ∀ k ∈ ys, Alone σ.threads.length k :=
      fun k hk => hal k (List.mem_append_right _ (List.mem_cons_of_mem l hk))
    obtain ⟨-,wh,hwh,hgoing⟩ := going_run hreq hxal hxs hω
    rw [run_append,hω,Option.bind_some] at hυ
    by_cases hsmooth : Smooth Handler.Rendering ω l
    · obtain ⟨discovery,wh',rpage,rfl,hwh',hpage,hunrendered⟩ :=
        not_renders_cases (hal l (by simp)) fun hrenders => hl ⟨hsmooth,hrenders⟩
      rw [hwh] at hwh'
      cases hwh'
      exact not_noTrace_of_failure hyal hwh (advance_unrendered hpage hunrendered) hυ huh hp hno
    · obtain ⟨input,wh',rfl,hwh',hcases⟩ := not_smooth_cases (hal l (by simp)) hsmooth
      rw [hwh] at hwh'
      cases hwh'
      rcases hcases with ⟨hrender,rfl⟩ | ⟨k,e,hk,he,hlt⟩
      · exact not_noTrace_of_failure hyal hwh (advance_rendering_failure hrender) hυ huh hp hno
      · exact not_noTrace_of_sweep hyal hwh hk he hlt hgoing hυ huh hp hshared hno
  · intro hg hpage
    obtain ⟨hkeep,uh',huh',hbrowser,hat⟩ := going_run hreq hal (hg.2 _ rfl) hυ
    rw [huh] at huh'
    cases huh'
    rw [hp] at hat
    cases hat with
    | before hb => exact False.elim hb
    | after h => exact False.elim h
    | result r => exact absurd rfl (hpage r)
    | error error description status hc =>
      refine ⟨trivial,untouched_of_clean ?_ ?_⟩
      · intro k hk
        rw [hshared]
        exact hc.entries k hk
      · rw [hjars,hkeep]
        split
        · rw [hbrowser,Function.update_self]
          exact hc.result
        · rfl

/-- One login waits for its callback. -/
def pendingLogin : List (Label (List ℕ)) :=
  [.send 0 (.login ⟨some [1],false,true,false⟩),.advance 0 .proceed,.advance 0 (.drawLogin "n" "s"),
    .advance 0 .proceed,.receive 0]

def verifiedCallback : List (Label (List ℕ)) :=
  [.advance 1 .proceed,.advance 1 (.tokens true none ⟨some "n",[]⟩),.advance 1 (.validated []),
    .advance 1 (.drawResult "r")]

/-- Discovery is not available when the result page of a verified callback is rendered. -/
theorem failed_rendering_leaves_result :
    ¬ ∀ (start : ℤ) (σ τ : State (List ℕ)) (browser : ℕ) (request : Request (List ℕ))
      (ls : List (Label (List ℕ))) (th : Thread (List ℕ)) (page : Page (List ℕ)),
      Reachable step (initial start) σ → request.ShowsResult → (∀ l ∈ ls, Alone σ.threads.length l) →
      run step σ (.send browser request :: (ls ++ [.receive σ.threads.length])) = some τ →
      τ.threads[σ.threads.length]? = some th → th.handler = .received page →
      NoTrace σ τ browser request page := by
  intro h
  have hrun : ∃ σ τ th, run step (initial 0) pendingLogin = some σ ∧ σ.threads.length = 1 ∧
      run step σ (.send 0 (.callback none none (some "s")) ::
        ((verifiedCallback ++ [.advance 1 .failure]) ++ [.receive 1])) = some τ ∧
      τ.threads[1]? = some th ∧ th.handler = .received .internalServerError :=
    ⟨_,_,_,rfl,rfl,rfl,rfl,rfl⟩
  obtain ⟨σ,τ,th,hσ,hlen,hτ,hth,hh⟩ := hrun
  have hno := h 0 σ τ 0 (.callback none none (some "s")) (verifiedCallback ++ [.advance 1 .failure]) th
    .internalServerError ⟨_,hσ⟩ trivial (by rw [hlen]; decide) (by rw [hlen]; exact hτ)
    (by rw [hlen]; exact hth) hh
  exact (hno (by intro r hr; cases hr)).1

/-- The validation of the ID Token fails for the same callback. -/
theorem refused_callback_leaves_no_trace :
    ∃ σ τ : State (List ℕ), run step (initial 0) pendingLogin = some σ ∧
      NoTrace σ τ 0 (.callback none none (some "s")) tokenValidationFailed := by
  refine ⟨_,_,rfl,(@no_trace_iff _ _ _ _ 0 (.callback none none (some "s"))
    (verifiedCallback.take 2 ++ [.advance 1 .failure]) _ tokenValidationFailed trivial ?_ rfl rfl rfl).mpr ?_⟩
  · decide
  · decide

end Oidc4acLab.Client
