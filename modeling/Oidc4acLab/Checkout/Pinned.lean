import Oidc4acLab.Checkout.Resolve

/-! # The commit that is built

Called on the left of `||`, the script passes over every failed Git command and returns 0
with whatever commit the checkout then has.
-/
namespace Oidc4acLab.Checkout
open Shell
variable {Commit : Type}

/-- HEAD of `KEYCLOAK_REPO`, for a managed checkout. -/
def World.resolvedHead (w : World Commit) : Option Commit :=
  match w.keycloakRepo with
  | some .runtime => w.checkout.map Worktree.head
  | _ => none

/-- The commit that is to be built. -/
def requested (lab : Lab Commit) : Commit :=
  match lab.submodule.filter Submodule.mvnw with
  | some source => source.head
  | none => lab.names lab.ref

/-- Where errexit is ignored, the command goes on to this state. -/
def Passes (c : Command (World Commit)) (w w' : World Commit) : Prop :=
  ∃ status, c false w = .finished status w'

theorem Passes.go {c d : Command (World Commit)} {cs : List (Command (World Commit))} {w w' : World Commit}
    (h : Passes c w w') : block (c :: d :: cs) false w = block (d :: cs) false w' := by
  obtain ⟨status,h⟩ := h
  rw [block_cons,h]
  rfl

def attemptIn (lab : Lab Commit) (c : GitCommand) (f : Worktree Commit → Option (Worktree Commit))
    (t : Option (Worktree Commit)) : Option (Worktree Commit) :=
  if lab.succeeds c then (t.bind f).or t else t

theorem passes_gitIn (lab : Lab Commit) (c : GitCommand) (f : Worktree Commit → Option (Worktree Commit))
    (w : World Commit) : Passes (gitIn lab c f) w { w.ran c with checkout := attemptIn lab c f w.checkout } := by
  unfold Passes gitIn attemptIn
  simp only [simple_ignored]
  cases hb : w.checkout.bind f with
  | none => exact ⟨128,by simp [World.ran]⟩
  | some t =>
    cases lab.succeeds c with
    | true => exact ⟨0,by simp⟩
    | false => exact ⟨128,by simp [World.ran]⟩

theorem passes_git (lab : Lab Commit) (c : GitCommand) (f : World Commit → World Commit) (w : World Commit) :
    Passes (git lab c f) w (if lab.succeeds c then f (w.ran c) else w.ran c) := by
  unfold Passes git
  simp only [simple_ignored]
  cases lab.succeeds c with
  | true => exact ⟨0,rfl⟩
  | false => exact ⟨128,rfl⟩

theorem passes_assign (f : World Commit → World Commit) (w : World Commit) : Passes (assign f) w (f w) :=
  ⟨0,assign_apply f false w⟩

theorem useCheckout_ignored (w : World Commit) :
    block useCheckout false w =
      .finished 0 { w with keycloakRepo := w.checkout.map fun _ => .runtime, managed := true } := by
  unfold useCheckout
  simp only [block_cons,block_one,simple_ignored,andThen_finished,assign_apply]
  cases w.checkout with
  | none => rfl
  | some t => rfl

variable [DecidableEq Commit]

/-- The checkout is a Git checkout of the submodule's commit, and Git can tell. -/
def AlreadyStaged (lab : Lab Commit) (source : Submodule Commit) (w : World Commit) : Prop :=
  ∃ t ∈ w.checkout, t.isGit = true ∧ t.mvnw = true ∧ lab.succeeds .revParseCheckout = true ∧
    t.head = source.head

def EndsWell (o : Outcome (World Commit)) (w' : World Commit) : Prop :=
  o = .finished 0 w' ∨ o = .returned 0 w'

omit [DecidableEq Commit] in
theorem stage_restaged (lab : Lab Commit) (source : Submodule Commit) (w : World Commit) :
    ∃ w', EndsWell (block [assign fun w => { w with checkout := none },
        git lab .cloneLocal fun w => { w with checkout := some (cloned lab source.head) },
        gitIn lab .checkoutDetach fun t => some (moveTo lab source.head t),
        gitIn lab .clean some,
        block useCheckout] false w) w' ∧ w'.managed = true ∧
      (w'.resolvedHead = some source.head ↔ lab.succeeds .cloneLocal = true) := by
  rw [(passes_assign _ _).go,(passes_git _ _ _ _).go,(passes_gitIn _ _ _ _).go,
    (passes_gitIn _ _ _ _).go,block_one,useCheckout_ignored]
  refine ⟨_,Or.inl rfl,rfl,?_⟩
  cases lab.succeeds .cloneLocal with
  | true =>
    cases lab.succeeds .checkoutDetach <;> cases lab.succeeds .clean <;>
      simp [World.resolvedHead,attemptIn,cloned,moveTo]
  | false =>
    cases lab.succeeds .checkoutDetach <;> cases lab.succeeds .clean <;>
      simp [World.resolvedHead,attemptIn]

/-- The test for a checkout that is already staged, and what is done then. -/
def reuse (lab : Lab Commit) : Command (World Commit) :=
  ifElse (fun w => w.checkout.any fun t => t.isGit && t.mvnw)
    (block [askGit lab .revParseCheckout (Option.map Worktree.head) fun commit w => { w with currentCommit := commit },
      ifElse (fun w => w.currentCommit = w.sourceCommit)
        (block (useCheckout ++ [ret 0])) skip])
    skip

theorem reuse_ignored (lab : Lab Commit) (source : Submodule Commit) (w : World Commit)
    (hsource : w.sourceCommit = some source.head) :
    (AlreadyStaged lab source w ∧ ∃ w', reuse lab false w = .returned 0 w' ∧ w'.managed = true ∧
      w'.resolvedHead = some source.head) ∨
    (¬ AlreadyStaged lab source w ∧ ∃ w', Passes (reuse lab) w w') := by
  cases hc : w.checkout with
  | none =>
    refine Or.inr ⟨?_,w,0,by simp [reuse,ifElse,skip,hc]⟩
    rintro ⟨t,hmem,-⟩
    rw [hc] at hmem
    cases hmem
  | some t =>
    have hiff : AlreadyStaged lab source w ↔ t.isGit = true ∧ t.mvnw = true ∧
        lab.succeeds .revParseCheckout = true ∧ t.head = source.head := by
      simp [AlreadyStaged,hc]
    rw [hiff]
    cases hgit : t.isGit && t.mvnw with
    | false =>
      refine Or.inr ⟨?_,w,0,by simp [reuse,ifElse,skip,hc,hgit]⟩
      rintro ⟨h1,h2,-⟩
      rw [h1,h2] at hgit
      cases hgit
    | true =>
      obtain ⟨h1,h2⟩ := Bool.and_eq_true_iff.mp hgit
      have hreuse : reuse lab false w =
          if (if lab.succeeds .revParseCheckout then some t.head else none) = some source.head then
            .returned 0 { w.ran .revParseCheckout with
              currentCommit := if lab.succeeds .revParseCheckout then some t.head else none
              keycloakRepo := some .runtime
              managed := true }
          else .finished 0 { w.ran .revParseCheckout with
            currentCommit := if lab.succeeds .revParseCheckout then some t.head else none } := by
        simp [reuse,ifElse,askGit,World.ran,hc,hgit,hsource,useCheckout,skip,ret]
      by_cases hsame : lab.succeeds .revParseCheckout = true ∧ t.head = source.head
      · rw [if_pos (by rw [if_pos hsame.1,hsame.2])] at hreuse
        refine Or.inl ⟨⟨h1,h2,hsame.1,hsame.2⟩,_,hreuse,rfl,?_⟩
        simp [World.resolvedHead,hc,hsame.2]
      · rw [if_neg (by simpa using fun hok => fun heq => hsame ⟨hok,heq⟩)] at hreuse
        exact Or.inr ⟨fun h => hsame h.2.2,_,0,hreuse⟩

theorem stage_ignored (lab : Lab Commit) (source : Submodule Commit) (w : World Commit)
    (hsource : lab.succeeds .revParseSource = true) :
    ∃ w', EndsWell (stageBundledKeycloakRepo lab source false w) w' ∧ w'.managed = true ∧
      (w'.resolvedHead = some source.head ↔
        AlreadyStaged lab source w ∨ lab.succeeds .cloneLocal = true) := by
  have hfound : Passes (orElse (git lab .revParseSource fun w => { w with sourceCommit := some source.head })
      (ret 1)) w { w.ran .revParseSource with sourceCommit := some source.head } := by
    refine ⟨0,?_⟩
    simp [orElse,git,hsource]
  have hstage : stageBundledKeycloakRepo lab source false w =
      (reuse lab false { w.ran .revParseSource with sourceCommit := some source.head }).andThen fun _ w' =>
        block [assign fun w => { w with checkout := none },
          git lab .cloneLocal fun w => { w with checkout := some (cloned lab source.head) },
          gitIn lab .checkoutDetach fun t => some (moveTo lab source.head t),
          gitIn lab .clean some,
          block useCheckout] false w' := by
    rw [stageBundledKeycloakRepo,hfound.go]
    rfl
  rw [hstage]
  rcases reuse_ignored lab source { w.ran .revParseSource with sourceCommit := some source.head } rfl with
    ⟨hstaged,w',hr,hm,hhead⟩ | ⟨hnot,w',status,hr⟩
  · rw [hr]
    exact ⟨w',Or.inr rfl,hm,iff_of_true hhead (Or.inl hstaged)⟩
  · rw [hr]
    obtain ⟨w'',hends,hm,hhead⟩ := stage_restaged lab source w'
    exact ⟨w'',hends,hm,hhead.trans ⟨Or.inr,fun h => h.resolve_left hnot⟩⟩

omit [DecidableEq Commit] in
theorem Passes.one {c : Command (World Commit)} {w w' : World Commit} (h : Passes c w w') :
    Passes (block [c]) w w' := h

omit [DecidableEq Commit] in
theorem Passes.cons {c d : Command (World Commit)} {cs : List (Command (World Commit))} {w w' w'' : World Commit}
    (h : Passes c w w') (hrest : Passes (block (d :: cs)) w' w'') : Passes (block (c :: d :: cs)) w w'' := by
  obtain ⟨status,hrest⟩ := hrest
  exact ⟨status,by rw [h.go,hrest]⟩

/-- Fetching the pinned commit and resetting to it. -/
def fetched (lab : Lab Commit) (t : Option (Worktree Commit)) : Option (Worktree Commit) :=
  attemptIn lab .resetHard (fun t => t.fetchHead.map fun commit => moveTo lab commit t)
    (attemptIn lab .fetch (fun t => some { t with fetchHead := some (lab.names lab.ref) }) t)

omit [DecidableEq Commit] in
theorem fetched_none (lab : Lab Commit) : fetched lab none = none := by
  simp [fetched,attemptIn]

def FetchPins (lab : Lab Commit) (t : Worktree Commit) : Prop :=
  if lab.succeeds .resetHard = true ∧ (lab.succeeds .fetch = true ∨ t.fetchHead.isSome = true) then
    lab.succeeds .fetch = true ∨ t.fetchHead = some (lab.names lab.ref)
  else t.head = lab.names lab.ref

omit [DecidableEq Commit] in
theorem head_fetched (lab : Lab Commit) (t : Worktree Commit) :
    (fetched lab (some t)).map Worktree.head = some (lab.names lab.ref) ↔ FetchPins lab t := by
  unfold fetched attemptIn FetchPins
  cases lab.succeeds .resetHard with
  | true =>
    cases lab.succeeds .fetch with
    | true => simp [moveTo]
    | false =>
      cases hf : t.fetchHead with
      | none => simp [hf]
      | some commit => simp [hf,moveTo]
  | false =>
    cases lab.succeeds .fetch with
    | true => simp
    | false => simp

omit [DecidableEq Commit] in
theorem passes_fetch (lab : Lab Commit) (w : World Commit) :
    Passes (block [gitIn lab .fetch fun t => some { t with fetchHead := some (lab.names lab.ref) },
      gitIn lab .resetHard fun t => t.fetchHead.map fun commit => moveTo lab commit t])
      w { (w.ran .fetch).ran .resetHard with checkout := fetched lab w.checkout } := by
  refine (passes_gitIn lab .fetch (fun t => some { t with fetchHead := some (lab.names lab.ref) }) w).cons ?_
  exact passes_gitIn lab .resetHard (fun t => t.fetchHead.map fun commit => moveTo lab commit t) _

omit [DecidableEq Commit] in
theorem passes_download (lab : Lab Commit) (w : World Commit) (hsha : isCommitId lab.ref = true)
    (hnone : w.checkout = none) :
    ∃ w', Passes (download lab) w w' ∧ w'.checkout =
      if lab.succeeds .clone then fetched lab (some (cloned lab lab.defaultHead)) else none := by
  have hclone := passes_git lab .clone (fun w => { w with checkout := some (cloned lab lab.defaultHead) }) w
  have hall := hclone.cons (passes_fetch lab _)
  unfold download
  rw [if_pos hsha]
  refine ⟨_,hall,?_⟩
  cases lab.succeeds .clone with
  | true => rfl
  | false => simp [hnone,fetched_none]

omit [DecidableEq Commit] in
theorem passes_refresh (lab : Lab Commit) (w : World Commit) (hsha : isCommitId lab.ref = true)
    {t : Worktree Commit} (ht : w.checkout = some t) (hgit : t.isGit = true) :
    ∃ w', Passes (refresh lab) w w' ∧ w'.checkout = fetched lab (some t) := by
  have hne : lab.ref ≠ "" := by
    intro h
    rw [h] at hsha
    exact absurd hsha (by decide)
  have htest : Passes (ifElse (fun w => w.checkout.any Worktree.isGit) skip (ret 1)) w w := by
    refine ⟨0,?_⟩
    simp [ifElse,ht,hgit,skip]
  have hsame : ∀ (c : GitCommand) (t : Option (Worktree Commit)), attemptIn lab c some t = t := by
    intro c t
    cases t with
    | none => simp [attemptIn]
    | some t => simp [attemptIn]
  have hurl := passes_gitIn lab .setUrl some w
  have hclean := passes_gitIn lab .clean some
    { ((w.ran .setUrl).ran .fetch).ran .resetHard with checkout := fetched lab w.checkout }
  rw [hsame] at hurl hclean
  have hall := htest.cons (hurl.cons ((passes_fetch lab (w.ran .setUrl)).cons hclean.one))
  unfold refresh
  rw [if_pos hne]
  exact ⟨_,hall,congrArg (fetched lab) ht⟩

theorem resolve_remote {lab : Lab Commit} {w w' : World Commit} (hconfigured : lab.configured = "")
    (hsource : lab.submodule.filter Submodule.mvnw = none) (hgit : lab.gitInstalled = true)
    (hmvnw : ∀ t ∈ w.checkout, t.mvnw = true)
    (h : Passes (ifElse (fun w => w.checkout.isNone) (download lab) (refresh lab)) w w') :
    resolveKeycloakRepo lab false w =
      .finished 0 { w' with keycloakRepo := w'.checkout.map fun _ => .runtime, managed := true } := by
  have htest : Passes (ifElse (fun w => w.checkout.any fun t => !t.mvnw) (ret 1) skip) w w := by
    refine ⟨0,?_⟩
    cases hc : w.checkout with
    | none => simp [ifElse,hc,skip]
    | some t => simp [ifElse,hc,hmvnw t hc,skip]
  unfold resolveKeycloakRepo
  rw [if_neg (by simp [hconfigured]),hsource]
  simp only [hgit,if_true]
  rw [htest.go,h.go,block_one,useCheckout_ignored]

/-- When the checkout that is handed over is at the requested commit. -/
def Pinned (lab : Lab Commit) (w : World Commit) : Prop :=
  match lab.submodule.filter Submodule.mvnw with
  | some source => AlreadyStaged lab source w ∨ lab.succeeds .cloneLocal = true
  | none =>
    match w.checkout with
    | some t => FetchPins lab t
    | none => lab.succeeds .clone = true ∧ FetchPins lab (cloned lab lab.defaultHead)

/-- The script returns 0 for a managed checkout. -/
def Resolves (lab : Lab Commit) (w w' : World Commit) : Prop :=
  caller lab true w = .finished 0 w' ∧ w'.managed = true

theorem caller_endsWell {lab : Lab Commit} {w w' : World Commit}
    (h : EndsWell (resolveKeycloakRepo lab false w) w') : caller lab true w = .finished 0 w' := by
  unfold caller orElse call
  rcases h with h | h
  · rw [h]
    simp
  · rw [h]
    simp

theorem caller_refused {lab : Lab Commit} {w w' : World Commit}
    (h : resolveKeycloakRepo lab false w = .returned 1 w') : caller lab true w = .exited 1 w' := by
  unfold caller orElse call
  rw [h]
  simp [exit]

theorem not_resolves_of_refused {lab : Lab Commit} {w w' w'' : World Commit}
    (h : resolveKeycloakRepo lab false w = .returned 1 w'') : ¬ Resolves lab w w' := by
  rintro ⟨hr,-⟩
  rw [caller_refused h] at hr
  cases hr

theorem resolves_unconfigured {lab : Lab Commit} {w w' : World Commit} (h : Resolves lab w w') :
    lab.configured = "" := by
  by_contra hne
  obtain ⟨hr,hm⟩ := h
  have hresolve : resolveKeycloakRepo lab false w =
      if lab.configuredMvnw then
        .returned 0 { w with keycloakRepo := some .configured, managed := false }
      else .returned 1 w := by
    unfold resolveKeycloakRepo
    rw [if_pos hne]
    split <;> simp [ret]
  cases hc : lab.configuredMvnw with
  | true =>
    rw [hc,if_pos rfl] at hresolve
    rw [caller_endsWell (Or.inr hresolve)] at hr
    cases hr
    cases hm
  | false =>
    rw [hc,if_neg Bool.false_ne_true] at hresolve
    exact not_resolves_of_refused hresolve ⟨hr,hm⟩

theorem resolves_staged {lab : Lab Commit} {source : Submodule Commit} {w w' : World Commit}
    (hsource : lab.submodule.filter Submodule.mvnw = some source) (h : Resolves lab w w') :
    w'.resolvedHead = some source.head ↔ AlreadyStaged lab source w ∨ lab.succeeds .cloneLocal = true := by
  have hresolve : resolveKeycloakRepo lab false w =
      retStatus (call (stageBundledKeycloakRepo lab source)) false w := by
    unfold resolveKeycloakRepo
    rw [if_neg (by simp [resolves_unconfigured h]),hsource]
  cases hok : lab.succeeds .revParseSource with
  | false =>
    have hrefused : resolveKeycloakRepo lab false w = .returned 1 (w.ran .revParseSource) := by
      rw [hresolve]
      simp [retStatus,call,stageBundledKeycloakRepo,orElse,git,ret,hok]
    exact absurd h (not_resolves_of_refused hrefused)
  | true =>
    obtain ⟨w'',hends,-,hhead⟩ := stage_ignored lab source w hok
    have hcalled : resolveKeycloakRepo lab false w = .returned 0 w'' := by
      rw [hresolve,retStatus,call]
      rcases hends with hends | hends
      · rw [hends]
        simp
      · rw [hends]
        simp
    have hr := h.1
    rw [caller_endsWell (Or.inr hcalled)] at hr
    cases hr
    exact hhead

theorem resolves_remote {lab : Lab Commit} {w w' : World Commit}
    (hsource : lab.submodule.filter Submodule.mvnw = none) (h : Resolves lab w w') :
    lab.gitInstalled = true ∧ ∀ t ∈ w.checkout, t.mvnw = true ∧ t.isGit = true := by
  have hunfold : resolveKeycloakRepo lab false w =
      if lab.gitInstalled then
        block [ifElse (fun w => w.checkout.any fun t => !t.mvnw) (ret 1) skip,
          ifElse (fun w => w.checkout.isNone) (download lab) (refresh lab),
          block useCheckout] false w
      else .returned 1 w := by
    unfold resolveKeycloakRepo
    rw [if_neg (by simp [resolves_unconfigured h]),hsource]
    simp only
    split <;> rfl
  have hgit : lab.gitInstalled = true := by
    by_contra hno
    rw [if_neg hno] at hunfold
    exact not_resolves_of_refused hunfold h
  refine ⟨hgit,?_⟩
  intro t ht
  rw [if_pos hgit] at hunfold
  have hmvnw : t.mvnw = true := by
    by_contra hno
    rw [Bool.not_eq_true] at hno
    have hrefused : resolveKeycloakRepo lab false w = .returned 1 w := by
      rw [hunfold]
      simp [ifElse,ret,show w.checkout = some t from ht,hno]
    exact not_resolves_of_refused hrefused h
  refine ⟨hmvnw,?_⟩
  by_contra hno
  rw [Bool.not_eq_true] at hno
  have hrefused : resolveKeycloakRepo lab false w = .returned 1 w := by
    rw [hunfold]
    simp [ifElse,ret,skip,refresh,show w.checkout = some t from ht,hmvnw,hno]
  exact not_resolves_of_refused hrefused h

/-- HEAD of a managed checkout is the requested commit exactly if it was staged before or the local
clone succeeds, or else if fetching and resetting end at the pinned commit. -/
theorem resolved_pinned_iff {lab : Lab Commit} {w w' : World Commit}
    (hsha : lab.submodule.filter Submodule.mvnw = none → isCommitId lab.ref = true)
    (h : Resolves lab w w') : w'.resolvedHead = some (requested lab) ↔ Pinned lab w := by
  unfold requested Pinned
  cases hsource : lab.submodule.filter Submodule.mvnw with
  | some source => exact resolves_staged hsource h
  | none =>
    obtain ⟨hgit,hall⟩ := resolves_remote hsource h
    have hfinal : ∀ {w''}, Passes (ifElse (fun w => w.checkout.isNone) (download lab) (refresh lab)) w w'' →
        w'.resolvedHead = w''.checkout.map Worktree.head := by
      intro w'' hpass
      have hr := resolve_remote (resolves_unconfigured h) hsource hgit (fun t ht => (hall t ht).1) hpass
      have hr' := h.1
      rw [caller_endsWell (Or.inl hr)] at hr'
      cases hr'
      unfold World.resolvedHead
      cases w''.checkout <;> rfl
    cases hc : w.checkout with
    | some t =>
      obtain ⟨w'',hpass,hcheckout⟩ := passes_refresh lab w (hsha hsource) hc (hall t hc).2
      have htest : Passes (ifElse (fun w => w.checkout.isNone) (download lab) (refresh lab)) w w'' := by
        obtain ⟨status,hpass⟩ := hpass
        exact ⟨status,by simpa [ifElse,hc] using hpass⟩
      simp only [hfinal htest,hcheckout]
      exact head_fetched lab t
    | none =>
      obtain ⟨w'',hpass,hcheckout⟩ := passes_download lab w (hsha hsource) hc
      have htest : Passes (ifElse (fun w => w.checkout.isNone) (download lab) (refresh lab)) w w'' := by
        obtain ⟨status,hpass⟩ := hpass
        exact ⟨status,by simpa [ifElse,hc] using hpass⟩
      simp only [hfinal htest,hcheckout]
      cases hok : lab.succeeds .clone with
      | true => simpa [hok] using head_fetched lab (cloned lab lab.defaultHead)
      | false => simp

/-- No submodule, and every Git command succeeds except this one. -/
def labFailing (c : Option GitCommand) : Lab ℕ where
  configured := ""
  configuredMvnw := false
  submodule := none
  gitInstalled := true
  ref := "5bd7641d6813828d125932d6c2a2d1d6f91862a7"
  names := fun _ => 7
  defaultHead := 1
  mvnwAt := fun _ => true
  succeeds := fun d => decide (some d ≠ c)

/-- A checkout at an old commit that was fetched before. -/
def staleWorld : World ℕ := ⟨some ⟨true,true,3,some 3,none⟩,[],none,none,none,none,false⟩

/-- The fetch of the pinned commit fails. -/
theorem failed_fetch_builds_stale_commit :
    ¬ ∀ (lab : Lab ℕ) (w w' : World ℕ),
      (lab.submodule.filter Submodule.mvnw = none → isCommitId lab.ref = true) → Resolves lab w w' →
      w'.resolvedHead = some (requested lab) := by
  intro h
  have hrun : ∃ w', Resolves (labFailing (some .fetch)) staleWorld w' ∧ w'.resolvedHead = some 3 :=
    ⟨_,⟨rfl,rfl⟩,rfl⟩
  obtain ⟨w',hr,hhead⟩ := hrun
  have hpinned := h (labFailing (some .fetch)) staleWorld w' (fun _ => by decide) hr
  rw [hhead] at hpinned
  exact absurd hpinned (by decide)

/-- All commands succeed on the same checkout. -/
theorem stale_checkout_refreshed :
    ∃ w', Resolves (labFailing none) staleWorld w' ∧ w'.resolvedHead = some (requested (labFailing none)) := by
  have hr : ∃ w', Resolves (labFailing none) staleWorld w' := ⟨_,rfl,rfl⟩
  obtain ⟨w',hr⟩ := hr
  refine ⟨w',hr,(resolved_pinned_iff (fun _ => by decide) hr).mpr ?_⟩
  exact Or.inl rfl

end Oidc4acLab.Checkout
