import Oidc4acLab.Email.Acceptance

/-! # Whose mailbox a success proves

A stored code carries no trace of the user it was mailed to. A restart or a fork
keeps it for the next user, and the reuse test of `issueCodeIfNeeded` returns
before it looks at the user. The runs without such a takeover are exactly those
in which every success proves the mailbox of the user it is reported for.
-/
namespace Oidc4acLab.EmailAuthenticator
open Transition

def SentTo (w : Family) (user code : String) : Prop :=
  ∃ i ∈ w.outbox, i.code = code ∧ i.email = verificationEmail user code

/-- Every success for a user was won with a code mailed to that user. -/
def Owned (w : Family) : Prop :=
  ∀ s ∈ w.successes, ∀ user, s.user = some user → ∃ code, s.submitted = some code ∧ SentTo w user code

/-- A user is identified only in a session whose stored code, if it is still
live, was mailed to that user as well. -/
def IdentifiesOwner (w : Family) : Request → Prop
  | .identify k user => ∀ m, w.members[k]? = some m → ∀ number i,
      pending m.lineage = some (number,i) → Live w.clock i → SentTo w user i.code
  | _ => True

/-- The live pending code of a member was mailed to the user of the member. -/
structure Owns (w : Family) : Prop where
  consistent : Consistent w
  pendingSent : ∀ {k : ℕ} {m : Member} {user : String} {number : ℕ} {i : Issuance},
    w.members[k]? = some m → m.session.user = some user → pending m.lineage = some (number,i) →
    Live w.clock i → SentTo w user i.code
  owned : Owned w

theorem initial_owns (start : ℤ) : Owns (initial start) where
  consistent := initial_consistent start
  pendingSent := by
    intro k m user number i hm _ hp
    rw [initial_member hm] at hp
    cases hp
  owned := by
    intro s hs
    cases hs

theorem SentTo.step {w t : Family} {r : Request} (he : step w r = some t) {user code : String}
    (h : SentTo w user code) : SentTo t user code := by
  obtain ⟨i,hi,h⟩ := h
  refine ⟨i,?_,h⟩
  rcases step_outbox he with ho | ⟨_,_,_,_,_,ho⟩
  · rwa [ho]
  · rw [ho]
    exact List.mem_append_left _ hi

theorem step_owns {w t : Family} {r : Request} (h : Owns w) (hg : IdentifiesOwner w r)
    (he : step w r = some t) : Owns t where
  consistent := step_consistent h.consistent he
  pendingSent := by
    intro k m' user number i hm' hu hp hl
    have hl' : Live w.clock i := hl.mono (step_clock_le he)
    rcases step_pending h.consistent he hm' hp with ⟨j,m,hm,hp,_,huser⟩ | ⟨_,ho,_,hmail⟩
    · rcases huser user hu with hu | rfl
      · exact (h.pendingSent hm hu hp hl').step he
      · exact SentTo.step he (hg m hm number i hp hl')
    · exact ⟨i,by simp [ho],rfl,hmail user hu⟩
  owned := by
    intro s hs user hu
    rcases step_successes h.consistent he with ht | ⟨k,m,number,i,hm,hp,hl,_,_,ht⟩
    · rw [ht] at hs
      obtain ⟨code,hsub,hsent⟩ := h.owned s hs user hu
      exact ⟨code,hsub,hsent.step he⟩
    · rw [ht] at hs
      rcases List.mem_cons.mp hs with rfl | hs
      · exact ⟨i.code,rfl,(h.pendingSent hm hu hp hl).step he⟩
      · obtain ⟨code,hsub,hsent⟩ := h.owned s hs user hu
        exact ⟨code,hsub,hsent.step he⟩

theorem submit_pending {w : Family} (hc : Consistent w) {k : ℕ} {m : Member} {number : ℕ}
    {i : Issuance} (hm : w.members[k]? = some m) (hp : pending m.lineage = some (number,i))
    (hl : Live w.clock i) :
    ∃ t, step w (.action k (callAt w.clock 0) (some i.code)) = some t ∧ t.outbox = w.outbox ∧
      t.members = w.members.set k ⟨clearCode m.session,.consumed :: m.lineage⟩ ∧ t.clock = w.clock ∧
      t.successes = ⟨m.session.user,some i.code,some number⟩ :: w.successes := by
  have hs := hc.represents hm
  have ho : InOrder w.clock (callAt w.clock 0) :=
    ⟨Int.le_refl _,Int.le_refl _,Int.le_refl _⟩
  refine ⟨w.action k m (callAt w.clock 0) (some i.code),by simp [step,hm,ho],?_⟩
  rcases action_cases (callAt w.clock 0) (some i.code) hs with ⟨number',i',hp',_,_,hact⟩ |
    ⟨_,i',hp',_,hne,_⟩ | ⟨hstale,_⟩
  · refine ⟨by simp [action_outbox,hact],by simp [action_members,hact,actionEvents],action_clock ..,?_⟩
    rw [action_successes, hact, if_pos rfl, hp]
    rfl
  · rw [hp] at hp'
    cases hp'
    exact absurd rfl hne
  · exact absurd hl (hstale (number,i) hp)

/-- Runs in which users are identified only over their own live codes report
every success for a user the code was mailed to. The condition is exact: after a
step that breaks it, one submission of the stored code ends in a success for a
user the code was not mailed to. -/
theorem success_proves_mailbox (start : ℤ) (requests : List Request) (w : Family)
    (hr : run step (initial start) requests = some w) :
    (Along step IdentifiesOwner (initial start) requests → Owned w) ∧
    ∀ r t, step w r = some t → ¬ IdentifiesOwner w r →
      ∃ next u, step t next = some u ∧ ¬ Owned u := by
  constructor
  · intro hg
    exact (run_invariant_along step_owns (initial_owns start) hg hr).owned
  · intro r t he hbad
    have hc : Consistent t := step_consistent (reachable_consistent ⟨requests,hr⟩) he
    cases r with
    | identify k user =>
      simp only [IdentifiesOwner,not_forall] at hbad
      obtain ⟨m,hm,number,i,hp,hl,hns⟩ := hbad
      have hk : k < w.members.length := (List.getElem?_eq_some_iff.mp hm).1
      rcases step_cases he with ⟨_,h,_⟩ | ⟨_,_,m',h,hm',rfl⟩ | ⟨_,_,h,_⟩ | ⟨_,_,h,_⟩ | ⟨_,_,_,h,_⟩ |
        ⟨_,_,_,_,h,_⟩
      · cases h
      · cases h
        rw [hm] at hm'
        cases hm'
        have hmem : (w.members.set k (m.identify user))[k]? = some (m.identify user) :=
          List.getElem?_set_self hk
        obtain ⟨u,hu,hout,_,_,hsucc⟩ := submit_pending hc hmem hp hl
        refine ⟨_,u,hu,?_⟩
        intro howned
        obtain ⟨code,hcode,i',hi',hcode',hmail⟩ :=
          howned ⟨some user,some i.code,some number⟩ (by rw [hsucc]; exact List.mem_cons_self) user rfl
        cases hcode
        rw [hout] at hi'
        exact hns ⟨i',hi',hcode',hmail⟩
      · cases h
      · cases h
      · cases h
      · cases h
    | _ => exact absurd trivial hbad

/-- A code mailed to one user is accepted for another one after a restart. -/
theorem success_for_another_user :
    ¬ ∀ (start : ℤ) (requests : List Request) (w : Family),
      run step (initial start) requests = some w → Owned w := by
  intro h
  have hr : ∃ w, run step (initial 0) [.identify 0 "alice",.authenticate 0 (callAt 10 7),.restart 0,
      .identify 0 "bob",.authenticate 0 (callAt 20 8),.action 0 (callAt 30 9) (some "000007")] = some w ∧
      w.outbox = [⟨"000007",10,verificationEmail "alice" "000007"⟩] ∧
      w.successes = [⟨some "bob",some "000007",some 0⟩] := ⟨_,rfl,rfl,rfl⟩
  obtain ⟨w,hr,hout,hsucc⟩ := hr
  obtain ⟨code,hcode,i,hi,_,hmail⟩ :=
    h 0 _ w hr _ (by rw [hsucc]; exact List.mem_cons_self) "bob" rfl
  cases hcode
  rw [hout, List.mem_singleton] at hi
  subst hi
  exact absurd hmail (by decide)

/-- The user is identified again over the code that was mailed before the restart, and succeeds with it. -/
theorem success_proves_mailbox_restarted :
    ∃ w, run step (initial 0) [.identify 0 "alice",.authenticate 0 (callAt 10 7),.restart 0,.identify 0 "alice",
      .authenticate 0 (callAt 20 8),.action 0 (callAt 30 9) (some "000007")] = some w ∧
      w.successes = [⟨some "alice",some "000007",some 0⟩] ∧ Owned w := by
  refine ⟨_,rfl,rfl,?_⟩
  apply (success_proves_mailbox 0 [.identify 0 "alice",.authenticate 0 (callAt 10 7),.restart 0,.identify 0 "alice",
    .authenticate 0 (callAt 20 8),.action 0 (callAt 30 9) (some "000007")] _ rfl).1
  refine ⟨fun m hm number i hp => ?_,fun t ht => ⟨trivial,fun u hu => ⟨trivial,fun v hv => ⟨?_,fun w _ => ⟨trivial,
    fun x _ => ⟨trivial,fun _ _ => trivial⟩⟩⟩⟩⟩⟩
  · rw [initial_member hm] at hp
    cases hp
  · obtain rfl := Option.some.inj ht
    obtain rfl := Option.some.inj hu
    obtain rfl := Option.some.inj hv
    intro m hm number i hp _
    cases hm
    cases hp
    exact ⟨_,List.mem_singleton_self _,rfl,rfl⟩

end Oidc4acLab.EmailAuthenticator
