import Oidc4acLab.Email.Acceptance

/-! # What is left behind when a factor ends

`action` removes both notes before it succeeds and before it issues again. `authenticate`
removes nothing: when it cannot send a code in place of one that has expired, it ends with
the error page and the expired code stays.
-/
namespace Oidc4acLab.EmailAuthenticator
open Transition AuthenticationSession

/-- Neither note is left, in the auth notes or in the client notes. -/
def Noteless (session : AuthenticationSession) : Prop :=
  ∀ name ∈ [codeNote,issuedAtNote], session.authNotes name = none ∧ session.clientNotes name = none

/-- The factor succeeded, or the call ended with the error page of a failure. -/
def Outcome.Terminal : Outcome → Prop
  | .success => True
  | .failureChallenge .internalError _ => True
  | _ => False

/-- A call that ends the factor leaves no note in the session. -/
def CleansUp (w : Family) (r : Request) : Prop :=
  ∀ k m reply t m', r.calls = some k → w.members[k]? = some m → replyOf m r = some reply → step w r = some t →
    t.members[k]? = some m' → reply.outcome.Terminal → Noteless m'.session

/-- A code is stored that has not expired at the check of `issueCodeIfNeeded`. -/
def HasCode (context : FlowContext) (session : AuthenticationSession) : Prop :=
  (session.getSessionNote codeNote).isSome = true ∧
    isExpired context.recheckedAt (session.getSessionNote issuedAtNote) = false

/-- The user has an address, the realm has SMTP settings, and the sender does not fail. -/
def Sendable (context : FlowContext) (session : AuthenticationSession) : Prop :=
  ∃ user email, session.user = some user ∧ context.getEmail user = some email ∧ isBlank email = false ∧
    (context.smtpConfig.getD []).isEmpty = false ∧ context.send = .ok ()

/-- A call of `authenticate` finds a code, can send one, or finds no note to leave behind. -/
def LeavesNothing (w : Family) (r : Request) : Prop :=
  ∀ k context m, r = .authenticate k context → w.members[k]? = some m → InOrder w.clock context →
    HasCode context m.session ∨ Sendable context m.session ∨ Noteless m.session

theorem noteless_clearCode (session : AuthenticationSession) : Noteless (clearCode session) := by
  intro name hname
  simp only [List.mem_cons,List.not_mem_nil,or_false] at hname
  rcases hname with rfl | rfl
  · simp [clearCode,removeSessionNote,codeNote_ne_issuedAtNote]
  · simp [clearCode,removeSessionNote]

section Calls
variable {context : FlowContext} {session : AuthenticationSession}

theorem issueCodeIfNeeded_error_iff : (∃ e, issueCodeIfNeeded context session = .error e) ↔
    ¬ HasCode context session ∧ ¬ Sendable context session := by
  by_cases hcode : HasCode context session
  · have hok : issueCodeIfNeeded context session = .ok (session,none) := by
      simp [issueCodeIfNeeded,hcode.1,hcode.2]
    rw [hok]
    refine iff_of_false ?_ fun h => h.1 hcode
    rintro ⟨e,⟨⟩⟩
  · have hguard : ((session.getSessionNote codeNote).isSome &&
        !isExpired context.recheckedAt (session.getSessionNote issuedAtNote)) = false := by
      rw [← Bool.not_eq_true,Bool.and_eq_true,Bool.not_eq_true']
      exact hcode
    rw [and_iff_right hcode]
    simp only [issueCodeIfNeeded,hguard,Bool.false_eq_true,↓reduceIte]
    cases hu : session.user with
    | none =>
      refine iff_of_true ⟨_,rfl⟩ ?_
      rintro ⟨user,email,huser,-⟩
      rw [hu] at huser
      cases huser
    | some user =>
      cases hm : context.getEmail user with
      | none =>
        refine iff_of_true ⟨_,by simp [hm]; rfl⟩ ?_
        rintro ⟨user',email,huser,hemail,-⟩
        rw [hu] at huser
        cases huser
        rw [hm] at hemail
        cases hemail
      | some email =>
        have hsendable : Sendable context session ↔ isBlank email = false ∧
            (context.smtpConfig.getD []).isEmpty = false ∧ context.send = .ok () := by
          constructor
          · rintro ⟨user',email',huser,hemail,h⟩
            rw [hu] at huser
            cases huser
            rw [hm] at hemail
            cases hemail
            exact h
          · intro h
            exact ⟨user,email,hu,hm,h⟩
        rw [hsendable]
        simp only [Option.bind_some,hm,Option.map_some]
        by_cases hb : isBlank email = true
        · rw [if_pos hb,hb]
          exact iff_of_true ⟨_,rfl⟩ fun h => Bool.noConfusion h.1
        by_cases hc : (context.smtpConfig.getD []).isEmpty = true
        · rw [if_neg hb,if_pos hc,hc]
          exact iff_of_true ⟨_,rfl⟩ fun h => Bool.noConfusion h.2.1
        rw [if_neg hb,if_neg hc]
        cases hsend : context.send with
        | error e =>
          refine iff_of_true ⟨e,rfl⟩ ?_
          rintro ⟨-,-,⟨⟩⟩
        | ok u =>
          refine iff_of_false ?_ fun h => h ⟨?_,?_,rfl⟩
          · rintro ⟨e,⟨⟩⟩
          · exact Bool.not_eq_true _ ▸ hb
          · exact Bool.not_eq_true _ ▸ hc

theorem challengeWithCode_terminal_iff (error : Option String) :
    (challengeWithCode context session error).outcome.Terminal ↔
      ¬ HasCode context session ∧ ¬ Sendable context session := by
  rw [← issueCodeIfNeeded_error_iff,challengeWithCode]
  cases issueCodeIfNeeded context session with
  | error e => exact iff_of_true trivial ⟨e,rfl⟩
  | ok r =>
    refine iff_of_false id ?_
    rintro ⟨e,⟨⟩⟩

theorem challengeWithCode_session {error : Option String}
    (h : (challengeWithCode context session error).outcome.Terminal) :
    (challengeWithCode context session error).session = session := by
  obtain ⟨e,he⟩ := issueCodeIfNeeded_error_iff.mpr ((challengeWithCode_terminal_iff error).mp h)
  rw [challengeWithCode,he]

theorem authenticate_cleans_iff : ((authenticate context session).outcome.Terminal →
      Noteless (authenticate context session).session) ↔
    HasCode context session ∨ Sendable context session ∨ Noteless session := by
  rw [authenticate]
  constructor
  · intro h
    by_contra hnot
    simp only [not_or] at hnot
    have hterminal := (challengeWithCode_terminal_iff none).mpr ⟨hnot.1,hnot.2.1⟩
    have hclean := h hterminal
    rw [challengeWithCode_session hterminal] at hclean
    exact hnot.2.2 hclean
  · intro h hterminal
    obtain ⟨hcode,hsend⟩ := (challengeWithCode_terminal_iff none).mp hterminal
    rw [challengeWithCode_session hterminal]
    exact (h.resolve_left hcode).resolve_left hsend

/-- Every call of `action` that ends the factor has removed the notes. -/
theorem action_cleans {submitted : Option String} (h : (action context submitted session).outcome.Terminal) :
    Noteless (action context submitted session).session := by
  have hreissued : ∀ {error}, (challengeWithCode context (clearCode session) error).outcome.Terminal →
      Noteless (challengeWithCode context (clearCode session) error).session := by
    intro error hterminal
    rw [challengeWithCode_session hterminal]
    exact noteless_clearCode session
  unfold action at h ⊢
  dsimp only at h ⊢
  split at h
  · exact hreissued h
  · split_ifs at h ⊢ with hexpired hequal
    · exact hreissued h
    · exact noteless_clearCode session
    · exact h.elim

end Calls

theorem call_session {w t : Family} {r : Request} {k : ℕ} {m m' : Member} {reply : Reply} (hcalls : r.calls = some k)
    (hm : w.members[k]? = some m) (hreply : replyOf m r = some reply) (he : step w r = some t)
    (hm' : t.members[k]? = some m') : m'.session = reply.session := by
  have hset : ∀ {m₀ : Member}, (w.members.set k m₀)[k]? = some m' → m' = m₀ := by
    intro m₀ h
    rw [getElem?_set_of_some hm] at h
    exact (Option.some.inj h).symm
  cases step_cases he with
  | authenticate j m₁ context hr hm₁ ho ht =>
    subst hr ht
    cases hcalls
    cases hreply
    rw [hm] at hm₁
    cases hm₁
    rw [hset hm']
  | action j m₁ context submitted hr hm₁ ho ht =>
    subst hr ht
    cases hcalls
    cases hreply
    rw [hm] at hm₁
    cases hm₁
    rw [action_members] at hm'
    rw [hset hm']
  | tick _ hr | identify _ _ _ hr | fork _ _ hr | restart _ _ hr =>
    subst hr
    cases hcalls

theorem cleansUp_iff (w : Family) (r : Request) : CleansUp w r ↔ LeavesNothing w r := by
  constructor
  · intro h k context m hr hm ho
    subst hr
    rw [← authenticate_cleans_iff]
    intro hterminal
    have he : step w (.authenticate k context) = some (w.authenticate k m context) := by simp [step,hm,ho]
    have hm' : (w.authenticate k m context).members[k]? = some ⟨(authenticate context m.session).session,
        issueEvents w.outbox.length (authenticate context m.session) ++ m.lineage⟩ := getElem?_set_of_some hm
    exact h k m _ _ _ rfl hm rfl he hm' hterminal
  · intro h k m reply t m' hcalls hm hreply he hm' hterminal
    rw [call_session hcalls hm hreply he hm']
    cases step_cases he with
    | authenticate j m₁ context hr hm₁ ho ht =>
      subst hr
      cases hcalls
      cases hreply
      exact authenticate_cleans_iff.mpr (h k context m rfl hm ho) hterminal
    | action j m₁ context submitted hr hm₁ ho ht =>
      subst hr
      cases hreply
      exact action_cleans hterminal
    | tick _ hr | identify _ _ _ hr | fork _ _ hr | restart _ _ hr =>
      subst hr
      cases hcalls

/-- In a run every call that ends the factor removes the notes exactly if every call of `authenticate` finds a
code, can send one, or finds no note. -/
theorem code_removed_iff (start : ℤ) (requests : List Request) :
    Along step CleansUp (initial start) requests ↔ Along step LeavesNothing (initial start) requests :=
  along_congr (I := fun _ => True) (fun _ _ => trivial) (fun {w r} _ => cleansUp_iff w r) trivial requests

def unsent (context : FlowContext) : FlowContext := { context with send := .error "Connection refused" }

/-- The code has expired, the next one cannot be sent, and the error page leaves the old one behind. -/
theorem expired_code_left_behind : ¬ ∀ (start : ℤ) (requests : List Request) (w : Family),
    run step (initial start) requests = some w → Along step CleansUp (initial start) requests := by
  intro h
  have hrun : ∃ w t m m' reply, run step (initial 0) [.identify 0 "alice",.authenticate 0 (callAt 10 7)] = some w ∧
      step w (.authenticate 0 (unsent (callAt 300011 0))) = some t ∧ w.members[0]? = some m ∧
      replyOf m (.authenticate 0 (unsent (callAt 300011 0))) = some reply ∧
      reply.outcome = .failureChallenge .internalError sendErrorPage ∧ t.members[0]? = some m' ∧
      m'.session.clientNotes codeNote = some "000007" :=
    ⟨_,_,_,_,_,rfl,rfl,rfl,rfl,rfl,rfl,rfl⟩
  obtain ⟨w,t,m,m',reply,hr,he,hm,hreply,houtcome,hm',hnote⟩ := hrun
  have hall : run step (initial 0) ([.identify 0 "alice",.authenticate 0 (callAt 10 7)] ++
      [.authenticate 0 (unsent (callAt 300011 0))]) = some t := run_snoc hr he
  have hclean := ((h 0 _ t hall).append hr).1 0 m reply t m' rfl hm hreply he hm' (by rw [houtcome]; trivial)
  rw [(hclean codeNote List.mem_cons_self).2] at hnote
  cases hnote

end Oidc4acLab.EmailAuthenticator
