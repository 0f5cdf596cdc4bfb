import Oidc4acLab.Email.Authenticator
import Oidc4acLab.Transition.Runs

/-! # Families of authentication sessions and their pending codes

A session can be forked and restarted between calls. The lineage of a session
lists what happened to its codes, most recent event first, and a fork inherits
the lineage of its parent. The pending issuance of a lineage is the abstract
state of the authenticator; `Represents` ties the four notes to it, and each
call is described once by what it does to that abstract state.
-/
namespace Oidc4acLab.EmailAuthenticator
open AuthenticationSession

/-- A code issued with the number of its e-mail, consumed by a success, or
discarded together with its issue time by the reissuing branch of `action`. -/
inductive LineageEvent
  | issued (number : ℕ) (issuance : Issuance)
  | consumed
  | discarded

/-- The latest issuance of a lineage, unless it was consumed or discarded since. -/
def pending : List LineageEvent → Option (ℕ × Issuance)
  | .issued number issuance :: _ => some (number,issuance)
  | _ => none

/-- A code is live as long as the authenticator would still accept it. -/
def Live (now : ℤ) (issuance : Issuance) : Prop := now - issuance.issuedAt ≤ codeLifespanMillis

theorem Live.mono {now later : ℤ} {issuance : Issuance} (h : Live later issuance)
    (hle : now ≤ later) : Live now issuance := by
  unfold Live at *
  omega

/-- Both notes come from the pending issuance, and an auth note that is present
repeats the client note, so that clearing the auth notes changes no reading. -/
structure Represents (session : AuthenticationSession) (p : Option (ℕ × Issuance)) : Prop where
  code : session.getSessionNote codeNote = p.map (fun q => q.2.code)
  issuedAt : session.getSessionNote issuedAtNote = p.map (fun q => longToString q.2.issuedAt)
  shadow : ∀ name ∈ [codeNote,issuedAtNote],
    session.authNotes name = none ∨ session.authNotes name = session.clientNotes name

@[simp] theorem getSessionNote_setSessionNote_self (session : AuthenticationSession) (name value : String) :
    (session.setSessionNote name value).getSessionNote name = some value := by
  simp [getSessionNote,setSessionNote]

theorem getSessionNote_setSessionNote_of_ne (session : AuthenticationSession) {name other : String}
    (value : String) (h : other ≠ name) :
    (session.setSessionNote name value).getSessionNote other = session.getSessionNote other := by
  simp [getSessionNote,setSessionNote,h]

@[simp] theorem getSessionNote_removeSessionNote_self (session : AuthenticationSession) (name : String) :
    (session.removeSessionNote name).getSessionNote name = none := by
  simp [getSessionNote,removeSessionNote]

theorem getSessionNote_removeSessionNote_of_ne (session : AuthenticationSession) {name other : String}
    (h : other ≠ name) :
    (session.removeSessionNote name).getSessionNote other = session.getSessionNote other := by
  simp [getSessionNote,removeSessionNote,h]

theorem represents_clearCode (session : AuthenticationSession) : Represents (clearCode session) none where
  code := by
    rw [clearCode, getSessionNote_removeSessionNote_of_ne _ codeNote_ne_issuedAtNote]
    simp
  issuedAt := by simp [clearCode]
  shadow := by
    intro name hname
    left
    rcases List.mem_cons.mp hname with rfl | hname
    · simp [clearCode,removeSessionNote,codeNote_ne_issuedAtNote]
    · rw [List.mem_singleton.mp hname]
      simp [clearCode,removeSessionNote]

theorem represents_issue (session : AuthenticationSession) (number : ℕ) (i : Issuance) :
    Represents ((session.setSessionNote codeNote i.code).setSessionNote issuedAtNote
      (longToString i.issuedAt)) (some (number,i)) where
  code := by
    rw [getSessionNote_setSessionNote_of_ne _ _ codeNote_ne_issuedAtNote]
    simp
  issuedAt := by simp
  shadow := by
    intro name hname
    right
    rcases List.mem_cons.mp hname with rfl | hname
    · simp [setSessionNote,codeNote_ne_issuedAtNote]
    · rw [List.mem_singleton.mp hname]
      simp [setSessionNote]

theorem Represents.clientCopy {session : AuthenticationSession} {p : Option (ℕ × Issuance)}
    (h : Represents session p) (user : Option String) :
    Represents ⟨fun _ => none,session.clientNotes,user⟩ p where
  code := by
    rw [← h.code]
    rcases h.shadow codeNote (by simp) with hs | hs <;> simp [getSessionNote,hs]
  issuedAt := by
    rw [← h.issuedAt]
    rcases h.shadow issuedAtNote (by simp) with hs | hs <;> simp [getSessionNote,hs]
  shadow := by
    intro name _
    exact Or.inl rfl

theorem Represents.identify {session : AuthenticationSession} {p : Option (ℕ × Issuance)}
    (h : Represents session p) (user : Option String) : Represents { session with user := user } p :=
  ⟨h.code,h.issuedAt,h.shadow⟩

section Calls
variable {session : AuthenticationSession} {p : Option (ℕ × Issuance)}

theorem isExpired_longToString (now : ℤ) (i : Issuance) :
    isExpired now (some (longToString i.issuedAt)) = false ↔ Live now i := by
  simp [isExpired,Live]

/-- The new issue of one call, addressed to the user of the session. -/
structure IssuedBy (context : FlowContext) (session : AuthenticationSession) (i : Issuance) : Prop where
  code : i.code = formatCode context.nextInt
  issuedAt : i.issuedAt = context.storedAt
  email : ∃ user, session.user = some user ∧ i.email = verificationEmail user i.code

theorem issueCodeIfNeeded_live {number : ℕ} {i : Issuance} {context : FlowContext}
    (hs : Represents session (some (number,i))) (hl : Live context.recheckedAt i) :
    issueCodeIfNeeded context session = .ok (session,none) := by
  have he := (isExpired_longToString context.recheckedAt i).mpr hl
  simp [issueCodeIfNeeded,hs.code,hs.issuedAt,he]

/-- Without a live code the call either fails and changes nothing or mails a
code to the session's user and stores it with its issue time. -/
theorem issueCodeIfNeeded_stale {context : FlowContext} (hs : Represents session p)
    (hl : ∀ q ∈ p, ¬ Live context.recheckedAt q.2) :
    (∃ e, issueCodeIfNeeded context session = .error e) ∨
    ∃ s i, issueCodeIfNeeded context session = .ok (s,some i) ∧ s.user = session.user ∧
      IssuedBy context session i ∧ ∀ number, Represents s (some (number,i)) := by
  have hguard : ((session.getSessionNote codeNote).isSome &&
      !isExpired context.recheckedAt (session.getSessionNote issuedAtNote)) = false := by
    cases p with
    | none => simp [hs.code]
    | some q =>
      have he := mt (isExpired_longToString context.recheckedAt q.2).mp (hl q rfl)
      simp [hs.issuedAt,Bool.not_eq_false _ ▸ he]
  simp only [issueCodeIfNeeded,hguard,Bool.false_eq_true,↓reduceIte]
  cases hu : session.user with
  | none => exact Or.inl ⟨_,rfl⟩
  | some user =>
    cases hm : context.getEmail user with
    | none => exact Or.inl ⟨_,by simp [hm]; rfl⟩
    | some address =>
      simp only [Option.bind_some,hm,Option.map_some]
      by_cases hb : isBlank address = true
      · exact Or.inl ⟨_,by rw [if_pos hb]⟩
      by_cases hc : (context.smtpConfig.getD []).isEmpty = true
      · exact Or.inl ⟨_,by rw [if_neg hb, if_pos hc]⟩
      rw [if_neg hb, if_neg hc]
      cases hsend : context.send with
      | error e => exact Or.inl ⟨e,rfl⟩
      | ok _ =>
        refine Or.inr ⟨_,_,rfl,hu,⟨rfl,rfl,user,hu,rfl⟩,?_⟩
        intro number
        exact represents_issue session number
          ⟨formatCode context.nextInt,context.storedAt,verificationEmail user (formatCode context.nextInt)⟩

/-- What a call adds to a lineage when it only may have issued a code. -/
def issueEvents (number : ℕ) (reply : Reply) : List LineageEvent :=
  (reply.issued.map (LineageEvent.issued number)).toList

/-- A success consumes the code and a mismatch leaves it; every other answer of
`action` comes from the branch that removed both notes before it issued. -/
def actionEvents (number : ℕ) (reply : Reply) : List LineageEvent :=
  match reply.outcome with
  | .success => [.consumed]
  | .failureChallenge .invalidCredentials _ => []
  | _ => issueEvents number reply ++ [.discarded]

/-- The user stays, and an issue is addressed to that user. -/
structure KeepsUser (context : FlowContext) (session : AuthenticationSession) (reply : Reply) : Prop where
  user : reply.session.user = session.user
  issued : ∀ i ∈ reply.issued, IssuedBy context session i

theorem challengeWithCode_cases (context : FlowContext) (error : Option String)
    (hs : Represents session p) :
    (∃ number i, p = some (number,i) ∧ Live context.recheckedAt i ∧
      challengeWithCode context session error = ⟨session,.challenge (codeForm error),none⟩) ∨
    (∀ q ∈ p, ¬ Live context.recheckedAt q.2) ∧
      (challengeWithCode context session error =
          ⟨session,.failureChallenge .internalError sendErrorPage,none⟩ ∨
        ∃ s i, challengeWithCode context session error = ⟨s,.challenge (codeForm error),some i⟩ ∧
          s.user = session.user ∧ IssuedBy context session i ∧
          ∀ number, Represents s (some (number,i))) := by
  by_cases hl : ∀ q ∈ p, ¬ Live context.recheckedAt q.2
  · right
    refine ⟨hl,?_⟩
    unfold challengeWithCode
    rcases issueCodeIfNeeded_stale hs hl with ⟨e,he⟩ | ⟨s,i,hi,hrest⟩
    · exact Or.inl (by rw [he])
    · exact Or.inr ⟨s,i,by rw [hi],hrest⟩
  · left
    simp only [not_forall,not_not] at hl
    obtain ⟨⟨number,i⟩,hq,hi⟩ := hl
    obtain rfl : p = some (number,i) := hq
    exact ⟨number,i,rfl,hi,by simp only [challengeWithCode,issueCodeIfNeeded_live hs hi]⟩

/-- The abstract step of `authenticate`: it may issue, and changes nothing else. -/
theorem authenticate_refines (context : FlowContext) {lineage : List LineageEvent} (number : ℕ)
    (hs : Represents session (pending lineage)) :
    Represents (authenticate context session).session
        (pending (issueEvents number (authenticate context session) ++ lineage)) ∧
      KeepsUser context session (authenticate context session) := by
  unfold authenticate
  rcases challengeWithCode_cases context none hs with ⟨_,_,_,_,he⟩ | ⟨_,he | ⟨s,i,he,hu,hi,hr⟩⟩
  · rw [he]
    exact ⟨hs,rfl,by simp⟩
  · rw [he]
    exact ⟨hs,rfl,by simp⟩
  · rw [he]
    refine ⟨hr number,hu,?_⟩
    intro j hj
    cases hj
    exact hi

/-- The three ways `action` can go, told apart by the pending code alone. -/
theorem action_cases (context : FlowContext) (submitted : Option String) (hs : Represents session p) :
    (∃ number i, p = some (number,i) ∧ Live context.checkedAt i ∧ submitted = some i.code ∧
      action context submitted session = ⟨clearCode session,.success,none⟩) ∨
    (∃ number i, p = some (number,i) ∧ Live context.checkedAt i ∧ submitted ≠ some i.code ∧
      action context submitted session =
        ⟨session,.failureChallenge .invalidCredentials (codeForm (some invalidCodeMessage)),none⟩) ∨
    (∀ q ∈ p, ¬ Live context.checkedAt q.2) ∧
      action context submitted session =
        challengeWithCode context (clearCode session) (some invalidCodeMessage) := by
  cases p with
  | none =>
    right; right
    exact ⟨by simp,by simp [action,hs.code]⟩
  | some q =>
    obtain ⟨number,i⟩ := q
    have hc := hs.code
    have hi := hs.issuedAt
    simp only [Option.map_some] at hc hi
    by_cases hl : Live context.checkedAt i
    · have he := (isExpired_longToString context.checkedAt i).mpr hl
      by_cases hm : submitted = some i.code
      · left
        exact ⟨number,i,rfl,hl,hm,by simp [action,hc,hi,he,hm]⟩
      · right; left
        exact ⟨number,i,rfl,hl,hm,by simp [action,hc,hi,he,Ne.symm hm]⟩
    · right; right
      have he : isExpired context.checkedAt (some (longToString i.issuedAt)) = true := by
        rw [← Bool.not_eq_false]
        exact mt (isExpired_longToString context.checkedAt i).mp hl
      refine ⟨?_,by simp [action,hc,hi,he]⟩
      intro q hq
      cases hq
      exact hl

theorem action_success_iff (context : FlowContext) (submitted : Option String)
    (hs : Represents session p) :
    (action context submitted session).outcome = .success ↔
      ∃ q ∈ p, Live context.checkedAt q.2 ∧ submitted = some q.2.code := by
  constructor
  · intro h
    rcases action_cases context submitted hs with ⟨number,i,rfl,hl,hm,_⟩ | ⟨_,_,_,_,_,he⟩ | ⟨_,he⟩
    · exact ⟨(number,i),rfl,hl,hm⟩
    · rw [he] at h
      cases h
    · rw [he] at h
      rcases challengeWithCode_cases context (some invalidCodeMessage) (represents_clearCode session)
        with ⟨_,_,hn,_⟩ | ⟨_,hc | ⟨_,_,hc,_⟩⟩
      · cases hn
      · rw [hc] at h; cases h
      · rw [hc] at h; cases h
  · rintro ⟨q,rfl,hl,hm⟩
    rcases action_cases context submitted hs with ⟨_,_,_,_,_,he⟩ | ⟨_,i,hi,_,hne,_⟩ | ⟨hstale,_⟩
    · rw [he]
    · cases hi
      exact absurd hm hne
    · exact absurd hl (hstale q rfl)

/-- The abstract step of `action`. -/
theorem action_refines (context : FlowContext) (submitted : Option String)
    {lineage : List LineageEvent} (number : ℕ) (hs : Represents session (pending lineage)) :
    Represents (action context submitted session).session
        (pending (actionEvents number (action context submitted session) ++ lineage)) ∧
      KeepsUser context session (action context submitted session) := by
  rcases action_cases context submitted hs with ⟨_,_,_,_,_,he⟩ | ⟨_,_,_,_,_,he⟩ | ⟨_,he⟩
  · rw [he]
    exact ⟨represents_clearCode session,rfl,by simp⟩
  · rw [he]
    exact ⟨hs,rfl,by simp⟩
  · rw [he]
    rcases challengeWithCode_cases context (some invalidCodeMessage) (represents_clearCode session)
      with ⟨_,_,hn,_⟩ | ⟨_,hc | ⟨s,i,hc,hu,hi,hr⟩⟩
    · cases hn
    · rw [hc]
      exact ⟨represents_clearCode session,rfl,by simp⟩
    · rw [hc]
      refine ⟨hr number,hu,?_⟩
      intro j hj
      cases hj
      exact ⟨hi.code,hi.issuedAt,hi.email⟩

end Calls

end Oidc4acLab.EmailAuthenticator
