import Oidc4acLab.Email.Family

/-! # Exactly the live pending code is accepted

The abstract authenticator keeps one pending code per lineage. Over all runs the
notes of every session represent it, so a call of `action` accepts a submission
if and only if the abstract authenticator does.
-/
namespace Oidc4acLab.EmailAuthenticator
open Transition AuthenticationSession

theorem pending_mem {lineage : List LineageEvent} {number : ℕ} {i : Issuance}
    (h : pending lineage = some (number,i)) : LineageEvent.issued number i ∈ lineage := by
  cases lineage with
  | nil => cases h
  | cons e rest =>
    cases e with
    | issued n j =>
      cases h
      exact List.mem_cons_self
    | consumed => cases h
    | discarded => cases h

/-- A pending issuance is the latest event of its lineage: no code was issued,
consumed or discarded after it. -/
theorem pending_eq_some_iff {lineage : List LineageEvent} {number : ℕ} {i : Issuance} :
    pending lineage = some (number,i) ↔ ∃ older, lineage = .issued number i :: older := by
  constructor
  · intro h
    cases lineage with
    | nil => cases h
    | cons e rest =>
      cases e with
      | issued n j =>
        cases h
        exact ⟨rest,rfl⟩
      | consumed => cases h
      | discarded => cases h
  · rintro ⟨older,rfl⟩
    rfl

/-- In every run, and for a call at any later time with any submission, `action`
succeeds exactly when the latest event of the session's lineage is the issue of
a code that is at most five minutes old and equal to the submission. The two
notes are absent together or come from one issue of the lineage, which is an
e-mail that was sent. -/
theorem action_accepts_exactly (start : ℤ) (requests : List Request) (w : Family)
    (hr : run step (initial start) requests = some w) (k : ℕ) (m : Member)
    (hm : w.members[k]? = some m) (context : FlowContext) (submitted : Option String) :
    ((action context submitted m.session).outcome = .success ↔
      ∃ number i older, m.lineage = .issued number i :: older ∧
        context.checkedAt - i.issuedAt ≤ 300000 ∧ submitted = some i.code) ∧
    ((m.session.getSessionNote codeNote = none ∧ m.session.getSessionNote issuedAtNote = none) ∨
      ∃ number i, LineageEvent.issued number i ∈ m.lineage ∧ w.outbox[number]? = some i ∧
        m.session.getSessionNote codeNote = some i.code ∧
        m.session.getSessionNote issuedAtNote = some (longToString i.issuedAt)) := by
  have hc : Consistent w := reachable_consistent ⟨requests,hr⟩
  have hs := hc.represents hm
  constructor
  · rw [action_success_iff context submitted hs]
    constructor
    · rintro ⟨⟨number,i⟩,hq,hl,hsub⟩
      obtain ⟨older,hl'⟩ := pending_eq_some_iff.mp hq
      exact ⟨number,i,older,hl',hl,hsub⟩
    · rintro ⟨number,i,older,hl',hl,hsub⟩
      exact ⟨(number,i),pending_eq_some_iff.mpr ⟨older,hl'⟩,hl,hsub⟩
  · cases hp : pending m.lineage with
    | none =>
      left
      exact ⟨by rw [hs.code, hp]; rfl,by rw [hs.issuedAt, hp]; rfl⟩
    | some q =>
      obtain ⟨number,i⟩ := q
      have hmem := pending_mem hp
      right
      exact ⟨number,i,hmem,hc.numbered hm hmem,by rw [hs.code, hp]; rfl,by rw [hs.issuedAt, hp]; rfl⟩

/-- A call at one instant that can mail the given draw to everybody. -/
def callAt (now : ℤ) (draw : Fin 1000000) : FlowContext where
  getEmail := fun _ => some "user@example.org"
  smtpConfig := some [("host","smtp4dev")]
  nextInt := draw
  send := .ok ()
  checkedAt := now
  recheckedAt := now
  storedAt := now

/-- A session in which a code was mailed to one user at time 10. -/
def mailedSession : AuthenticationSession :=
  (authenticate (callAt 10 7) ⟨fun _ => none,fun _ => none,some "alice"⟩).session

/-- The mailed code is good for five minutes to the millisecond. -/
theorem action_accepts_for_five_minutes :
    (action (callAt 300010 8) (some "000007") mailedSession).outcome = .success ∧
      (action (callAt 300011 8) (some "000007") mailedSession).outcome ≠ .success := by
  have hr : run step (initial 0) [.identify 0 "alice",.authenticate 0 (callAt 10 7)] =
      some ⟨[⟨mailedSession,[.issued 0 ⟨"000007",10,verificationEmail "alice" "000007"⟩]⟩],
        [⟨"000007",10,verificationEmail "alice" "000007"⟩],[],10⟩ := rfl
  constructor
  · exact (action_accepts_exactly 0 _ _ hr 0 _ rfl (callAt 300010 8) (some "000007")).1.mpr
      ⟨0,_,[],rfl,by decide,rfl⟩
  · intro h
    obtain ⟨_,_,_,hl,hfresh,_⟩ :=
      (action_accepts_exactly 0 _ _ hr 0 _ rfl (callAt 300011 8) (some "000007")).1.mp h
    cases hl
    exact absurd hfresh (by decide)

end Oidc4acLab.EmailAuthenticator
