import Oidc4acLab.Email.Acceptance

/-! # E-mails of one lineage are five minutes apart

Along a lineage the authenticator mails again only when the code of the last e-mail has
expired. A discarded code had expired before, so the bound also holds where nothing is
pending; only a success lets the next e-mail go out at once.
-/
namespace Oidc4acLab.EmailAuthenticator
open Transition

/-- The last e-mail of the lineage unless a success came after it. -/
def lastIssued : List LineageEvent → Option Issuance
  | [] => none
  | .issued _ i :: _ => some i
  | .consumed :: _ => none
  | .discarded :: older => lastIssued older

/-- More than five minutes lie between the issue of the last e-mail and the given time. -/
def Overdue (lineage : List LineageEvent) (now : ℤ) : Prop :=
  ∀ i ∈ lastIssued lineage, codeLifespanMillis < now-i.issuedAt

def Spaced : List LineageEvent → Prop
  | [] => True
  | .issued _ i :: older => Overdue older i.issuedAt ∧ Spaced older
  | .consumed :: older => Spaced older
  | .discarded :: older => Spaced older

/-- A lineage is spaced, and where no code is pending the last e-mail is overdue. -/
structure Paced (lineage : List LineageEvent) (clock : ℤ) : Prop where
  spaced : Spaced lineage
  overdue : pending lineage = none → Overdue lineage clock

theorem Overdue.mono {lineage : List LineageEvent} {now later : ℤ} (h : Overdue lineage now) (hle : now ≤ later) :
    Overdue lineage later := by
  intro i hi
  have hnow := h i hi
  omega

theorem Paced.mono {lineage : List LineageEvent} {clock later : ℤ} (h : Paced lineage clock) (hle : clock ≤ later) :
    Paced lineage later :=
  ⟨h.spaced,fun hp => (h.overdue hp).mono hle⟩

theorem Paced.stale {lineage : List LineageEvent} {clock now : ℤ} (h : Paced lineage clock) (hle : clock ≤ now)
    (hstale : ∀ q ∈ pending lineage, ¬ Live now q.2) : Overdue lineage now := by
  cases hp : pending lineage with
  | none => exact (h.overdue hp).mono hle
  | some q =>
    have hdead := hstale q hp
    intro i hi
    cases lineage with
    | nil => cases hp
    | cons e older =>
      cases e with
      | issued n j =>
        cases hp
        cases hi
        simp only [Live] at hdead
        omega
      | consumed => cases hp
      | discarded => cases hp

theorem Paced.issue {lineage : List LineageEvent} {clock : ℤ} (h : Spaced lineage) {number : ℕ} {i : Issuance}
    (hover : Overdue lineage i.issuedAt) : Paced (.issued number i :: lineage) clock :=
  ⟨⟨hover,h⟩,fun hp => nomatch hp⟩

section Calls
variable {session : AuthenticationSession} {lineage : List LineageEvent} {clock : ℤ} {context : FlowContext}

/-- The events of a call that challenges with a code, where everything before is overdue. -/
theorem paced_challenge (number : ℕ) (error : Option String) {p : Option (ℕ × Issuance)} (hs : Represents session p)
    (hspaced : Spaced lineage) (hover : (∀ q ∈ p, ¬ Live context.recheckedAt q.2) → Overdue lineage context.storedAt)
    (hkeep : Paced lineage context.storedAt) :
    Paced (issueEvents number (challengeWithCode context session error) ++ lineage) context.storedAt := by
  rcases challengeWithCode_cases context error hs with ⟨_,_,_,_,he⟩ | ⟨hstale,he | ⟨s,i,he,_,hi,_⟩⟩
  · rw [he]
    exact hkeep
  · rw [he]
    exact hkeep
  · rw [he]
    have hissue := hover hstale
    rw [← hi.issuedAt] at hissue
    exact .issue hspaced hissue

theorem paced_authenticate (h : Paced lineage clock) (hs : Represents session (pending lineage))
    (ho : InOrder clock context) (number : ℕ) :
    Paced (issueEvents number (authenticate context session) ++ lineage) context.storedAt := by
  obtain ⟨hclock,hchecked,hstored⟩ := ho
  refine paced_challenge number none hs h.spaced (fun hstale => ?_) (h.mono (by omega))
  exact (h.stale (by omega) hstale).mono hstored

theorem paced_action (h : Paced lineage clock) (hs : Represents session (pending lineage))
    (ho : InOrder clock context) (submitted : Option String) (number : ℕ) :
    Paced (actionEvents number (action context submitted session) ++ lineage) context.storedAt := by
  obtain ⟨hclock,hchecked,hstored⟩ := ho
  rcases action_cases context submitted hs with ⟨_,_,_,_,_,he⟩ | ⟨_,_,_,_,_,he⟩ | ⟨hstale,he⟩
  · rw [he]
    exact ⟨h.spaced,fun _ i hi => nomatch hi⟩
  · rw [he]
    exact h.mono (by omega)
  · rw [he]
    -- the code that was discarded had expired at the first check
    have hover : Overdue (.discarded :: lineage) context.storedAt :=
      (h.stale hclock hstale).mono (by omega)
    have hpaced : Paced (.discarded :: lineage) context.storedAt := ⟨h.spaced,fun _ => hover⟩
    have hissue := paced_challenge number (some invalidCodeMessage) (represents_clearCode session)
      hpaced.spaced (fun _ => hover) hpaced
    rcases challengeWithCode_cases context (some invalidCodeMessage) (represents_clearCode session) with
      ⟨_,_,hn,_⟩ | ⟨_,hc | ⟨s,i,hc,_,_,_⟩⟩
    · cases hn
    · rw [hc] at hissue ⊢
      exact hissue
    · rw [hc] at hissue ⊢
      exact hissue

end Calls

structure Unflooded (w : Family) : Prop where
  consistent : Consistent w
  paced : ∀ {k : ℕ} {m : Member}, w.members[k]? = some m → Paced m.lineage w.clock

theorem initial_unflooded (start : ℤ) : Unflooded (initial start) := by
  refine ⟨initial_consistent start,?_⟩
  intro k m hm
  rw [initial_member hm]
  exact ⟨trivial,fun _ i hi => nomatch hi⟩

theorem step_unflooded {w t : Family} {r : Request} (h : Unflooded w) (he : step w r = some t) : Unflooded t := by
  refine ⟨step_consistent h.consistent he,?_⟩
  intro k m' hm'
  have hclock := step_clock_le he
  rcases step_arises he hm' with hm | ⟨user,m,_,hm,rfl⟩ | ⟨j,m,hm,_,rfl⟩ | ⟨m,context,rfl,hm,ho,rfl⟩ |
    ⟨m,context,submitted,rfl,hm,ho,rfl⟩
  · exact (h.paced hm).mono hclock
  · exact (h.paced hm).mono hclock
  · exact (h.paced hm).mono hclock
  · obtain rfl : w.authenticate k m context = t := by simpa [step,hm,ho] using he
    exact paced_authenticate (h.paced hm) (h.consistent.represents hm) ho w.outbox.length
  · obtain rfl : w.action k m context submitted = t := by simpa [step,hm,ho] using he
    rw [action_clock]
    exact paced_action (h.paced hm) (h.consistent.represents hm) ho submitted w.outbox.length

theorem Spaced.of_append {newer rest : List LineageEvent} (h : Spaced (newer ++ rest)) : Spaced rest := by
  induction newer with
  | nil => exact h
  | cons e newer ih =>
    cases e with
    | issued n i => exact ih h.2
    | consumed => exact ih h
    | discarded => exact ih h

theorem Spaced.overdue {between older : List LineageEvent} {n : ℕ} {i : Issuance} {now : ℤ}
    (h : Spaced (between ++ .issued n i :: older)) (hno : LineageEvent.consumed ∉ between)
    (hover : Overdue (between ++ .issued n i :: older) now) : codeLifespanMillis < now-i.issuedAt := by
  induction between generalizing now with
  | nil => exact hover i rfl
  | cons e between ih =>
    rw [List.mem_cons,not_or] at hno
    cases e with
    | issued m j =>
      have hnow : codeLifespanMillis < now-j.issuedAt := hover j rfl
      have hbefore := ih h.2 hno.2 h.1
      simp only [codeLifespanMillis] at hnow hbefore ⊢
      omega
    | consumed => exact absurd rfl hno.1
    | discarded => exact ih h hno.2 hover

/-- In every run, two e-mails of a session's lineage with no success between them were sent and issued more than
five minutes apart. -/
theorem no_mail_flooding (start : ℤ) (requests : List Request) (w : Family)
    (hr : run step (initial start) requests = some w) (k : ℕ) (m : Member) (hm : w.members[k]? = some m)
    (newer between older : List LineageEvent) (n1 n2 : ℕ) (i1 i2 : Issuance)
    (hlineage : m.lineage = newer ++ .issued n2 i2 :: (between ++ .issued n1 i1 :: older))
    (hno : LineageEvent.consumed ∉ between) :
    w.outbox[n1]? = some i1 ∧ w.outbox[n2]? = some i2 ∧ 300000 < i2.issuedAt-i1.issuedAt := by
  have h : Unflooded w := run_invariant step_unflooded (initial_unflooded start) hr
  have hspaced := (h.paced hm).spaced
  rw [hlineage] at hspaced
  obtain ⟨hover,hrest⟩ := hspaced.of_append
  have hnumbered : ∀ {n i}, LineageEvent.issued n i ∈ m.lineage → w.outbox[n]? = some i := h.consistent.numbered hm
  refine ⟨hnumbered (by simp [hlineage]),hnumbered (by simp [hlineage]),?_⟩
  exact hrest.overdue hno hover

/-- A reload within five minutes sends nothing, and one after them sends the second e-mail. -/
theorem reload_after_expiry : ∃ w i1 i2, run step (initial 0) [.identify 0 "alice",.authenticate 0 (callAt 10 7),
      .authenticate 0 (callAt 300010 8),.authenticate 0 (callAt 300011 9)] = some w ∧ w.outbox = [i1,i2] ∧
    300000 < i2.issuedAt-i1.issuedAt := by
  have hrun : ∃ w m i1 i2, run step (initial 0) [.identify 0 "alice",.authenticate 0 (callAt 10 7),
      .authenticate 0 (callAt 300010 8),.authenticate 0 (callAt 300011 9)] = some w ∧ w.members[0]? = some m ∧
      m.lineage = [] ++ .issued 1 i2 :: ([] ++ .issued 0 i1 :: []) ∧ w.outbox = [i1,i2] :=
    ⟨_,_,_,_,rfl,rfl,rfl,rfl⟩
  obtain ⟨w,m,i1,i2,hr,hm,hlineage,houtbox⟩ := hrun
  exact ⟨w,i1,i2,hr,houtbox,
    (no_mail_flooding 0 _ w hr 0 m hm [] [] [] 0 1 i1 i2 hlineage List.not_mem_nil).2.2⟩

end Oidc4acLab.EmailAuthenticator
