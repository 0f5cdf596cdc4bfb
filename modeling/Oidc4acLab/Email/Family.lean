import Oidc4acLab.Email.Lineage
import Oidc4acLab.Transition.Members

/-! # Runs over a family of authentication sessions

The members of a family are the initial session and its forks. Keycloak copies
the client notes into a fork, which starts with no auth notes and no identified
user; a restart clears the auth notes and the user and keeps the client notes. A
user is identified only where none is. The clock never goes back.
-/
namespace Oidc4acLab.EmailAuthenticator
open Transition

structure Member where
  session : AuthenticationSession
  lineage : List LineageEvent

/-- The session after `user` was identified in it. -/
def Member.identify (m : Member) (user : String) : Member :=
  ⟨{ m.session with user := some user },m.lineage⟩

def Member.clientCopy (m : Member) : Member :=
  ⟨⟨fun _ => none,m.session.clientNotes,none⟩,m.lineage⟩

/-- One call of `context.success()`. -/
structure Success where
  user : Option String
  submitted : Option String
  /-- The number of the e-mail whose code was pending in the session. -/
  number : Option ℕ
deriving DecidableEq

structure Family where
  members : List Member
  /-- The e-mails sent so far; their numbers are their positions. -/
  outbox : List Issuance
  successes : List Success
  clock : ℤ

inductive Request
  | tick (now : ℤ)
  | identify (k : ℕ) (user : String)
  | fork (k : ℕ)
  | restart (k : ℕ)
  | authenticate (k : ℕ) (context : FlowContext)
  | action (k : ℕ) (context : FlowContext) (submitted : Option String)

def initial (start : ℤ) : Family where
  members := [⟨⟨fun _ => none,fun _ => none,none⟩,[]⟩]
  outbox := []
  successes := []
  clock := start

/-- The clock readings of one call follow each other and the present time. -/
def InOrder (clock : ℤ) (context : FlowContext) : Prop :=
  clock ≤ context.checkedAt ∧ context.checkedAt ≤ context.recheckedAt ∧
    context.recheckedAt ≤ context.storedAt

instance (clock : ℤ) (context : FlowContext) : Decidable (InOrder clock context) :=
  inferInstanceAs (Decidable (_ ∧ _))

def Family.record (w : Family) (k : ℕ) (m : Member) (context : FlowContext) (reply : Reply)
    (events : List LineageEvent) : Family :=
  { w with
    members := w.members.set k ⟨reply.session,events ++ m.lineage⟩
    outbox := w.outbox ++ reply.issued.toList
    clock := context.storedAt }

def Family.authenticate (w : Family) (k : ℕ) (m : Member) (context : FlowContext) : Family :=
  let reply := EmailAuthenticator.authenticate context m.session
  w.record k m context reply (issueEvents w.outbox.length reply)

def Family.action (w : Family) (k : ℕ) (m : Member) (context : FlowContext)
    (submitted : Option String) : Family :=
  let reply := EmailAuthenticator.action context submitted m.session
  let next := w.record k m context reply (actionEvents w.outbox.length reply)
  if reply.outcome = .success then
    { next with
      successes := ⟨m.session.user,submitted,(pending m.lineage).map Prod.fst⟩ :: w.successes }
  else next

def step (w : Family) : Request → Option Family
  | .tick now => if w.clock ≤ now then some { w with clock := now } else none
  | .identify k user =>
    (w.members[k]?).bind (fun m =>
      if m.session.user = none ∨ m.session.user = some user then
        some { w with members := w.members.set k (m.identify user) }
      else none)
  | .fork k =>
    (w.members[k]?).bind (fun m => some { w with members := w.members ++ [m.clientCopy] })
  | .restart k =>
    (w.members[k]?).bind (fun m => some { w with members := w.members.set k m.clientCopy })
  | .authenticate k context =>
    (w.members[k]?).bind (fun m =>
      if InOrder w.clock context then some (w.authenticate k m context) else none)
  | .action k context submitted =>
    (w.members[k]?).bind (fun m =>
      if InOrder w.clock context then some (w.action k m context submitted) else none)

/-- What an enabled request does to the family. -/
inductive StepCase (w : Family) (r : Request) (t : Family) : Prop
  | tick (now : ℤ) (hr : r = .tick now) (hle : w.clock ≤ now)
      (ht : t = { w with clock := now })
  | identify (k : ℕ) (user : String) (m : Member) (hr : r = .identify k user)
      (hm : w.members[k]? = some m)
      (ht : t = { w with members := w.members.set k (m.identify user) })
  | fork (k : ℕ) (m : Member) (hr : r = .fork k) (hm : w.members[k]? = some m)
      (ht : t = { w with members := w.members ++ [m.clientCopy] })
  | restart (k : ℕ) (m : Member) (hr : r = .restart k) (hm : w.members[k]? = some m)
      (ht : t = { w with members := w.members.set k m.clientCopy })
  | authenticate (k : ℕ) (m : Member) (context : FlowContext) (hr : r = .authenticate k context)
      (hm : w.members[k]? = some m) (ho : InOrder w.clock context)
      (ht : t = w.authenticate k m context)
  | action (k : ℕ) (m : Member) (context : FlowContext) (submitted : Option String)
      (hr : r = .action k context submitted)
      (hm : w.members[k]? = some m) (ho : InOrder w.clock context)
      (ht : t = w.action k m context submitted)

theorem step_cases {w t : Family} {r : Request} (he : step w r = some t) : StepCase w r t := by
  cases r with
  | tick now =>
    simp only [step] at he
    split at he
    · exact .tick now rfl ‹_› (Option.some.inj he).symm
    · cases he
  | identify k user =>
    obtain ⟨m,hm,he⟩ := Option.bind_eq_some_iff.mp he
    split at he
    · exact .identify k user m rfl hm (Option.some.inj he).symm
    · cases he
  | fork k =>
    obtain ⟨m,hm,he⟩ := Option.bind_eq_some_iff.mp he
    exact .fork k m rfl hm (Option.some.inj he).symm
  | restart k =>
    obtain ⟨m,hm,he⟩ := Option.bind_eq_some_iff.mp he
    exact .restart k m rfl hm (Option.some.inj he).symm
  | authenticate k context =>
    obtain ⟨m,hm,he⟩ := Option.bind_eq_some_iff.mp he
    split at he
    · exact .authenticate k m context rfl hm ‹_› (Option.some.inj he).symm
    · cases he
  | action k context submitted =>
    obtain ⟨m,hm,he⟩ := Option.bind_eq_some_iff.mp he
    split at he
    · exact .action k m context submitted rfl hm ‹_› (Option.some.inj he).symm
    · cases he

theorem InOrder.clock_le {clock : ℤ} {context : FlowContext} (h : InOrder clock context) :
    clock ≤ context.storedAt := by
  obtain ⟨h₁,h₂,h₃⟩ := h
  omega

/-- The reply of the call that a request makes in a member, if it makes one. -/
def replyOf (m : Member) : Request → Option Reply
  | .authenticate _ context => some (EmailAuthenticator.authenticate context m.session)
  | .action _ context submitted => some (EmailAuthenticator.action context submitted m.session)
  | _ => none

/-- The member in which a request makes a call. -/
def Request.calls : Request → Option ℕ
  | .authenticate k _ => some k
  | .action k _ _ => some k
  | _ => none

/-- How a member of the family after a step came about. -/
inductive Arises (w : Family) (r : Request) (k : ℕ) (m' : Member) : Prop
  | kept (hm : w.members[k]? = some m')
  | identified (user : String) (m : Member) (hr : r = .identify k user)
      (hm : w.members[k]? = some m) (he : m' = m.identify user)
  | copied (j : ℕ) (m : Member) (hm : w.members[j]? = some m)
      (hr : r = .fork j ∧ k = w.members.length ∨ r = .restart j ∧ k = j)
      (he : m' = m.clientCopy)
  | authenticated (m : Member) (context : FlowContext) (hr : r = .authenticate k context)
      (hm : w.members[k]? = some m) (ho : InOrder w.clock context)
      (he : m' = ⟨(authenticate context m.session).session,
        issueEvents w.outbox.length (authenticate context m.session) ++ m.lineage⟩)
  | acted (m : Member) (context : FlowContext) (submitted : Option String)
      (hr : r = .action k context submitted) (hm : w.members[k]? = some m) (ho : InOrder w.clock context)
      (he : m' = ⟨(action context submitted m.session).session,
        actionEvents w.outbox.length (action context submitted m.session) ++ m.lineage⟩)

section Projections
variable (w : Family) (k : ℕ) (m : Member) (context : FlowContext) (submitted : Option String)

theorem action_members : (w.action k m context submitted).members =
    w.members.set k ⟨(action context submitted m.session).session,
      actionEvents w.outbox.length (action context submitted m.session) ++ m.lineage⟩ := by
  unfold Family.action
  dsimp only
  split <;> rfl

theorem action_outbox : (w.action k m context submitted).outbox =
    w.outbox ++ (action context submitted m.session).issued.toList := by
  unfold Family.action
  dsimp only
  split <;> rfl

theorem action_clock : (w.action k m context submitted).clock = context.storedAt := by
  unfold Family.action
  dsimp only
  split <;> rfl

theorem action_successes : (w.action k m context submitted).successes =
    if (action context submitted m.session).outcome = .success then
      ⟨m.session.user,submitted,(pending m.lineage).map Prod.fst⟩ :: w.successes
    else w.successes := by
  unfold Family.action
  dsimp only
  split <;> rfl

end Projections

theorem step_arises {w t : Family} {r : Request} (he : step w r = some t) {k : ℕ} {m' : Member}
    (hm' : t.members[k]? = some m') : Arises w r k m' := by
  rcases step_cases he with ⟨_,_,_,rfl⟩ | ⟨j,user,m,hr,hm,rfl⟩ | ⟨j,m,hr,hm,rfl⟩ | ⟨j,m,hr,hm,rfl⟩ |
    ⟨j,m,context,hr,hm,ho,rfl⟩ | ⟨j,m,context,submitted,hr,hm,ho,rfl⟩
  · exact .kept hm'
  · rcases getElem?_set_cases hm' with ⟨_,h⟩ | ⟨rfl,rfl⟩
    · exact .kept h
    · exact .identified user m hr hm rfl
  · rcases getElem?_append_cases hm' with h | ⟨hk,rfl⟩
    · exact .kept h
    · exact .copied j m hm (Or.inl ⟨hr,hk⟩) rfl
  · rcases getElem?_set_cases hm' with ⟨_,h⟩ | ⟨rfl,rfl⟩
    · exact .kept h
    · exact .copied k m hm (Or.inr ⟨hr,rfl⟩) rfl
  · rcases getElem?_set_cases hm' with ⟨_,h⟩ | ⟨rfl,rfl⟩
    · exact .kept h
    · exact .authenticated m context hr hm ho rfl
  · rw [action_members] at hm'
    rcases getElem?_set_cases hm' with ⟨_,h⟩ | ⟨rfl,rfl⟩
    · exact .kept h
    · exact .acted m context submitted hr hm ho rfl

theorem step_clock_le {w t : Family} {r : Request} (he : step w r = some t) : w.clock ≤ t.clock := by
  rcases step_cases he with ⟨_,_,hle,rfl⟩ | ⟨_,_,_,_,_,rfl⟩ | ⟨_,_,_,_,rfl⟩ | ⟨_,_,_,_,rfl⟩ |
    ⟨_,_,_,_,_,ho,rfl⟩ | ⟨_,_,_,_,_,_,ho,rfl⟩
  · exact hle
  · exact Int.le_refl _
  · exact Int.le_refl _
  · exact Int.le_refl _
  · exact ho.clock_le
  · rw [action_clock]
    exact ho.clock_le

theorem step_outbox {w t : Family} {r : Request} (he : step w r = some t) :
    t.outbox = w.outbox ∨ ∃ (k : ℕ) (m : Member) (reply : Reply), w.members[k]? = some m ∧ replyOf m r = some reply ∧
      t.outbox = w.outbox ++ reply.issued.toList := by
  rcases step_cases he with ⟨_,_,_,rfl⟩ | ⟨_,_,_,_,_,rfl⟩ | ⟨_,_,_,_,rfl⟩ | ⟨_,_,_,_,rfl⟩ |
    ⟨j,m,context,rfl,hm,_,rfl⟩ | ⟨j,m,context,submitted,rfl,hm,_,rfl⟩
  · exact Or.inl rfl
  · exact Or.inl rfl
  · exact Or.inl rfl
  · exact Or.inl rfl
  · exact Or.inr ⟨j,m,_,hm,rfl,rfl⟩
  · exact Or.inr ⟨j,m,_,hm,rfl,action_outbox ..⟩

theorem step_outbox_getElem? {w t : Family} {r : Request} (he : step w r = some t) {n : ℕ}
    {i : Issuance} (h : w.outbox[n]? = some i) : t.outbox[n]? = some i := by
  rcases step_outbox he with ho | ⟨_,_,_,_,_,ho⟩
  · rwa [ho]
  · rw [ho]
    exact getElem?_append_of_some h

/-- In every member the notes represent the pending issuance, and every issue of
a lineage is the e-mail of its number. -/
structure Consistent (w : Family) : Prop where
  represents : ∀ {k : ℕ} {m : Member}, w.members[k]? = some m → Represents m.session (pending m.lineage)
  numbered : ∀ {k : ℕ} {m : Member}, w.members[k]? = some m → ∀ {number i},
    LineageEvent.issued number i ∈ m.lineage → w.outbox[number]? = some i

theorem initial_member {start : ℤ} {k : ℕ} {m : Member} (hm : (initial start).members[k]? = some m) :
    m = ⟨⟨fun _ => none,fun _ => none,none⟩,[]⟩ :=
  List.mem_singleton.mp (List.mem_of_getElem? hm)

theorem initial_consistent (start : ℤ) : Consistent (initial start) where
  represents := by
    intro k m hm
    rw [initial_member hm]
    exact ⟨rfl,rfl,fun _ _ => Or.inl rfl⟩
  numbered := by
    intro k m hm number i hi
    rw [initial_member hm] at hi
    cases hi

theorem issued_mem_issueEvents {number n : ℕ} {i : Issuance} {reply : Reply}
    (h : LineageEvent.issued n i ∈ issueEvents number reply) : n = number ∧ reply.issued = some i := by
  unfold issueEvents at h
  cases hi : reply.issued with
  | none => simp [hi] at h
  | some j =>
    simp only [hi,Option.map_some,Option.toList_some,List.mem_singleton] at h
    cases h
    exact ⟨rfl,rfl⟩

theorem issued_mem_actionEvents {number n : ℕ} {i : Issuance} {reply : Reply}
    (h : LineageEvent.issued n i ∈ actionEvents number reply) : n = number ∧ reply.issued = some i := by
  unfold actionEvents at h
  split at h
  · simp at h
  · simp at h
  · rcases List.mem_append.mp h with h | h
    · exact issued_mem_issueEvents h
    · simp at h

theorem step_consistent {w t : Family} {r : Request} (h : Consistent w) (he : step w r = some t) :
    Consistent t := by
  constructor
  · intro k m' hm'
    rcases step_arises he hm' with hm | ⟨user,m,_,hm,rfl⟩ | ⟨j,m,hm,_,rfl⟩ | ⟨m,context,_,hm,_,rfl⟩ |
      ⟨m,context,submitted,_,hm,_,rfl⟩
    · exact h.represents hm
    · exact (h.represents hm).identify (some user)
    · exact (h.represents hm).clientCopy none
    · exact (authenticate_refines context w.outbox.length (h.represents hm)).1
    · exact (action_refines context submitted w.outbox.length (h.represents hm)).1
  · intro k m' hm' number i hi
    rcases step_arises he hm' with hm | ⟨user,m,_,hm,rfl⟩ | ⟨j,m,hm,_,rfl⟩ | ⟨m,context,rfl,hm,ho,rfl⟩ |
      ⟨m,context,submitted,rfl,hm,ho,rfl⟩
    · exact step_outbox_getElem? he (h.numbered hm hi)
    · exact step_outbox_getElem? he (h.numbered hm hi)
    · exact step_outbox_getElem? he (h.numbered hm hi)
    · rcases List.mem_append.mp hi with hi | hi
      · obtain ⟨rfl,hs⟩ := issued_mem_issueEvents hi
        obtain rfl : w.authenticate k m context = t := by
          simpa [step,hm,ho] using he
        simp [Family.authenticate,Family.record,hs]
      · exact step_outbox_getElem? he (h.numbered hm hi)
    · rcases List.mem_append.mp hi with hi | hi
      · obtain ⟨rfl,hs⟩ := issued_mem_actionEvents hi
        obtain rfl : w.action k m context submitted = t := by
          simpa [step,hm,ho] using he
        simp [action_outbox,hs]
      · exact step_outbox_getElem? he (h.numbered hm hi)

theorem reachable_consistent {start : ℤ} {w : Family} (h : Reachable step (initial start) w) :
    Consistent w :=
  h.invariant step_consistent (initial_consistent start)

theorem pending_issueEvents {number n : ℕ} {i : Issuance} {reply : Reply} {lineage : List LineageEvent}
    (h : pending (issueEvents number reply ++ lineage) = some (n,i)) :
    n = number ∧ reply.issued = some i ∨ reply.issued = none ∧ pending lineage = some (n,i) := by
  unfold issueEvents at h
  cases hi : reply.issued with
  | none =>
    simp only [hi,Option.map_none,Option.toList_none,List.nil_append] at h
    exact Or.inr ⟨rfl,h⟩
  | some j =>
    simp only [hi,Option.map_some,Option.toList_some] at h
    cases h
    exact Or.inl ⟨rfl,rfl⟩

/-- After `action` only a new issue or, on a mismatch, the old code is pending. -/
theorem pending_actionEvents {number n : ℕ} {i : Issuance} {reply : Reply} {lineage : List LineageEvent}
    (h : pending (actionEvents number reply ++ lineage) = some (n,i)) :
    n = number ∧ reply.issued = some i ∨ reply.outcome ≠ .success ∧ pending lineage = some (n,i) := by
  unfold actionEvents at h
  split at h
  · cases h
  · rename_i heq
    exact Or.inr ⟨by rw [heq]; simp,h⟩
  · rw [List.append_assoc] at h
    rcases pending_issueEvents h with h | ⟨_,h⟩
    · exact Or.inl h
    · cases h

/-- A pending code was pending before, in the same member or in the parent of a
fork, or the step has just mailed it to the user of the member. -/
theorem step_pending {w t : Family} {r : Request} (hc : Consistent w) (he : step w r = some t) {k : ℕ}
    {m' : Member} (hm' : t.members[k]? = some m') {number : ℕ} {i : Issuance}
    (hp : pending m'.lineage = some (number,i)) :
    (∃ j m, w.members[j]? = some m ∧ pending m.lineage = some (number,i) ∧
      (j = k ∨ r = .fork j ∧ k = w.members.length) ∧
      ∀ user, m'.session.user = some user → m.session.user = some user ∨ r = .identify j user) ∨
    number = w.outbox.length ∧ t.outbox = w.outbox ++ [i] ∧ r.calls = some k ∧
      ∀ user, m'.session.user = some user → i.email = verificationEmail user i.code := by
  rcases step_arises he hm' with hm | ⟨user,m,rfl,hm,rfl⟩ | ⟨j,m,hm,hr,rfl⟩ | ⟨m,context,rfl,hm,ho,rfl⟩ |
    ⟨m,context,submitted,rfl,hm,ho,rfl⟩
  · exact Or.inl ⟨k,m',hm,hp,Or.inl rfl,fun user hu => Or.inl hu⟩
  · refine Or.inl ⟨k,m,hm,hp,Or.inl rfl,?_⟩
    intro user' hu
    cases hu
    exact Or.inr rfl
  · refine Or.inl ⟨j,m,hm,hp,?_,?_⟩
    · rcases hr with hr | ⟨_,hk⟩
      · exact Or.inr hr
      · exact Or.inl hk.symm
    · intro user hu
      cases hu
  · obtain ⟨_,hkeep⟩ := authenticate_refines context w.outbox.length (hc.represents hm)
    rcases pending_issueEvents hp with ⟨rfl,hi⟩ | ⟨_,hp⟩
    · right
      obtain rfl : w.authenticate k m context = t := by simpa [step,hm,ho] using he
      refine ⟨rfl,by simp [Family.authenticate,Family.record,hi],rfl,?_⟩
      intro user hu
      obtain ⟨user',hu',hmail⟩ := (hkeep.issued i hi).email
      rw [hkeep.user, hu'] at hu
      cases hu
      exact hmail
    · refine Or.inl ⟨k,m,hm,hp,Or.inl rfl,?_⟩
      intro user hu
      exact Or.inl (hkeep.user.symm.trans hu)
  · obtain ⟨_,hkeep⟩ := action_refines context submitted w.outbox.length (hc.represents hm)
    rcases pending_actionEvents hp with ⟨rfl,hi⟩ | ⟨_,hp⟩
    · right
      obtain rfl : w.action k m context submitted = t := by simpa [step,hm,ho] using he
      refine ⟨rfl,by simp [action_outbox,hi],rfl,?_⟩
      intro user hu
      obtain ⟨user',hu',hmail⟩ := (hkeep.issued i hi).email
      rw [hkeep.user, hu'] at hu
      cases hu
      exact hmail
    · refine Or.inl ⟨k,m,hm,hp,Or.inl rfl,?_⟩
      intro user hu
      exact Or.inl (hkeep.user.symm.trans hu)

theorem step_successes {w t : Family} {r : Request} (hc : Consistent w) (he : step w r = some t) :
    t.successes = w.successes ∨ ∃ (k : ℕ) (m : Member) (number : ℕ) (i : Issuance),
      w.members[k]? = some m ∧ pending m.lineage = some (number,i) ∧ Live w.clock i ∧
      t.outbox = w.outbox ∧ t.members = w.members.set k ⟨clearCode m.session,.consumed :: m.lineage⟩ ∧
      t.successes = ⟨m.session.user,some i.code,some number⟩ :: w.successes := by
  rcases step_cases he with ⟨_,_,_,rfl⟩ | ⟨_,_,_,_,_,rfl⟩ | ⟨_,_,_,_,rfl⟩ | ⟨_,_,_,_,rfl⟩ |
    ⟨_,_,_,_,_,_,rfl⟩ | ⟨k,m,context,submitted,_,hm,ho,rfl⟩
  · exact Or.inl rfl
  · exact Or.inl rfl
  · exact Or.inl rfl
  · exact Or.inl rfl
  · exact Or.inl rfl
  · have hs := hc.represents hm
    by_cases hout : (action context submitted m.session).outcome = .success
    · right
      rcases action_cases context submitted hs with ⟨number,i,hp,hl,hsub,hact⟩ | ⟨_,_,_,_,_,hact⟩ |
        ⟨hstale,_⟩
      · refine ⟨k,m,number,i,hm,hp,hl.mono ho.1,?_,?_,?_⟩
        · simp [action_outbox,hact]
        · simp [action_members,hact,actionEvents]
        · rw [action_successes, if_pos hout, hp, hsub]
          rfl
      · rw [hact] at hout
        cases hout
      · obtain ⟨q,hq,hl,_⟩ := (action_success_iff context submitted hs).mp hout
        exact absurd hl (hstale q hq)
    · left
      rw [action_successes, if_neg hout]

end Oidc4acLab.EmailAuthenticator
