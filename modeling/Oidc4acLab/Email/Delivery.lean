import Oidc4acLab.Email.Acceptance
import Oidc4acLab.Email.Mailbox
import Mathlib.Data.List.ReduceOption

/-! # From the mail to the form

The code that a runner reads from the mailbox is the one that the authenticator keeps for the
session, so entering it in time answers the challenge. The browser never enters the code of
one message twice.
-/
namespace Oidc4acLab.Mailbox
open Transition EmailAuthenticator Regex

def Announces (i : Issuance) : Prop :=
  (i.code.toList.length = 6 ∧ ∀ c ∈ i.code.toList, c.isDigit = true) ∧ ∃ user, i.email = verificationEmail user i.code

theorem announces_of_issuedBy {context : FlowContext} {session : AuthenticationSession} {i : Issuance}
    (h : IssuedBy context session i) : Announces i := by
  obtain ⟨user,-,hmail⟩ := h.email
  refine ⟨?_,user,hmail⟩
  rw [h.code]
  exact formatCode_digits _

theorem step_announces {w t : Family} {r : Request} (hc : Consistent w) (he : step w r = some t)
    (h : ∀ i ∈ w.outbox, Announces i) : ∀ i ∈ t.outbox, Announces i := by
  have hnew : ∀ {reply : Reply} {context : FlowContext} {session : AuthenticationSession},
      KeepsUser context session reply → ∀ i ∈ w.outbox ++ reply.issued.toList, Announces i := by
    intro reply context session hkeep i hi
    rcases List.mem_append.mp hi with hi | hi
    · exact h i hi
    · exact announces_of_issuedBy (hkeep.issued i (Option.mem_toList.mp hi))
  rcases step_cases he with ⟨_,_,_,rfl⟩ | ⟨_,_,_,_,_,rfl⟩ | ⟨_,_,_,_,rfl⟩ | ⟨_,_,_,_,rfl⟩ |
    ⟨k,m,context,_,hm,_,rfl⟩ | ⟨k,m,context,submitted,_,hm,_,rfl⟩
  · exact h
  · exact h
  · exact h
  · exact h
  · exact hnew (authenticate_refines context w.outbox.length (hc.represents hm)).2
  · rw [action_outbox]
    exact hnew (action_refines context submitted w.outbox.length (hc.represents hm)).2

theorem run_announces {start : ℤ} {requests : List Request} {w : Family}
    (hr : run step (initial start) requests = some w) : ∀ i ∈ w.outbox, Announces i := by
  have hall : Consistent w ∧ ∀ i ∈ w.outbox, Announces i := by
    refine run_invariant_along (I := fun w => Consistent w ∧ ∀ i ∈ w.outbox, Announces i) ?_ ?_
      (Along.of_forall (G := fun _ _ => True) (fun _ _ => trivial) _ requests) hr
    · intro w r t h _ he
      exact ⟨step_consistent h.1 he,step_announces h.1 he h.2⟩
    · exact ⟨initial_consistent start,fun i hi => nomatch hi⟩
  exact hall.2

/-- A message that the runner has not seen and that mentions a code. -/
def Unseen (previousMessages : List String) (message : Message) : Prop :=
  smtpMessageKey message ∉ previousMessages ∧ mentioned.toList <:+: message.dump.toList

/-- The server has the mail as the raw text of the message. -/
def Delivers (decimal : Char → Bool) (email : Email) (poll : Poll) (message : Message) : Prop :=
  ∃ id t, message.messageId = some id ∧ poll.raw id = some t ∧ Legible decimal email t

section Http
variable {decimal : Char → Bool} (hd : Digits decimal) {i : Issuance} (hi : Announces i)
  {previousMessages : List String}
include hd hi

theorem messageCode_delivers {poll : Poll} {message : Message}
    (h : Unseen previousMessages message → Delivers decimal i.email poll message) :
    messageCode decimal previousMessages poll message = none ∧ ¬ Unseen previousMessages message ∨
      messageCode decimal previousMessages poll message = some i.code := by
  by_cases hu : Unseen previousMessages message
  · obtain ⟨id,t,hid,hraw,hlegible⟩ := h hu
    obtain ⟨⟨hl,hcode⟩,user,hmail⟩ := hi
    rw [hmail] at hlegible
    have hread := extractCode_legible hd hl hcode hlegible
    right
    rw [messageCode,if_neg hu.1,if_neg (not_not.mpr hu.2),hid]
    simp only [hraw,Option.bind_some,hread,Option.some_or]
  · refine Or.inl ⟨?_,hu⟩
    rw [messageCode]
    by_cases hseen : smtpMessageKey message ∈ previousMessages
    · rw [if_pos hseen]
    · rw [if_neg hseen,if_pos fun hmentioned => hu ⟨hseen,hmentioned⟩]

theorem round_code {poll : Poll} {messages : List Message}
    (h : ∀ message ∈ messages, Unseen previousMessages message → Delivers decimal i.email poll message) :
    messages.findSome? (messageCode decimal previousMessages poll) = some i.code ∨
      messages.findSome? (messageCode decimal previousMessages poll) = none ∧
        ∀ message ∈ messages, ¬ Unseen previousMessages message := by
  induction messages with
  | nil => exact Or.inr ⟨rfl,by simp⟩
  | cons message messages ih =>
    obtain ⟨hfirst,hrest⟩ := List.forall_mem_cons.mp h
    rw [List.findSome?_cons]
    rcases messageCode_delivers hd hi hfirst with ⟨hnone,hnot⟩ | hsome
    · simp only [hnone,List.forall_mem_cons]
      rcases ih hrest with hcode | ⟨hnone',hnot'⟩
      · exact Or.inl hcode
      · exact Or.inr ⟨hnone',hnot,hnot'⟩
    · simp only [hsome]
      exact Or.inl trivial

/-- Where every new message is the mail and there is one in some round, its code is found. -/
theorem smtpVerificationCode_eq {polls : List Poll}
    (h : ∀ poll ∈ polls, ∀ message ∈ poll.messages,
      Unseen previousMessages message → Delivers decimal i.email poll message)
    (hsome : ∃ poll ∈ polls, ∃ message ∈ poll.messages, Unseen previousMessages message) :
    smtpVerificationCode decimal previousMessages polls = .ok i.code := by
  induction polls with
  | nil =>
    obtain ⟨poll,hpoll,-⟩ := hsome
    cases hpoll
  | cons poll polls ih =>
    obtain ⟨hfirst,hrest⟩ := List.forall_mem_cons.mp h
    rw [smtpVerificationCode]
    rcases round_code hd hi hfirst with hcode | ⟨hnone,hnot⟩
    · simp only [hcode]
    · simp only [hnone]
      refine ih hrest ?_
      obtain ⟨poll',hpoll,message,hmessage,hunseen⟩ := hsome
      rcases List.mem_cons.mp hpoll with rfl | hpoll
      · exact absurd hunseen (hnot message hmessage)
      · exact ⟨poll',hpoll,message,hmessage,hunseen⟩

end Http

/-- In every run of a family of sessions, if the new messages of the mailbox are the mail whose code is pending in a
session, the HTTP runner reads this code, and entering it within five minutes answers the challenge. -/
theorem mailed_code_accepted {decimal : Char → Bool} (hd : Digits decimal) (start : ℤ) (requests : List Request)
    (w : Family) (hr : run step (initial start) requests = some w) (k : ℕ) (m : Member) (hm : w.members[k]? = some m)
    {number : ℕ} {i : Issuance} {older : List LineageEvent} (hl : m.lineage = .issued number i :: older)
    {previousMessages : List String} {polls : List Poll}
    (hmail : ∀ poll ∈ polls, ∀ message ∈ poll.messages,
      Unseen previousMessages message → Delivers decimal i.email poll message)
    (hsome : ∃ poll ∈ polls, ∃ message ∈ poll.messages, Unseen previousMessages message)
    (context : FlowContext) (htime : context.checkedAt - i.issuedAt ≤ 300000) :
    ∃ code, smtpVerificationCode decimal previousMessages polls = .ok code ∧
      (action context (some code) m.session).outcome = .success := by
  have hissued : LineageEvent.issued number i ∈ m.lineage := by
    rw [hl]
    exact List.mem_cons_self
  have hnumbered := (reachable_consistent ⟨requests,hr⟩).numbered hm hissued
  have hi := run_announces hr i (List.mem_of_getElem? hnumbered)
  refine ⟨i.code,smtpVerificationCode_eq hd hi hmail hsome,?_⟩
  have hs := (reachable_consistent ⟨requests,hr⟩).represents hm
  rw [action_success_iff context (some i.code) hs]
  exact ⟨(number,i),pending_eq_some_iff.mpr ⟨older,hl⟩,htime,rfl⟩

theorem digits_isDigit : Digits Char.isDigit where
  ascii := fun _ h => h
  notSpace := by
    intro c h
    have hdigit : 48 ≤ c.toNat ∧ c.toNat ≤ 57 := Char.isDigit_iff_toNat.mp h
    simp only [isSpace,Bool.or_eq_false_iff,Bool.and_eq_false_iff,decide_eq_false_iff_not,beq_eq_false_iff_ne]
    omega
  notSign := by
    intro c h
    refine ⟨?_,?_⟩
    all_goals
      rintro rfl
      exact absurd h (by decide)

theorem holds_textBody (r : Pattern Char) (body : String) : Holds r (firstLine body) body :=
  ⟨[],body.toList.dropWhile (· != '\n'),List.takeWhile_append_dropWhile.symm,quiet_nil r⟩

/-- A mailbox with the one mail of `mailedSession`. -/
def mailedPoll : Poll where
  messages := [⟨some "1",none,mentioned,mentioned⟩]
  raw := fun _ => some (verificationEmail "alice" "000007").textBody
  detail := fun _ => none

theorem mailed_code_accepted_in_time : ∃ code, smtpVerificationCode Char.isDigit [] [mailedPoll] = .ok code ∧
    (action (callAt 300010 8) (some code) mailedSession).outcome = .success := by
  have hr : run step (initial 0) [.identify 0 "alice",.authenticate 0 (callAt 10 7)] =
      some ⟨[⟨mailedSession,[.issued 0 ⟨"000007",10,verificationEmail "alice" "000007"⟩]⟩],
        [⟨"000007",10,verificationEmail "alice" "000007"⟩],[],10⟩ := rfl
  refine mailed_code_accepted digits_isDigit 0 _ _ hr 0 _ rfl rfl ?_ ?_ (callAt 300010 8) (by decide)
  · intro poll hpoll message hmessage _
    cases List.mem_singleton.mp hpoll
    cases List.mem_singleton.mp hmessage
    exact ⟨"1",_,rfl,rfl,Or.inl (holds_textBody _ _)⟩
  · exact ⟨mailedPoll,List.mem_singleton_self _,_,List.mem_singleton_self _,by simp,List.infix_rfl⟩

/-- The answers to one prompt after the other, each with the rounds until its deadline: the code of a message, or
none where the code of the authenticator app is entered. The set of seen messages is kept. -/
def answers (decimal : Char → Bool) (previous : List String) :
    List (List (List (String × String))) → List (Option String)
  | [] => []
  | rounds :: prompts =>
    let r := emailCode decimal previous rounds
    r.1 :: answers decimal r.2 prompts

section Browser
variable {decimal : Char → Bool}

theorem newCode_eq_some {previous : List String} {keys : List (String × String)} {key code : String}
    (h : newCode decimal previous keys = some (key,code)) :
    key ∉ previous ∧ ∃ t, (key,t) ∈ keys ∧ groupOne (browserPattern decimal) t = some code := by
  obtain ⟨⟨key',t⟩,hmem,hcode⟩ := List.exists_of_findSome?_eq_some h
  obtain ⟨code',hcode',heq⟩ := Option.map_eq_some_iff.mp hcode
  cases heq
  obtain ⟨hkeys,hnew⟩ := List.mem_filter.mp hmem
  exact ⟨by simpa using hnew,t,hkeys,hcode'⟩

theorem emailCode_cases (previous : List String) (rounds : List (List (String × String))) :
    emailCode decimal previous rounds = (none,previous) ∨
      ∃ key code, emailCode decimal previous rounds = (some code,previous ++ [key]) ∧ key ∉ previous ∧
        ∃ keys ∈ rounds, ∃ t, (key,t) ∈ keys ∧ groupOne (browserPattern decimal) t = some code := by
  induction rounds with
  | nil => exact Or.inl rfl
  | cons keys rounds ih =>
    rw [emailCode]
    cases hn : newCode decimal previous keys with
    | none =>
      simp only
      rcases ih with h | ⟨key,code,h,hnew,keys',hkeys,ht⟩
      · exact Or.inl h
      · exact Or.inr ⟨key,code,h,hnew,keys',List.mem_cons_of_mem _ hkeys,ht⟩
    | some r =>
      obtain ⟨key,code⟩ := r
      obtain ⟨hnew,ht⟩ := newCode_eq_some hn
      exact Or.inr ⟨key,code,rfl,hnew,keys,List.mem_cons_self,ht⟩

/-- Where the answers come from: pairs of a message and its code, no message twice and none seen before. -/
structure Uses (decimal : Char → Bool) (previous : List String) (prompts : List (List (List (String × String))))
    (uses : List (String × String)) : Prop where
  answers : (answers decimal previous prompts).reduceOption = uses.map Prod.snd
  once : (uses.map Prod.fst).Nodup
  unseen : ∀ u ∈ uses, u.1 ∉ previous
  read : ∀ u ∈ uses, ∃ rounds ∈ prompts, ∃ keys ∈ rounds, ∃ t, (u.1,t) ∈ keys ∧
    groupOne (browserPattern decimal) t = some u.2

theorem exists_uses (previous : List String) (prompts : List (List (List (String × String)))) :
    ∃ uses, Uses decimal previous prompts uses := by
  induction prompts generalizing previous with
  | nil => exact ⟨[],rfl,List.nodup_nil,by simp,by simp⟩
  | cons rounds prompts ih =>
    rcases @emailCode_cases decimal previous rounds with h | ⟨key,code,h,hnew,hread⟩
    · obtain ⟨uses,hanswers,honce,hunseen,hread⟩ := ih previous
      refine ⟨uses,?_,honce,hunseen,fun u hu => ?_⟩
      · rw [Mailbox.answers,h]
        exact hanswers
      · obtain ⟨rounds',hrounds,hrest⟩ := hread u hu
        exact ⟨rounds',List.mem_cons_of_mem _ hrounds,hrest⟩
    · obtain ⟨uses,hanswers,honce,hunseen,hreads⟩ := ih (previous ++ [key])
      refine ⟨(key,code) :: uses,?_,?_,?_,?_⟩
      · rw [Mailbox.answers,h,List.reduceOption_cons_of_some,hanswers,List.map_cons]
      · rw [List.map_cons,List.nodup_cons]
        refine ⟨fun hmem => ?_,honce⟩
        obtain ⟨u,hu,hkey⟩ := List.mem_map.mp hmem
        exact hunseen u hu (hkey ▸ List.mem_append_right _ (List.mem_singleton_self key))
      · intro u hu
        rcases List.mem_cons.mp hu with rfl | hu
        · exact hnew
        · exact fun hmem => hunseen u hu (List.mem_append_left _ hmem)
      · intro u hu
        rcases List.mem_cons.mp hu with rfl | hu
        · exact ⟨rounds,List.mem_cons_self,hread⟩
        · obtain ⟨rounds',hrounds,hrest⟩ := hreads u hu
          exact ⟨rounds',List.mem_cons_of_mem _ hrounds,hrest⟩

/-- Over all prompts of a flow the browser enters the code of each message at most once, of no message that it had
seen before, and of a message with either body of a mail it enters the code of this mail. -/
theorem browser_answers (hd : Digits decimal) (start : ℤ) (requests : List Request) (w : Family)
    (hr : run step (initial start) requests = some w) (previous : List String)
    (prompts : List (List (List (String × String)))) :
    ∃ uses, Uses decimal previous prompts uses ∧ ∀ i ∈ w.outbox, ∀ u t,
      groupOne (browserPattern decimal) t = some u →
        (Holds (browserPattern decimal) (firstLine i.email.textBody) t ∨
          Holds (browserPattern decimal) i.email.htmlBody.toList t) → u = i.code := by
  obtain ⟨uses,huses⟩ := @exists_uses decimal previous prompts
  refine ⟨uses,huses,fun i hi u t hu ht => ?_⟩
  obtain ⟨⟨hl,hcode⟩,user,hmail⟩ := run_announces hr i hi
  rw [hmail] at ht
  have hread := browser_legible hd hl hcode ht
  rw [hu] at hread
  exact Option.some.inj hread

end Browser

/-- The mail is entered at the first prompt; at the second one there is no new message. -/
theorem browser_answers_once : ∃ uses,
    Uses Char.isDigit [] [[[("1",(verificationEmail "alice" "000007").textBody)]],
      [[("1",(verificationEmail "alice" "000007").textBody)]]] uses ∧
    ∀ i ∈ [(⟨"000007",10,verificationEmail "alice" "000007"⟩ : Issuance)], ∀ u t,
      groupOne (browserPattern Char.isDigit) t = some u →
        (Holds (browserPattern Char.isDigit) (firstLine i.email.textBody) t ∨
          Holds (browserPattern Char.isDigit) i.email.htmlBody.toList t) → u = i.code := by
  have hr : run step (initial 0) [.identify 0 "alice",.authenticate 0 (callAt 10 7)] =
      some ⟨[⟨mailedSession,[.issued 0 ⟨"000007",10,verificationEmail "alice" "000007"⟩]⟩],
        [⟨"000007",10,verificationEmail "alice" "000007"⟩],[],10⟩ := rfl
  exact browser_answers digits_isDigit 0 _ _ hr [] _

end Oidc4acLab.Mailbox
