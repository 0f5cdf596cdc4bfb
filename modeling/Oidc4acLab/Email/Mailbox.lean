import Oidc4acLab.Email.Authenticator
import Oidc4acLab.Text.Regex

/-! # Reading the code from the mailbox

Both test runners take the code of the email factor from the messages of the SMTP server. Each
skips the messages that it has seen before, and finds the code with patterns that know the
two bodies of the mail.
-/
namespace Oidc4acLab.Mailbox
open Regex EmailAuthenticator

/-- What a lower-case letter of a pattern stands for when case is ignored. -/
def ignoringCase (c d : Char) : Bool :=
  d == c || d == c.toUpper || (c == 'i' && (d == 'İ' || d == 'ı')) || (c == 's' && d == 'ſ') || (c == 'k' && d == 'K')

/-- `\s` -/
def isSpace (c : Char) : Bool :=
  let n := c.toNat
  (0x09 ≤ n && n ≤ 0x0D) || (0x1C ≤ n && n ≤ 0x20) || n == 0x85 || n == 0xA0 || n == 0x1680 ||
    (0x2000 ≤ n && n ≤ 0x200A) || n == 0x2028 || n == 0x2029 || n == 0x202F || n == 0x205F || n == 0x3000

def literal (s : String) : Pattern Char := word (s.toList.map ignoringCase)

/-- `[^>]` -/
def insideTag (c : Char) : Bool := c != '>'

/-- The digits of all scripts, as `\d` knows them. -/
structure Digits (decimal : Char → Bool) : Prop where
  ascii : ∀ c : Char, c.isDigit = true → decimal c = true
  notSpace : ∀ c, decimal c = true → isSpace c = false
  notSign : ∀ c, decimal c = true → c ≠ ':' ∧ c ≠ '<'

section Readers
variable (decimal : Char → Bool)

/-- `(\d{6})` -/
def codeGroup : Pattern Char := .group 1 (times 6 decimal)

def announcement (rest : Pattern Char) : Pattern Char :=
  .seq (literal "verification code") (.seq (plus isSpace) (.seq (literal "is") rest))

/-- `<[^>]+>` and the pattern behind it. -/
def tagged (rest : Pattern Char) : Pattern Char :=
  .seq (literal "<") (.seq (plus insideTag) (.seq (literal ">") rest))

def textPattern : Pattern Char :=
  announcement (.seq (star isSpace) (.seq (literal ":") (.seq (star isSpace) (codeGroup decimal))))

def htmlPattern : Pattern Char :=
  announcement (.seq (plus isSpace) (tagged (.seq (star isSpace) (codeGroup decimal))))

/-- The single pattern of the benchmark's browser. -/
def browserPattern : Pattern Char :=
  announcement (.seq (star isSpace) (.seq (maybe (literal ":")) (.seq (star isSpace)
    (.seq (maybe (tagged (star isSpace))) (codeGroup decimal)))))

def groupOne (r : Pattern Char) (body : String) : Option String := (found r 1 body.toList).map String.ofList

def extractCode (body : String) : Option String :=
  [textPattern decimal,htmlPattern decimal].findSome? fun pattern => groupOne pattern body

/-- A member of the list of messages, with its `json.dumps` without and with sorted keys. -/
structure Message where
  id : Option String
  guid : Option String
  dump : String
  sortedDump : String

/-- What the server answers in one round: its list of messages, and by id the raw text and the dump of the
details of a message. -/
structure Poll where
  messages : List Message
  raw : String → Option String
  detail : String → Option String

/-- `message.get("id") or message.get("guid")` -/
def Message.messageId (message : Message) : Option String := (message.id.filter (· ≠ "")).or message.guid

def smtpMessageKey (message : Message) : String := (message.messageId.filter (· ≠ "")).getD message.sortedDump

def mentioned : String := "OIDC4AC verification code"

def messageCode (previousMessages : List String) (poll : Poll) (message : Message) : Option String :=
  if smtpMessageKey message ∈ previousMessages then none
  else if ¬ mentioned.toList <:+: message.dump.toList then none
  else
    match message.messageId with
    | none => extractCode decimal message.dump
    | some id => ((poll.raw id).bind (extractCode decimal)).or (extractCode decimal ((poll.detail id).getD message.dump))

/-- One round after the other until the deadline. -/
def smtpVerificationCode (previousMessages : List String) : List Poll → Except String String
  | [] => .error "smtp4dev did not receive an OIDC4AC verification code within the test timeout."
  | poll :: polls =>
    match poll.messages.findSome? (messageCode decimal previousMessages poll) with
    | some code => .ok code
    | none => smtpVerificationCode previousMessages polls

/-- One round over the keys that are not in the set, with the raw text of each. -/
def newCode (previous : List String) (keys : List (String × String)) : Option (String × String) :=
  (keys.filter fun k => k.1 ∉ previous).findSome? fun k =>
    (groupOne (browserPattern decimal) k.2).map fun code => (k.1,code)

def emailCode (previous : List String) : List (List (String × String)) → Option String × List String
  | [] => (none,previous)
  | keys :: rounds =>
    match newCode decimal previous keys with
    | some (key,code) => (some code,previous ++ [key])
    | none => emailCode previous rounds

end Readers

theorem only_codeGroup {decimal : Char → Bool} {w : List Char} (hw : ∀ c ∈ w, decimal c = true) (hl : w.length = 6)
    (t : List Char) (cs : List (ℕ × List Char)) : Only (codeGroup decimal) ⟨w ++ t,cs⟩ ⟨t,(1,w) :: cs⟩ := by
  refine only_group ?_
  rw [← hl]
  exact only_times hw t cs

theorem exists_first {w : List Char} (h : w.length = 6) : ∃ c w', w = c :: w' := by
  cases w with
  | nil => cases h
  | cons c w' => exact ⟨c,w',rfl⟩

theorem only_literal (s : String) (t : List Char) (cs : List (ℕ × List Char)) :
    Only (literal s) ⟨s.toList ++ t,cs⟩ ⟨t,cs⟩ := by
  refine only_word ?_ t cs
  rw [List.forall₂_map_left_iff]
  refine List.forall₂_same.mpr fun c _ => ?_
  simp [ignoringCase]

theorem ignoringCase_eq {c d : Char} (h : ignoringCase c d = true) :
    d = c ∨ d = c.toUpper ∨ (c = 'i' ∧ (d = 'İ' ∨ d = 'ı')) ∨ (c = 's' ∧ d = 'ſ') ∨ (c = 'k' ∧ d = 'K') := by
  simp only [ignoringCase,Bool.or_eq_true,Bool.and_eq_true,beq_iff_eq,or_assoc] at h
  exact h

theorem eq_of_ignoringCase_sign {c d : Char} (hc : c = ':' ∨ c = '<' ∨ c = '>') (h : ignoringCase c d = true) :
    d = c := by
  rcases hc with rfl | rfl | rfl
  all_goals
    rcases ignoringCase_eq h with rfl | rfl | ⟨h,-⟩ | ⟨h,-⟩ | ⟨h,-⟩
    · rfl
    · decide
    all_goals exact absurd h (by decide)

theorem outside_is (rest : Pattern Char) : Outside isSpace (.seq (literal "is") rest) := by
  refine Outside.seq (outside_word fun d h => ?_) rest
  rcases ignoringCase_eq h with rfl | rfl | ⟨-,rfl | rfl⟩ | ⟨h,-⟩ | ⟨h,-⟩
  · decide
  · decide
  · decide
  · decide
  all_goals exact absurd h (by decide)

theorem outside_colon {p : Char → Bool} (hp : p ':' = false) : Outside p (literal ":") :=
  outside_word fun _ h => eq_of_ignoringCase_sign (Or.inl rfl) h ▸ hp

theorem outside_tagged {p : Char → Bool} (hp : p '<' = false) (rest : Pattern Char) : Outside p (tagged rest) :=
  Outside.seq (outside_word fun _ h => eq_of_ignoringCase_sign (Or.inr (Or.inl rfl)) h ▸ hp) _

theorem outside_greater (rest : Pattern Char) : Outside insideTag (.seq (literal ">") rest) :=
  Outside.seq (outside_word fun _ h => eq_of_ignoringCase_sign (Or.inr (Or.inr rfl)) h ▸ rfl) rest

section Bodies
variable {decimal : Char → Bool} (hd : Digits decimal)
include hd

theorem outside_codeGroup : Outside isSpace (codeGroup decimal) :=
  Outside.group (outside_word hd.notSpace) 1

theorem outside_codeGroup_sign {c : Char} (hc : c = ':' ∨ c = '<') : Outside (· == c) (codeGroup decimal) := by
  refine Outside.group (outside_word fun d h => ?_) 1
  rw [beq_eq_false_iff_ne]
  rcases hc with rfl | rfl
  · exact (hd.notSign d h).1
  · exact (hd.notSign d h).2

variable {w : List Char} (hw : ∀ c ∈ w, decimal c = true) (hl : w.length = 6)
include hw hl

theorem only_code_after (v t : List Char) (hv : ∀ c ∈ v, isSpace c = true) (cs : List (ℕ × List Char)) :
    Only (.seq (star isSpace) (codeGroup decimal)) ⟨v ++ (w ++ t),cs⟩ ⟨t,(1,w) :: cs⟩ := by
  obtain ⟨c,w',rfl⟩ := exists_first hl
  have hc := hd.notSpace c (hw c List.mem_cons_self)
  exact Only.star (outside_codeGroup hd) hv hc (only_codeGroup hw hl t cs)

end Bodies

/-- What stands before the code, up to the word `is`. -/
theorem only_announcement {rest : Pattern Char} {t : List Char} {s : Place Char} (h : Only rest ⟨t,[]⟩ s) :
    Only (announcement rest) ⟨"verification code is".toList ++ t,[]⟩ s := by
  have hsplit : "verification code is".toList ++ t =
      "verification code".toList ++ ([' '] ++ 'i' :: 's' :: t) := rfl
  rw [hsplit]
  refine Only.seq (only_literal "verification code" _ []) ?_
  refine Only.plus (outside_is rest) (List.cons_ne_nil _ _) (List.all_eq_true.mp rfl) (by decide) ?_
  exact Only.seq (only_literal "is" t []) h

theorem only_tagged {rest : Pattern Char} {t : List Char} {s : Place Char} {cs : List (ℕ × List Char)}
    (h : Only rest ⟨t,cs⟩ s) : Only (tagged rest) ⟨"<strong>".toList ++ t,cs⟩ s := by
  have hsplit : "<strong>".toList ++ t = "<".toList ++ ("strong".toList ++ '>' :: t) := rfl
  rw [hsplit]
  refine Only.seq (only_literal "<" _ cs) ?_
  refine Only.plus (outside_greater rest) (by decide) (List.all_eq_true.mp rfl) (by decide) ?_
  exact Only.seq (only_literal ">" t cs) h

section Bodies
variable {decimal : Char → Bool} (hd : Digits decimal) {w : List Char} (hw : ∀ c ∈ w, decimal c = true)
  (hl : w.length = 6)
include hd hw hl

theorem only_textPattern (t : List Char) :
    Only (textPattern decimal) ⟨"verification code is".toList ++ (": ".toList ++ (w ++ t)),[]⟩ ⟨t,[(1,w)]⟩ := by
  refine only_announcement ?_
  have hcolon : Only (.seq (literal ":") (.seq (star isSpace) (codeGroup decimal))) ⟨':' :: ' ' :: (w ++ t),[]⟩
      ⟨t,[(1,w)]⟩ :=
    Only.seq (only_literal ":" _ []) (only_code_after hd hw hl [' '] t (List.all_eq_true.mp rfl) [])
  exact Only.star (Outside.seq (outside_colon (by decide)) _) (w := []) (by simp) (by decide) hcolon

theorem only_htmlPattern (t : List Char) :
    Only (htmlPattern decimal) ⟨"verification code is".toList ++ (" <strong>".toList ++ (w ++ t)),[]⟩ ⟨t,[(1,w)]⟩ := by
  refine only_announcement ?_
  have htagged := only_tagged (only_code_after hd hw hl [] t (by simp) [])
  exact Only.plus (outside_tagged (by decide) _) (w := [' ']) (List.cons_ne_nil _ _) (List.all_eq_true.mp rfl) (by decide)
    htagged

theorem only_browserPattern_text (t : List Char) :
    Only (browserPattern decimal) ⟨"verification code is".toList ++ (": ".toList ++ (w ++ t)),[]⟩ ⟨t,[(1,w)]⟩ := by
  obtain ⟨c,w',rfl⟩ := exists_first hl
  have hc := hw c List.mem_cons_self
  have hnotag : Outside (· == c) (tagged (star isSpace)) :=
    outside_tagged (p := (· == c)) (beq_eq_false_iff_ne.mpr (hd.notSign c hc).2.symm) _
  have hcode : Only (.seq (maybe (tagged (star isSpace))) (codeGroup decimal)) ⟨c :: w' ++ t,[]⟩ ⟨t,[(1,c :: w')]⟩ :=
    Only.skip (hnotag.not_passes (by simp)) (only_codeGroup hw hl t [])
  have hblank : Outside isSpace (.seq (maybe (tagged (star isSpace))) (codeGroup decimal)) :=
    Outside.maybe (outside_tagged (by decide) _) (outside_codeGroup hd)
  have hnot : Outside (· == ':') (.seq (star isSpace) (.seq (maybe (tagged (star isSpace))) (codeGroup decimal))) := by
    refine Outside.star (fun d h => ?_)
      (Outside.maybe (outside_tagged (by decide) _) (outside_codeGroup_sign hd (Or.inl rfl)))
    rw [beq_eq_false_iff_ne]
    rintro rfl
    exact absurd h (by decide)
  refine only_announcement ?_
  refine Only.seq (only_star (by decide) []) ?_
  refine Only.take (only_literal ":" _ []) (hnot.not_passes (by decide)) ?_
  exact Only.star hblank (w := [' ']) (List.all_eq_true.mp rfl) (hd.notSpace c hc) hcode

theorem only_browserPattern_html (t : List Char) :
    Only (browserPattern decimal) ⟨"verification code is".toList ++ (" <strong>".toList ++ (w ++ t)),[]⟩ ⟨t,[(1,w)]⟩ := by
  obtain ⟨c,w',rfl⟩ := exists_first hl
  have hc := hd.notSpace c (hw c List.mem_cons_self)
  have hblank : Outside isSpace (.seq (maybe (tagged (star isSpace))) (codeGroup decimal)) :=
    Outside.maybe (outside_tagged (by decide) _) (outside_codeGroup hd)
  have hnot := outside_codeGroup_sign hd (c := '<') (Or.inr rfl)
  have htag : Only (tagged (star isSpace)) ⟨"<strong>".toList ++ (c :: w' ++ t),[]⟩ ⟨c :: w' ++ t,[]⟩ :=
    only_tagged (only_star hc [])
  have hcolon : Outside (· == '<') (literal ":") := outside_colon (by decide)
  refine only_announcement ?_
  refine Only.starSkip (w := [' ']) (outside_colon (by decide)) hblank (List.all_eq_true.mp rfl) (by decide)
    (hcolon.not_passes (by decide)) ?_
  exact Only.take htag (hnot.not_passes (by decide)) (only_codeGroup hw hl t [])

end Bodies

theorem formatCode_digits (n : Fin 1000000) :
    (formatCode n).toList.length = 6 ∧ ∀ c ∈ (formatCode n).toList, c.isDigit = true := by
  have hlength : (Nat.toDigits 10 n.val).length ≤ 6 := (Nat.length_toDigits_le_iff (by decide) (by decide)).mpr n.isLt
  rw [formatCode,String.toList_ofList,codeLength]
  refine ⟨?_,?_⟩
  · rw [List.length_append,List.length_replicate]
    omega
  · intro c hc
    rcases List.mem_append.mp hc with hc | hc
    · rw [List.eq_of_mem_replicate hc]
      rfl
    · exact Nat.isDigit_of_mem_toDigits (by decide) (by decide) hc

/-- The text up to its first line end, as a line end may be written in other ways on its way. -/
def firstLine (body : String) : List Char := body.toList.takeWhile (· != '\n')

/-- The text holds this one, and the pattern does not begin to pass before it. -/
def Holds (r : Pattern Char) (body : List Char) (t : String) : Prop :=
  ∃ before after, t.toList = before ++ (body ++ after) ∧ Quiet r before

def Free (r : Pattern Char) (t : String) : Prop := ∀ u, u <:+ t.toList → ∀ s, ¬ Passes r ⟨u,[]⟩ s

/-- The text holds the mail with the text body, or only its HTML body. -/
def Legible (decimal : Char → Bool) (email : Email) (t : String) : Prop :=
  Holds (textPattern decimal) (firstLine email.textBody) t ∨
    Free (textPattern decimal) t ∧ Holds (htmlPattern decimal) email.htmlBody.toList t

theorem outside_announcement (rest : Pattern Char) : Outside (fun d => d != 'v' && d != 'V') (announcement rest) := by
  refine Outside.seq (outside_word fun d h => ?_) _
  rcases ignoringCase_eq h with rfl | rfl | ⟨h,-⟩ | ⟨h,-⟩ | ⟨h,-⟩
  · rfl
  · rfl
  all_goals exact absurd h (by decide)

theorem firstLine_textBody (user : String) {code : String} (hcode : ∀ c ∈ code.toList, c.isDigit = true) :
    firstLine (verificationEmail user code).textBody =
      "Your OIDC4AC ".toList ++ ("verification code is".toList ++ (": ".toList ++ code.toList)) := by
  have hline : ∀ c ∈ "Your OIDC4AC ".toList ++ ("verification code is".toList ++ (": ".toList ++ code.toList)),
      (c != '\n') = true := by
    intro c hc
    simp only [List.mem_append] at hc
    rcases hc with hc | hc | hc | hc
    · exact List.all_eq_true (p := (· != '\n')).mp rfl c hc
    · exact List.all_eq_true (p := (· != '\n')).mp rfl c hc
    · exact List.all_eq_true (p := (· != '\n')).mp rfl c hc
    · have hdigit := hcode c hc
      rw [bne_iff_ne]
      rintro rfl
      exact absurd hdigit (by decide)
  have hbody : (verificationEmail user code).textBody.toList =
      ("Your OIDC4AC ".toList ++ ("verification code is".toList ++ (": ".toList ++ code.toList))) ++
        '\n' :: "\nThis code expires in five minutes.".toList := by
    simp only [verificationEmail,String.toList_append,List.append_assoc]
    rfl
  rw [firstLine,hbody,List.takeWhile_append_of_pos hline]
  simp

theorem htmlBody_eq (user code : String) : (verificationEmail user code).htmlBody.toList =
    "<p>Your OIDC4AC ".toList ++ ("verification code is".toList ++ (" <strong>".toList ++ (code.toList ++
      "</strong>.</p><p>This code expires in five minutes.</p>".toList))) := by
  simp only [verificationEmail,String.toList_append,List.append_assoc]
  rfl

theorem groupOne_eq {rest : Pattern Char} {t code : String} {before intro body after : List Char}
    (ht : t.toList = before ++ (intro ++ ("verification code is".toList ++ body)))
    (hbefore : Quiet (announcement rest) before) (hintro : ∀ c ∈ intro, (c != 'v' && c != 'V') = true)
    (honly : Only (announcement rest) ⟨"verification code is".toList ++ body,[]⟩ ⟨after,[(1,code.toList)]⟩) :
    groupOne (announcement rest) t = some code := by
  have hquiet := hbefore.append ((outside_announcement rest).quiet hintro)
  rw [groupOne,ht,← List.append_assoc,found_append hquiet,honly.found rfl]
  exact congrArg some String.ofList_toList

section Holds
variable {decimal : Char → Bool} (hd : Digits decimal) {user code t : String}
  (hl : code.toList.length = 6) (hcode : ∀ c ∈ code.toList, c.isDigit = true)
include hd hl hcode

theorem extractCode_legible (h : Legible decimal (verificationEmail user code) t) :
    extractCode decimal t = some code := by
  have hw : ∀ c ∈ code.toList, decimal c = true := fun c hc => hd.ascii c (hcode c hc)
  rcases h with ⟨before,after,ht,hbefore⟩ | ⟨hfree,before,after,ht,hbefore⟩
  · rw [firstLine_textBody user hcode] at ht
    simp only [List.append_assoc] at ht
    have hfirst : groupOne (textPattern decimal) t = some code :=
      groupOne_eq ht hbefore (List.all_eq_true.mp rfl) (only_textPattern hd hw hl after)
    rw [extractCode,List.findSome?_cons,hfirst]
  · have hnone : groupOne (textPattern decimal) t = none := by
      rw [groupOne,found_none hfree,Option.map_none]
    rw [htmlBody_eq] at ht
    simp only [List.append_assoc] at ht
    have hsecond : groupOne (htmlPattern decimal) t = some code :=
      groupOne_eq ht hbefore (List.all_eq_true.mp rfl) (only_htmlPattern hd hw hl _)
    rw [extractCode,List.findSome?_cons,hnone,List.findSome?_cons,hsecond]

theorem browser_legible
    (h : Holds (browserPattern decimal) (firstLine (verificationEmail user code).textBody) t ∨
      Holds (browserPattern decimal) (verificationEmail user code).htmlBody.toList t) :
    groupOne (browserPattern decimal) t = some code := by
  have hw : ∀ c ∈ code.toList, decimal c = true := fun c hc => hd.ascii c (hcode c hc)
  rcases h with ⟨before,after,ht,hbefore⟩ | ⟨before,after,ht,hbefore⟩
  · rw [firstLine_textBody user hcode] at ht
    simp only [List.append_assoc] at ht
    exact groupOne_eq ht hbefore (List.all_eq_true.mp rfl) (only_browserPattern_text hd hw hl after)
  · rw [htmlBody_eq] at ht
    simp only [List.append_assoc] at ht
    exact groupOne_eq ht hbefore (List.all_eq_true.mp rfl) (only_browserPattern_html hd hw hl _)

end Holds

end Oidc4acLab.Mailbox
