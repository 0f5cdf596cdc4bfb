import Mathlib.Data.Int.Notation
import Mathlib.Logic.Function.Basic
import Oidc4acLab.Text.Decimal

/-! # The email-code authenticator

One call of `authenticate` or `action` is a function of the session it runs in,
the submitted form value, and what it reads from its surroundings: the user's
address, the realm's SMTP settings, one random draw, the outcome of the mail
sender, and its clock readings. The four notes are kept as the strings that the
authenticator writes into the two note stores of the session.
-/
namespace Oidc4acLab.EmailAuthenticator
open Decimal

def codeLength : ℕ := 6
def codeLifespanMillis : ℤ := 5 * 60 * 1000
def codeNote : String := "oidc4ac.email.code"
def issuedAtNote : String := "oidc4ac.email.issued-at"
def codeSentMessage : String := "oidc4acEmailCodeSent"
def invalidCodeMessage : String := "oidc4acInvalidEmailCode"
def sendErrorMessage : String := "oidc4acEmailSendError"

theorem codeNote_ne_issuedAtNote : codeNote ≠ issuedAtNote := by decide

abbrev Notes := String → Option String

/-- The parts of an authentication session that the authenticator touches. -/
structure AuthenticationSession where
  authNotes : Notes
  clientNotes : Notes
  user : Option String

namespace AuthenticationSession

def getSessionNote (session : AuthenticationSession) (name : String) : Option String :=
  (session.authNotes name).or (session.clientNotes name)

def setSessionNote (session : AuthenticationSession) (name value : String) : AuthenticationSession :=
  { session with
    authNotes := Function.update session.authNotes name (some value)
    clientNotes := Function.update session.clientNotes name (some value) }

def removeSessionNote (session : AuthenticationSession) (name : String) : AuthenticationSession :=
  { session with
    authNotes := Function.update session.authNotes name none
    clientNotes := Function.update session.clientNotes name none }

end AuthenticationSession

/-- `Long.toString`. -/
def longToString : ℤ → String
  | .ofNat n => String.ofList (Nat.toDigits 10 n)
  | .negSucc n => String.ofList ('-' :: Nat.toDigits 10 (n + 1))

/-- `Long.parseLong`, with `none` for a `NumberFormatException`. -/
def parseLong (s : String) : Option ℤ :=
  match s.toList with
  | '-' :: ds => (parseDigits ds).map (fun n => -(n : ℤ))
  | '+' :: ds => (parseDigits ds).map Int.ofNat
  | ds => (parseDigits ds).map Int.ofNat

@[simp] theorem parseLong_longToString (t : ℤ) : parseLong (longToString t) = some t := by
  cases t with
  | ofNat n =>
    unfold parseLong
    simp only [longToString, String.toList_ofList]
    split
    · rename_i ds hds
      exact absurd (toDigits_head_isDigit hds) (by decide)
    · rename_i ds hds
      exact absurd (toDigits_head_isDigit hds) (by decide)
    · simp
  | negSucc n =>
    simp only [parseLong, longToString, String.toList_ofList, parseDigits_toDigits, Int.negSucc_eq]
    rfl

/-- The six-digit text of one draw of `nextInt(1_000_000)`. -/
def formatCode (n : Fin 1000000) : String :=
  let digits := Nat.toDigits 10 n.val
  String.ofList (List.replicate (codeLength - digits.length) '0' ++ digits)

/-- `Character.isWhitespace`, as `String.isBlank` uses it. -/
def isWhitespace (c : Char) : Bool :=
  let n := c.toNat
  (0x09 ≤ n && n ≤ 0x0D) || (0x1C ≤ n && n ≤ 0x20) || n == 0x1680 ||
    (0x2000 ≤ n && n ≤ 0x200A && n != 0x2007) || n == 0x2028 || n == 0x2029 || n == 0x205F || n == 0x3000

def isBlank (s : String) : Bool := s.toList.all isWhitespace

/-- What one call reads besides its session. The three clock readings are taken
in the order of the fields: by the check in `action`, by the check in
`issueCodeIfNeeded`, and when the issue time is stored. -/
structure FlowContext where
  getEmail : String → Option String
  smtpConfig : Option (List (String × String))
  nextInt : Fin 1000000
  send : Except String Unit
  checkedAt : ℤ
  recheckedAt : ℤ
  storedAt : ℤ

/-- The arguments of the mail sender besides the SMTP settings. -/
structure Email where
  user : String
  subject : String
  textBody : String
  htmlBody : String
deriving DecidableEq

def verificationEmail (user code : String) : Email where
  user := user
  subject := "OIDC4AC verification code"
  textBody := "Your OIDC4AC verification code is: " ++ code ++ "\n\nThis code expires in five minutes."
  htmlBody := "<p>Your OIDC4AC verification code is <strong>" ++ code ++
    "</strong>.</p><p>This code expires in five minutes.</p>"

/-- One completed pass through the sending branch of `issueCodeIfNeeded`. -/
structure Issuance where
  code : String
  issuedAt : ℤ
  email : Email
deriving DecidableEq

inductive Form
  | totp (info error : Option String)
  | errorPage (error : String) (status : ℕ)
deriving DecidableEq

inductive FlowError
  | internalError
  | invalidCredentials
deriving DecidableEq

inductive Outcome
  | challenge (form : Form)
  | failureChallenge (error : FlowError) (form : Form)
  | success
deriving DecidableEq

/-- The session a call leaves, what it answers, and the mail it sent, if any. -/
structure Reply where
  session : AuthenticationSession
  outcome : Outcome
  issued : Option Issuance

def codeForm : Option String → Form
  | some error => .totp none (some error)
  | none => .totp (some codeSentMessage) none

def sendErrorPage : Form := .errorPage sendErrorMessage 500

def isExpired (now : ℤ) : Option String → Bool
  | none => true
  | some issuedAt =>
    match parseLong issuedAt with
    | none => true
    | some t => decide (now - t > codeLifespanMillis)

/-- Sends a fresh code unless an unexpired one is stored. An `EmailException` is
the error of the result; it leaves the session as it was. -/
def issueCodeIfNeeded (context : FlowContext) (session : AuthenticationSession) :
    Except String (AuthenticationSession × Option Issuance) :=
  let existing := session.getSessionNote codeNote
  if existing.isSome && !isExpired context.recheckedAt (session.getSessionNote issuedAtNote) then
    .ok (session, none)
  else
    match session.user.bind (fun user => (context.getEmail user).map (fun email => (user,email))) with
    | none => .error "The user does not have an email address"
    | some (user,email) =>
      if isBlank email then .error "The user does not have an email address"
      else if (context.smtpConfig.getD []).isEmpty then .error "The realm has no SMTP configuration"
      else
        match context.send with
        | .error e => .error e
        | .ok () =>
          let code := formatCode context.nextInt
          let session := session.setSessionNote codeNote code
          let session := session.setSessionNote issuedAtNote (longToString context.storedAt)
          .ok (session, some ⟨code,context.storedAt,verificationEmail user code⟩)

/-- The common end of `authenticate` and of the reissuing branch of `action`. -/
def challengeWithCode (context : FlowContext) (session : AuthenticationSession)
    (error : Option String) : Reply :=
  match issueCodeIfNeeded context session with
  | .ok (session,issued) => ⟨session,.challenge (codeForm error),issued⟩
  | .error _ => ⟨session,.failureChallenge .internalError sendErrorPage,none⟩

def authenticate (context : FlowContext) (session : AuthenticationSession) : Reply :=
  challengeWithCode context session none

def clearCode (session : AuthenticationSession) : AuthenticationSession :=
  (session.removeSessionNote codeNote).removeSessionNote issuedAtNote

def action (context : FlowContext) (submitted : Option String) (session : AuthenticationSession) : Reply :=
  let expected := session.getSessionNote codeNote
  let issuedAt := session.getSessionNote issuedAtNote
  match expected with
  | none => challengeWithCode context (clearCode session) (some invalidCodeMessage)
  | some expected =>
    if isExpired context.checkedAt issuedAt then
      challengeWithCode context (clearCode session) (some invalidCodeMessage)
    else if some expected = submitted then ⟨clearCode session,.success,none⟩
    else ⟨session,.failureChallenge .invalidCredentials (codeForm (some invalidCodeMessage)),none⟩

end Oidc4acLab.EmailAuthenticator
