import Oidc4acLab.Number.Rounding
import Mathlib.Algebra.Order.Floor.Semifield
import Mathlib.Data.NNRat.Floor

/-! # One-time codes of the test runners

The runner of the HTTP suite and the one of the browser suite compute the codes of one
credential, which refuses a code a second time. Both remember the interval of the last code
and wait for the next one where the current interval may have been used. Time passes before
every reading of the clock, and a sleep takes at least as long as it was asked for.
-/
namespace Oidc4acLab.Totp
open Binary64

/-- A call of `current_totp` and the interval whose code it gives. -/
structure Use where
  called : ℚ≥0
  secret : String
  avoidReuse : Bool
  intervalOffset : ℕ
  counter : ℕ
  deriving DecidableEq

/-- A process at a time in seconds. -/
structure Process where
  now : ℚ≥0
  readings : ℕ
  lastTotpCounter : Option ℤ
  used : List Use

/-- How much time passes before each reading. -/
abbrev Delays := ℕ → ℚ≥0

/-- `time.time()` -/
def Process.time (delays : Delays) (p : Process) : ℚ≥0 × Process :=
  (p.now+delays p.readings,{ p with now := p.now+delays p.readings, readings := p.readings+1 })

/-- `time.sleep(d)`, where the next reading adds what the sleep takes longer. -/
def Process.sleep (p : Process) (d : ℚ≥0) : Process := { p with now := p.now+d }

def Process.use (p : Process) (u : Use) : Process := { p with used := p.used ++ [u] }

/-- `int(t)//30` -/
def counterAt (t : ℚ≥0) : ℕ := ⌊t⌋₊/30

/-- `t%30`, which is exact in double precision. -/
def intoInterval (t : ℚ≥0) : ℚ≥0 := t-30*⌊t/30⌋₊

/-- `30-(t%30)+0.25` in double precision -/
def pause (t : ℚ≥0) : ℚ≥0 := nearest (nearest (30-intoInterval t)+1/4)

inductive Failure
  | structError
  | browserCheckFailure (message : String)

/-- `struct.pack(">Q", n)` -/
def pack (n : ℕ) : Option (List UInt8) :=
  if n < 2^64 then some ((List.range 8).map fun i => UInt8.ofNat (n/256^(7-i))) else none

/-- `f"{n:06d}"` -/
def sixDigits (n : ℕ) : String := String.ofList ((Nat.toDigits 10 n).leftpad 6 '0')

/-- `hmac key message` is the digest of `hmac.new(key, message, hashlib.sha1)`. -/
def hotp (hmac : List UInt8 → List UInt8 → Fin 20 → UInt8) (secret : String) (counter : ℕ) : Except Failure String :=
  match pack counter with
  | none => .error .structError
  | some message =>
    let digest := hmac secret.toUTF8.data.toList message
    let offset := (digest 19 &&& 0x0F).toNat
    let value := (List.range 4).foldl (fun v i => 256*v+(digest (Fin.ofNat 20 (offset+i))).toNat) 0
    .ok (sixDigits (value%2^31%1000000))

variable (delays : Delays)

/-- The interval of a reading, or a later one if a code of the interval may have been used. -/
def interval (avoidReuse : Bool) (p : Process) : ℕ × Process :=
  let (t,q) := p.time delays
  if avoidReuse = true ∧ (q.lastTotpCounter = none ∨ q.lastTotpCounter = some (counterAt t:ℤ)) then
    let (u,q) := q.time delays
    let (v,q) := (q.sleep (pause u)).time delays
    (counterAt v,q)
  else (counterAt t,q)

variable (hmac : List UInt8 → List UInt8 → Fin 20 → UInt8) (totpSecret : String)

namespace Http

def currentTotp (p : Process) : Except Failure String × Process :=
  let (counter,q) := interval delays true p
  let q := { q with lastTotpCounter := some (counter:ℤ) }
  (hotp hmac totpSecret counter,q.use ⟨p.now,totpSecret,true,0,counter⟩)

/-- Calls with the time that passes before each. -/
def session (idle : List ℚ≥0) (p : Process) : Process :=
  idle.foldl (fun p d => (currentTotp delays hmac totpSecret (p.sleep d)).2) p

end Http

namespace Browser

def currentTotp (secret : String) (avoidReuse : Bool) (intervalOffset : ℕ) (p : Process) :
    Except Failure String × Process :=
  let (counter,q) := interval delays avoidReuse p
  let q := if avoidReuse then { q with lastTotpCounter := some (counter:ℤ) } else q
  (hotp hmac secret (counter+intervalOffset),
    q.use ⟨p.now,secret,avoidReuse,intervalOffset,counter+intervalOffset⟩)

def configureOtpIfPresent (shown : Option String) (p : Process) : Except Failure (Option String) × Process :=
  match shown with
  | none => (.ok none,p)
  | some secret =>
    if secret = "" then
      (.error (.browserCheckFailure "OTP enrollment page did not expose a generated secret."),p)
    else
      let (code,q) := currentTotp delays hmac secret false 0 p
      (code.map fun _ => some secret,q)

def submitOtpIfPresent (shown expected : Bool) (secret : Option String) (p : Process) :
    Except Failure Bool × Process :=
  if shown = false then
    if expected then
      (.error (.browserCheckFailure "The requested flow was expected to prompt for OTP, but it did not."),p)
    else (.ok false,p)
  else if expected = false then
    (.error (.browserCheckFailure "The pwd + pop request unexpectedly prompted for OTP."),p)
  else
    let chosen := secret.filter (· ≠ "")
    let (code,q) := currentTotp delays hmac (chosen.getD totpSecret) secret.isNone (if chosen.isSome then 1 else 0) p
    (code.map fun _ => true,q)

/-- What asks for a code: a flow for a secret, the enrollment and the challenge. -/
inductive Prompt
  | code (secret : String)
  | enrollment (shown : Option String)
  | challenge (shown expected : Bool) (secret : Option String)

def answer (p : Process) : Prompt → Process
  | .code secret => (currentTotp delays hmac secret true 0 p).2
  | .enrollment shown => (configureOtpIfPresent delays hmac shown p).2
  | .challenge shown expected secret => (submitOtpIfPresent delays hmac totpSecret shown expected secret p).2

/-- Prompts with the time that passes before each. -/
def session (prompts : List (ℚ≥0 × Prompt)) (p : Process) : Process :=
  prompts.foldl (fun p d => answer delays hmac totpSecret (p.sleep d.1) d.2) p

end Browser

theorem counterAt_mono {t u : ℚ≥0} (h : t ≤ u) : counterAt t ≤ counterAt u :=
  Nat.div_le_div_right (Nat.floor_mono h)

theorem intoInterval_eq (t : ℚ≥0) : (intoInterval t:ℚ) = t-30*counterAt t := by
  have hfloor : ⌊t/30⌋₊ = counterAt t := Nat.floor_div_ofNat t 30
  have hle : (30*counterAt t:ℚ≥0) ≤ t := by
    have hnat : 30*counterAt t ≤ ⌊t⌋₊ := Nat.mul_div_le _ _
    refine le_trans ?_ (Nat.floor_le zero_le)
    exact_mod_cast hnat
  rw [intoInterval,hfloor,NNRat.coe_sub hle]
  push_cast
  rfl

theorem intoInterval_lt (t : ℚ≥0) : (intoInterval t:ℚ) < 30 := by
  have hnat : ⌊t⌋₊ < 30*(counterAt t+1) := Nat.lt_mul_div_succ _ (by decide)
  have hlt : t < ((30*(counterAt t+1):ℕ):ℚ≥0) := (Nat.floor_lt zero_le).mp hnat
  have hcast : (t:ℚ) < 30*(counterAt t+1) := by
    exact_mod_cast hlt
  rw [intoInterval_eq]
  linarith

theorem le_pause (t : ℚ≥0) : 30-(intoInterval t:ℚ) ≤ pause t := by
  have hlt := intoInterval_lt t
  have hnonneg : (0:ℚ) ≤ intoInterval t := (intoInterval t).coe_nonneg
  have hsub : ((30-intoInterval t:ℚ≥0):ℚ) = 30-intoInterval t := by
    refine NNRat.coe_sub ?_
    exact_mod_cast hlt.le
  have hinner := le_nearest (30-intoInterval t)
  have houter := le_nearest (nearest (30-intoInterval t)+1/4)
  have hsmall : (1:ℚ)/2^scale ≤ 1/16 := by
    refine one_div_le_one_div_of_le (by norm_num) ?_
    calc (16:ℚ) = 2^4 := by norm_num
      _ ≤ 2^scale := pow_le_pow_right₀ (by norm_num) (by decide)
  rw [hsub] at hinner
  rw [← pause] at houter
  push_cast at houter
  linarith

theorem counterAt_lt_pause {t u : ℚ≥0} (h : t+pause t ≤ u) : counterAt t < counterAt u := by
  have hpause := le_pause t
  rw [intoInterval_eq] at hpause
  have hcast : (t:ℚ)+pause t ≤ u := by
    exact_mod_cast h
  have hle : ((30*(counterAt t+1):ℕ):ℚ) ≤ (u:ℚ) := by
    push_cast
    linarith
  have hfloor : 30*(counterAt t+1) ≤ ⌊u⌋₊ := Nat.le_floor (by exact_mod_cast hle)
  have hdiv : counterAt t+1 ≤ counterAt u := (Nat.le_div_iff_mul_le (by decide)).mpr (by omega)
  exact hdiv

end Oidc4acLab.Totp
