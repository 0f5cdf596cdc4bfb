import Oidc4acLab.Collections.Groups
import Oidc4acLab.Fallible.Success
import Mathlib.Data.Rat.Floor

/-! # The timing benchmark

The slots of one round and the loop of `timing-benchmark.py` that measures them. The order
of a round is any permutation of the slots, and measured times are any rational numbers. Of a
condition only its name, its instance and whether it has a login cycle matter here.
-/
namespace Oidc4acLab.Benchmark
open Collections

inductive Kind
  | sso
  | refresh
  | login
deriving DecidableEq

def kinds : List Kind := [.sso,.refresh,.login]

structure Condition where
  name : String
  metrics : String
  login : Bool
deriving DecidableEq

def allConditions : List Condition :=
  [⟨"keycloak_official","http://localhost:9188/metrics",true⟩,
    ⟨"fork_feature_disabled","http://localhost:9187/metrics",true⟩,
    ⟨"fork_realm_disabled","http://localhost:9186/metrics",true⟩,
    ⟨"oidc4ac_without_request","http://localhost:9186/metrics",true⟩,
    ⟨"oidc4ac_with_request","http://localhost:9186/metrics",true⟩,
    ⟨"oidc4ac_with_full_request","http://localhost:9186/metrics",false⟩]

/-- The exceptions that Python raises in the two scripts. -/
inductive Failure
  | keyError
  | indexError
  | valueError
  | statisticsError
deriving DecidableEq

def Condition.eligible (c : Condition) (kind : Kind) : Bool := kind != .login || c.login

abbrev Slot := Kind × Condition

/-- `max(len(group) for group in groups)` -/
def largest (groups : List (String × List Condition)) : Except Failure ℕ :=
  match (groups.map fun g => g.2.length).max? with
  | some target => .ok target
  | none => .error .valueError

/-- The first `target` members of `repeat(group)`. -/
def cycled (group : List Condition) (target : ℕ) : List Condition :=
  (List.range target).filterMap fun i => group[i%group.length]?

/-- Repeats conditions so that every instance serves the same cycles of a kind. -/
def kindSlots (conditions : List Condition) (kind : Kind) : Except Failure (List Slot) := do
  let included := conditions.filter fun c => c.eligible kind
  let byInstance := group Condition.metrics id included
  let target ← largest byInstance
  return byInstance.flatMap fun g => (cycled g.2 target).map fun c => (kind,c)

def balancedSlots (conditions : List Condition) : Except Failure (List Slot) := do
  let slots ← kinds.mapM (kindSlots conditions)
  return slots.flatten

structure Sample where
  round : ℕ
  position : ℕ
  clientMs : ℚ
  serverMs : ℚ
deriving DecidableEq

/-- `round(x, digits)`: the nearest decimal, and of two the one with an even last digit. -/
def roundTo (digits : ℕ) (x : ℚ) : ℚ :=
  let y := x*10^digits
  let below := ⌊y⌋
  let nearest := if y-below < 1/2 then below else if 1/2 < y-below then below+1 else below+below%2
  nearest/10^digits

/-- One run: how its rounds are ordered, and the seconds measured at each position. -/
structure Recording where
  order : ℕ → List Slot → List Slot
  permuted : ∀ r slots, (order r slots).Perm slots
  clientSeconds : ℕ → ℕ → ℚ
  serverSeconds : ℕ → ℕ → ℚ

/-- `samples[kind]`: the samples of each condition. -/
abbrev Samples := Kind → List (String × List Sample)

def emptySamples (conditions : List Condition) : Samples := fun kind =>
  ((conditions.filter fun c => c.eligible kind).map Condition.name).eraseDups.map fun name => (name,[])

/-- `samples[kind][name].append(sample)` -/
def append (samples : Samples) (kind : Kind) (name : String) (sample : Sample) : Except Failure Samples :=
  if ((samples kind).lookup name).isSome then
    .ok (Function.update samples kind (extend (samples kind) name sample))
  else .error .keyError

def sampleAt (rec : Recording) (r position : ℕ) : Sample where
  round := r
  position := position
  clientMs := roundTo 4 (rec.clientSeconds r position*1000)
  serverMs := roundTo 4 (rec.serverSeconds r position*1000)

/-- One measured round; the warm-up rounds before it have drawn their orders first. -/
def measureRound (rec : Recording) (warmups : ℕ) (slots : List Slot) (samples : Samples) (r : ℕ) :
    Except Failure Samples :=
  (rec.order (warmups+r) slots).zipIdx.foldlM
    (fun samples p => append samples p.1.1 p.1.2.name (sampleAt rec r p.2)) samples

/-- What a run writes. -/
structure RunFile where
  measuredRounds : ℕ
  samples : Samples

def main (conditions : List Condition) (warmups rounds : ℕ) (rec : Recording) : Except Failure RunFile :=
  if warmups < 1 ∨ rounds < 2 then .error .valueError
  else do
    let slots ← balancedSlots conditions
    let samples ← (List.range rounds).foldlM (measureRound rec warmups slots) (emptySamples conditions)
    return ⟨rounds,samples⟩

end Oidc4acLab.Benchmark
