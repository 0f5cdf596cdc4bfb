import Oidc4acLab.Benchmark.Timing
import Mathlib.Algebra.BigOperators.Group.List.Basic

/-! # The analysis of the benchmark runs

`summarize_kind` of `analyze.py` and what it calls. Every lookup and every division fails here
as it raises there. Random numbers are read from a sequence whose position is passed on.
-/
namespace Oidc4acLab.Benchmark
open Collections

def wholeChain : List String :=
  ["keycloak_official","fork_feature_disabled","fork_realm_disabled","oidc4ac_without_request",
    "oidc4ac_with_request","oidc4ac_with_full_request"]

inductive Metric
  | clientMs
  | serverMs
deriving DecidableEq

def metrics : List Metric := [.clientMs,.serverMs]

def bootstrap : ℕ := 10000

def Sample.measured (s : Sample) : Metric → ℚ
  | .clientMs => s.clientMs
  | .serverMs => s.serverMs

/-- `statistics.mean` and `statistics.fmean` -/
def mean (values : List ℚ) : Except Failure ℚ :=
  if values = [] then .error .statisticsError else .ok (values.sum/values.length)

def sorted (values : List ℚ) : List ℚ := values.mergeSort fun a b => decide (a ≤ b)

def item {A : Type} (xs : List A) (i : ℕ) : Except Failure A :=
  match xs[i]? with
  | some x => .ok x
  | none => .error .indexError

/-- `statistics.median` -/
def median (values : List ℚ) : Except Failure ℚ :=
  let ordered := sorted values
  let n := ordered.length
  if n = 0 then .error .statisticsError
  else if n%2 = 1 then item ordered (n/2)
  else do
    let a ← item ordered (n/2-1)
    let b ← item ordered (n/2)
    return (a+b)/2

def percentile (values : List ℚ) (fraction : ℚ) : Except Failure ℚ := do
  let ordered := sorted values
  let position := ((ordered.length:ℚ)-1)*fraction
  let lower := ⌊position⌋.toNat
  let upper := min (lower+1) (ordered.length-1)
  let a ← item ordered lower
  let b ← item ordered upper
  return a+(b-a)*(position-lower)

def roundMeans (samples : List Sample) (metric : Metric) : Except Failure (List (ℕ × ℚ)) :=
  (group Sample.round (fun s => s.measured metric) samples).mapM fun e =>
    (mean e.2).map fun m => (e.1,m)

/-- Random numbers in the unit interval. -/
abbrev Random := ℕ → {u : ℚ // 0 ≤ u ∧ u < 1}

/-- All numbers are zero. -/
def zeros : Random := fun _ => ⟨0,le_refl 0,zero_lt_one⟩

/-- `rng.choices(population, k)` -/
def choices {A : Type} (rng : Random) (population : List A) (k : ℕ) (at' : ℕ) : Except Failure (List A × ℕ) :=
  ((List.range k).mapM fun j => item population ⌊(rng (at'+j)).1*population.length⌋.toNat).map
    fun chosen => (chosen,at'+k)

def resample (rng : Random) : List (List ℚ) → ℕ → Except Failure (List ℚ × ℕ)
  | [], at' => .ok ([],at')
  | run :: runs, at' => do
    let chosen ← choices rng run run.length at'
    let rest ← resample rng runs chosen.2
    return (chosen.1 ++ rest.1,rest.2)

def bootstrapMeans (rng : Random) (differences : List (List ℚ)) : ℕ → ℕ → Except Failure (List ℚ × ℕ)
  | 0, at' => .ok ([],at')
  | n+1, at' => do
    let runs ← choices rng differences differences.length at'
    let resampled ← resample rng runs.1 runs.2
    let m ← mean resampled.1
    let rest ← bootstrapMeans rng differences n resampled.2
    return (m :: rest.1,rest.2)

def bootstrapInterval (differences : List (List ℚ)) (rng : Random) (at' : ℕ) :
    Except Failure ((ℚ × ℚ) × ℕ) := do
  let means ← bootstrapMeans rng differences bootstrap at'
  let low ← percentile means.1 (25/1000)
  let high ← percentile means.1 (975/1000)
  return ((low,high),means.2)

def halfMeans (differences : List (List ℚ)) : Except Failure (List ℚ) := do
  let first ← mean (differences.flatMap fun run => run.take (run.length/2))
  let second ← mean (differences.flatMap fun run => run.drop (run.length/2))
  return [roundTo 3 first,roundTo 3 second]

structure ConditionSummary where
  name : String
  cycles : ℕ
  /-- The median and the 95th percentile of each metric. -/
  statistics : List (Metric × ℚ × ℚ)

structure StepMetric where
  metric : Metric
  meanDifference : ℚ
  ci95 : ℚ × ℚ
  perRun : List ℚ
  firstAndSecondHalf : List ℚ

structure StepSummary where
  before : String
  after : String
  metrics : List StepMetric

structure Summary where
  conditions : List ConditionSummary
  steps : List StepSummary

/-- `run["samples"][kind][name]` -/
def RunFile.recorded (run : RunFile) (kind : Kind) (name : String) : Except Failure (List Sample) :=
  match (run.samples kind).lookup name with
  | some samples => .ok samples
  | none => .error .keyError

def chain (runs : List RunFile) (kind : Kind) : Except Failure (List String) := do
  let run ← item runs 0
  return wholeChain.filter fun name => ((run.samples kind).lookup name).isSome

def summarizeCondition (runs : List RunFile) (kind : Kind) (name : String) :
    Except Failure ConditionSummary := do
  let recorded ← runs.mapM fun run => run.recorded kind name
  let statistics ← metrics.mapM fun metric => do
    let values := recorded.flatten.map fun s => s.measured metric
    let m ← median values
    let p ← percentile values (95/100)
    return (metric,roundTo 3 m,roundTo 3 p)
  return ⟨name,recorded.flatten.length,statistics⟩

/-- The paired differences of one run, in the order of the rounds. -/
def differences (kind : Kind) (before after : String) (metric : Metric) (run : RunFile) :
    Except Failure (List ℚ) := do
  let first ← roundMeans (← run.recorded kind before) metric
  let second ← roundMeans (← run.recorded kind after) metric
  ((first.map Prod.fst).mergeSort fun a b => decide (a ≤ b)).mapM fun index =>
    match second.lookup index, first.lookup index with
    | some b, some a => .ok (b-a)
    | _, _ => .error .keyError

def summarizeMetric (runs : List RunFile) (kind : Kind) (before after : String) (rng : Random)
    (metric : Metric) (at' : ℕ) : Except Failure (StepMetric × ℕ) := do
  let paired ← runs.mapM (differences kind before after metric)
  let interval ← bootstrapInterval paired rng at'
  let all ← mean paired.flatten
  let perRun ← paired.mapM mean
  let halves ← halfMeans paired
  return (⟨metric,roundTo 3 all,(roundTo 3 interval.1.1,roundTo 3 interval.1.2),perRun.map (roundTo 3),halves⟩,
    interval.2)

/-- Items that are summarized one after the other, each from the random numbers that the one before
it has left. -/
def inTurn {A B : Type} (f : A → ℕ → Except Failure (B × ℕ)) : List A → ℕ → Except Failure (List B × ℕ)
  | [], at' => .ok ([],at')
  | x :: xs, at' => do
    let y ← f x at'
    let ys ← inTurn f xs y.2
    return (y.1 :: ys.1,ys.2)

def summarizeStep (runs : List RunFile) (kind : Kind) (rng : Random) (step : String × String) (at' : ℕ) :
    Except Failure (StepSummary × ℕ) :=
  (inTurn (summarizeMetric runs kind step.1 step.2 rng) metrics at').map
    fun r => (⟨step.1,step.2,r.1⟩,r.2)

/-- `zip(chain, chain[1:])` -/
def steps (names : List String) : List (String × String) := names.zip names.tail

def summarizeKind (runs : List RunFile) (kind : Kind) (rng : Random) (at' : ℕ) :
    Except Failure (Summary × ℕ) := do
  let names ← chain runs kind
  let conditions ← names.mapM (summarizeCondition runs kind)
  let stepped ← inTurn (summarizeStep runs kind rng) (steps names) at'
  return (⟨conditions,stepped.1⟩,stepped.2)

end Oidc4acLab.Benchmark
