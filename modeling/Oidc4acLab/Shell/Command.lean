import Mathlib.Data.Nat.Notation

/-! # Shell commands under `set -e`

A command runs either where errexit acts or where it is ignored, as on the left of `||` and
in every function called there. A failing simple command ends the shell in the first case
and is passed over in the second.
-/
namespace Oidc4acLab.Shell

/-- A command finishes with a status, returns from the function it stands in, or ends the shell. -/
inductive Outcome (W : Type)
  | finished (status : ℕ) (w : W)
  | returned (status : ℕ) (w : W)
  | exited (status : ℕ) (w : W)

abbrev Command (W : Type) := Bool → W → Outcome W

variable {W : Type}

/-- What follows a command that has neither returned nor ended the shell. -/
def Outcome.andThen (o : Outcome W) (next : ℕ → W → Outcome W) : Outcome W :=
  match o with
  | .finished status w => next status w
  | .returned status w => .returned status w
  | .exited status w => .exited status w

def Outcome.map {V : Type} (f : W → V) : Outcome W → Outcome V
  | .finished status w => .finished status (f w)
  | .returned status w => .returned status (f w)
  | .exited status w => .exited status (f w)

def settle (errexit : Bool) (status : ℕ) (w : W) : Outcome W :=
  if status ≠ 0 ∧ errexit = true then .exited status w else .finished status w

def simple (f : W → ℕ × W) : Command W := fun errexit w => settle errexit (f w).1 (f w).2

def assign (f : W → W) : Command W := simple fun w => (0,f w)

/-- `a; b` -/
def seq (a b : Command W) : Command W := fun errexit w =>
  (a errexit w).andThen fun _ w' => b errexit w'

/-- The commands one after the other; the status is that of the last. -/
def block : List (Command W) → Command W
  | [] => fun _ w => .finished 0 w
  | [c] => c
  | c :: d :: cs => seq c (block (d :: cs))

/-- `a || b` -/
def orElse (a b : Command W) : Command W := fun errexit w =>
  (a false w).andThen fun status w' => if status = 0 then .finished 0 w' else b errexit w'

/-- `if [[ test ]]; then a; else b; fi` -/
def ifElse (test : W → Bool) (a b : Command W) : Command W := fun errexit w =>
  if test w then a errexit w else b errexit w

def skip : Command W := fun _ w => .finished 0 w

/-- `return status` -/
def ret (status : ℕ) : Command W := fun _ w => .returned status w

/-- `c; return $?` -/
def retStatus (c : Command W) : Command W := fun errexit w =>
  (c errexit w).andThen fun status w' => .returned status w'

def exit (status : ℕ) : Command W := fun _ w => .exited status w

/-- A call of a function with this body. -/
def call (body : Command W) : Command W := fun errexit w =>
  match body errexit w with
  | .finished status w' => settle errexit status w'
  | .returned status w' => settle errexit status w'
  | .exited status w' => .exited status w'

@[simp] theorem andThen_finished (status : ℕ) (w : W) (next : ℕ → W → Outcome W) :
    (Outcome.finished status w).andThen next = next status w := rfl

@[simp] theorem andThen_returned (status : ℕ) (w : W) (next : ℕ → W → Outcome W) :
    (Outcome.returned status w).andThen next = .returned status w := rfl

@[simp] theorem andThen_exited (status : ℕ) (w : W) (next : ℕ → W → Outcome W) :
    (Outcome.exited status w).andThen next = .exited status w := rfl

@[simp] theorem settle_zero (errexit : Bool) (w : W) : settle errexit 0 w = .finished 0 w := by
  rw [settle,if_neg (fun h => h.1 rfl)]

@[simp] theorem settle_ignored (status : ℕ) (w : W) : settle false status w = .finished status w := by
  rw [settle,if_neg (fun h => Bool.false_ne_true h.2)]

@[simp] theorem assign_apply (f : W → W) (errexit : Bool) (w : W) :
    assign f errexit w = .finished 0 (f w) := settle_zero errexit (f w)

/-- Where errexit is ignored a simple command only finishes. -/
@[simp] theorem simple_ignored (f : W → ℕ × W) (w : W) : simple f false w = .finished (f w).1 (f w).2 :=
  settle_ignored _ _

@[simp] theorem block_nil (errexit : Bool) (w : W) : block [] errexit w = .finished 0 w := rfl

@[simp] theorem block_one (c : Command W) (errexit : Bool) (w : W) : block [c] errexit w = c errexit w := rfl

@[simp] theorem block_cons (c d : Command W) (cs : List (Command W)) (errexit : Bool) (w : W) :
    block (c :: d :: cs) errexit w = (c errexit w).andThen fun _ w' => block (d :: cs) errexit w' := rfl

end Oidc4acLab.Shell
