import Oidc4acLab.Shell.Command
import Mathlib.Data.Option.Basic

/-! # Resolving the Keycloak checkout

`scripts/keycloak-repo.sh` as commands on the checkout under `.runtime`. Which of its Git
commands succeed is given in advance; a fetch that fails leaves `FETCH_HEAD` as it was and a
clone that fails leaves no checkout. What the script writes to stderr is not modelled.
-/
namespace Oidc4acLab.Checkout
open Shell

variable (Commit : Type)

/-- The directory `.runtime/keycloak-source`. -/
structure Worktree where
  isGit : Bool
  mvnw : Bool
  head : Commit
  fetchHead : Option Commit
  originHead : Option Commit

structure Submodule where
  mvnw : Bool
  head : Commit

inductive GitCommand
  | revParseSource
  | revParseCheckout
  | cloneLocal
  | checkoutDetach
  | clone
  | fetch
  | resetHard
  | setUrl
  | setHead
  | symbolicRef
  | clean
deriving DecidableEq

/-- What the script finds and does not change. -/
structure Lab where
  /-- `OIDC4AC_LAB_KEYCLOAK_REPO`, and whether `mvnw` in that directory is executable. The directory is not that of the
  managed checkout. -/
  configured : String
  configuredMvnw : Bool
  submodule : Option (Submodule Commit)
  gitInstalled : Bool
  /-- `OIDC4AC_LAB_KEYCLOAK_REF`, or its default. -/
  ref : String
  /-- The commit that a ref names at the remote, and the remote's own head. -/
  names : String → Commit
  defaultHead : Commit
  /-- Whether `mvnw` is executable in a commit. -/
  mvnwAt : Commit → Bool
  succeeds : GitCommand → Bool

inductive Location
  | configured
  | runtime
deriving DecidableEq

/-- The runtime checkout, the Git commands that the script has run, in their order, and its variables; an empty
variable is `none`. -/
structure World where
  checkout : Option (Worktree Commit)
  gits : List GitCommand
  sourceCommit : Option Commit
  currentCommit : Option Commit
  defaultRef : Option Commit
  keycloakRepo : Option Location
  managed : Bool

variable {Commit}

def World.ran (w : World Commit) (c : GitCommand) : World Commit := { w with gits := w.gits ++ [c] }

@[simp] theorem World.checkout_ran (w : World Commit) (c : GitCommand) : (w.ran c).checkout = w.checkout := rfl

/-- A Git command that only fails if it is to fail. -/
def git (lab : Lab Commit) (c : GitCommand) (f : World Commit → World Commit) : Command (World Commit) :=
  simple fun w => if lab.succeeds c then (0,f (w.ran c)) else (128,w.ran c)

/-- A Git command inside the checkout, which also fails where it has nothing to work on. -/
def gitIn (lab : Lab Commit) (c : GitCommand) (f : Worktree Commit → Option (Worktree Commit)) :
    Command (World Commit) :=
  simple fun w =>
    match w.checkout.bind f with
    | some t => if lab.succeeds c then (0,{ w.ran c with checkout := some t }) else (128,w.ran c)
    | none => (128,w.ran c)

/-- `name=$(git … || true)` -/
def askGit (lab : Lab Commit) (c : GitCommand) (f : Option (Worktree Commit) → Option Commit)
    (store : Option Commit → World Commit → World Commit) : Command (World Commit) :=
  assign fun w => store (if lab.succeeds c then f w.checkout else none) (w.ran c)

/-- The worktree after its files are replaced by those of a commit. -/
def moveTo (lab : Lab Commit) (commit : Commit) (t : Worktree Commit) : Worktree Commit :=
  { t with head := commit, mvnw := lab.mvnwAt commit }

def cloned (lab : Lab Commit) (commit : Commit) : Worktree Commit :=
  ⟨true,lab.mvnwAt commit,commit,none,some commit⟩

/-- `KEYCLOAK_REPO=$(cd -- "$checkout" && pwd)`, then `KEYCLOAK_REPO_MANAGED=true` -/
def useCheckout : List (Command (World Commit)) :=
  [simple fun w =>
      if w.checkout.isSome then (0,{ w with keycloakRepo := some .runtime })
      else (1,{ w with keycloakRepo := none }),
    assign fun w => { w with managed := true }]

variable [DecidableEq Commit]

def stageBundledKeycloakRepo (lab : Lab Commit) (source : Submodule Commit) : Command (World Commit) :=
  block [orElse (git lab .revParseSource fun w => { w with sourceCommit := some source.head }) (ret 1),
    ifElse (fun w => w.checkout.any fun t => t.isGit && t.mvnw)
      (block [askGit lab .revParseCheckout (Option.map Worktree.head) fun commit w => { w with currentCommit := commit },
        ifElse (fun w => w.currentCommit = w.sourceCommit)
          (block (useCheckout ++ [ret 0])) skip])
      skip,
    assign fun w => { w with checkout := none },
    git lab .cloneLocal fun w => { w with checkout := some (cloned lab source.head) },
    gitIn lab .checkoutDetach fun t => some (moveTo lab source.head t),
    gitIn lab .clean some,
    block useCheckout]

def isCommitId (ref : String) : Bool :=
  ref.length == 40 && ref.toList.all fun c => c.isDigit || ('a' ≤ c && c ≤ 'f') || ('A' ≤ c && c ≤ 'F')

def download (lab : Lab Commit) : Command (World Commit) :=
  let clone (commit : Commit) := git lab .clone fun w => { w with checkout := some (cloned lab commit) }
  if isCommitId lab.ref then
    block [clone lab.defaultHead,
      gitIn lab .fetch fun t => some { t with fetchHead := some (lab.names lab.ref) },
      gitIn lab .resetHard fun t => t.fetchHead.map fun commit => moveTo lab commit t]
  else if lab.ref ≠ "" then clone (lab.names lab.ref)
  else clone lab.defaultHead

/-- The checkout exists. -/
def refresh (lab : Lab Commit) : Command (World Commit) :=
  block [ifElse (fun w => w.checkout.any Worktree.isGit) skip (ret 1),
    gitIn lab .setUrl some,
    if lab.ref ≠ "" then
      block [gitIn lab .fetch fun t => some { t with fetchHead := some (lab.names lab.ref) },
        gitIn lab .resetHard fun t => t.fetchHead.map fun commit => moveTo lab commit t]
    else
      block [gitIn lab .fetch fun t => some { t with fetchHead := some lab.defaultHead },
        orElse (gitIn lab .setHead fun t => some { t with originHead := some lab.defaultHead }) skip,
        askGit lab .symbolicRef (Option.bind · Worktree.originHead) fun commit w => { w with defaultRef := commit },
        ifElse (fun w => w.defaultRef.isSome) skip (ret 1),
        fun errexit w => gitIn lab .resetHard (fun t => w.defaultRef.map fun commit => moveTo lab commit t) errexit w],
    gitIn lab .clean some]

def resolveKeycloakRepo (lab : Lab Commit) : Command (World Commit) :=
  if lab.configured ≠ "" then
    if lab.configuredMvnw then
      block [assign fun w => { w with keycloakRepo := some .configured, managed := false },ret 0]
    else ret 1
  else
    match lab.submodule.filter Submodule.mvnw with
    | some source => retStatus (call (stageBundledKeycloakRepo lab source))
    | none =>
      if lab.gitInstalled then
        block [ifElse (fun w => w.checkout.any fun t => !t.mvnw) (ret 1) skip,
          ifElse (fun w => w.checkout.isNone) (download lab) (refresh lab),
          block useCheckout]
      else ret 1

/-- `resolve_keycloak_repo "$LAB_DIR" || exit 1` -/
def caller (lab : Lab Commit) : Command (World Commit) :=
  orElse (call (resolveKeycloakRepo lab)) (exit 1)

end Oidc4acLab.Checkout
