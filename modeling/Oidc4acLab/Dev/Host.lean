import Oidc4acLab.Checkout.Resolve
import Oidc4acLab.Shell.Triples

/-! # The host of `dev.sh`

What the script finds and changes: processes, its pid file, the two checkouts and its own
variables. While a command runs the machine makes a turn of its own, in which processes end and
start, time passes and INT or TERM may arrive; other signals are not modelled. A shell that one
of them ends may leave a command behind, which goes on in a checkout.
-/
namespace Oidc4acLab.Dev
open Shell Checkout

structure Process where
  pid : ℕ
  /-- It was started by `start_host_keycloak`. -/
  keycloak : Bool
  alive : Bool
  /-- The script has sent it a signal to end. -/
  asked : Bool
  /-- A signal came when it was started, or its pid could not be written down. -/
  interrupted : Bool

inductive Signal
  | int
  | term

def Signal.number : Signal → ℕ
  | .int => 2
  | .term => 15

/-- Whether the tracked files of a checkout are those of HEAD, and whether it has no others. -/
structure Files where
  tracked : Bool
  alone : Bool
deriving DecidableEq

def Files.clean (f : Files) : Bool := f.tracked && f.alone

variable (Commit : Type)

/-- What happens while a command runs, and what the command gives back. -/
structure Turn where
  status : ℕ
  signal : Option Signal
  /-- The pids of the processes that end, and those that other processes are started with. -/
  exits : List ℕ
  starts : List ℕ
  /-- The pid that the next process of the script gets, if it is free. -/
  pid : ℕ
  seconds : ℕ
  pids : List ℕ
  text : String
  succeeds : GitCommand → Bool
  /-- The files that a build or a Git command leaves in the checkout, and the checkout that a Git command leaves which
  was interrupted or goes on without its shell. -/
  files : Files
  checkout : Option (Worktree Commit)
  /-- How many Git commands of `keycloak-repo.sh` have begun when a signal arrives. -/
  begun : ℕ
  /-- What goes on without its shell ends. -/
  ends : Bool
  /-- A failing `rm` may have removed the pid file. -/
  removes : Bool

/-- What Maven is given to build. -/
structure Source where
  repo : Location
  head : Option Commit
  files : Files
  /-- Where a command of an ended shell was still at work when the call began. -/
  beside : Option Location

/-- Where a Git command works. -/
inductive Directory
  | submodule
  | checkout (repo : Location)

inductive Call
  | compose (args : List String)
  | dockerStop
  | curl (url : String)
  | git (directory : Directory) (c : GitCommand)
  | maven (source : Source Commit)
  /-- A line that is printed, and `rm`, with the status. -/
  | echo (status : ℕ)
  | rm (status : ℕ)

structure Host where
  processes : List Process
  /-- The text of the pid file, if it is a number. -/
  pidFile : Option (Option ℕ)
  /-- `$!` and `KEYCLOAK_LOG_TAIL_PID` -/
  lastBackground : Option ℕ
  logTail : Option ℕ
  killEnvironment : Bool
  exitTrap : Bool
  signalTrap : Bool
  /-- `SECONDS` -/
  seconds : ℕ
  repo : World Commit
  userFiles : Files
  runtimeFiles : Files
  /-- What the last Maven run was given, and what the prepared archive was made of. -/
  built : Option (Source Commit)
  archive : Option (Source Commit)
  calls : List (Call Commit)
  /-- Where the command works that a signal has interrupted, where one of an ended shell is at work, and where one was
  when the call began. -/
  left : Option Location
  orphan : Option Location
  beside : Option Location
  turns : ℕ → Turn Commit

variable {Commit}

def running (ps : List Process) (pid : ℕ) : Bool := ps.any fun p => p.alive && p.pid == pid

def freePid (ps : List Process) (pid : ℕ) : ℕ :=
  if running ps pid then (ps.map Process.pid).foldr max 0+1 else pid

def startOther (ps : List Process) (pid : ℕ) : List Process := ps ++ [⟨freePid ps pid,false,true,false,false⟩]

def Process.goOn (exits : List ℕ) (p : Process) : Process := { p with alive := p.alive && !exits.contains p.pid }

/-- `kill` on the processes with this pid. -/
def Process.ask (pid : ℕ) (p : Process) : Process := if p.alive && p.pid == pid then { p with asked := true } else p

namespace Host

def turn (w : Host Commit) : Turn Commit := w.turns 0

/-- The machine makes its turn. -/
def advance (w : Host Commit) : Host Commit :=
  { w with
    processes := w.turn.starts.foldl startOther (w.processes.map (Process.goOn w.turn.exits))
    seconds := w.seconds+w.turn.seconds
    repo := { w.repo with checkout := if w.orphan = some .runtime then w.turn.checkout else w.repo.checkout }
    userFiles := if w.orphan = some .configured then w.turn.files else w.userFiles
    runtimeFiles := if w.orphan = some .runtime then w.turn.files else w.runtimeFiles
    orphan := if w.turn.ends then none else w.orphan
    turns := fun n => w.turns (n+1) }

def called (w : Host Commit) (c : Call Commit) : Host Commit := { w with calls := w.calls ++ [c] }

def ask (w : Host Commit) (pid : ℕ) : Host Commit := { w with processes := w.processes.map (Process.ask pid) }

def files (w : Host Commit) : Location → Files
  | .configured => w.userFiles
  | .runtime => w.runtimeFiles

def setFiles (w : Host Commit) (f : Files) : Location → Host Commit
  | .configured => { w with userFiles := f }
  | .runtime => { w with runtimeFiles := f }

/-- What Maven finds in a checkout. -/
def source (w : Host Commit) (repo : Location) : Source Commit :=
  ⟨repo,match repo with
    | .configured => none
    | .runtime => w.repo.checkout.map Worktree.head,w.files repo,w.beside⟩

def abandon (w : Host Commit) : Host Commit := { w with orphan := w.left.or w.orphan, left := none }

end Host

/-- The status of a shell that a signal ends: that of `exit 130` or of the signal. -/
def endedBy (w : Host Commit) (s : Signal) : ℕ := if w.signalTrap then 130 else 128+s.number

/-- A command that works in a checkout. A trapped signal ends the shell after it; any other one ends the shell at once
and leaves the command behind. -/
def actIn (place : Host Commit → Option Location) (f : Turn Commit → Host Commit → ℕ × Host Commit) :
    Command (Host Commit) := fun errexit w =>
  let r := f w.turn w.advance
  match w.turn.signal with
  | some s => .exited (endedBy r.2 s) { r.2 with left := if r.2.signalTrap then none else place r.2 }
  | none => settle errexit r.1 r.2

/-- Any other simple command. It ends with the shell or is over before the script is called again. -/
def act (f : Turn Commit → Host Commit → ℕ × Host Commit) : Command (Host Commit) := fun errexit w =>
  let r := f w.turn w.advance
  match w.turn.signal with
  | some s => .exited (endedBy r.2 s) r.2
  | none => settle errexit r.1 r.2

/-- A command without an effect on the host that the script knows of. -/
def external : Command (Host Commit) := act fun t w => (t.status,w)

/-- A line on stdout or stderr, which may be closed or full. -/
def echo : Command (Host Commit) := act fun t w => (t.status,w.called (.echo t.status))

/-- `name=$(…)` or `mapfile` with what a command prints, and what is done with it. -/
def reading {A : Type} (f : Turn Commit → A) (next : A → Command (Host Commit)) : Command (Host Commit) := fun errexit w =>
  (act (fun _ w => (0,w)) errexit w).andThen fun _ w' => next (f w.turn) errexit w'

/-- A Git command of `keycloak-repo.sh` works in the submodule, whose commit it reads, or makes or changes the checkout
under `.runtime`. -/
def worksIn : GitCommand → Directory
  | .revParseSource => .submodule
  | _ => .checkout .runtime

def Host.resolved (w : Host Commit) (lab : Lab Commit) (r : World Commit) (files : Files) : Host Commit :=
  { w with
    repo := r
    runtimeFiles := if lab.configured = "" then files else w.runtimeFiles
    calls := w.calls ++ r.gits.map fun c => .git (worksIn c) c }

def Host.interrupted (w : Host Commit) (lab : Lab Commit) (gits : List GitCommand) : Host Commit :=
  let repo := { w.advance.repo with
    gits := gits.take w.turn.begun
    checkout := if lab.configured = "" then w.turn.checkout else w.advance.repo.checkout }
  { w.advance.resolved lab repo w.turn.files with
    left := if w.signalTrap = true ∨ lab.configured ≠ "" then none else some .runtime }

/-- The commands of `keycloak-repo.sh`. -/
def onRepo (lab : Lab Commit) (c : Lab Commit → Command (World Commit)) : Command (Host Commit) := fun errexit w =>
  let o := c { lab with succeeds := w.turn.succeeds } errexit { w.advance.repo with gits := [] }
  match w.turn.signal with
  | some s => .exited (endedBy w s) (w.interrupted lab o.state.gits)
  | none => o.map fun r => w.advance.resolved lab r w.turn.files

/-- `kill -0 "$pid"` and `kill "$pid"` -/
def kill0 (pid : ℕ) : Command (Host Commit) := act fun _ w => (if running w.processes pid then 0 else 1,w)

def kill (pid : ℕ) : Command (Host Commit) := act fun _ w => (if running w.processes pid then 0 else 1,w.ask pid)

def sleep (n : ℕ) : Command (Host Commit) := act fun _ w => (0,{ w with seconds := w.seconds+n })

/-- `rm` on what holds the pid file; `also` is what else goes with it. -/
def remove (also : Host Commit → Host Commit) : Command (Host Commit) := act fun t w =>
  (t.status,(if t.status = 0 ∨ t.removes = true then also { w with pidFile := none } else w).called (.rm t.status))

def background (keycloak : Bool) : Command (Host Commit) := act fun t w =>
  let pid := freePid w.processes t.pid
  (0,{ w with
    processes := w.processes ++ [⟨pid,keycloak,true,false,t.signal.isSome⟩]
    lastBackground := some pid })

end Oidc4acLab.Dev
