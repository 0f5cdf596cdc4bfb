import Oidc4acLab.Dev.Host
import Oidc4acLab.Text.Regex
import Oidc4acLab.Transition.Runs

/-! # `dev.sh`

The functions of the script on the host. A line that they print is a command that may fail; its
text and the lines in which they only make a directory name are not modelled, nor are the messages of
`keycloak-repo.sh`.
-/
namespace Oidc4acLab.Dev
open Shell Checkout

/-- What the script takes from its environment. -/
structure Setup (Commit : Type) where
  lab : Lab Commit
  issuer : String
  clientUrl : String
  smtp4devWebUrl : String
  installed : String → Bool

variable {Commit : Type}

def compose (args : List String) : Command (Host Commit) := act fun t w => (t.status,w.called (.compose args))

def composeAllProfiles (args : List String) : Command (Host Commit) := compose (["--profile","*"] ++ args)

def die : Command (Host Commit) := block [echo,exit 1]

/-- `[[ test ]] || c` -/
def testOr (test : Host Commit → Bool) (c : Command (Host Commit)) : Command (Host Commit) := ifElse test skip c

section Setup
variable (setup : Setup Commit)

def requireCommand (name : String) : Command (Host Commit) := testOr (fun _ => setup.installed name) die

/-- `docker run` with the checkout mounted. -/
def runMaven (t : Turn Commit) (w : Host Commit) : ℕ × Host Commit :=
  match w.repo.keycloakRepo with
  | none => (125,w)
  | some repo =>
    let source := w.source repo
    (t.status,({ w with built := some source }.called (.maven source)).setFiles t.files repo)

def runMavenContainer : Command (Host Commit) :=
  block [call (requireCommand setup "docker"),
    testOr (fun w => w.repo.keycloakRepo.isSome) die,
    external,
    actIn (fun w => w.repo.keycloakRepo) runMaven]

def git (c : GitCommand) (f : Files → Files) : Command (Host Commit) := actIn (fun w => w.repo.keycloakRepo) fun t w =>
  match w.repo.keycloakRepo with
  | none => (128,w)
  | some repo =>
    if t.succeeds c then (0,(w.called (.git (.checkout repo) c)).setFiles (f (w.files repo)) repo)
    else (128,(w.called (.git (.checkout repo) c)).setFiles t.files repo)

def cleanManagedKeycloakRepo : Command (Host Commit) :=
  block [testOr (fun w => w.repo.managed) (ret 0),
    git .resetHard fun f => { f with tracked := true },
    git .clean fun f => { f with alone := true }]

def mvnwExecutable (w : Host Commit) : Bool :=
  match w.repo.keycloakRepo with
  | none => false
  | some .configured => setup.lab.configuredMvnw
  | some .runtime => w.repo.checkout.any Worktree.mvnw

variable [DecidableEq Commit]

def ensureKeycloakRepo : Command (Host Commit) :=
  orElse (onRepo setup.lab fun lab => call (resolveKeycloakRepo lab)) die

def buildKeycloak : Command (Host Commit) :=
  block [call (ensureKeycloakRepo setup),
    testOr (mvnwExecutable setup) die,
    call cleanManagedKeycloakRepo,
    external,
    echo,
    call (runMavenContainer setup),
    reading Turn.text fun archive => if archive = "" then die else skip,
    act fun t w => (t.status,if t.status = 0 then { w with archive := w.built } else w),
    call cleanManagedKeycloakRepo,
    echo]

def buildProvider : Command (Host Commit) :=
  block [call (ensureKeycloakRepo setup),
    testOr (mvnwExecutable setup) die,
    call cleanManagedKeycloakRepo,
    echo,
    call (runMavenContainer setup),
    call cleanManagedKeycloakRepo,
    echo]

end Setup

def pidIsRunning : Command (Host Commit) :=
  block [testOr (fun w => w.pidFile.isSome) (ret 1),
    fun errexit w =>
      match w.pidFile with
      | some (some pid) => kill0 pid errexit w
      | _ => settle errexit 1 w]

/-- `pid=$(<"$KEYCLOAK_PID_FILE")` -/
def withPid (next : ℕ → Command (Host Commit)) : Command (Host Commit) := fun errexit w =>
  match w.pidFile with
  | some (some pid) => next pid errexit w
  | _ => settle errexit 1 w

def stopHostKeycloak : Command (Host Commit) :=
  block [ifCommand (call pidIsRunning) skip (block [remove id,ret 0]),
    withPid fun pid =>
      block [echo,
        ignoring (kill pid),
        attempts (kill0 pid) (sleep 1) 30,
        ifCommand (kill0 pid) (block [echo,ignoring (kill pid)]) skip,
        remove id]]

/-- `^https?://[^:/]+:([0-9]+)/` -/
def portPattern : Regex.Pattern Char :=
  let literal (s : String) := Regex.word (s.toList.map fun c d => c == d)
  .seq (literal "http") (.seq (Regex.maybe (literal "s")) (.seq (literal "://")
    (.seq (Regex.plus fun c => c != ':' && c != '/') (.seq (literal ":")
      (.seq (.group 1 (Regex.plus Char.isDigit)) (literal "/"))))))

def keycloakPort (issuer : String) : Option String :=
  ((Regex.run portPattern ⟨issuer.toList,[]⟩).head?.bind fun s => s.captures.lookup 1).map String.ofList

def mentions (process name : String) : Bool := name.toList <:+: process.toList

/-- The body of the loop over the processes that listen on the port. -/
def stopConflicting (pid : ℕ) : Command (Host Commit) :=
  reading Turn.text fun process =>
    if mentions process "keycloak" || mentions process "kc.sh" || mentions process "quarkus" then
      block [echo,
        ignoring (kill pid),
        attempts (kill0 pid) (sleep 1) 30,
        ifCommand (kill0 pid) (block [echo,ignoring (kill pid)]) skip]
    else skip

section Setup
variable (setup : Setup Commit)

def stopConflictingKeycloak : Command (Host Commit) :=
  block [testOr (fun w => w.killEnvironment) (ret 0),
    testOr (fun _ => (keycloakPort setup.issuer).isSome) (ret 0),
    testOr (fun _ => setup.installed "lsof") (ret 0),
    reading Turn.pids (each stopConflicting)]

/-- `curl` once, and then again every second until the deadline; the last argument bounds the rounds. -/
def poll (url : String) (deadline : ℕ) : ℕ → Command (Host Commit)
  | 0 => ret 1
  | n+1 => ifCommand (act fun t w => (t.status,w.called (.curl url))) skip
    (block [ifElse (fun w => decide (deadline ≤ w.seconds)) (ret 1) skip,sleep 1,poll url deadline n])

theorem poll_succ (url : String) (deadline n : ℕ) (errexit : Bool) (w : Host Commit) :
    poll url deadline (n+1) errexit w =
      (act (fun t w => (t.status,w.called (.curl url))) false w).andThen fun status w' =>
        if status = 0 then .finished 0 w'
        else if deadline ≤ w'.seconds then .returned 1 w'
        else (sleep 1 errexit w').andThen fun _ w'' => poll url deadline n errexit w'' := by
  rw [poll,ifCommand]
  refine congrArg (Outcome.andThen _) (funext fun status => funext fun w' => ?_)
  by_cases hd : deadline ≤ w'.seconds
  · simp [skip,ret,ifElse,hd]
  · simp [skip,ifElse,hd]

theorem poll_enough (url : String) {deadline n : ℕ} {w : Host Commit} (h : deadline ≤ w.seconds+n) (errexit : Bool) :
    poll url deadline (n+1) errexit w = poll url deadline (n+2) errexit w := by
  induction n generalizing w with
  | zero =>
    have hseconds : deadline ≤ (w.advance.called (.curl url)).seconds := Nat.le_add_right_of_le h
    rw [poll_succ,poll_succ,act]
    cases w.turn.signal with
    | some s => rfl
    | none => simp only [settle_ignored,andThen_finished,if_pos hseconds]
  | succ n ih =>
    rw [poll_succ,poll_succ _ _ (n+2),act]
    cases w.turn.signal with
    | some s => rfl
    | none =>
      simp only [settle_ignored,andThen_finished]
      split
      · rfl
      · split
        · rfl
        · rw [sleep,act]
          cases (w.advance.called (.curl url)).turn.signal with
          | some s => rfl
          | none =>
            simp only [settle_zero,andThen_finished]
            refine ih ?_
            show deadline ≤ w.seconds+w.turn.seconds+w.advance.turn.seconds+1+n
            omega

def waitForUrl (url : String) (timeout : ℕ) : Command (Host Commit) := fun errexit w =>
  poll url (w.seconds+timeout) (timeout+1) errexit w

/-- `echo $! >"$KEYCLOAK_PID_FILE"` -/
def recordPid : Command (Host Commit) := act fun t w =>
  if t.status = 0 then (0,{ w with pidFile := some w.lastBackground })
  else (t.status,{ w with
    pidFile := if t.removes then some none else w.pidFile
    processes := w.processes.map fun p => if some p.pid = w.lastBackground then { p with interrupted := true } else p })

variable [DecidableEq Commit]

def startHostKeycloak : Command (Host Commit) :=
  block [call (ensureKeycloakRepo setup),
    call (requireCommand setup "curl"),
    external,
    ifCommand (call pidIsRunning)
      (block [ifCommand (call (waitForUrl setup.issuer 5)) (block [echo,ret 0]) skip,
        call stopHostKeycloak]) skip,
    call (stopConflictingKeycloak setup),
    ifElse (fun w => w.killEnvironment) skip (ifCommand (call (waitForUrl setup.issuer 2)) die skip),
    echo,
    background true,
    recordPid,
    ifCommand (call (waitForUrl setup.issuer 180)) skip
      (block [echo,ignoring external,call stopHostKeycloak,ret 1]),
    ifCommand (call pidIsRunning) skip (block [echo,ignoring external,remove id,ret 1]),
    echo]

omit [DecidableEq Commit] in
def startClientDetached : Command (Host Commit) :=
  block [call (requireCommand setup "docker"),
    echo,
    call (compose ["up","--build","-d","test-client"]),
    orElse (call (waitForUrl (setup.clientUrl ++ "/healthz") 60)) die,
    echo]

omit [DecidableEq Commit] in
def startSmtp4dev : Command (Host Commit) :=
  block [call (requireCommand setup "docker"),
    call (requireCommand setup "curl"),
    echo,
    call (compose ["up","-d","smtp4dev"]),
    orElse (call (waitForUrl setup.smtp4devWebUrl 60)) die,
    echo]

omit [DecidableEq Commit] in
def cleanDockerServices : Command (Host Commit) :=
  block [call (requireCommand setup "docker"),
    testOr (fun w => w.killEnvironment) (block [echo,ret 0]),
    echo,
    reading Turn.pids (each fun _ => ignoring (act fun t w => (t.status,w.called .dockerStop))),
    echo,
    call (composeAllProfiles ["down","--remove-orphans"])]

def startLab : Command (Host Commit) :=
  block [call (cleanDockerServices setup),
    call (startSmtp4dev setup),
    call (buildKeycloak setup),
    call (buildProvider setup),
    call (startHostKeycloak setup),
    call (startClientDetached setup)]

def stopLogStream : Command (Host Commit) := fun errexit w =>
  match w.logTail with
  | none => skip errexit w
  | some pid =>
    block [ignoring (kill pid),ignoring external,assign fun w => { w with logTail := none }] errexit w

def stopForegroundLab (status : ℕ) : Command (Host Commit) :=
  block [assign fun w => { w with exitTrap := false, signalTrap := false },
    call stopLogStream,
    ignoring (call (composeAllProfiles ["down","--remove-orphans"])),
    call stopHostKeycloak,
    exit status]

def run : Command (Host Commit) :=
  block [act fun _ w => (0,{ w with signalTrap := true }),
    act fun _ w => (0,{ w with exitTrap := true }),
    call (cleanDockerServices setup),
    call (startSmtp4dev setup),
    call (buildKeycloak setup),
    call (buildProvider setup),
    call (startHostKeycloak setup),
    background false,
    assign fun w => { w with logTail := w.lastBackground },
    echo,
    echo,
    echo,
    call (compose ["up","--build","test-client"])]

def testHttp : Command (Host Commit) :=
  block [call (startLab setup),call (compose ["--profile","e2e","run","--build","--rm","e2e"])]

def testBrowser : Command (Host Commit) :=
  block [call (cleanDockerServices setup),
    call (buildKeycloak setup),
    call (buildProvider setup),
    call (compose ["--profile","browser-e2e","run","--build","--rm","browser-e2e"])]

/-- A command where errexit is ignored, and what is done with its status. -/
def capturing (c : Command (Host Commit)) (next : ℕ → Command (Host Commit)) : Command (Host Commit) := fun errexit w =>
  (c false w).andThen fun status w' => next status errexit w'

def testDisabled : Command (Host Commit) :=
  let cleanup (result : ℕ) : Command (Host Commit) :=
    block [ignoring (call (compose ["stop","keycloak-disabled"])),
      ignoring (call (compose ["rm","-f","keycloak-disabled"])),
      ret result]
  block [call (cleanDockerServices setup),
    call (buildKeycloak setup),
    call (buildProvider setup),
    call (compose ["--profile","disabled-e2e","up","--build","-d","keycloak-disabled"]),
    ifCommand (call (waitForUrl "http://localhost:8187/realms/master" 120)) (capturing external cleanup)
      (block [echo,cleanup 1])]

def testAll : Command (Host Commit) :=
  block [call (testHttp setup),call (testDisabled setup),call (testBrowser setup)]

def verify : Command (Host Commit) := block [call (startLab setup),external]

def lint : Command (Host Commit) := external

def status : Command (Host Commit) :=
  block [echo,echo,ifCommand (call pidIsRunning) echo echo,call (compose ["ps"])]

def logs : Command (Host Commit) :=
  block [external,echo,ignoring (call (compose ["logs","--tail=80","smtp4dev","test-client"]))]

def down : Command (Host Commit) :=
  block [call (composeAllProfiles ["down","--remove-orphans"]),call stopHostKeycloak]

/-- The runtime directory holds the pid file and the managed checkout. -/
def withoutRuntime (w : Host Commit) : Host Commit :=
  { w with repo := { w.repo with checkout := none }, archive := none }

def clean : Command (Host Commit) := block [call down,remove withoutRuntime,echo]

structure Arguments where
  killEnvironment : Bool
  command : String
  remaining : List String

def parse (a : Arguments) : List String → Arguments
  | [] => a
  | arg :: args =>
    if arg = "--no-kill" then parse { a with killEnvironment := false } args
    else if a.command = "" then parse { a with command := arg } args
    else parse { a with remaining := a.remaining ++ [arg] } args

def commands (remaining : List String) : List (String × Command (Host Commit)) :=
  [("run",run setup),("down",down),("status",status),("logs",logs),("clean",clean),("build",buildKeycloak setup),
    ("provider-build",buildProvider setup),("lint",lint),("verify",verify setup),("test-http",testHttp setup),
    ("test-browser",testBrowser setup),("test-disabled",testDisabled setup),("test",testAll setup),
    ("compose",compose remaining),("help",external),("-h",external),("--help",external)]

def main (a : Arguments) : Command (Host Commit) :=
  match (commands setup a.remaining).lookup (if a.command = "" then "run" else a.command) with
  | some c => call c
  | none => block [echo,external,exit 2]

/-- The variables of a new shell. -/
def start (a : Arguments) (w : Host Commit) : Host Commit :=
  { w with
    lastBackground := none, logTail := none, killEnvironment := a.killEnvironment
    exitTrap := false, signalTrap := false, seconds := 0
    repo := ⟨w.repo.checkout,[],none,none,none,some .runtime,false⟩
    beside := w.orphan }

omit [DecidableEq Commit] in
def Outcome.status : Outcome (Host Commit) → ℕ
  | .finished status _ => status
  | .returned status _ => status
  | .exited status _ => status

def finish (o : Outcome (Host Commit)) : Outcome (Host Commit) :=
  if o.state.exitTrap then stopForegroundLab (Outcome.status o) true o.state else o

/-- One call of the script. -/
def devSh (args : List String) (w : Host Commit) : Outcome (Host Commit) :=
  let a := parse ⟨true,"",[]⟩ args
  finish (main setup a true (start a w))

end Setup

/-- The machine may go on between two calls, each of which has an environment of its own. -/
inductive Event (Commit : Type)
  | idle
  | call (setup : Setup Commit) (args : List String)

/-- The script is called when the shell of the call before has ended. -/
def next [DecidableEq Commit] (w : Host Commit) : Event Commit → Option (Host Commit)
  | .idle => some w.advance
  | .call setup args => some (devSh setup args w).state.abandon

/-- A host on which a Keycloak of the lab runs, and nothing else happens. -/
def runningHost : Host ℕ where
  processes := [⟨7,true,true,false,false⟩]
  pidFile := some (some 7)
  lastBackground := none
  logTail := none
  killEnvironment := true
  exitTrap := false
  signalTrap := false
  seconds := 0
  repo := ⟨none,[],none,none,none,none,false⟩
  userFiles := ⟨true,true⟩
  runtimeFiles := ⟨true,true⟩
  built := none
  archive := none
  calls := []
  left := none
  orphan := none
  beside := none
  turns := fun _ => ⟨0,none,[],[],8,1,[],"keycloak-26.tar.gz",fun _ => true,⟨false,false⟩,none,0,true,true⟩

/-- The lab with these commands installed. -/
def setupWith (installed : String → Bool) : Setup ℕ where
  lab := ⟨"",false,none,true,"5bd7641d6813828d125932d6c2a2d1d6f91862a7",fun _ => 7,1,fun _ => true,fun _ => true⟩
  issuer := "http://keycloak.localhost:8080/realms/oidc4ac"
  clientUrl := "http://client.localhost:5000"
  smtp4devWebUrl := "http://localhost:5080"
  installed := installed

/-- The lab is stopped and verified, and the machine goes on. -/
def verified : List (Event ℕ) := [.call (setupWith fun _ => true) ["verify"],.idle]

end Oidc4acLab.Dev
