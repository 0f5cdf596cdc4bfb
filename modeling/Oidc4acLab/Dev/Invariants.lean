import Oidc4acLab.Collections.Lookup
import Oidc4acLab.Dev.Commands

/-! # What the plain functions of `dev.sh` keep

Most functions only ask for something, wait, or send signals. An invariant that survives this
is kept by the whole script as soon as the functions that build, start and stop keep it.
-/
namespace Oidc4acLab.Dev
open Shell Checkout
variable {Commit : Type} {I : Host Commit → Prop}

theorem keeps_act {f : Turn Commit → Host Commit → ℕ × Host Commit} (hadvance : ∀ w, I w → I w.advance)
    (hf : ∀ t w, I w → I (f t w).2) : Keeps I (act f) := by
  intro errexit w hw
  have hnext := hf w.turn w.advance (hadvance w hw)
  rw [act]
  cases w.turn.signal with
  | some s => exact hnext
  | none => exact (settle_state errexit _ _).symm ▸ hnext

theorem keeps_actIn {place : Host Commit → Option Location} {f : Turn Commit → Host Commit → ℕ × Host Commit}
    (hadvance : ∀ w, I w → I w.advance) (hf : ∀ t w, I w → I (f t w).2)
    (hleft : ∀ w, I w → I { w with left := if w.signalTrap then none else place w }) : Keeps I (actIn place f) := by
  intro errexit w hw
  have hnext := hf w.turn w.advance (hadvance w hw)
  rw [actIn]
  cases w.turn.signal with
  | some s => exact hleft _ hnext
  | none => exact (settle_state errexit _ _).symm ▸ hnext

def Call.Harmless : Call Commit → Prop
  | .git _ _ => False
  | .maven _ => False
  | _ => True

structure Quiet (I : Host Commit → Prop) : Prop where
  advance : ∀ w, I w → I w.advance
  ask : ∀ w pid, I w → I (w.ask pid)
  shell : ∀ (w : Host Commit) killEnvironment exitTrap signalTrap logTail seconds, I w →
    I { w with
      killEnvironment := killEnvironment, exitTrap := exitTrap, signalTrap := signalTrap
      logTail := logTail, seconds := seconds }

structure Plain (I : Host Commit → Prop) : Prop extends Quiet I where
  called : ∀ w (c : Call Commit), c.Harmless → I w → I (w.called c)

section Quiet
variable (hp : Quiet I)
include hp

theorem Quiet.external : Keeps I external := keeps_act hp.advance fun _ _ hw => hw

theorem Quiet.reading {A : Type} {f : Turn Commit → A} {next : A → Command (Host Commit)} (h : ∀ x, Keeps I (next x)) :
    Keeps I (reading f next) := by
  intro errexit w hw
  have hread : Keeps I (act fun _ w => (0,w)) := keeps_act hp.advance fun _ _ hw => hw
  exact (upTo_state (hread errexit w hw)).andThen fun _ w' hw' => h (f w.turn) errexit w' hw'

theorem Quiet.kill0 (pid : ℕ) : Keeps I (kill0 pid) := keeps_act hp.advance fun _ _ hw => hw

theorem Quiet.kill (pid : ℕ) : Keeps I (kill pid) := keeps_act hp.advance fun _ w hw => hp.ask w pid hw

theorem Quiet.sleep (n : ℕ) : Keeps I (sleep n) :=
  keeps_act hp.advance fun _ w hw => hp.shell w _ _ _ _ _ hw

omit hp in
theorem keeps_testOr {test : Host Commit → Bool} {c : Command (Host Commit)} (h : Keeps I c) : Keeps I (testOr test c) :=
  keeps_skip.ifElse h

theorem Quiet.pidIsRunning : Keeps I pidIsRunning := by
  refine keeps_block ?_
  simp only [List.forall_mem_cons]
  refine ⟨keeps_testOr (keeps_ret 1),?_,by simp⟩
  intro errexit w hw
  simp only
  rcases w.pidFile with _ | (_ | pid)
  · exact (settle_state errexit 1 w).symm ▸ hw
  · exact (settle_state errexit 1 w).symm ▸ hw
  · exact hp.kill0 pid errexit w hw

omit hp in
theorem keeps_withPid {next : ℕ → Command (Host Commit)} (h : ∀ pid, Keeps I (next pid)) : Keeps I (withPid next) := by
  intro errexit w hw
  rw [withPid]
  rcases w.pidFile with _ | (_ | pid)
  · exact (settle_state errexit 1 w).symm ▸ hw
  · exact (settle_state errexit 1 w).symm ▸ hw
  · exact h pid errexit w hw

theorem Quiet.stopLogStream : Keeps I stopLogStream := by
  intro errexit w hw
  rw [Dev.stopLogStream]
  cases w.logTail with
  | none => exact hw
  | some pid =>
    refine keeps_block ?_ errexit w hw
    simp only [List.forall_mem_cons]
    exact ⟨(hp.kill pid).ignoring,hp.external.ignoring,
      keeps_assign fun w hw => hp.shell w _ _ _ _ _ hw,by simp⟩

end Quiet

section Plain
variable (hp : Plain I)
include hp

theorem Plain.echo : Keeps I echo := keeps_act hp.advance fun _ w hw => hp.called w _ trivial hw

theorem Plain.die : Keeps I die := by
  refine keeps_block ?_
  simp only [List.forall_mem_cons]
  exact ⟨hp.echo,keeps_exit 1,by simp⟩

theorem Plain.requireCommand (setup : Setup Commit) (name : String) : Keeps I (requireCommand setup name) :=
  keeps_testOr hp.die

/-- `kill` again after a message. -/
theorem Plain.again (pid : ℕ) :
    Keeps I (ifCommand (Dev.kill0 pid) (block [Dev.echo,ignoring (Dev.kill pid)]) skip) :=
  (hp.kill0 pid).ifCommand (hp.echo.seq (hp.kill pid).ignoring) keeps_skip

/-- `kill`, some seconds, and `kill` again. -/
theorem Plain.stopping (pid : ℕ) (cs : List (Command (Host Commit))) (h : ∀ c ∈ cs, Keeps I c) :
    Keeps I (block ([Dev.echo,ignoring (Dev.kill pid),attempts (Dev.kill0 pid) (Dev.sleep 1) 30,
      ifCommand (Dev.kill0 pid) (block [Dev.echo,ignoring (Dev.kill pid)]) skip] ++ cs)) := by
  refine keeps_block (List.forall_mem_append.mpr ⟨?_,h⟩)
  simp only [List.forall_mem_cons]
  exact ⟨hp.echo,(hp.kill pid).ignoring,keeps_attempts (hp.kill0 pid) (hp.sleep 1) 30,hp.again pid,by simp⟩

theorem Plain.stopConflicting (pid : ℕ) : Keeps I (stopConflicting pid) := by
  refine hp.reading fun process => ?_
  split
  · exact hp.stopping pid [] (by simp)
  · exact keeps_skip

theorem Plain.stopConflictingKeycloak (setup : Setup Commit) : Keeps I (stopConflictingKeycloak setup) := by
  refine keeps_block ?_
  simp only [List.forall_mem_cons]
  refine ⟨keeps_testOr (keeps_ret 0),keeps_testOr (keeps_ret 0),keeps_testOr (keeps_ret 0),?_,by simp⟩
  exact hp.reading fun pids => keeps_each fun pid _ => hp.stopConflicting pid

theorem Plain.compose (args : List String) : Keeps I (compose args) :=
  keeps_act hp.advance fun _ w hw => hp.called w _ trivial hw

theorem Plain.composeAllProfiles (args : List String) : Keeps I (composeAllProfiles args) := hp.compose _

theorem Plain.poll (url : String) (deadline n : ℕ) : Keeps I (poll url deadline n) := by
  induction n with
  | zero => exact keeps_ret 1
  | succ n ih =>
    refine Keeps.ifCommand (keeps_act hp.advance fun _ w hw => hp.called w _ trivial hw) keeps_skip (keeps_block ?_)
    simp only [List.forall_mem_cons]
    exact ⟨(keeps_ret 1).ifElse keeps_skip,hp.sleep 1,ih,by simp⟩

theorem Plain.waitForUrl (url : String) (timeout : ℕ) : Keeps I (waitForUrl url timeout) :=
  fun errexit w hw => hp.poll url _ _ errexit w hw

theorem Plain.startClientDetached (setup : Setup Commit) : Keeps I (startClientDetached setup) := by
  refine keeps_block ?_
  simp only [List.forall_mem_cons]
  exact ⟨(hp.requireCommand setup _).call,hp.echo,(hp.compose _).call,
    (hp.waitForUrl _ _).call.orElse hp.die,hp.echo,by simp⟩

theorem Plain.startSmtp4dev (setup : Setup Commit) : Keeps I (startSmtp4dev setup) := by
  refine keeps_block ?_
  simp only [List.forall_mem_cons]
  exact ⟨(hp.requireCommand setup _).call,(hp.requireCommand setup _).call,hp.echo,(hp.compose _).call,
    (hp.waitForUrl _ _).call.orElse hp.die,hp.echo,by simp⟩

theorem Plain.cleanDockerServices (setup : Setup Commit) : Keeps I (cleanDockerServices setup) := by
  refine keeps_block ?_
  simp only [List.forall_mem_cons]
  refine ⟨(hp.requireCommand setup _).call,keeps_testOr (hp.echo.seq (keeps_ret 0)),hp.echo,
    hp.reading fun pids => ?_,hp.echo,(hp.composeAllProfiles _).call,by simp⟩
  refine keeps_each fun pid _ => Keeps.ignoring ?_
  exact keeps_act hp.advance fun _ w hw => hp.called w _ trivial hw

end Plain

variable [DecidableEq Commit] {setup : Setup Commit}

/-- The functions that build, start and stop keep the invariant. -/
structure Kept (setup : Setup Commit) (I : Host Commit → Prop) : Prop extends Plain I where
  buildKeycloak : KeepsStrict I (buildKeycloak setup)
  buildProvider : KeepsStrict I (buildProvider setup)
  startHostKeycloak : KeepsStrict I (startHostKeycloak setup)
  stopHostKeycloak : Keeps I stopHostKeycloak
  tail : Keeps I (background false)
  clean : Keeps I clean
  start : ∀ a w, I w → I (start a w)

section Kept
variable (hk : Kept setup I)
include hk

theorem Kept.startLab : KeepsStrict I (startLab setup) := by
  refine keepsStrict_block ?_
  simp only [List.forall_mem_cons]
  exact ⟨(hk.cleanDockerServices setup).call.strict,(hk.startSmtp4dev setup).call.strict,hk.buildKeycloak.call,
    hk.buildProvider.call,hk.startHostKeycloak.call,(hk.startClientDetached setup).call.strict,by simp⟩

theorem Kept.stopForegroundLab (status : ℕ) : Keeps I (stopForegroundLab status) := by
  refine keeps_block ?_
  simp only [List.forall_mem_cons]
  exact ⟨keeps_assign fun w hw => hk.shell w _ _ _ _ _ hw,hk.stopLogStream.call,
    (hk.composeAllProfiles _).call.ignoring,hk.stopHostKeycloak.call,keeps_exit status,by simp⟩

theorem Kept.run : KeepsStrict I (run setup) := by
  have hsignals : Keeps I (act fun _ w => (0,{ w with signalTrap := true })) :=
    keeps_act hk.advance fun _ w hw => hk.shell w _ _ _ _ _ hw
  have hexit : Keeps I (act fun _ w => (0,{ w with exitTrap := true })) :=
    keeps_act hk.advance fun _ w hw => hk.shell w _ _ _ _ _ hw
  have hpid : Keeps I (assign fun w => { w with logTail := w.lastBackground }) :=
    keeps_assign fun w hw => hk.shell w _ _ _ _ _ hw
  refine keepsStrict_block ?_
  simp only [List.forall_mem_cons]
  exact ⟨hsignals.strict,hexit.strict,(hk.cleanDockerServices setup).call.strict,
    (hk.startSmtp4dev setup).call.strict,hk.buildKeycloak.call,hk.buildProvider.call,hk.startHostKeycloak.call,
    hk.tail.strict,hpid.strict,hk.echo.strict,hk.echo.strict,hk.echo.strict,(hk.compose _).call.strict,by simp⟩

theorem Kept.testHttp : KeepsStrict I (testHttp setup) := by
  refine keepsStrict_block ?_
  simp only [List.forall_mem_cons]
  exact ⟨hk.startLab.call,(hk.compose _).call.strict,by simp⟩

theorem Kept.testBrowser : KeepsStrict I (testBrowser setup) := by
  refine keepsStrict_block ?_
  simp only [List.forall_mem_cons]
  exact ⟨(hk.cleanDockerServices setup).call.strict,hk.buildKeycloak.call,hk.buildProvider.call,
    (hk.compose _).call.strict,by simp⟩

omit hk [DecidableEq Commit] in
theorem keeps_capturing {c : Command (Host Commit)} {next : ℕ → Command (Host Commit)} (hc : Keeps I c)
    (hnext : ∀ status, Keeps I (next status)) : Keeps I (capturing c next) := fun errexit w hw =>
  (upTo_state (hc false w hw)).andThen fun status w' hw' => hnext status errexit w' hw'

theorem Kept.testDisabled : KeepsStrict I (testDisabled setup) := by
  have hcleanup : ∀ result, Keeps I (block [ignoring (call (compose ["stop","keycloak-disabled"])),
      ignoring (call (compose ["rm","-f","keycloak-disabled"])),ret result]) := by
    intro result
    refine keeps_block ?_
    simp only [List.forall_mem_cons]
    exact ⟨(hk.compose _).call.ignoring,(hk.compose _).call.ignoring,keeps_ret result,by simp⟩
  refine keepsStrict_block ?_
  simp only [List.forall_mem_cons]
  exact ⟨(hk.cleanDockerServices setup).call.strict,hk.buildKeycloak.call,hk.buildProvider.call,
    (hk.compose _).call.strict,
    ((hk.waitForUrl _ _).call.ifCommand (keeps_capturing hk.external hcleanup)
      (hk.echo.seq (hcleanup 1))).strict,by simp⟩

theorem Kept.testAll : KeepsStrict I (testAll setup) := by
  refine keepsStrict_block ?_
  simp only [List.forall_mem_cons]
  exact ⟨hk.testHttp.call,hk.testDisabled.call,hk.testBrowser.call,by simp⟩

theorem Kept.verify : KeepsStrict I (verify setup) := by
  refine keepsStrict_block ?_
  simp only [List.forall_mem_cons]
  exact ⟨hk.startLab.call,hk.external.strict,by simp⟩

theorem Kept.status : Keeps I status := by
  refine keeps_block ?_
  simp only [List.forall_mem_cons]
  exact ⟨hk.echo,hk.echo,hk.pidIsRunning.call.ifCommand hk.echo hk.echo,(hk.compose _).call,by simp⟩

theorem Kept.logs : Keeps I logs := by
  refine keeps_block ?_
  simp only [List.forall_mem_cons]
  exact ⟨hk.external,hk.echo,(hk.compose _).call.ignoring,by simp⟩

theorem Kept.down : Keeps I down := by
  refine keeps_block ?_
  simp only [List.forall_mem_cons]
  exact ⟨(hk.composeAllProfiles _).call,hk.stopHostKeycloak.call,by simp⟩

theorem Kept.commands (remaining : List String) : ∀ p ∈ commands setup remaining, KeepsStrict I p.2 := by
  simp only [Dev.commands,List.forall_mem_cons]
  exact ⟨hk.run,hk.down.strict,hk.status.strict,hk.logs.strict,hk.clean.strict,hk.buildKeycloak,hk.buildProvider,
    hk.external.strict,hk.verify,hk.testHttp,hk.testBrowser,hk.testDisabled,hk.testAll,(hk.compose _).strict,
    hk.external.strict,hk.external.strict,hk.external.strict,by simp⟩

theorem Kept.main (a : Arguments) : KeepsStrict I (main setup a) := by
  unfold Dev.main
  split
  next c hc => exact (hk.commands a.remaining _ (Collections.mem_of_lookup hc)).call
  next => exact (hk.echo.seq (hk.external.seq (keeps_exit 2))).strict

theorem Kept.finish {o : Outcome (Host Commit)} (h : I o.state) : I (finish o).state := by
  rw [Dev.finish]
  split
  · exact hk.stopForegroundLab _ true o.state h
  · exact h

theorem Kept.devSh (args : List String) {w : Host Commit} (h : I (Dev.start (parse ⟨true,"",[]⟩ args) w)) :
    I (devSh setup args w).state := hk.finish (hk.main _ _ h)

end Kept

theorem kept_reachable (hq : Quiet I) (hk : ∀ setup : Setup Commit, Kept setup I)
    (habandon : ∀ w, I w → I w.abandon) {w w' : Host Commit} (h : I w) (hr : Transition.Reachable next w w') : I w' := by
  refine Transition.Reachable.invariant (fun {s e t} hs he => ?_) h hr
  cases e with
  | idle =>
    cases he
    exact hq.advance s hs
  | call setup args =>
    cases he
    exact habandon _ ((hk setup).devSh args ((hk setup).start _ s hs))

end Oidc4acLab.Dev
