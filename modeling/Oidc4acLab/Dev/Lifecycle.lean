import Oidc4acLab.Dev.Invariants
import Mathlib.Data.List.Basic

/-! # The Keycloak process of the lab

A Keycloak that the script has started and not asked to end is the one in the pid file, so the
script never has two of them and a foreground lab leaves none. What can be lost is a process
between its start and the line that writes its pid down.
-/
namespace Oidc4acLab.Dev
open Shell Checkout
variable {Commit : Type}

/-- A running Keycloak of the lab that has not been asked to end, and whose start went through. -/
def Process.loose (p : Process) : Bool := p.keycloak && p.alive && !p.interrupted && !p.asked

def Within (pid : Option ℕ) (ps : List Process) : Prop := ∀ p ∈ ps, p.loose = true → pid = some p.pid

def Clear (w : Host Commit) : Prop := Within none w.processes

/-- A loose process is the one in the pid file. -/
def Tracked (w : Host Commit) : Prop := Within w.pidFile.join w.processes

/-- Running processes have different pids. -/
def Distinct (ps : List Process) : Prop := ps.Pairwise fun p q => p.alive = true → q.alive = true → p.pid ≠ q.pid

theorem loose_iff {p : Process} :
    p.loose = true ↔ p.keycloak = true ∧ p.alive = true ∧ p.interrupted = false ∧ p.asked = false := by
  simp [Process.loose,and_assoc]

theorem Within.mono {pid : Option ℕ} {ps : List Process} (h : Within none ps) : Within pid ps := by
  intro p hp hl
  cases h p hp hl

theorem Within.map {pid : Option ℕ} {ps : List Process} {f : Process → Process} (h : Within pid ps)
    (hf : ∀ p, (f p).loose = true → p.loose = true ∧ (f p).pid = p.pid) : Within pid (ps.map f) := by
  intro q hq hl
  obtain ⟨p,hp,rfl⟩ := List.mem_map.mp hq
  obtain ⟨hloose,hpid⟩ := hf p hl
  rw [hpid]
  exact h p hp hloose

theorem loose_goOn {exits : List ℕ} {p : Process} (h : (p.goOn exits).loose = true) : p.loose = true := by
  rw [loose_iff] at h ⊢
  obtain ⟨hk,ha,hi,hn⟩ := h
  exact ⟨hk,(Bool.and_eq_true_iff.mp ha).1,hi,hn⟩

theorem pid_ask (pid : ℕ) (p : Process) : (p.ask pid).pid = p.pid := by
  unfold Process.ask
  split
  · rfl
  · rfl

theorem loose_ask {pid : ℕ} {p : Process} (h : (p.ask pid).loose = true) : p.loose = true ∧ p.pid ≠ pid := by
  unfold Process.ask at h
  split at h
  next => exact absurd (loose_iff.mp h).2.2.2 (by simp)
  next hnot =>
    refine ⟨h,fun hpid => hnot ?_⟩
    rw [(loose_iff.mp h).2.1,hpid,Bool.true_and,beq_self_eq_true]

theorem Within.startOther {o : Option ℕ} {ps : List Process} (h : Within o ps) (pid : ℕ) :
    Within o (startOther ps pid) := by
  intro p hp hl
  rcases List.mem_append.mp hp with hp | hp
  · exact h p hp hl
  · rw [List.mem_singleton.mp hp] at hl
    cases hl

theorem Within.advance {o : Option ℕ} {w : Host Commit} (h : Within o w.processes) : Within o w.advance.processes := by
  have hfold : ∀ (starts : List ℕ) {ps : List Process}, Within o ps → Within o (starts.foldl Dev.startOther ps) := by
    intro starts
    induction starts with
    | nil => exact fun h => h
    | cons pid starts ih => exact fun h => ih (h.startOther pid)
  exact hfold _ (h.map fun p hl => ⟨loose_goOn hl,rfl⟩)

theorem Within.ask {o : Option ℕ} {ps : List Process} (h : Within o ps) (pid : ℕ) :
    Within o (ps.map (Process.ask pid)) := h.map fun p hl => ⟨(loose_ask hl).1,pid_ask pid p⟩

theorem Within.asked {pid : ℕ} {ps : List Process} (h : Within (some pid) ps) :
    Within none (ps.map (Process.ask pid)) := by
  intro q hq hl
  obtain ⟨p,hp,rfl⟩ := List.mem_map.mp hq
  obtain ⟨hloose,hne⟩ := loose_ask hl
  exact absurd (Option.some.inj (h p hp hloose)).symm hne

theorem Within.not_running {pid : ℕ} {ps : List Process} (h : Within (some pid) ps) (hr : running ps pid = false) :
    Within none ps := by
  intro p hp hl
  have hpid := Option.some.inj (h p hp hl)
  have hnot := List.any_eq_false.mp hr p hp
  rw [(loose_iff.mp hl).2.1,hpid,Bool.true_and,beq_self_eq_true] at hnot
  exact absurd rfl hnot

theorem le_foldr_max {n : ℕ} {ns : List ℕ} (h : n ∈ ns) : n ≤ ns.foldr max 0 := by
  induction ns with
  | nil => cases h
  | cons m ns ih =>
    rw [List.foldr_cons]
    rcases List.mem_cons.mp h with rfl | h
    · exact Nat.le_max_left _ _
    · exact (ih h).trans (Nat.le_max_right _ _)

theorem running_freePid (ps : List Process) (pid : ℕ) : running ps (freePid ps pid) = false := by
  unfold freePid
  by_cases hr : running ps pid = true
  · rw [if_pos hr,running,List.any_eq_false]
    intro p hp
    have hle : p.pid ≤ (ps.map Process.pid).foldr max 0 := le_foldr_max (List.mem_map_of_mem hp)
    simp only [Bool.and_eq_true,beq_iff_eq,not_and]
    omega
  · rw [if_neg hr]
    exact Bool.not_eq_true _ ▸ hr

theorem Distinct.map {ps : List Process} {f : Process → Process} (h : Distinct ps)
    (hf : ∀ p, ((f p).alive = true → p.alive = true) ∧ (f p).pid = p.pid) : Distinct (ps.map f) := by
  refine List.pairwise_map.mpr (h.imp fun {p q} hpq hp hq => ?_)
  rw [(hf p).2,(hf q).2]
  exact hpq ((hf p).1 hp) ((hf q).1 hq)

theorem Distinct.append {ps : List Process} (h : Distinct ps) {p : Process} (hp : running ps p.pid = false) :
    Distinct (ps ++ [p]) := by
  refine List.pairwise_append.mpr ⟨h,List.pairwise_singleton _ _,fun q hq r hr hlive _ => ?_⟩
  rw [List.mem_singleton.mp hr]
  intro hpid
  have hnot := List.any_eq_false.mp hp q hq
  rw [hlive,hpid,Bool.true_and,beq_self_eq_true] at hnot
  exact absurd rfl hnot

theorem Distinct.advance {w : Host Commit} (h : Distinct w.processes) : Distinct w.advance.processes := by
  have hfold : ∀ (starts : List ℕ) {ps : List Process}, Distinct ps → Distinct (starts.foldl startOther ps) := by
    intro starts
    induction starts with
    | nil => exact fun h => h
    | cons pid starts ih => exact fun h => ih (h.append (running_freePid _ pid))
  exact hfold _ (h.map fun p => ⟨fun ha => (Bool.and_eq_true_iff.mp ha).1,rfl⟩)

theorem alive_ask {pid : ℕ} {p : Process} : (p.ask pid).alive = p.alive := by
  unfold Process.ask
  split
  · rfl
  · rfl

theorem loose_unique {pid : Option ℕ} {ps : List Process} (h : Within pid ps) (hd : Distinct ps) :
    (ps.filter Process.loose).length ≤ 1 := by
  have hpairs : (ps.filter Process.loose).Pairwise fun _ _ => False := by
    refine List.pairwise_filter.mpr (hd.imp_of_mem fun {p q} hp hq hpq hlp hlq => ?_)
    have hpid := Option.some.inj ((h p hp hlp).symm.trans (h q hq hlq))
    exact hpq (loose_iff.mp hlp).2.1 (loose_iff.mp hlq).2.1 hpid
  rcases hl : ps.filter Process.loose with _ | ⟨p,_ | ⟨q,rest⟩⟩
  · exact Nat.zero_le 1
  · exact le_rfl
  · rw [hl] at hpairs
    exact absurd (List.rel_of_pairwise_cons hpairs List.mem_cons_self) id

/-- The invariant speaks only of the processes, the pid file and `$!`. -/
def Framed (I : Host Commit → Prop) : Prop :=
  ∀ w w' : Host Commit, w'.processes = w.processes → w'.pidFile = w.pidFile →
    w'.lastBackground = w.lastBackground → I w → I w'

section Framed
variable {I : Host Commit → Prop}

theorem Framed.plain (hf : Framed I) (hadvance : ∀ w, I w → I w.advance) (hask : ∀ w pid, I w → I (w.ask pid)) :
    Plain I where
  advance := hadvance
  ask := hask
  shell := fun w _ _ _ _ _ hw => hf w _ rfl rfl rfl hw
  called := fun w _ _ hw => hf w _ rfl rfl rfl hw

theorem Framed.setFiles (hf : Framed I) {w : Host Commit} (hw : I w) (f : Files) (repo : Location) :
    I (w.setFiles f repo) := by
  cases repo with
  | configured => exact hf w _ rfl rfl rfl hw
  | runtime => exact hf w _ rfl rfl rfl hw

variable (hp : Plain I) (hf : Framed I)
include hp hf

theorem Framed.git (c : GitCommand) (f : Files → Files) : Keeps I (git c f) := by
  refine keeps_actIn hp.advance (fun t w hw => ?_) fun w hw => hf w _ rfl rfl rfl hw
  rcases w.repo.keycloakRepo with _ | repo
  · exact hw
  · have hcalled : I (w.called (.git (.checkout repo) c)) := hf w _ rfl rfl rfl hw
    simp only
    split
    · exact hf.setFiles hcalled _ _
    · exact hf.setFiles hcalled _ _

theorem Framed.cleanManagedKeycloakRepo : Keeps I cleanManagedKeycloakRepo := by
  refine keeps_block ?_
  simp only [List.forall_mem_cons]
  exact ⟨keeps_testOr (keeps_ret 0),hf.git hp _ _,hf.git hp _ _,by simp⟩

theorem Framed.runMavenContainer (setup : Setup Commit) : Keeps I (runMavenContainer setup) := by
  refine keeps_block ?_
  simp only [List.forall_mem_cons]
  refine ⟨(hp.requireCommand setup _).call,keeps_testOr hp.die,hp.external,?_,by simp⟩
  refine keeps_actIn hp.advance (fun t w hw => ?_) fun w hw => hf w _ rfl rfl rfl hw
  rw [runMaven]
  rcases w.repo.keycloakRepo with _ | repo
  · exact hw
  · have hbuilt : I ({ w with built := some (w.source repo) }.called (.maven (w.source repo))) :=
      hf w _ rfl rfl rfl hw
    exact hf.setFiles hbuilt _ _

theorem Framed.onRepo (lab : Lab Commit) (c : Lab Commit → Command (World Commit)) : Keeps I (onRepo lab c) := by
  intro errexit w hw
  have hnext := hp.advance w hw
  rw [Dev.onRepo]
  cases w.turn.signal with
  | some s => exact hf w.advance (w.interrupted lab _) rfl rfl rfl hnext
  | none =>
    rw [state_map]
    exact hf w.advance (w.advance.resolved lab _ _) rfl rfl rfl hnext

variable [DecidableEq Commit] (setup : Setup Commit)

theorem Framed.ensureKeycloakRepo : Keeps I (ensureKeycloakRepo setup) :=
  (hf.onRepo hp _ _).orElse hp.die

theorem Framed.buildKeycloak : Keeps I (buildKeycloak setup) := by
  refine keeps_block ?_
  simp only [List.forall_mem_cons]
  refine ⟨(hf.ensureKeycloakRepo hp setup).call,keeps_testOr hp.die,(hf.cleanManagedKeycloakRepo hp).call,
    hp.external,hp.echo,(hf.runMavenContainer hp setup).call,hp.reading fun archive => ?_,?_,
    (hf.cleanManagedKeycloakRepo hp).call,hp.echo,by simp⟩
  · split
    · exact hp.die
    · exact keeps_skip
  · refine keeps_act hp.advance fun t w hw => ?_
    simp only
    split
    · exact hf w _ rfl rfl rfl hw
    · exact hw

theorem Framed.buildProvider : Keeps I (buildProvider setup) := by
  refine keeps_block ?_
  simp only [List.forall_mem_cons]
  exact ⟨(hf.ensureKeycloakRepo hp setup).call,keeps_testOr hp.die,(hf.cleanManagedKeycloakRepo hp).call,hp.echo,
    (hf.runMavenContainer hp setup).call,(hf.cleanManagedKeycloakRepo hp).call,hp.echo,by simp⟩

end Framed

theorem framed_distinct : Framed fun w : Host Commit => Distinct w.processes := by
  intro w w' hps _ _ h
  show Distinct w'.processes
  rwa [hps]

theorem plain_distinct : Plain fun w : Host Commit => Distinct w.processes :=
  framed_distinct.plain (fun _ h => h.advance) fun _ pid h => h.map fun p => ⟨fun ha => alive_ask ▸ ha,pid_ask pid p⟩

theorem keeps_distinct_background (keycloak : Bool) :
    Keeps (fun w : Host Commit => Distinct w.processes) (background keycloak) :=
  keeps_act (fun _ h => h.advance) fun t w h => h.append (running_freePid w.processes t.pid)

theorem keeps_distinct_remove (also : Host Commit → Host Commit)
    (halso : ∀ w : Host Commit, (also w).processes = w.processes) :
    Keeps (fun w : Host Commit => Distinct w.processes) (remove also) := by
  refine keeps_act (fun _ h => h.advance) fun t w h => ?_
  simp only
  split
  · exact (halso _).symm ▸ h
  · exact h

theorem keeps_distinct_recordPid : Keeps (fun w : Host Commit => Distinct w.processes) recordPid := by
  refine keeps_act (fun _ h => h.advance) fun t w h => ?_
  split
  · exact h
  · refine h.map fun p => ?_
    split
    · exact ⟨fun ha => ha,rfl⟩
    · exact ⟨fun ha => ha,rfl⟩

theorem keeps_distinct_stop : Keeps (fun w : Host Commit => Distinct w.processes) stopHostKeycloak := by
  have hremove := @keeps_distinct_remove Commit id fun _ => rfl
  refine keeps_block ?_
  simp only [List.forall_mem_cons]
  refine ⟨plain_distinct.pidIsRunning.call.ifCommand keeps_skip (hremove.seq (keeps_ret 0)),?_,by simp⟩
  refine keeps_withPid fun pid => plain_distinct.stopping pid [remove id] ?_
  simp only [List.forall_mem_cons]
  exact ⟨hremove,by simp⟩

variable [DecidableEq Commit] (setup : Setup Commit)

theorem keeps_distinct_start : Keeps (fun w : Host Commit => Distinct w.processes) (startHostKeycloak setup) := by
  have hremove := @keeps_distinct_remove Commit id fun _ => rfl
  have hp := @plain_distinct Commit
  refine keeps_block ?_
  simp only [List.forall_mem_cons]
  refine ⟨(framed_distinct.ensureKeycloakRepo hp setup).call,(hp.requireCommand setup _).call,hp.external,
    hp.pidIsRunning.call.ifCommand ?_ keeps_skip,(hp.stopConflictingKeycloak setup).call,
    keeps_skip.ifElse ((hp.waitForUrl _ _).call.ifCommand hp.die keeps_skip),hp.echo,keeps_distinct_background true,
    keeps_distinct_recordPid,(hp.waitForUrl _ _).call.ifCommand keeps_skip ?_,
    hp.pidIsRunning.call.ifCommand keeps_skip ?_,hp.echo,by simp⟩
  · exact ((hp.waitForUrl _ _).call.ifCommand (hp.echo.seq (keeps_ret 0)) keeps_skip).seq keeps_distinct_stop.call
  · exact hp.echo.seq (hp.external.ignoring.seq (keeps_distinct_stop.call.seq (keeps_ret 1)))
  · exact hp.echo.seq (hp.external.ignoring.seq (hremove.seq (keeps_ret 1)))

theorem kept_distinct : Kept setup fun w : Host Commit => Distinct w.processes where
  toPlain := plain_distinct
  buildKeycloak := (framed_distinct.buildKeycloak plain_distinct setup).strict
  buildProvider := (framed_distinct.buildProvider plain_distinct setup).strict
  startHostKeycloak := (keeps_distinct_start setup).strict
  stopHostKeycloak := keeps_distinct_stop
  tail := keeps_distinct_background false
  clean := ((plain_distinct.composeAllProfiles _).call.seq keeps_distinct_stop.call).call.seq
    ((keeps_distinct_remove withoutRuntime fun _ => rfl).seq plain_distinct.echo)
  start := fun _ _ h => h

omit [DecidableEq Commit]

theorem Clear.tracked {w : Host Commit} (h : Clear w) : Tracked w := Within.mono h

theorem framed_clear : Framed fun w : Host Commit => Clear w := by
  intro w w' hps _ _ h
  show Within none w'.processes
  rwa [hps]

theorem plain_clear : Plain fun w : Host Commit => Clear w :=
  framed_clear.plain (fun _ h => Within.advance h) fun _ pid h => Within.ask h pid

theorem framed_tracked : Framed fun w : Host Commit => Tracked w := by
  intro w w' hps hpid _ h
  show Within w'.pidFile.join w'.processes
  rwa [hps,hpid]

theorem plain_tracked : Plain fun w : Host Commit => Tracked w :=
  framed_tracked.plain (fun _ h => Within.advance h) fun _ pid h => Within.ask h pid

theorem keeps_clear_remove (also : Host Commit → Host Commit)
    (halso : ∀ w : Host Commit, (also w).processes = w.processes) : Keeps (fun w : Host Commit => Clear w) (remove also) := by
  refine keeps_act plain_clear.advance fun t w h => ?_
  simp only
  split
  · show Within none (also { w with pidFile := none }).processes
    rw [halso]
    exact h
  · exact h

def Stopped : Outcome (Host Commit) → Prop
  | .finished _ w => Clear w
  | .returned _ w => Clear w
  | .exited _ w => Tracked w

theorem Stopped.of_clear {o : Outcome (Host Commit)} (h : Clear o.state) : Stopped o := by
  cases o with
  | finished status w => exact h
  | returned status w => exact h
  | exited status w => exact Clear.tracked h

theorem Stopped.tracked {o : Outcome (Host Commit)} (h : Stopped o) : Tracked o.state := by
  cases o with
  | finished status w => exact Clear.tracked h
  | returned status w => exact Clear.tracked h
  | exited status w => exact h

theorem Stopped.settle {w : Host Commit} (h : Clear w) (errexit : Bool) (status : ℕ) : Stopped (settle errexit status w) :=
  Stopped.of_clear ((settle_state errexit status w).symm ▸ h)

theorem pidIsRunning_eq (errexit : Bool) (w : Host Commit) : pidIsRunning errexit w =
    match w.pidFile with
    | none => .returned 1 w
    | some none => settle errexit 1 w
    | some (some pid) => kill0 pid errexit w := by
  rcases hpid : w.pidFile with _ | (_ | pid)
  · simp [pidIsRunning,testOr,Shell.ifElse,hpid,ret]
  · simp [pidIsRunning,testOr,Shell.ifElse,hpid,skip]
  · simp [pidIsRunning,testOr,Shell.ifElse,hpid,skip]

theorem pidIsRunning_tracked {Q : Outcome (Host Commit) → Prop} (hexit : ∀ status w, Tracked w → Q (.exited status w)) :
    Triple false (fun w : Host Commit => Tracked w) (call pidIsRunning)
      (upTo Q fun status w => if status = 0 then Tracked w else Clear w) := by
  refine Triple.call fun w hw => ?_
  have hnone : w.pidFile.join = none → Clear w := fun hpid => by
    unfold Tracked at hw
    rwa [hpid] at hw
  rw [pidIsRunning_eq]
  rcases hpid : w.pidFile with _ | (_ | pid)
  · exact hnone (by rw [hpid]; rfl)
  · exact hnone (by rw [hpid]; rfl)
  · have hwithin : Within (some pid) w.advance.processes := by
      unfold Tracked at hw
      rw [hpid] at hw
      exact Within.advance hw
    have htracked := plain_tracked.advance w hw
    simp only [kill0,act]
    cases w.turn.signal with
    | some s => exact hexit _ _ htracked
    | none =>
      cases hr : running w.advance.processes pid with
      | true => exact htracked
      | false => exact hwithin.not_running hr

/-- The commands after `kill` on the pid in the file. -/
theorem kill_clear (errexit : Bool) (pid : ℕ) :
    Triple errexit (fun w : Host Commit => Within (some pid) w.processes) (ignoring (kill pid)) fun o => Clear o.state := by
  refine Triple.orElse (R := fun w => Clear w) (fun w hw => ?_) (keeps_skip errexit)
  have hclear : Clear (w.advance.ask pid) := Within.asked (Within.advance hw)
  rw [kill,act]
  cases w.turn.signal with
  | some s => exact hclear
  | none =>
    rw [settle_ignored]
    show if _ then Clear (w.advance.ask pid) else Clear (w.advance.ask pid)
    rwa [ite_self]

theorem keeps_clear_stopping (pid : ℕ) : Keeps (fun w : Host Commit => Clear w)
    (block [attempts (kill0 pid) (sleep 1) 30,
      ifCommand (kill0 pid) (block [echo,ignoring (kill pid)]) skip,remove id]) := by
  have hp := @plain_clear Commit
  refine keeps_block ?_
  simp only [List.forall_mem_cons]
  exact ⟨keeps_attempts (hp.kill0 pid) (hp.sleep 1) 30,hp.again pid,keeps_clear_remove id fun _ => rfl,by simp⟩

/-- The pid file names the only process that may be loose. -/
structure Named (pid : ℕ) (w : Host Commit) : Prop where
  file : w.pidFile = some (some pid)
  within : Within (some pid) w.processes

theorem Named.tracked {pid : ℕ} {w : Host Commit} (h : Named pid w) : Tracked w := by
  rw [Tracked,h.file]
  exact h.within

theorem echo_named (errexit : Bool) (pid : ℕ) :
    Triple errexit (@Named Commit pid) echo (upTo Stopped fun _ => Named pid) := by
  intro w h
  have hnext : Named pid (w.advance.called (.echo w.turn.status)) := ⟨h.file,Within.advance h.within⟩
  rw [echo,act]
  cases w.turn.signal with
  | some s => exact hnext.tracked
  | none => exact triple_settle (Q := Stopped) (S := fun _ => Named pid) hnext hnext.tracked

theorem stopHostKeycloak_stopped (errexit : Bool) :
    Triple errexit (fun w : Host Commit => Tracked w) stopHostKeycloak Stopped := by
  have hremove : Keeps (fun w : Host Commit => Clear w) (block [remove id,ret 0]) :=
    (keeps_clear_remove id fun _ => rfl).seq (keeps_ret 0)
  refine Triple.cons (R := fun w => Tracked w) ?_ ?_
  · refine Triple.ifCommand (R := fun w => Tracked w) (T := fun w => Clear w) ?_ ?_ ?_
    · exact pidIsRunning_tracked fun _ _ hw => hw
    · exact fun _ hw => hw
    · refine (hremove errexit).mono fun o h => ?_
      have hstopped := Stopped.of_clear h
      cases o with
      | finished status w => exact Clear.tracked h
      | returned status w => exact h
      | exited status w => exact hstopped
  · intro w hw
    rw [block_one,withPid]
    have hnone : w.pidFile.join = none → Clear w := fun hpid => by
      unfold Tracked at hw
      rwa [hpid] at hw
    rcases hpid : w.pidFile with _ | (_ | pid)
    · exact Stopped.settle (hnone (by rw [hpid]; rfl)) errexit 1
    · exact Stopped.settle (hnone (by rw [hpid]; rfl)) errexit 1
    · have hwithin : Within (some pid) w.processes := by
        unfold Tracked at hw
        rwa [hpid] at hw
      refine Triple.cons (echo_named errexit pid) (Triple.cons (R := fun w => Clear w) ?_
        ((keeps_clear_stopping pid errexit).mono fun _ => Stopped.of_clear)) w ⟨hpid,hwithin⟩
      refine ((kill_clear errexit pid).weaken fun _ h => h.within).mono fun o h => ?_
      cases o with
      | finished status w => exact h
      | returned status w => exact h
      | exited status w => exact Stopped.of_clear (o := .exited status w) h

theorem keeps_tracked_stop : Keeps (fun w : Host Commit => Tracked w) stopHostKeycloak := fun errexit =>
  (stopHostKeycloak_stopped errexit).mono fun _ => Stopped.tracked

theorem call_stopped {c : Command (Host Commit)} {errexit : Bool} {Q : Outcome (Host Commit) → Prop}
    (hexit : ∀ status w, Tracked w → Q (.exited status w)) (h : Triple errexit (fun w : Host Commit => Tracked w) c Stopped) :
    Triple errexit (fun w : Host Commit => Tracked w) (call c) (upTo Q fun _ w => Clear w) := by
  refine Triple.call (h.mono fun o ho => ?_)
  have hsettle : ∀ (status : ℕ) (w : Host Commit), Clear w → upTo Q (fun _ w => Clear w) (settle errexit status w) := by
    intro status w hw
    unfold settle
    split
    · exact hexit status w hw.tracked
    · exact hw
  cases o with
  | finished status w => exact hsettle status w ho
  | returned status w => exact hsettle status w ho
  | exited status w => exact hexit status w ho

theorem down_stopped (errexit : Bool) : Triple errexit (fun w : Host Commit => Tracked w) down Stopped := by
  refine Triple.cons (R := fun w => Tracked w) ?_ ?_
  · exact (plain_tracked.composeAllProfiles _).triple_call errexit fun _ _ hw => hw
  · refine (call_stopped (Q := Stopped) (fun _ _ hw => hw) (stopHostKeycloak_stopped errexit)).mono fun o h => ?_
    cases o with
    | finished status w => exact h
    | returned status w => exact h
    | exited status w => exact h

theorem keeps_tracked_clean : Keeps (fun w : Host Commit => Tracked w) clean := by
  intro errexit
  refine Triple.cons (R := fun w => Clear w) (call_stopped (fun _ _ hw => hw) (down_stopped errexit)) ?_
  have hremove : Keeps (fun w : Host Commit => Clear w) (block [remove withoutRuntime,echo]) :=
    (keeps_clear_remove withoutRuntime fun _ => rfl).seq plain_clear.echo
  exact (hremove errexit).mono fun _ => Clear.tracked

def Starting (w : Host Commit) : Prop := Within w.lastBackground w.processes

theorem background_starting (errexit : Bool) : Triple errexit (fun w : Host Commit => Clear w) (background true)
    (upTo (fun o => Tracked o.state) fun _ w => Starting w) := by
  intro w hw
  have hclear : Within none w.advance.processes := Within.advance hw
  rw [background,act]
  cases hs : w.turn.signal with
  | some s =>
    refine Within.mono fun p hp hl => ?_
    rcases List.mem_append.mp hp with hp | hp
    · exact hclear p hp hl
    · rw [List.mem_singleton.mp hp] at hl
      simp [Process.loose] at hl
  | none =>
    simp only [settle_zero]
    intro p hp hl
    rcases List.mem_append.mp hp with hp | hp
    · cases hclear p hp hl
    · rw [List.mem_singleton.mp hp]

theorem recordPid_tracked (errexit : Bool) : Triple errexit (fun w : Host Commit => Starting w) recordPid
    (upTo (fun o => Tracked o.state) fun _ w => Tracked w) := by
  intro w hw
  have hstarting : Starting w.advance := Within.advance hw
  refine upTo_state (I := fun w => Tracked w) ?_
  have hnext : ∀ t, Tracked ((fun (t : Turn Commit) (w : Host Commit) =>
      if t.status = 0 then ((0 : ℕ),{ w with pidFile := some w.lastBackground })
      else (t.status,{ w with
        pidFile := if t.removes then some none else w.pidFile
        processes := w.processes.map fun p =>
          if some p.pid = w.lastBackground then { p with interrupted := true } else p })) t w.advance).2 := by
    intro t
    simp only
    split
    · exact hstarting
    · refine Within.mono fun q hq hl => ?_
      obtain ⟨p,hp,rfl⟩ := List.mem_map.mp hq
      split at hl
      next => exact absurd (loose_iff.mp hl).2.2.1 (by simp)
      next hne => exact absurd (hstarting p hp hl).symm hne
  rw [recordPid,act]
  cases w.turn.signal with
  | some s => exact hnext _
  | none => exact (settle_state errexit _ _).symm ▸ hnext _

variable [DecidableEq Commit] (setup : Setup Commit)

theorem keeps_tracked_start : Keeps (fun w : Host Commit => Tracked w) (startHostKeycloak setup) := by
  intro errexit
  have hp := @plain_tracked Commit
  have hc := @plain_clear Commit
  have hclear : ∀ {o : Outcome (Host Commit)}, Clear o.state → upTo (fun o => Tracked o.state) (fun _ w => Clear w) o := by
    intro o h
    cases o with
    | finished status w => exact h
    | returned status w => exact Clear.tracked h
    | exited status w => exact Clear.tracked h
  refine Triple.cons (R := fun w => Tracked w)
    ((framed_tracked.ensureKeycloakRepo hp setup).triple_call errexit fun _ _ hw => hw) ?_
  refine Triple.cons (R := fun w => Tracked w) ((hp.requireCommand setup _).triple_call errexit fun _ _ hw => hw) ?_
  refine Triple.cons (R := fun w => Tracked w) (hp.external.triple errexit) ?_
  refine Triple.cons (R := fun w => Clear w) ?_ ?_
  · -- a process that runs and answers is kept, and any other one is stopped
    refine Triple.ifCommand (R := fun w => Tracked w) (T := fun w => Clear w)
      (pidIsRunning_tracked fun _ _ hw => hw) ?_ fun _ hw => hw
    refine Triple.cons (R := fun w => Tracked w) ?_ (call_stopped (fun _ _ hw => hw) (stopHostKeycloak_stopped errexit))
    refine Triple.ifCommand (R := fun w => Tracked w) (T := fun w => Tracked w) ?_
      (((hp.echo.seq (keeps_ret 0)) errexit).mono fun o h => by cases o <;> exact h) fun _ hw => hw
    refine ((hp.waitForUrl _ _).triple_call false (Q := fun o => Tracked o.state) fun _ _ hw => hw).mono fun o h => ?_
    cases o with
    | finished status w =>
      show if _ then Tracked w else Tracked w
      rwa [ite_self]
    | returned status w => exact h
    | exited status w => exact h
  refine Triple.cons (R := fun w => Clear w) (((hc.stopConflictingKeycloak setup).call errexit).mono fun _ => hclear) ?_
  refine Triple.cons (R := fun w => Clear w) ?_ ?_
  · have hwait := (hc.waitForUrl setup.issuer 2).call.ifCommand hc.die keeps_skip
    exact ((keeps_skip.ifElse hwait) errexit).mono fun _ => hclear
  refine Triple.cons (R := fun w => Clear w) ((hc.echo errexit).mono fun _ => hclear) ?_
  refine Triple.cons (R := fun w => Starting w) (background_starting errexit) ?_
  refine Triple.cons (R := fun w => Tracked w) (recordPid_tracked errexit) ?_
  refine Triple.cons (R := fun w => Tracked w) ?_ ?_
  · have hstop := hp.echo.seq (hp.external.ignoring.seq (keeps_tracked_stop.call.seq (keeps_ret 1)))
    exact ((hp.waitForUrl setup.issuer 180).call.ifCommand keeps_skip hstop).triple errexit
  · refine Triple.cons (R := fun w => Tracked w) ?_ (hp.echo errexit)
    refine Triple.ifCommand (R := fun w => Tracked w) (T := fun w => Clear w)
      (pidIsRunning_tracked fun _ _ hw => hw) (fun _ hw => hw) ?_
    have hremove := hc.echo.seq (hc.external.ignoring.seq ((keeps_clear_remove id fun _ => rfl).seq (keeps_ret 1)))
    exact (hremove errexit).mono fun _ h => upTo_state (Clear.tracked h)

theorem kept_tracked : Kept setup fun w : Host Commit => Tracked w where
  toPlain := plain_tracked
  buildKeycloak := (framed_tracked.buildKeycloak plain_tracked setup).strict
  buildProvider := (framed_tracked.buildProvider plain_tracked setup).strict
  startHostKeycloak := (keeps_tracked_start setup).strict
  stopHostKeycloak := keeps_tracked_stop
  tail := by
    refine keeps_act plain_tracked.advance fun t w hw p hp hl => ?_
    rcases List.mem_append.mp hp with hp | hp
    · exact hw p hp hl
    · rw [List.mem_singleton.mp hp] at hl
      cases hl
  clean := keeps_tracked_clean
  start := fun _ _ h => h

omit setup in
theorem tracked_reachable {w w' : Host Commit} (hw : Tracked w) (hr : Transition.Reachable next w w') : Tracked w' :=
  kept_reachable plain_tracked.toQuiet kept_tracked (fun _ h => h) hw hr

omit setup in
/-- Through any calls of the script, whatever the machine does meanwhile and whenever INT or TERM arrives: every Keycloak
of the lab that runs and was not asked to end is the one in the pid file, and there is at most one, except for a
process whose start a signal interrupted or whose pid could not be written down. -/
theorem one_keycloak {w w' : Host Commit} (hw : Tracked w) (hd : Distinct w.processes)
    (hr : Transition.Reachable next w w') :
    (∀ p ∈ w'.processes, p.loose = true → w'.pidFile = some (some p.pid)) ∧
      (w'.processes.filter Process.loose).length ≤ 1 := by
  have htracked := tracked_reachable hw hr
  have hdistinct := kept_reachable plain_distinct.toQuiet kept_distinct (fun _ h => h) hd hr
  refine ⟨fun p hp hl => ?_,loose_unique htracked hdistinct⟩
  have hpid := htracked p hp hl
  rcases hfile : w'.pidFile with _ | (_ | pid)
  · rw [hfile] at hpid
    cases hpid
  · rw [hfile] at hpid
    cases hpid
  · rw [hfile] at hpid
    exact congrArg some hpid

omit [DecidableEq Commit] setup in
theorem tracked_runningHost : Tracked runningHost := by
  intro p hp _
  cases List.mem_singleton.mp hp
  rfl

omit setup in
/-- The lab is verified. -/
theorem one_keycloak_verified : ∃ w', Transition.run next runningHost verified = some w' ∧
    (∀ p ∈ w'.processes, p.loose = true → w'.pidFile = some (some p.pid)) ∧
      (w'.processes.filter Process.loose).length ≤ 1 :=
  ⟨_,rfl,one_keycloak tracked_runningHost (List.pairwise_singleton _ _) ⟨verified,rfl⟩⟩

end Oidc4acLab.Dev
