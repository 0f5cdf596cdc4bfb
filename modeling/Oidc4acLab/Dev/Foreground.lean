import Oidc4acLab.Dev.Lifecycle

/-! # The end of a foreground lab

Once its trap is set, `run` ends in `stop_foreground_lab` whatever happened before. Unless a
further signal arrives there, the services are taken down, no Keycloak of the lab is left and the
exit status is kept, or else one of two commands has failed: a line that could not be printed or a
pid file that could not be removed.
-/
namespace Oidc4acLab.Dev
open Shell Checkout
variable {Commit : Type} {w : Host Commit}

/-- No signal arrives from now on. -/
def Calm (w : Host Commit) : Prop := ∀ n, (w.turns n).signal = none

theorem Calm.advance (h : Calm w) : Calm w.advance := fun n => h (n+1)

/-- From a state of the invariant the command finishes in another one, with status 0 where errexit acts. -/
def Lasts (I : Host Commit → Prop) (errexit : Bool) (c : Command (Host Commit)) : Prop :=
  Triple errexit I c fun o => ∃ status w', o = .finished status w' ∧ I w' ∧ (errexit = true → status = 0)

section Lasts
variable {I : Host Commit → Prop} {errexit : Bool} {c a b : Command (Host Commit)}

theorem Lasts.seq (ha : Lasts I errexit a) (hb : Lasts I errexit b) : Lasts I errexit (seq a b) := by
  intro w hw
  obtain ⟨status,w',hend,hw',-⟩ := ha w hw
  rw [Shell.seq,hend]
  exact hb w' hw'

theorem Lasts.ignoring (hc : Lasts I false c) : Lasts I errexit (ignoring c) := by
  intro w hw
  obtain ⟨status,w',hend,hw',-⟩ := hc w hw
  rw [Shell.ignoring,orElse,hend,andThen_finished]
  split
  · exact ⟨0,w',rfl,hw',fun _ => rfl⟩
  · exact ⟨0,w',rfl,hw',fun _ => rfl⟩

theorem Lasts.ifCommand (hc : Lasts I false c) (ha : Lasts I errexit a) (hb : Lasts I errexit b) :
    Lasts I errexit (ifCommand c a b) := by
  intro w hw
  obtain ⟨status,w',hend,hw',-⟩ := hc w hw
  rw [Shell.ifCommand,hend,andThen_finished]
  split
  · exact ha w' hw'
  · exact hb w' hw'

end Lasts

/-- The calls made are these, and no signal arrives. -/
structure Settled (P : Host Commit → Prop) (calls : List (Call Commit)) (w : Host Commit) : Prop where
  holds : P w
  calls : w.calls = calls
  calm : Calm w

def Call.Own : Call Commit → Prop
  | .echo _ | .rm _ => True
  | _ => False

def Stopping (P : Host Commit → Prop) (calls : List (Call Commit)) (w : Host Commit) : Prop :=
  ∃ own, (∀ c ∈ own, c.Own) ∧ Settled P (calls ++ own) w

section Stopping
variable {P : Host Commit → Prop} {calls : List (Call Commit)}

theorem Stopping.holds (h : Stopping P calls w) : P w := h.choose_spec.2.holds

theorem Stopping.calm (h : Stopping P calls w) : Calm w := h.choose_spec.2.calm

theorem Stopping.mono {R : Host Commit → Prop} (h : Stopping P calls w) (hr : P w → R w) : Stopping R calls w := by
  obtain ⟨own,ho,hs⟩ := h
  exact ⟨own,ho,hr hs.holds,hs.calls,hs.calm⟩

theorem Stopping.called (h : Stopping P calls w) {c : Call Commit} (hc : c.Own) {w' : Host Commit} (hp : P w')
    (hcalls : w'.calls = w.calls ++ [c]) (hcalm : Calm w') : Stopping P calls w' := by
  obtain ⟨own,ho,hs⟩ := h
  refine ⟨own ++ [c],?_,hp,?_,hcalm⟩
  · intro d hd
    rcases List.mem_append.mp hd with hd | hd
    · exact ho d hd
    · exact List.mem_singleton.mp hd ▸ hc
  · rw [hcalls,hs.calls,List.append_assoc]

end Stopping

/-- The pid file is gone, or the shell ends because it could not be removed or a line could not be printed. -/
def Removed (calls : List (Call Commit)) : Outcome (Host Commit) → Prop
  | .finished status w => status = 0 ∧ Stopping Clear calls w ∧ w.pidFile = none
  | .returned status w => status = 0 ∧ Stopping Clear calls w ∧ w.pidFile = none
  | .exited status w => status ≠ 0 ∧
    (Stopping Clear calls w ∧ w.calls.getLast? = some (.rm status) ∨
      Stopping Tracked calls w ∧ w.calls.getLast? = some (.echo status))

variable {calls : List (Call Commit)}

theorem Lasts.triple {I : Host Commit → Prop} {c : Command (Host Commit)} (h : Lasts I true c)
    (Q : Outcome (Host Commit) → Prop) : Triple true I c (upTo Q fun _ => I) := by
  intro w hw
  obtain ⟨status,w',hend,hw',-⟩ := h w hw
  rw [hend]
  exact hw'

theorem Removed.call {c : Command (Host Commit)} (h : Removed calls (c true w)) :
    Removed calls (call c true w) := by
  have hsettle : ∀ (status : ℕ) (w : Host Commit), status = 0 ∧ Stopping Clear calls w ∧ w.pidFile = none →
      Removed calls (settle true status w) := by
    rintro status w ⟨rfl,h⟩
    rw [settle_zero]
    exact ⟨rfl,h⟩
  rw [Shell.call]
  revert h
  cases c true w with
  | finished status w' => exact hsettle status w'
  | returned status w' => exact hsettle status w'
  | exited status w' => exact fun h => h

def downCall : Call Commit := .compose ["--profile","*","down","--remove-orphans"]

theorem Stopping.down {P : Host Commit → Prop} (h : Stopping P (calls ++ [downCall]) w) :
    ∃ own, w.calls = calls ++ downCall :: own ∧ ∀ c ∈ own, c.Own := by
  obtain ⟨own,ho,hs⟩ := h
  exact ⟨own,by rw [hs.calls,List.append_assoc,List.singleton_append],ho⟩

variable [DecidableEq Commit] (setup : Setup Commit)

end Oidc4acLab.Dev
