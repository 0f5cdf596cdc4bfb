import Oidc4acLab.Shell.Command

/-! # Conditions, loops, and what commands preserve

A triple speaks of all ways in which a command ends: it finishes, returns from its function or
ends the shell. An invariant that every simple command keeps is kept by what is built from them.
-/
namespace Oidc4acLab.Shell
variable {W : Type}

/-- `if c; then a; else b; fi` -/
def ifCommand (c a b : Command W) : Command W := fun errexit w =>
  (c false w).andThen fun status w' => if status = 0 then a errexit w' else b errexit w'

/-- `c || true` -/
def ignoring (c : Command W) : Command W := orElse c skip

/-- `for x in xs; do body; done` -/
def each {A : Type} (body : A → Command W) : List A → Command W
  | [] => skip
  | x :: xs => seq (body x) (each body xs)

/-- `for _ in {1..n}; do test || break; body; done` -/
def attempts (test body : Command W) : ℕ → Command W
  | 0 => skip
  | n+1 => ifCommand test (seq body (attempts test body n)) skip

/-- From a state of `P` the command ends as `Q` says. -/
def Triple (errexit : Bool) (P : W → Prop) (c : Command W) (Q : Outcome W → Prop) : Prop :=
  ∀ w, P w → Q (c errexit w)

/-- As `Q` says, except where the command finishes and `R` is to hold. -/
def upTo (Q : Outcome W → Prop) (R : ℕ → W → Prop) : Outcome W → Prop
  | .finished status w => R status w
  | .returned status w => Q (.returned status w)
  | .exited status w => Q (.exited status w)

def returning (errexit : Bool) (Q : Outcome W → Prop) : Outcome W → Prop
  | .finished status w => Q (settle errexit status w)
  | .returned status w => Q (settle errexit status w)
  | .exited status w => Q (.exited status w)

section Rules
variable {errexit : Bool} {P R : W → Prop} {S : ℕ → W → Prop} {Q : Outcome W → Prop} {a b c : Command W}

theorem upTo.andThen {o : Outcome W} {next : ℕ → W → Outcome W} (h : upTo Q S o)
    (hnext : ∀ status w, S status w → Q (next status w)) : Q (o.andThen next) := by
  cases o with
  | finished status w => exact hnext status w h
  | returned status w => exact h
  | exited status w => exact h

theorem Triple.mono {Q' : Outcome W → Prop} (h : Triple errexit P c Q) (hq : ∀ o, Q o → Q' o) :
    Triple errexit P c Q' := fun w hw => hq _ (h w hw)

theorem Triple.weaken {P' : W → Prop} (h : Triple errexit P c Q) (hp : ∀ w, P' w → P w) :
    Triple errexit P' c Q := fun w hw => h w (hp w hw)

theorem Triple.seq (ha : Triple errexit P a (upTo Q fun _ => R)) (hb : Triple errexit R b Q) :
    Triple errexit P (seq a b) Q := fun w hw => (ha w hw).andThen fun _ w' => hb w'

theorem Triple.cons {cs : List (Command W)} (hc : Triple errexit P c (upTo Q fun _ => R))
    (hcs : Triple errexit R (block (b :: cs)) Q) : Triple errexit P (block (c :: b :: cs)) Q :=
  Triple.seq hc hcs

theorem Triple.orElse (ha : Triple false P a (upTo Q fun status w => if status = 0 then Q (.finished 0 w) else R w))
    (hb : Triple errexit R b Q) : Triple errexit P (orElse a b) Q := by
  intro w hw
  refine (ha w hw).andThen fun status w' h => ?_
  by_cases hs : status = 0
  · rw [if_pos hs] at h ⊢
    exact h
  · rw [if_neg hs] at h ⊢
    exact hb w' h

theorem Triple.ifElse {test : W → Bool} (ha : Triple errexit (fun w => P w ∧ test w = true) a Q)
    (hb : Triple errexit (fun w => P w ∧ test w = false) b Q) : Triple errexit P (ifElse test a b) Q := by
  intro w hw
  rw [Shell.ifElse]
  cases ht : test w with
  | true => exact ha w ⟨hw,ht⟩
  | false => exact hb w ⟨hw,ht⟩

theorem Triple.ifCommand {T : W → Prop}
    (hc : Triple false P c (upTo Q fun status w => if status = 0 then R w else T w))
    (ha : Triple errexit R a Q) (hb : Triple errexit T b Q) : Triple errexit P (ifCommand c a b) Q := by
  intro w hw
  refine (hc w hw).andThen fun status w' h => ?_
  by_cases hs : status = 0
  · rw [if_pos hs] at h ⊢
    exact ha w' h
  · rw [if_neg hs] at h ⊢
    exact hb w' h

theorem Triple.call (h : Triple errexit P c (returning errexit Q)) : Triple errexit P (call c) Q := by
  intro w hw
  have hend := h w hw
  rw [Shell.call]
  cases hc : c errexit w with
  | finished status w' =>
    rw [hc] at hend
    exact hend
  | returned status w' =>
    rw [hc] at hend
    exact hend
  | exited status w' =>
    rw [hc] at hend
    exact hend

theorem triple_settle {status : ℕ} {w : W} (h : S status w) (hexit : Q (.exited status w)) :
    upTo Q S (settle errexit status w) := by
  unfold settle
  split
  · exact hexit
  · exact h

end Rules

/-- The state in which a command ends. -/
def Outcome.state : Outcome W → W
  | .finished _ w => w
  | .returned _ w => w
  | .exited _ w => w

@[simp] theorem settle_state (errexit : Bool) (status : ℕ) (w : W) : (settle errexit status w).state = w := by
  unfold settle
  split
  · rfl
  · rfl

@[simp] theorem state_map {V : Type} (f : W → V) (o : Outcome W) : (o.map f).state = f o.state := by
  cases o <;> rfl

def Keeps (I : W → Prop) (c : Command W) : Prop := ∀ errexit, Triple errexit I c fun o => I o.state

section Keeps
variable {I : W → Prop} {a b c : Command W}

theorem upTo_state {o : Outcome W} (h : I o.state) : upTo (fun o => I o.state) (fun _ => I) o := by
  cases o with
  | finished status w => exact h
  | returned status w => exact h
  | exited status w => exact h

theorem Keeps.triple (h : Keeps I c) (errexit : Bool) :
    Triple errexit I c (upTo (fun o => I o.state) fun _ => I) := (h errexit).mono fun _ => upTo_state

theorem keeps_simple {f : W → ℕ × W} (h : ∀ w, I w → I (f w).2) : Keeps I (simple f) := by
  intro errexit w hw
  rw [simple,settle_state]
  exact h w hw

theorem keeps_assign {f : W → W} (h : ∀ w, I w → I (f w)) : Keeps I (assign f) := keeps_simple h

theorem keeps_skip : Keeps I (skip : Command W) := fun _ _ hw => hw

theorem keeps_ret (status : ℕ) : Keeps I (ret status : Command W) := fun _ _ hw => hw

theorem keeps_exit (status : ℕ) : Keeps I (exit status : Command W) := fun _ _ hw => hw

theorem Keeps.seq (ha : Keeps I a) (hb : Keeps I b) : Keeps I (seq a b) := fun errexit =>
  Triple.seq (ha.triple errexit) (hb errexit)

theorem keeps_block {cs : List (Command W)} (h : ∀ c ∈ cs, Keeps I c) : Keeps I (block cs) := by
  induction cs with
  | nil => exact keeps_skip
  | cons c cs ih =>
    obtain ⟨hc,hcs⟩ := List.forall_mem_cons.mp h
    cases cs with
    | nil => exact hc
    | cons d ds => exact hc.seq (ih hcs)

theorem Keeps.orElse (ha : Keeps I a) (hb : Keeps I b) : Keeps I (orElse a b) := by
  intro errexit
  refine Triple.orElse (R := I) ((ha.triple false).mono fun o h => ?_) (hb errexit)
  cases o with
  | finished status w =>
    show if status = 0 then I w else I w
    rwa [ite_self]
  | returned status w => exact h
  | exited status w => exact h

theorem Keeps.ignoring (ha : Keeps I a) : Keeps I (ignoring a) := ha.orElse keeps_skip

theorem Keeps.ifElse {test : W → Bool} (ha : Keeps I a) (hb : Keeps I b) : Keeps I (ifElse test a b) := fun errexit =>
  Triple.ifElse ((ha errexit).weaken fun _ h => h.1) ((hb errexit).weaken fun _ h => h.1)

theorem Keeps.ifCommand (hc : Keeps I c) (ha : Keeps I a) (hb : Keeps I b) : Keeps I (ifCommand c a b) := by
  intro errexit
  refine Triple.ifCommand (R := I) (T := I) ((hc.triple false).mono fun o h => ?_) (ha errexit) (hb errexit)
  cases o with
  | finished status w =>
    show if status = 0 then I w else I w
    rwa [ite_self]
  | returned status w => exact h
  | exited status w => exact h

theorem Triple.call_state {errexit : Bool} {P : W → Prop} (h : Triple errexit P c fun o => I o.state) :
    Triple errexit P (Shell.call c) fun o => I o.state := by
  refine Triple.call (h.mono fun o ho => ?_)
  cases o with
  | finished status w =>
    show I (settle errexit status w).state
    rwa [settle_state]
  | returned status w =>
    show I (settle errexit status w).state
    rwa [settle_state]
  | exited status w => exact ho

theorem Keeps.call (h : Keeps I c) : Keeps I (call c) := fun errexit => (h errexit).call_state

theorem Keeps.triple_call (h : Keeps I c) (errexit : Bool) {Q : Outcome W → Prop}
    (hexit : ∀ status w, I w → Q (.exited status w)) : Triple errexit I (Shell.call c) (upTo Q fun _ => I) := by
  refine Triple.call ((h errexit).mono fun o ho => ?_)
  have hsettle : ∀ (status : ℕ) (w : W), I w → upTo Q (fun _ => I) (settle errexit status w) := by
    intro status w hw
    unfold settle
    split
    · exact hexit status w hw
    · exact hw
  cases o with
  | finished status w => exact hsettle status w ho
  | returned status w => exact hsettle status w ho
  | exited status w => exact hexit status w ho

theorem keeps_each {A : Type} {body : A → Command W} {xs : List A} (h : ∀ x ∈ xs, Keeps I (body x)) :
    Keeps I (each body xs) := by
  induction xs with
  | nil => exact keeps_skip
  | cons x xs ih =>
    obtain ⟨hx,hxs⟩ := List.forall_mem_cons.mp h
    exact hx.seq (ih hxs)

theorem keeps_attempts (ha : Keeps I a) (hb : Keeps I b) (n : ℕ) : Keeps I (attempts a b n) := by
  induction n with
  | zero => exact keeps_skip
  | succ n ih => exact ha.ifCommand (hb.seq ih) keeps_skip

end Keeps

def KeepsStrict (I : W → Prop) (c : Command W) : Prop := Triple true I c fun o => I o.state

section Strict
variable {I : W → Prop} {a b c : Command W}

theorem Keeps.strict (h : Keeps I c) : KeepsStrict I c := h true

theorem KeepsStrict.seq (ha : KeepsStrict I a) (hb : KeepsStrict I b) : KeepsStrict I (seq a b) :=
  Triple.seq (ha.mono fun _ => upTo_state) hb

theorem keepsStrict_block {cs : List (Command W)} (h : ∀ c ∈ cs, KeepsStrict I c) : KeepsStrict I (block cs) := by
  induction cs with
  | nil => exact keeps_skip.strict
  | cons c cs ih =>
    obtain ⟨hc,hcs⟩ := List.forall_mem_cons.mp h
    cases cs with
    | nil => exact hc
    | cons d ds => exact hc.seq (ih hcs)

theorem KeepsStrict.call (h : KeepsStrict I c) : KeepsStrict I (call c) := Triple.call_state h

end Strict

end Oidc4acLab.Shell
