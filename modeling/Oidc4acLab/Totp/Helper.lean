import Oidc4acLab.Totp.Runners
import Oidc4acLab.Transition.Runs

/-! # The page that shows the current one-time code

The server computes a code and the seconds until the next one. The page counts these seconds
down once a second and asks for the next code when they are over. A request takes its time, and
the seconds go on; time passes between any two events.
-/
namespace Oidc4acLab.Totp
open Transition

/-- `30-now%30` -/
def remainingAt (t : ℚ≥0) : ℕ := 30-⌊t⌋₊%30

section Server
variable (hmac : List UInt8 → List UInt8 → Fin 20 → UInt8) (secret : String)

/-- `current_totp` of the client application at this time. -/
def Client.currentTotp (t : ℚ≥0) : Except Failure (String × ℕ) :=
  (hotp hmac secret (counterAt t)).map fun code => (code,remainingAt t)

end Server

/-- A request for `/otp-code`, with the answer and when the server computed it. -/
structure Fetch where
  sentAt : ℚ≥0
  answer : Option (Except Failure (String × ℕ) × ℚ≥0)

/-- The page at a time, with the time of its last tick and the one that the code was computed at. -/
structure Helper where
  clock : ℚ≥0
  lastTick : ℚ≥0
  computedAt : ℚ≥0
  code : String
  remaining : ℤ
  status : String
  seconds : ℤ
  refreshing : Bool
  clipboard : Option String
  fetches : List Fetch

def generated : String := "The displayed code is generated from the disposable realm credential."

namespace Helper

def refresh (h : Helper) : Helper :=
  if h.refreshing then h else { h with refreshing := true, fetches := h.fetches ++ [⟨h.clock,none⟩] }

/-- The callback of `setInterval`. -/
def tick (h : Helper) : Helper :=
  let h := { h with lastTick := h.clock, seconds := h.seconds-1 }
  if h.seconds ≤ 0 then h.refresh else { h with remaining := h.seconds }

def deliver (h : Helper) (i : ℕ) (payload : String × ℕ) (t : ℚ≥0) : Helper :=
  { h with
    computedAt := t
    code := if h.code ≠ payload.1 then payload.1 else h.code
    seconds := payload.2
    remaining := payload.2
    status := generated
    refreshing := false
    fetches := h.fetches.eraseIdx i }

def fail (h : Helper) (i : ℕ) (message : String) : Helper :=
  { h with
    status := "Unable to refresh the OTP code: " ++ message
    refreshing := false
    fetches := h.fetches.eraseIdx i }

def copy (h : Helper) (allowed : Bool) : Helper :=
  if allowed then { h with clipboard := some h.code, status := "OTP copied to the clipboard." }
  else { h with status := "Copy was blocked by the browser; select the code manually." }

end Helper

/-- Time passes, the page ticks, or one of its requests is served, answered or lost. -/
inductive Event
  | wait (d : ℚ≥0)
  | tick
  | serve (i : ℕ)
  | deliver (i : ℕ)
  | fail (i : ℕ) (message : String)
  | copy (allowed : Bool)

section Runs
variable (hmac : List UInt8 → List UInt8 → Fin 20 → UInt8) (secret : String)

def Helper.step (h : Helper) : Event → Option Helper
  | .wait d => some { h with clock := h.clock+d }
  | .tick => some h.tick
  | .serve i =>
    match h.fetches[i]? with
    | some ⟨sentAt,none⟩ =>
      some { h with fetches := h.fetches.set i ⟨sentAt,some (Client.currentTotp hmac secret h.clock,h.clock)⟩ }
    | _ => none
  | .deliver i =>
    match h.fetches[i]? with
    | some ⟨_,some (.ok payload,t)⟩ => some (h.deliver i payload t)
    | _ => none
  | .fail i message => if i < h.fetches.length then some (h.fail i message) else none
  | .copy allowed => some (h.copy allowed)

/-- `otp_helper` renders the page at this time, and its script starts somewhat later. -/
def otpHelper (t d : ℚ≥0) : Except Failure Helper :=
  (Client.currentTotp hmac secret t).map fun r =>
    { clock := t+d, lastTick := t+d, computedAt := t, code := r.1, remaining := r.2, status := generated,
      seconds := r.2, refreshing := false, clipboard := none, fetches := [] }

/-- An answer is the code of the time that it was computed at. -/
structure Fetch.Sound (h : Helper) (f : Fetch) : Prop where
  sent : h.computedAt ≤ f.sentAt ∧ f.sentAt ≤ h.clock
  answered : ∀ a t, f.answer = some (a,t) → a = Client.currentTotp hmac secret t ∧ f.sentAt ≤ t ∧ t ≤ h.clock

structure Helper.Sound (h : Helper) : Prop where
  single : h.fetches.length ≤ 1
  busy : h.refreshing = true ↔ h.fetches ≠ []
  remaining : 1 ≤ h.remaining ∧ h.remaining ≤ 30
  seconds : h.seconds ≤ 30
  code : hotp hmac secret (counterAt h.computedAt) = .ok h.code
  past : h.computedAt ≤ h.clock
  fetches : ∀ f ∈ h.fetches, f.Sound hmac secret h

variable {hmac secret}

theorem remainingAt_bounds (t : ℚ≥0) : (1:ℤ) ≤ (remainingAt t:ℤ) ∧ (remainingAt t:ℤ) ≤ 30 := by
  unfold remainingAt
  omega

theorem currentTotp_eq_ok {t : ℚ≥0} {r : String × ℕ} (h : Client.currentTotp hmac secret t = .ok r) :
    hotp hmac secret (counterAt t) = .ok r.1 ∧ r.2 = remainingAt t := by
  unfold Client.currentTotp at h
  cases hc : hotp hmac secret (counterAt t) with
  | error e =>
    rw [hc] at h
    cases h
  | ok code =>
    rw [hc] at h
    cases h
    exact ⟨rfl,rfl⟩

theorem Helper.Sound.eraseIdx {h : Helper} (hs : h.Sound hmac secret) {i : ℕ} (hi : i < h.fetches.length) :
    h.fetches.eraseIdx i = [] := by
  have hlength := hs.single
  refine List.length_eq_zero_iff.mp ?_
  rw [List.length_eraseIdx_of_lt hi]
  omega

theorem Fetch.Sound.later {h h' : Helper} {f : Fetch} (hf : f.Sound hmac secret h)
    (hc : h'.computedAt = h.computedAt) (hle : h.clock ≤ h'.clock) : f.Sound hmac secret h' where
  sent := ⟨hc ▸ hf.sent.1,hf.sent.2.trans hle⟩
  answered := fun a t ha => (hf.answered a t ha).imp_right fun ht => ⟨ht.1,ht.2.trans hle⟩

theorem otpHelper_sound {t d : ℚ≥0} {h : Helper} (ho : otpHelper hmac secret t d = .ok h) :
    h.Sound hmac secret := by
  unfold otpHelper at ho
  cases hr : Client.currentTotp hmac secret t with
  | error e =>
    rw [hr] at ho
    cases ho
  | ok r =>
    rw [hr] at ho
    cases ho
    obtain ⟨hcode,hremaining⟩ := currentTotp_eq_ok hr
    have hpos := remainingAt_bounds t
    rw [← hremaining] at hpos
    exact ⟨Nat.zero_le _,iff_of_false Bool.false_ne_true (by simp),hpos,hpos.2,hcode,le_self_add,by simp⟩

theorem Helper.Sound.refresh {h : Helper} (hs : h.Sound hmac secret) : h.refresh.Sound hmac secret := by
  unfold Helper.refresh
  split
  · exact hs
  · rename_i hidle
    have hnone : h.fetches = [] := by
      by_contra hne
      exact hidle (hs.busy.mpr hne)
    refine ⟨?_,iff_of_true rfl (by simp),hs.remaining,hs.seconds,hs.code,hs.past,?_⟩
    · rw [hnone]
      exact Nat.le_refl 1
    · intro f hf
      rw [hnone] at hf
      rw [List.mem_singleton.mp hf]
      exact ⟨⟨hs.past,le_rfl⟩,fun a t ha => nomatch ha⟩

theorem Helper.Sound.tick {h : Helper} (hs : h.Sound hmac secret) : h.tick.Sound hmac secret := by
  have hseconds := hs.seconds
  have hcounted : Helper.Sound hmac secret { h with lastTick := h.clock, seconds := h.seconds-1 } :=
    ⟨hs.single,hs.busy,hs.remaining,by show h.seconds-1 ≤ 30; omega,hs.code,hs.past,
      fun f hf => (hs.fetches f hf).later rfl le_rfl⟩
  unfold Helper.tick
  simp only
  split
  · exact hcounted.refresh
  · rename_i hpos
    refine ⟨hs.single,hs.busy,?_,hcounted.seconds,hs.code,hs.past,fun f hf => (hs.fetches f hf).later rfl le_rfl⟩
    show 1 ≤ h.seconds-1 ∧ h.seconds-1 ≤ 30
    omega

theorem Helper.Sound.step {h h' : Helper} {e : Event} (hs : h.Sound hmac secret)
    (he : h.step hmac secret e = some h') : h'.Sound hmac secret ∧ h.computedAt ≤ h'.computedAt ∧ h.clock ≤ h'.clock := by
  cases e with
  | wait d =>
    cases he
    refine ⟨⟨hs.single,hs.busy,hs.remaining,hs.seconds,hs.code,hs.past.trans le_self_add,?_⟩,le_rfl,le_self_add⟩
    exact fun f hf => (hs.fetches f hf).later rfl le_self_add
  | tick =>
    cases he
    refine ⟨hs.tick,?_⟩
    unfold Helper.tick Helper.refresh
    simp only
    split
    · split <;> exact ⟨le_rfl,le_rfl⟩
    · exact ⟨le_rfl,le_rfl⟩
  | serve i =>
    simp only [Helper.step] at he
    split at he
    · rename_i sentAt hf
      cases he
      refine ⟨⟨?_,?_,hs.remaining,hs.seconds,hs.code,hs.past,?_⟩,le_rfl,le_rfl⟩
      · rw [List.length_set]
        exact hs.single
      · rw [hs.busy,← List.length_pos_iff,← List.length_pos_iff,List.length_set]
      · intro f hmem
        rcases List.mem_or_eq_of_mem_set hmem with hmem | rfl
        · exact (hs.fetches f hmem).later rfl le_rfl
        · have hold := hs.fetches _ (List.mem_of_getElem? hf)
          refine ⟨hold.sent,?_⟩
          intro a t ha
          cases ha
          exact ⟨rfl,hold.sent.2,le_rfl⟩
    · cases he
  | deliver i =>
    simp only [Helper.step] at he
    split at he
    · rename_i sentAt payload t hf
      cases he
      have hold := hs.fetches _ (List.mem_of_getElem? hf)
      obtain ⟨ha,hsent,hclock⟩ := hold.answered _ t rfl
      obtain ⟨hcode,hremaining⟩ := currentTotp_eq_ok ha.symm
      have hpos := remainingAt_bounds t
      rw [← hremaining] at hpos
      have hlt : i < h.fetches.length := (List.getElem?_eq_some_iff.mp hf).1
      have hnone := hs.eraseIdx hlt
      refine ⟨⟨?_,?_,hpos,hpos.2,?_,hclock,?_⟩,hold.sent.1.trans hsent,le_rfl⟩
      · simp [Helper.deliver,hnone]
      · exact iff_of_false (by simp [Helper.deliver]) (by simp [Helper.deliver,hnone])
      · rw [Helper.deliver,hcode]
        simp only [ne_eq,ite_not]
        split
        · rename_i hsame
          rw [hsame]
        · rfl
      · simp [Helper.deliver,hnone]
    · cases he
  | fail i message =>
    simp only [Helper.step] at he
    split at he
    · rename_i hlt
      cases he
      have hnone := hs.eraseIdx hlt
      refine ⟨⟨?_,?_,hs.remaining,hs.seconds,hs.code,hs.past,?_⟩,le_rfl,le_rfl⟩
      · simp [Helper.fail,hnone]
      · exact iff_of_false (by simp [Helper.fail]) (by simp [Helper.fail,hnone])
      · simp [Helper.fail,hnone]
    · cases he
  | copy allowed =>
    cases he
    unfold Helper.copy
    split
    all_goals exact ⟨⟨hs.single,hs.busy,hs.remaining,hs.seconds,hs.code,hs.past,
      fun f hf => (hs.fetches f hf).later rfl le_rfl⟩,le_rfl,le_rfl⟩

/-- Two ticks are at most `1+ε` seconds apart, and every request is answered after at most `ℓ` seconds. -/
def Timely (ε ℓ : ℚ≥0) (h : Helper) : Event → Prop
  | .wait d => h.clock+d ≤ h.lastTick+(1+ε) ∧ ∀ f ∈ h.fetches, h.clock+d ≤ f.sentAt+ℓ
  | .fail _ _ => False
  | _ => True

def due (ε ℓ t : ℚ≥0) : ℚ := t+ℓ+remainingAt t*(1+ε)

structure Helper.OnTime (ε ℓ : ℚ≥0) (h : Helper) : Prop where
  started : h.lastTick ≤ h.clock
  ticking : h.clock ≤ h.lastTick+(1+ε)
  pending : ∀ f ∈ h.fetches, h.clock ≤ f.sentAt+ℓ ∧ (f.sentAt:ℚ) ≤ due ε ℓ h.computedAt
  counting : h.fetches = [] → 1 ≤ h.seconds ∧ (h.lastTick:ℚ)+h.seconds*(1+ε) ≤ due ε ℓ h.computedAt

variable {ε ℓ : ℚ≥0}

theorem otpHelper_onTime {t d : ℚ≥0} {h : Helper} (ho : otpHelper hmac secret t d = .ok h) (hd : d ≤ ℓ) :
    h.OnTime ε ℓ := by
  unfold otpHelper at ho
  cases hr : Client.currentTotp hmac secret t with
  | error e =>
    rw [hr] at ho
    cases ho
  | ok r =>
    rw [hr] at ho
    cases ho
    have hremaining := (currentTotp_eq_ok hr).2
    have hpos := remainingAt_bounds t
    have hle : (d:ℚ) ≤ ℓ := by exact_mod_cast hd
    have hcount : ((t+d:ℚ≥0):ℚ)+((r.2:ℤ):ℚ)*(1+ε) ≤ due ε ℓ t := by
      rw [due,hremaining]
      push_cast
      linarith
    rw [← hremaining] at hpos
    exact ⟨le_rfl,le_self_add,by simp,fun _ => ⟨hpos.1,hcount⟩⟩

theorem Helper.OnTime.tick {h : Helper} (hs : h.Sound hmac secret) (ht : h.OnTime ε ℓ) : h.tick.OnTime ε ℓ := by
  have hticking : (h.clock:ℚ) ≤ h.lastTick+(1+ε) := by exact_mod_cast ht.ticking
  have hnow : h.clock ≤ h.clock+(1+ε) := le_self_add
  unfold Helper.tick Helper.refresh
  simp only
  cases hbusy : h.refreshing with
  | true =>
    -- the request that is on its way stays the only one
    have hne := hs.busy.mp hbusy
    simp only [if_true]
    split <;> exact ⟨le_rfl,hnow,ht.pending,fun hnone => absurd hnone hne⟩
  | false =>
    have hnone : h.fetches = [] := by
      by_contra hne
      have htrue := hs.busy.mpr hne
      rw [hbusy] at htrue
      cases htrue
    obtain ⟨hpos,hcount⟩ := ht.counting hnone
    simp only [Bool.false_eq_true,if_false]
    split
    · -- the last second is over
      rename_i hover
      have hone : h.seconds = 1 := by omega
      rw [hone] at hcount
      have hsent : (h.clock:ℚ) ≤ due ε ℓ h.computedAt := by
        push_cast at hcount
        linarith
      refine ⟨le_rfl,hnow,?_,fun hempty => ?_⟩
      · intro f hf
        rw [hnone] at hf
        rw [List.mem_singleton.mp hf]
        exact ⟨le_self_add,hsent⟩
      · simp at hempty
    · rename_i hleft
      have hcounted : (h.clock:ℚ)+((h.seconds-1:ℤ):ℚ)*(1+ε) ≤ due ε ℓ h.computedAt := by
        push_cast
        linarith
      refine ⟨le_rfl,hnow,ht.pending,fun _ => ⟨?_,hcounted⟩⟩
      show 1 ≤ h.seconds-1
      omega

theorem Helper.OnTime.step {h h' : Helper} {e : Event} (hs : h.Sound hmac secret) (ht : h.OnTime ε ℓ)
    (hg : Timely ε ℓ h e) (he : h.step hmac secret e = some h') : h'.OnTime ε ℓ := by
  cases e with
  | wait d =>
    cases he
    exact ⟨ht.started.trans le_self_add,hg.1,fun f hf => ⟨hg.2 f hf,(ht.pending f hf).2⟩,ht.counting⟩
  | tick =>
    cases he
    exact ht.tick hs
  | serve i =>
    simp only [Helper.step] at he
    split at he
    · rename_i sentAt hf
      cases he
      refine ⟨ht.started,ht.ticking,?_,fun hnone => ?_⟩
      · intro f hmem
        rcases List.mem_or_eq_of_mem_set hmem with hmem | rfl
        · exact ht.pending f hmem
        · exact ht.pending ⟨sentAt,none⟩ (List.mem_of_getElem? hf)
      · have hlt : i < h.fetches.length := (List.getElem?_eq_some_iff.mp hf).1
        rw [← List.length_eq_zero_iff,List.length_set] at hnone
        omega
    · cases he
  | deliver i =>
    simp only [Helper.step] at he
    split at he
    · rename_i sentAt payload t hf
      cases he
      have hmem := List.mem_of_getElem? hf
      obtain ⟨ha,hsent,-⟩ := (hs.fetches _ hmem).answered _ t rfl
      have hremaining := (currentTotp_eq_ok ha.symm).2
      have hnone := hs.eraseIdx (List.getElem?_eq_some_iff.mp hf).1
      refine ⟨ht.started,ht.ticking,by simp [Helper.deliver,hnone],fun _ => ⟨?_,?_⟩⟩
      · show (1:ℤ) ≤ (payload.2:ℤ)
        rw [hremaining]
        exact (remainingAt_bounds t).1
      · -- the last tick was before now, and the answer is at most as old as its request
        have hnow : (h.lastTick:ℚ) ≤ t+ℓ := by
          have hle : h.lastTick ≤ t+ℓ :=
            ht.started.trans ((ht.pending _ hmem).1.trans (add_le_add_left hsent ℓ))
          exact_mod_cast hle
        show (h.lastTick:ℚ)+((payload.2:ℤ):ℚ)*(1+ε) ≤ due ε ℓ t
        rw [due,hremaining]
        push_cast
        linarith
    · cases he
  | fail i message => exact hg.elim
  | copy allowed =>
    cases he
    unfold Helper.copy
    split <;> exact ⟨ht.started,ht.ticking,ht.pending,ht.counting⟩

theorem Helper.Sound.run {h h' : Helper} {es : List Event} (hs : h.Sound hmac secret)
    (hr : Transition.run (Helper.step hmac secret) h es = some h') :
    h'.Sound hmac secret ∧ h.computedAt ≤ h'.computedAt := by
  refine run_invariant_along (I := fun m => m.Sound hmac secret ∧ h.computedAt ≤ m.computedAt) ?_ ⟨hs,le_rfl⟩
    (Along.of_forall (fun _ _ => trivial) h es) hr
  intro m e m' hm _ he
  obtain ⟨hsound,hcomputed,-⟩ := hm.1.step he
  exact ⟨hsound,hm.2.trans hcomputed⟩

theorem Helper.OnTime.run {h h' : Helper} {es : List Event} (hs : h.Sound hmac secret) (ht : h.OnTime ε ℓ)
    (ha : Along (Helper.step hmac secret) (Timely ε ℓ) h es)
    (hr : Transition.run (Helper.step hmac secret) h es = some h') : h'.OnTime ε ℓ := by
  have hall : h'.Sound hmac secret ∧ h'.OnTime ε ℓ := by
    refine run_invariant_along (I := fun m => m.Sound hmac secret ∧ m.OnTime ε ℓ) ?_ ⟨hs,ht⟩ ha hr
    intro m e m' hm hg he
    exact ⟨(hm.1.step he).1,hm.2.step hm.1 hg he⟩
  exact hall.2

theorem due_le (ε ℓ t : ℚ≥0) : due ε ℓ t ≤ t+(30*(counterAt t+1)-⌊t⌋₊)+ℓ+30*ε := by
  have hsplit : ((remainingAt t:ℕ):ℚ) = 30*(counterAt t+1)-⌊t⌋₊ := by
    have hnat : remainingAt t+⌊t⌋₊ = 30*(counterAt t+1) := by
      unfold remainingAt counterAt
      omega
    have hcast : ((remainingAt t:ℕ):ℚ)+(⌊t⌋₊:ℚ) = 30*(counterAt t+1) := by exact_mod_cast hnat
    linarith
  have hslack : ((remainingAt t:ℕ):ℚ)*ε ≤ 30*ε := by
    have hle : ((remainingAt t:ℕ):ℚ) ≤ 30 := by exact_mod_cast (remainingAt_bounds t).2
    exact mul_le_mul_of_nonneg_right hle ε.2
  rw [due]
  linarith

theorem Helper.OnTime.clock_lt {h : Helper} (ht : h.OnTime ε ℓ) :
    (h.clock:ℚ) < 30*(counterAt h.computedAt+1)+1+2*ℓ+30*ε := by
  have hfloor : (h.computedAt:ℚ) < ⌊h.computedAt⌋₊+1 := by exact_mod_cast Nat.lt_floor_add_one h.computedAt
  have hdue := due_le ε ℓ h.computedAt
  have hlatest : (h.clock:ℚ) ≤ due ε ℓ h.computedAt+ℓ := by
    cases hf : h.fetches with
    | nil =>
      obtain ⟨hpos,hcount⟩ := ht.counting hf
      have hticking : (h.clock:ℚ) ≤ h.lastTick+(1+ε) := by exact_mod_cast ht.ticking
      have hone : (1:ℚ) ≤ (h.seconds:ℚ) := by exact_mod_cast hpos
      have hmul : 1*(1+(ε:ℚ)) ≤ h.seconds*(1+ε) := mul_le_mul_of_nonneg_right hone (by positivity)
      have hℓ : (0:ℚ) ≤ ℓ := ℓ.2
      linarith
    | cons f fs =>
      obtain ⟨hclock,hsent⟩ := ht.pending f (by rw [hf]; exact List.mem_cons_self)
      have hclock : (h.clock:ℚ) ≤ f.sentAt+ℓ := by exact_mod_cast hclock
      linarith
  linarith

/-- Whatever is slow or lost, the page has at most one request, its countdown is within the period, and its
code is one that the server computed, never an earlier one than it has shown before. -/
theorem helper_shows {t d : ℚ≥0} {h h' h'' : Helper} {es es' : List Event} (ho : otpHelper hmac secret t d = .ok h)
    (hr : run (Helper.step hmac secret) h es = some h') (hr' : run (Helper.step hmac secret) h' es' = some h'') :
    h'.fetches.length ≤ 1 ∧ (h'.refreshing = true ↔ h'.fetches ≠ []) ∧ (1 ≤ h'.remaining ∧ h'.remaining ≤ 30) ∧
      hotp hmac secret (counterAt h'.computedAt) = .ok h'.code ∧ t ≤ h'.computedAt ∧
      h'.computedAt ≤ h''.computedAt ∧ h''.computedAt ≤ h''.clock := by
  have hstart : h.computedAt = t := by
    unfold otpHelper at ho
    cases hc : Client.currentTotp hmac secret t with
    | error e =>
      rw [hc] at ho
      cases ho
    | ok r =>
      rw [hc] at ho
      cases ho
      rfl
  obtain ⟨hs,hle⟩ := (otpHelper_sound ho).run hr
  obtain ⟨hs',hle'⟩ := hs.run hr'
  rw [hstart] at hle
  exact ⟨hs.single,hs.busy,hs.remaining,hs.code,hle,hle',hs'.past⟩

/-- A page of a server that computes `000000`, before and after its first request. -/
def zeroes (t : ℚ≥0) (n : ℕ) : Helper :=
  ⟨t,t,t,"000000",n,generated,n,false,none,[]⟩

theorem zeroes_opened : otpHelper (fun _ _ _ => 0) "" 29 0 = .ok (zeroes 29 1) := by
  have hfirst : Client.currentTotp (fun _ _ _ => 0) "" 29 = .ok ("000000",1) := rfl
  rw [otpHelper,hfirst]
  simp [Except.map,zeroes]

theorem zeroes_refreshed :
    run (Helper.step (fun _ _ _ => 0) "") (zeroes 29 1) [.wait 1,.tick,.serve 0,.deliver 0] = some (zeroes 30 30) := by
  have hsecond : Client.currentTotp (fun _ _ _ => 0) "" 30 = .ok ("000000",30) := rfl
  have hnow : (29:ℚ≥0)+1 = 30 := by norm_num
  simp [run,Helper.step,Helper.tick,Helper.refresh,Helper.deliver,zeroes,hnow,hsecond]

theorem helper_shows_refreshed :
    (zeroes 30 30).fetches.length ≤ 1 ∧ (zeroes 29 1).computedAt ≤ (zeroes 30 30).computedAt := by
  obtain ⟨hsingle,-,-,-,hle,-,-⟩ := helper_shows zeroes_opened zeroes_refreshed (run_nil _)
  exact ⟨hsingle,hle⟩

/-- If no request fails and requests and timers are in time, the interval of the code on the page ended less
than a fixed time ago. -/
theorem helper_in_time {t d : ℚ≥0} {h h' : Helper} {es : List Event} (ho : otpHelper hmac secret t d = .ok h)
    (hd : d ≤ ℓ) (ha : Along (Helper.step hmac secret) (Timely ε ℓ) h es)
    (hr : run (Helper.step hmac secret) h es = some h') :
    ∃ k, hotp hmac secret k = .ok h'.code ∧ k ≤ counterAt h'.clock ∧
      (h'.clock:ℚ) < 30*(k+1)+1+2*ℓ+30*ε ∧ (2*ℓ+30*ε ≤ 29 → counterAt h'.clock ≤ k+1) := by
  have hs := otpHelper_sound ho
  have hs' := (hs.run hr).1
  have hclock := ((otpHelper_onTime ho hd).run hs ha hr).clock_lt
  refine ⟨counterAt h'.computedAt,hs'.code,Nat.div_le_div_right (Nat.floor_mono hs'.past),hclock,fun hslack => ?_⟩
  have hslack : 2*(ℓ:ℚ)+30*ε ≤ 29 := by exact_mod_cast hslack
  have hfloor : (⌊h'.clock⌋₊:ℚ) ≤ h'.clock := by exact_mod_cast Nat.floor_le h'.clock.2
  have hsecond : (⌊h'.clock⌋₊:ℚ) < (30*(counterAt h'.computedAt+2):ℕ) := by
    push_cast
    linarith
  have hnat : ⌊h'.clock⌋₊ < 30*(counterAt h'.computedAt+2) := by exact_mod_cast hsecond
  unfold counterAt at hnat ⊢
  omega

theorem helper_in_time_refreshed : ∃ k, counterAt (zeroes 30 30).clock ≤ k+1 := by
  have hnow : (29:ℚ≥0)+1 = 30 := by norm_num
  have ha : Along (Helper.step (fun _ _ _ => 0) "") (Timely 0 1) (zeroes 29 1) [.wait 1,.tick,.serve 0,.deliver 0] := by
    refine ⟨⟨by simp [zeroes],by simp [zeroes]⟩,fun _ _ => ⟨trivial,fun _ _ =>
      ⟨trivial,fun _ _ => ⟨trivial,fun _ _ => trivial⟩⟩⟩⟩
  obtain ⟨k,-,-,-,hk⟩ := helper_in_time zeroes_opened zero_le_one ha zeroes_refreshed
  refine ⟨k,hk ?_⟩
  norm_num

end Runs

end Oidc4acLab.Totp
