import Oidc4acLab.Totp.Runners

/-! # No code is used twice

A call that avoids reuse either reads an interval other than the last one, which the clock
has left behind, or waits for the next interval. Wherever the readings fall, the interval of
its code is later than that of every such call before it.
-/
namespace Oidc4acLab.Totp

section Calls
variable (delays : Delays)

/-- What reading the interval does to a process. -/
structure Reads (avoidReuse : Bool) (p : Process) (counter : ℕ) (q : Process) : Prop where
  later : p.now ≤ q.now
  lastTotpCounter : q.lastTotpCounter = p.lastTotpCounter
  used : q.used = p.used
  reached : counter ≤ counterAt q.now
  notEarlier : counterAt p.now ≤ counter
  first : avoidReuse = true → p.lastTotpCounter = none → counterAt p.now < counter
  next : avoidReuse = true → ∀ c : ℕ, p.lastTotpCounter = some (c:ℤ) → c ≤ counterAt p.now → c < counter

theorem interval_reads (avoidReuse : Bool) (p : Process) :
    Reads avoidReuse p (interval delays avoidReuse p).1 (interval delays avoidReuse p).2 := by
  have hread : p.now ≤ p.now+delays p.readings := le_self_add
  have hmono := counterAt_mono hread
  by_cases hwait : avoidReuse = true ∧
      (p.lastTotpCounter = none ∨ p.lastTotpCounter = some (counterAt (p.now+delays p.readings):ℤ))
  · let u := p.now+delays p.readings+delays (p.readings+1)
    let v := u+pause u+delays (p.readings+1+1)
    have hinterval : interval delays avoidReuse p =
        (counterAt v,{ p with now := v, readings := p.readings+1+1+1 }) := by
      simp only [interval,Process.time,Process.sleep]
      exact if_pos hwait
    have hreadings : p.now+delays p.readings ≤ u := le_self_add
    have hslept : u+pause u ≤ v := le_self_add
    have hlt : counterAt u < counterAt v := counterAt_lt_pause hslept
    have hstart : counterAt (p.now+delays p.readings) < counterAt v := (counterAt_mono hreadings).trans_lt hlt
    rw [hinterval]
    refine ⟨?_,rfl,rfl,le_rfl,hmono.trans hstart.le,fun _ _ => hmono.trans_lt hstart,?_⟩
    · exact hread.trans (hreadings.trans (le_self_add.trans hslept))
    · exact fun _ c _ hc => hc.trans_lt (hmono.trans_lt hstart)
  · have hinterval : interval delays avoidReuse p =
        (counterAt (p.now+delays p.readings),
          { p with now := p.now+delays p.readings, readings := p.readings+1 }) := by
      simp only [interval,Process.time,Process.sleep]
      exact if_neg hwait
    rw [hinterval]
    refine ⟨hread,rfl,rfl,le_rfl,hmono,fun h hnone => absurd ⟨h,Or.inl hnone⟩ hwait,?_⟩
    intro h c hc hle
    refine lt_of_le_of_ne (hle.trans hmono) fun heq => hwait ⟨h,Or.inr ?_⟩
    rw [hc,heq]

/-- A later call has a later interval if both avoid reuse, or if the later one is for the next interval. -/
def Before (u v : Use) : Prop :=
  (u.avoidReuse = true → v.avoidReuse = true → u.counter < v.counter) ∧
    (u.intervalOffset = 0 → v.intervalOffset = 1 → u.counter < v.counter)

/-- What holds in a process whose last interval was `last` at the start. -/
structure Fresh (last : Option ℤ) (p : Process) : Prop where
  increasing : p.used.Pairwise Before
  reached : ∀ u ∈ p.used, u.counter ≤ counterAt p.now+u.intervalOffset
  kept : ∀ u ∈ p.used, u.avoidReuse = true →
    ∃ c : ℕ, p.lastTotpCounter = some (c:ℤ) ∧ u.counter ≤ c ∧ c ≤ counterAt p.now
  unused : p.used.filter Use.avoidReuse = [] → p.lastTotpCounter = last
  first : last = none → ∀ u ∈ (p.used.filter Use.avoidReuse).head?, counterAt u.called < u.counter

variable {last : Option ℤ}

theorem Fresh.sleep {p : Process} (h : Fresh last p) (d : ℚ≥0) : Fresh last (p.sleep d) := by
  have hmono : counterAt p.now ≤ counterAt (p.sleep d).now := counterAt_mono le_self_add
  refine ⟨h.increasing,?_,?_,h.unused,h.first⟩
  · intro u hu
    exact (h.reached u hu).trans (Nat.add_le_add_right hmono _)
  · intro u hu havoid
    obtain ⟨c,hc,hle,hnow⟩ := h.kept u hu havoid
    exact ⟨c,hc,hle,hnow.trans hmono⟩

theorem Fresh.before {p q : Process} {avoidReuse : Bool} {counter intervalOffset : ℕ} (h : Fresh last p)
    (hr : Reads avoidReuse p counter q) {u : Use} (hu : u ∈ p.used) (secret : String) :
    Before u ⟨p.now,secret,avoidReuse,intervalOffset,counter+intervalOffset⟩ := by
  constructor
  · intro havoid hnew
    obtain ⟨c,hc,hle,hnow⟩ := h.kept u hu havoid
    exact hle.trans_lt ((hr.next hnew c hc hnow).trans_le (Nat.le_add_right _ _))
  · intro hzero hone
    have hold := h.reached u hu
    have hnew : intervalOffset = 1 := hone
    have hnot := hr.notEarlier
    rw [hzero] at hold
    simp only [hnew]
    omega

theorem Fresh.append {p q r : Process} {avoidReuse : Bool} {counter intervalOffset : ℕ} {secret : String}
    (h : Fresh last p) (hr : Reads avoidReuse p counter q) (hoffset : avoidReuse = true → intervalOffset = 0)
    (hnow : r.now = q.now)
    (hused : r.used = p.used ++ [⟨p.now,secret,avoidReuse,intervalOffset,counter+intervalOffset⟩])
    (hlast : r.lastTotpCounter = if avoidReuse = true then some (counter:ℤ) else p.lastTotpCounter) :
    Fresh last r := by
  have hmono := counterAt_mono hr.later
  refine ⟨?_,?_,?_,?_,?_⟩
  · rw [hused]
    refine List.pairwise_append.mpr ⟨h.increasing,List.pairwise_singleton _ _,?_⟩
    intro u hu v hv
    rw [List.mem_singleton.mp hv]
    exact h.before hr hu secret
  · rw [hused,hnow]
    intro u hu
    rcases List.mem_append.mp hu with hu | hu
    · exact (h.reached u hu).trans (Nat.add_le_add_right hmono _)
    · rw [List.mem_singleton.mp hu]
      exact Nat.add_le_add_right hr.reached _
  · rw [hused,hnow,hlast]
    intro u hu havoid
    rcases List.mem_append.mp hu with hu | hu
    · obtain ⟨c,hc,hle,hreached⟩ := h.kept u hu havoid
      by_cases hnew : avoidReuse = true
      · rw [if_pos hnew]
        exact ⟨counter,rfl,hle.trans (hr.next hnew c hc hreached).le,hr.reached⟩
      · rw [if_neg hnew]
        exact ⟨c,hc,hle,hreached.trans hmono⟩
    · rw [List.mem_singleton.mp hu] at havoid ⊢
      have hnew : avoidReuse = true := havoid
      rw [if_pos hnew,hoffset hnew]
      exact ⟨counter,rfl,le_rfl,hr.reached⟩
  · rw [hused,hlast,List.filter_append,List.append_eq_nil_iff]
    rintro ⟨hnil,hnew⟩
    rw [if_neg fun havoid => by simp [havoid] at hnew]
    exact h.unused hnil
  · rw [hused,List.filter_append]
    intro hnone u hu
    cases hold : p.used.filter Use.avoidReuse with
    | nil =>
      rw [hold,List.nil_append,List.filter_cons,List.filter_nil] at hu
      split_ifs at hu with hnew
      · rw [List.head?_cons,Option.mem_some_iff] at hu
        rw [← hu]
        have hlt := hr.first hnew ((h.unused hold).trans hnone)
        exact hlt.trans_le (Nat.le_add_right _ _)
      · cases hu
    | cons u' us =>
      rw [hold,List.cons_append,List.head?_cons] at hu
      refine h.first hnone u ?_
      rw [hold]
      exact hu

variable (hmac : List UInt8 → List UInt8 → Fin 20 → UInt8) (totpSecret : String)

theorem used_currentTotp (secret : String) (avoidReuse : Bool) (intervalOffset : ℕ) (p : Process) :
    (Browser.currentTotp delays hmac secret avoidReuse intervalOffset p).2.used = p.used ++
      [⟨p.now,secret,avoidReuse,intervalOffset,(interval delays avoidReuse p).1+intervalOffset⟩] := by
  rw [← (interval_reads delays avoidReuse p).used]
  cases avoidReuse <;> rfl

theorem Fresh.currentTotp {p : Process} (h : Fresh last p) {avoidReuse : Bool} {intervalOffset : ℕ}
    (hoffset : avoidReuse = true → intervalOffset = 0) (secret : String) :
    Fresh last (Browser.currentTotp delays hmac secret avoidReuse intervalOffset p).2 := by
  have hr := interval_reads delays avoidReuse p
  refine h.append hr hoffset ?_ (used_currentTotp delays hmac secret avoidReuse intervalOffset p) ?_
  · cases avoidReuse <;> rfl
  · cases avoidReuse
    · exact hr.lastTotpCounter
    · rfl

theorem http_currentTotp (p : Process) :
    Http.currentTotp delays hmac totpSecret p = Browser.currentTotp delays hmac totpSecret true 0 p := rfl

theorem Fresh.answer {p : Process} (h : Fresh last p) (prompt : Browser.Prompt) :
    Fresh last (Browser.answer delays hmac totpSecret p prompt) := by
  cases prompt with
  | code secret => exact h.currentTotp delays hmac (fun _ => rfl) secret
  | enrollment shown =>
    cases shown with
    | none => exact h
    | some secret =>
      simp only [Browser.answer,Browser.configureOtpIfPresent]
      split_ifs
      · exact h
      · have hoffset : false = true → 0 = 0 := fun _ => rfl
        exact h.currentTotp delays hmac hoffset secret
  | challenge shown expected secret =>
    rw [Browser.answer,Browser.submitOtpIfPresent]
    split_ifs
    · exact h
    · exact h
    · exact h
    · refine h.currentTotp delays hmac ?_ _
      intro hnone
      rw [Option.isNone_iff_eq_none] at hnone
      rw [hnone]
      rfl

/-- A process in which no code has been used, at some time and with some last interval. -/
def started (now : ℚ≥0) (readings : ℕ) (last : Option ℤ) : Process := ⟨now,readings,last,[]⟩

theorem started_fresh (now : ℚ≥0) (readings : ℕ) (last : Option ℤ) : Fresh last (started now readings last) where
  increasing := .nil
  reached _ hu := nomatch hu
  kept _ hu := nomatch hu
  unused _ := rfl
  first _ _ hu := nomatch hu

theorem http_session_fresh {p : Process} (h : Fresh last p) (hall : ∀ u ∈ p.used, u.avoidReuse = true)
    (idle : List ℚ≥0) :
    Fresh last (Http.session delays hmac totpSecret idle p) ∧
      ∀ u ∈ (Http.session delays hmac totpSecret idle p).used, u.avoidReuse = true := by
  induction idle generalizing p with
  | nil => exact ⟨h,hall⟩
  | cons d idle ih =>
    refine ih ((h.sleep d).currentTotp delays hmac (fun _ => rfl) totpSecret) ?_
    intro u hu
    simp only [http_currentTotp,used_currentTotp] at hu
    rcases List.mem_append.mp hu with hu | hu
    · exact hall u hu
    · rw [List.mem_singleton.mp hu]

theorem browser_session_fresh {p : Process} (h : Fresh last p) (prompts : List (ℚ≥0 × Browser.Prompt)) :
    Fresh last (Browser.session delays hmac totpSecret prompts p) := by
  induction prompts generalizing p with
  | nil => exact h
  | cons d prompts ih => exact ih ((h.sleep d.1).answer delays hmac totpSecret d.2)

end Calls

/-- Calls of one process have increasing intervals: all of the HTTP runner, those of the browser runner that avoid
reuse, and a code for the next interval behind one for the current. The first one is later than its call if
none was remembered. -/
theorem codes_not_replayed (delays : Delays) (hmac : List UInt8 → List UInt8 → Fin 20 → UInt8) (totpSecret : String)
    (now : ℚ≥0) (readings : ℕ) (last : Option ℤ) :
    (∀ idle : List ℚ≥0,
      (Http.session delays hmac totpSecret idle (started now readings last)).used.Pairwise
        (fun u v => u.counter < v.counter) ∧
      (last = none → ∀ u ∈ (Http.session delays hmac totpSecret idle (started now readings last)).used.head?,
        counterAt u.called < u.counter)) ∧
    ∀ prompts : List (ℚ≥0 × Browser.Prompt),
      (Browser.session delays hmac totpSecret prompts (started now readings last)).used.Pairwise
        (fun u v => (u.avoidReuse = true → v.avoidReuse = true → u.counter < v.counter) ∧
          (u.intervalOffset = 0 → v.intervalOffset = 1 → u.counter < v.counter)) ∧
      (last = none → ∀ u ∈ ((Browser.session delays hmac totpSecret prompts
          (started now readings last)).used.filter Use.avoidReuse).head?, counterAt u.called < u.counter) := by
  constructor
  · intro idle
    obtain ⟨hfresh,hall⟩ := http_session_fresh delays hmac totpSecret (started_fresh now readings last)
      (fun _ hu => nomatch hu) idle
    constructor
    · exact hfresh.increasing.imp_of_mem fun hu hv h => h.1 (hall _ hu) (hall _ hv)
    · have hfirst := hfresh.first
      rwa [List.filter_eq_self.mpr hall] at hfirst
  · intro prompts
    have hfresh := browser_session_fresh delays hmac totpSecret (started_fresh now readings last) prompts
    exact ⟨hfresh.increasing,hfresh.first⟩

/-- Two calls of the HTTP runner at the end of the first interval, where no time passes between the readings. -/
def hurried : Process :=
  Http.session (fun _ => 0) (fun _ _ _ => 0) "secret" [0,0] (started 29 0 none)

theorem hurried_apart : hurried.used.length = 2 ∧ hurried.used.Pairwise (fun u v => u.counter < v.counter) ∧
    ∀ u ∈ hurried.used.head?, counterAt u.called < u.counter := by
  obtain ⟨hapart,hfirst⟩ :=
    (codes_not_replayed (fun _ => 0) (fun _ _ _ => 0) "secret" 29 0 none).1 [0,0]
  refine ⟨?_,hapart,hfirst rfl⟩
  simp [hurried,Http.session,http_currentTotp,used_currentTotp,Process.sleep,started]

end Oidc4acLab.Totp
