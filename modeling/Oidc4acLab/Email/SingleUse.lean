import Oidc4acLab.Email.Ownership
import Mathlib.Data.List.Count

/-! # How often one e-mailed code can be used

A success deletes the code in one session, while forks hold copies of it. A code
is used once in the whole family exactly along the runs in which no session is
forked while its code is live.
-/
namespace Oidc4acLab.EmailAuthenticator
open Transition

/-- The code of each e-mail led to at most one success in the whole family. -/
def SingleUse (w : Family) : Prop :=
  ∀ number, (w.successes.map Success.number).count (some number) ≤ 1

/-- A fork copies no live code. -/
def ForksNoLiveCode (w : Family) : Request → Prop
  | .fork k => ∀ m, w.members[k]? = some m → ∀ number i,
      pending m.lineage = some (number,i) → ¬ Live w.clock i
  | _ => True

/-- A live pending code belongs to one member and was not used before. -/
structure Unshared (w : Family) : Prop where
  consistent : Consistent w
  unique : ∀ {j k : ℕ} {m m' : Member} {number : ℕ} {i : Issuance}, w.members[j]? = some m →
    w.members[k]? = some m' → pending m.lineage = some (number,i) →
    pending m'.lineage = some (number,i) → Live w.clock i → j = k
  unused : ∀ {k : ℕ} {m : Member} {number : ℕ} {i : Issuance}, w.members[k]? = some m →
    pending m.lineage = some (number,i) → Live w.clock i →
    some number ∉ w.successes.map Success.number
  sent : ∀ {number : ℕ}, some number ∈ w.successes.map Success.number → number < w.outbox.length
  singleUse : SingleUse w

theorem initial_unshared (start : ℤ) : Unshared (initial start) where
  consistent := initial_consistent start
  unique := by
    intro j k m m' number i hm _ hp
    rw [initial_member hm] at hp
    cases hp
  unused := by
    intro k m number i hm hp
    rw [initial_member hm] at hp
    cases hp
  sent := by
    intro number h
    cases h
  singleUse := fun _ => Nat.zero_le _

theorem Consistent.number_lt {w : Family} (h : Consistent w) {k : ℕ} {m : Member} {number : ℕ}
    {i : Issuance} (hm : w.members[k]? = some m) (hp : pending m.lineage = some (number,i)) :
    number < w.outbox.length :=
  (List.getElem?_eq_some_iff.mp (h.numbered hm (pending_mem hp))).1

theorem step_outbox_length {w t : Family} {r : Request} (he : step w r = some t) :
    w.outbox.length ≤ t.outbox.length := by
  rcases step_outbox he with ho | ⟨_,_,_,_,_,ho⟩
  · exact Nat.le_of_eq (by rw [ho])
  · rw [ho, List.length_append]
    omega

/-- Along a step that forks no live code a live pending code stays where it was,
unless the step has just issued it. -/
theorem step_pending_live {w t : Family} {r : Request} (hc : Consistent w) (hg : ForksNoLiveCode w r)
    (he : step w r = some t) {k : ℕ} {m' : Member} (hm' : t.members[k]? = some m') {number : ℕ}
    {i : Issuance} (hp : pending m'.lineage = some (number,i)) (hl : Live w.clock i) :
    (∃ m, w.members[k]? = some m ∧ pending m.lineage = some (number,i)) ∨
      number = w.outbox.length ∧ t.outbox = w.outbox ++ [i] ∧ r.calls = some k := by
  rcases step_pending hc he hm' hp with ⟨j,m,hm,hp,hj,_⟩ | ⟨hn,ho,hk,_⟩
  · rcases hj with rfl | ⟨rfl,_⟩
    · exact Or.inl ⟨m,hm,hp⟩
    · exact absurd hl (hg m hm number i hp)
  · exact Or.inr ⟨hn,ho,hk⟩

theorem step_unshared {w t : Family} {r : Request} (h : Unshared w) (hg : ForksNoLiveCode w r)
    (he : step w r = some t) : Unshared t where
  consistent := step_consistent h.consistent he
  unique := by
    intro j k m m' number i hm hm' hp hp' hl
    have hl' : Live w.clock i := hl.mono (step_clock_le he)
    rcases step_pending_live h.consistent hg he hm hp hl' with ⟨u,hu,hup⟩ | ⟨rfl,_,hj⟩
    · rcases step_pending_live h.consistent hg he hm' hp' hl' with ⟨v,hv,hvp⟩ | ⟨rfl,_⟩
      · exact h.unique hu hv hup hvp hl'
      · exact absurd (h.consistent.number_lt hu hup) (Nat.lt_irrefl _)
    · rcases step_pending_live h.consistent hg he hm' hp' hl' with ⟨v,hv,hvp⟩ | ⟨_,_,hk⟩
      · exact absurd (h.consistent.number_lt hv hvp) (Nat.lt_irrefl _)
      · exact Option.some.inj (hj.symm.trans hk)
  unused := by
    intro k m' number i hm' hp hl
    have hl' : Live w.clock i := hl.mono (step_clock_le he)
    rcases step_successes h.consistent he with ht | ⟨j,m,n,i',hm,hpm,_,ho,htm,ht⟩
    · rw [ht]
      rcases step_pending_live h.consistent hg he hm' hp hl' with ⟨u,hu,hup⟩ | ⟨rfl,_⟩
      · exact h.unused hu hup hl'
      · intro hmem
        exact absurd (h.sent hmem) (Nat.lt_irrefl _)
    · rcases step_pending_live h.consistent hg he hm' hp hl' with ⟨u,hu,hup⟩ | ⟨_,ho',_⟩
      · rw [ht, List.map_cons, List.mem_cons, not_or]
        refine ⟨?_,h.unused hu hup hl'⟩
        intro heq
        cases heq
        -- the consumed member is the only one that held this code, and it lost it
        have hi : some i' = some i := (h.consistent.numbered hm (pending_mem hpm)).symm.trans
          (h.consistent.numbered hu (pending_mem hup))
        cases hi
        obtain rfl := h.unique hm hu hpm hup hl'
        rw [htm, List.getElem?_set_self (List.getElem?_eq_some_iff.mp hm).1] at hm'
        cases hm'
        cases hp
      · rw [ho] at ho'
        simp at ho'
  sent := by
    intro number hmem
    have hlen := step_outbox_length he
    rcases step_successes h.consistent he with ht | ⟨j,m,n,i,hm,hp,_,_,_,ht⟩
    · rw [ht] at hmem
      exact Nat.lt_of_lt_of_le (h.sent hmem) hlen
    · rw [ht, List.map_cons, List.mem_cons] at hmem
      rcases hmem with hmem | hmem
      · cases hmem
        exact Nat.lt_of_lt_of_le (h.consistent.number_lt hm hp) hlen
      · exact Nat.lt_of_lt_of_le (h.sent hmem) hlen
  singleUse := by
    intro number
    rcases step_successes h.consistent he with ht | ⟨j,m,n,i,hm,hp,hl,_,_,ht⟩
    · rw [ht]
      exact h.singleUse number
    · rw [ht, List.map_cons, List.count_cons]
      have hfresh := h.unused hm hp hl
      by_cases hn : n = number
      · subst hn
        rw [List.count_eq_zero.mpr hfresh]
        split <;> omega
      · have hs := h.singleUse number
        simpa [hn] using hs

/-- Runs that fork no live code use the code of each e-mail at most once. The
condition is exact: after a fork that copies a live code, a submission in the
parent and one in the fork both succeed with it. -/
theorem code_single_use (start : ℤ) (requests : List Request) (w : Family)
    (hr : run step (initial start) requests = some w) :
    (Along step ForksNoLiveCode (initial start) requests → SingleUse w) ∧
    ∀ r t, step w r = some t → ¬ ForksNoLiveCode w r →
      ∃ more u, run step t more = some u ∧ ¬ SingleUse u := by
  have hcw : Consistent w := reachable_consistent ⟨requests,hr⟩
  constructor
  · intro hg
    exact (run_invariant_along step_unshared (initial_unshared start) hg hr).singleUse
  · intro r t he hbad
    cases r with
    | fork k =>
      simp only [ForksNoLiveCode,not_forall,not_not] at hbad
      obtain ⟨m,hm,number,i,hp,hl⟩ := hbad
      have hk : k < w.members.length := (List.getElem?_eq_some_iff.mp hm).1
      obtain rfl : { w with members := w.members ++ [m.clientCopy] } = t := by
        simpa [step,hm] using he
      have hct := step_consistent hcw he
      have hmk : (w.members ++ [m.clientCopy])[k]? = some m := by
        rw [List.getElem?_append_left hk, hm]
      obtain ⟨u,hu,_,hmem,hclock,hsucc⟩ := submit_pending hct hmk hp hl
      have hcu := step_consistent hct hu
      have hmf : u.members[w.members.length]? = some m.clientCopy := by
        rw [hmem, List.getElem?_set_ne (Nat.ne_of_lt hk)]
        simp
      have hlu : Live u.clock i := by rw [hclock]; exact hl
      obtain ⟨v,hv,_,_,_,hsucc'⟩ := submit_pending hcu hmf hp hlu
      refine ⟨[_,_],v,by rw [run_cons, hu]; simpa using hv,?_⟩
      intro hsingle
      have hcount := hsingle number
      rw [hsucc', hsucc] at hcount
      simp at hcount
    | _ => exact absurd trivial hbad

/-- The code of one e-mail succeeds in the parent and again in the fork. -/
theorem code_used_in_parent_and_fork :
    ¬ ∀ (start : ℤ) (requests : List Request) (w : Family),
      run step (initial start) requests = some w → SingleUse w := by
  intro h
  have hr : ∃ w, run step (initial 0) [.identify 0 "alice",.authenticate 0 (callAt 10 7),.fork 0,
      .identify 1 "alice",.action 0 (callAt 20 8) (some "000007"),
      .action 1 (callAt 30 9) (some "000007")] = some w ∧ w.successes.map Success.number = [some 0,some 0] :=
    ⟨_,rfl,rfl⟩
  obtain ⟨w,hr,hn⟩ := hr
  have hcount := h 0 _ w hr 0
  rw [hn] at hcount
  exact absurd hcount (by decide)

/-- A fork made before the code is issued leaves it single-use. -/
theorem code_single_use_early_fork :
    ∃ w, run step (initial 0) [.fork 0,.identify 1 "alice",.authenticate 1 (callAt 10 7),
      .action 1 (callAt 30 9) (some "000007")] = some w ∧ w.successes.length = 1 ∧ SingleUse w := by
  refine ⟨_,rfl,rfl,?_⟩
  apply (code_single_use 0 [.fork 0,.identify 1 "alice",.authenticate 1 (callAt 10 7),
    .action 1 (callAt 30 9) (some "000007")] _ rfl).1
  refine ⟨?_,fun _ _ => ⟨trivial,fun _ _ => ⟨trivial,fun _ _ => ⟨trivial,fun _ _ => trivial⟩⟩⟩⟩
  intro m hm number i hp
  rw [initial_member hm] at hp
  cases hp

end Oidc4acLab.EmailAuthenticator
