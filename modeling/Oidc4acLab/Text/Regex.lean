import Mathlib.Data.List.Forall2
import Mathlib.Data.List.Infix
import Mathlib.Tactic.Common

/-! # Backtracking patterns

A pattern is tried at a place of a text, and what it passes is tried in the order of a
backtracking engine: the first alternative first, and one more or one less round first. The
members of this list are the passes of a relation that knows no order, so a result that all
passes agree on is the one that the engine finds.
-/
namespace Oidc4acLab.Regex

inductive Pattern (A : Type)
  | nothing
  | one (p : A → Bool)
  | seq (r r' : Pattern A)
  | alt (r r' : Pattern A)
  /-- Any number of rounds, as many or as few as possible first. -/
  | many (greedy : Bool) (r : Pattern A)
  /-- A group with a number. -/
  | group (n : ℕ) (r : Pattern A)

/-- What is left of the text, and what the groups have taken, the latest first. -/
structure Place (A : Type) where
  rest : List A
  captures : List (ℕ × List A)

variable {A : Type}

def taken (s s' : Place A) : List A := s.rest.take (s.rest.length-s'.rest.length)

def Place.capture (s' s : Place A) (n : ℕ) : Place A := { s' with captures := (n,taken s s') :: s'.captures }

/-- A round that takes nothing ends the repetition. -/
inductive Passes : Pattern A → Place A → Place A → Prop
  | nothing {s : Place A} : Passes .nothing s s
  | one {p : A → Bool} {c : A} {t : List A} {cs : List (ℕ × List A)} :
      p c = true → Passes (.one p) ⟨c :: t,cs⟩ ⟨t,cs⟩
  | seq {r r' : Pattern A} {s m s' : Place A} : Passes r s m → Passes r' m s' → Passes (.seq r r') s s'
  | left {r r' : Pattern A} {s s' : Place A} : Passes r s s' → Passes (.alt r r') s s'
  | right {r r' : Pattern A} {s s' : Place A} : Passes r' s s' → Passes (.alt r r') s s'
  | stop {greedy : Bool} {r : Pattern A} {s : Place A} : Passes (.many greedy r) s s
  | round {greedy : Bool} {r : Pattern A} {s m s' : Place A} : Passes r s m → m.rest.length < s.rest.length →
      Passes (.many greedy r) m s' → Passes (.many greedy r) s s'
  | group {n : ℕ} {r : Pattern A} {s s' : Place A} : Passes r s s' → Passes (.group n r) s (s'.capture s n)

/-- At most so many rounds, each of which takes something. -/
def rounds (greedy : Bool) (round : Place A → List (Place A)) : ℕ → Place A → List (Place A)
  | 0, s => [s]
  | k+1, s =>
    let more := ((round s).filter fun m => decide (m.rest.length < s.rest.length)).flatMap (rounds greedy round k)
    if greedy then more ++ [s] else s :: more

/-- The places behind the pattern in the order in which they are tried. -/
def run : Pattern A → Place A → List (Place A)
  | .nothing, s => [s]
  | .one p, s =>
    match s.rest with
    | [] => []
    | c :: t => if p c then [⟨t,s.captures⟩] else []
  | .seq r r', s => (run r s).flatMap (run r')
  | .alt r r', s => run r s ++ run r' s
  | .many greedy r, s => rounds greedy (run r) s.rest.length s
  | .group n r, s => (run r s).map fun s' => s'.capture s n

/-- The first place of the text where the pattern passes, and there the first pass. -/
def search (r : Pattern A) : List A → Option (Place A)
  | [] => (run r ⟨[],[]⟩).head?
  | c :: t => ((run r ⟨c :: t,[]⟩).head?).or (search r t)

/-- `match.group(n)` of a search. -/
def found (r : Pattern A) (n : ℕ) (t : List A) : Option (List A) := (search r t).bind fun s => s.captures.lookup n

theorem mem_rounds {greedy : Bool} {r : Pattern A} (hr : ∀ s s', s' ∈ run r s ↔ Passes r s s') {k : ℕ}
    {s s' : Place A} (hk : s.rest.length ≤ k) : s' ∈ rounds greedy (run r) k s ↔ Passes (.many greedy r) s s' := by
  induction k generalizing s with
  | zero =>
    rw [rounds,List.mem_singleton]
    constructor
    · rintro rfl
      exact .stop
    · intro h
      cases h with
      | stop => rfl
      | round _ hlt _ => omega
  | succ k ih =>
    have hmore : s' ∈ ((run r s).filter fun m => decide (m.rest.length < s.rest.length)).flatMap
        (rounds greedy (run r) k) ↔ ∃ m, Passes r s m ∧ m.rest.length < s.rest.length ∧ Passes (.many greedy r) m s' := by
      simp only [List.mem_flatMap,List.mem_filter,decide_eq_true_eq,hr,and_assoc]
      refine exists_congr fun m => and_congr_right fun _ => and_congr_right fun hlt => ih ?_
      omega
    have hall : s' ∈ rounds greedy (run r) (k+1) s ↔ s' = s ∨ ∃ m, Passes r s m ∧ m.rest.length < s.rest.length ∧
        Passes (.many greedy r) m s' := by
      rw [rounds,← hmore]
      cases greedy with
      | true => simp only [if_true,List.mem_append,List.mem_singleton,or_comm]
      | false => simp only [Bool.false_eq_true,if_false,List.mem_cons]
    rw [hall]
    constructor
    · rintro (rfl | ⟨m,hm,hlt,hrest⟩)
      · exact .stop
      · exact .round hm hlt hrest
    · intro h
      cases h with
      | stop => exact Or.inl rfl
      | round hm hlt hrest => exact Or.inr ⟨_,hm,hlt,hrest⟩

theorem mem_run {r : Pattern A} {s s' : Place A} : s' ∈ run r s ↔ Passes r s s' := by
  induction r generalizing s s' with
  | nothing =>
    rw [run,List.mem_singleton]
    constructor
    · rintro rfl
      exact .nothing
    · rintro ⟨⟩
      rfl
  | one p =>
    obtain ⟨rest,cs⟩ := s
    cases rest with
    | nil =>
      simp only [run,List.not_mem_nil,false_iff]
      rintro ⟨⟩
    | cons c t =>
      simp only [run]
      constructor
      · intro h
        split at h
        · rename_i hp
          rw [List.mem_singleton.mp h]
          exact .one hp
        · cases h
      · rintro ⟨⟩
        rename_i hp
        rw [if_pos hp]
        exact List.mem_singleton_self _
  | seq r r' ih ih' =>
    simp only [run,List.mem_flatMap,ih,ih']
    constructor
    · rintro ⟨m,hm,hm'⟩
      exact .seq hm hm'
    · rintro ⟨⟩
      exact ⟨_,by assumption,by assumption⟩
  | alt r r' ih ih' =>
    simp only [run,List.mem_append,ih,ih']
    constructor
    · rintro (h | h)
      · exact .left h
      · exact .right h
    · intro h
      cases h with
      | left h => exact Or.inl h
      | right h => exact Or.inr h
  | many greedy r ih => exact mem_rounds (fun s s' => ih) (Nat.le_refl _)
  | group n r ih =>
    simp only [run,List.mem_map,ih]
    constructor
    · rintro ⟨m,hm,rfl⟩
      exact .group hm
    · rintro ⟨⟩
      exact ⟨_,by assumption,rfl⟩

def seqs : List (Pattern A) → Pattern A
  | [] => .nothing
  | r :: rs => .seq r (seqs rs)

def word (ps : List (A → Bool)) : Pattern A := seqs (ps.map .one)

def times (n : ℕ) (p : A → Bool) : Pattern A := word (List.replicate n p)

def star (p : A → Bool) : Pattern A := .many true (.one p)

def plus (p : A → Bool) : Pattern A := .seq (.one p) (star p)

def maybe (r : Pattern A) : Pattern A := .alt r .nothing

section Parts
variable {s s' : Place A} {p : A → Bool}

theorem passes_nothing : Passes .nothing s s' ↔ s' = s := by
  constructor
  · rintro ⟨⟩
    rfl
  · rintro rfl
    exact .nothing

theorem passes_seq {r r' : Pattern A} : Passes (.seq r r') s s' ↔ ∃ m, Passes r s m ∧ Passes r' m s' := by
  constructor
  · rintro ⟨⟩
    exact ⟨_,by assumption,by assumption⟩
  · rintro ⟨m,hm,hm'⟩
    exact .seq hm hm'

theorem passes_seqs_nil : Passes (seqs []) s s' ↔ s' = s := passes_nothing

theorem passes_seqs_cons {r : Pattern A} {rs : List (Pattern A)} :
    Passes (seqs (r :: rs)) s s' ↔ ∃ m, Passes r s m ∧ Passes (seqs rs) m s' := passes_seq

theorem passes_one : Passes (.one p) s s' ↔ ∃ c, p c = true ∧ s.rest = c :: s'.rest ∧ s'.captures = s.captures := by
  constructor
  · rintro ⟨⟩
    rename_i c t cs hp
    exact ⟨c,hp,rfl,rfl⟩
  · obtain ⟨rest,cs⟩ := s
    obtain ⟨rest',cs'⟩ := s'
    rintro ⟨c,hp,hrest,hcs⟩
    cases hrest
    cases hcs
    exact .one hp

theorem passes_maybe {r : Pattern A} : Passes (maybe r) s s' ↔ Passes r s s' ∨ s' = s := by
  constructor
  · intro h
    cases h with
    | left h => exact Or.inl h
    | right h => exact Or.inr (passes_nothing.mp h)
  · rintro (h | rfl)
    · exact .left h
    · exact .right .nothing

theorem passes_word {ps : List (A → Bool)} : Passes (word ps) s s' ↔
    ∃ w, s.rest = w ++ s'.rest ∧ List.Forall₂ (fun p c => p c = true) ps w ∧ s'.captures = s.captures := by
  induction ps generalizing s with
  | nil =>
    rw [word,List.map_nil,passes_seqs_nil]
    constructor
    · rintro rfl
      exact ⟨[],rfl,.nil,rfl⟩
    · rintro ⟨w,hw,⟨⟩,hc⟩
      obtain ⟨rest,cs⟩ := s
      obtain ⟨rest',cs'⟩ := s'
      cases hw
      cases hc
      rfl
  | cons p ps ih =>
    have hrest : ∀ m, Passes (seqs (ps.map .one)) m s' ↔ _ := fun m => ih (s := m)
    rw [word,List.map_cons,passes_seqs_cons]
    simp only [hrest,passes_one]
    constructor
    · rintro ⟨m,⟨c,hc,hs,hcs⟩,w,hw,hall,hcs'⟩
      exact ⟨c :: w,by rw [hs,hw,List.cons_append],.cons hc hall,hcs'.trans hcs⟩
    · rintro ⟨_,hs,hall,hcs⟩
      cases hall with
      | cons hc hall => exact ⟨⟨_,s.captures⟩,⟨_,hc,hs,rfl⟩,_,rfl,hall,hcs⟩

theorem passes_times {n : ℕ} : Passes (times n p) s s' ↔
    ∃ w, s.rest = w ++ s'.rest ∧ w.length = n ∧ (∀ c ∈ w, p c = true) ∧ s'.captures = s.captures := by
  have hall : ∀ (n : ℕ) (w : List A), List.Forall₂ (fun p c => p c = true) (List.replicate n p) w ↔
      w.length = n ∧ ∀ c ∈ w, p c = true := by
    intro n
    induction n with
    | zero =>
      intro w
      cases w <;> simp
    | succ n ih =>
      intro w
      cases w with
      | nil => simp [List.replicate_succ]
      | cons c w =>
        simp only [List.replicate_succ,List.forall₂_cons,ih,List.length_cons,Nat.add_right_cancel_iff,List.forall_mem_cons]
        exact and_left_comm
  simp only [times,passes_word,hall,and_assoc]

theorem passes_star : Passes (star p) s s' ↔
    ∃ w, s.rest = w ++ s'.rest ∧ (∀ c ∈ w, p c = true) ∧ s'.captures = s.captures := by
  constructor
  · intro h
    rw [star] at h
    generalize hr : Pattern.many true (Pattern.one p) = r at h
    induction h with
    | stop => exact ⟨[],rfl,by simp,rfl⟩
    | round hm _ _ _ ih =>
      cases hr
      obtain ⟨c,hc,hs,hcs⟩ := passes_one.mp hm
      obtain ⟨w,hw,hall,hcs'⟩ := ih rfl
      exact ⟨c :: w,by rw [hs,hw,List.cons_append],List.forall_mem_cons.mpr ⟨hc,hall⟩,hcs'.trans hcs⟩
    | _ => cases hr
  · rintro ⟨w,hw,hall,hcs⟩
    induction w generalizing s with
    | nil =>
      obtain ⟨rest,cs⟩ := s
      obtain ⟨rest',cs'⟩ := s'
      cases hw
      cases hcs
      exact .stop
    | cons c w ih =>
      obtain ⟨hc,hall⟩ := List.forall_mem_cons.mp hall
      have hone : Passes (.one p) s ⟨w ++ s'.rest,s.captures⟩ := passes_one.mpr ⟨c,hc,hw,rfl⟩
      refine .round hone ?_ (ih rfl hall hcs)
      rw [hw]
      exact Nat.lt_succ_self _

theorem passes_plus : Passes (plus p) s s' ↔
    ∃ w, s.rest = w ++ s'.rest ∧ w ≠ [] ∧ (∀ c ∈ w, p c = true) ∧ s'.captures = s.captures := by
  rw [plus,passes_seq]
  simp only [passes_one,passes_star]
  constructor
  · rintro ⟨m,⟨c,hc,hs,hcs⟩,w,hw,hall,hcs'⟩
    exact ⟨c :: w,by rw [hs,hw,List.cons_append],List.cons_ne_nil c w,List.forall_mem_cons.mpr ⟨hc,hall⟩,hcs'.trans hcs⟩
  · rintro ⟨w,hw,hne,hall,hcs⟩
    obtain ⟨c,w,rfl⟩ := List.exists_cons_of_ne_nil hne
    obtain ⟨hc,hall⟩ := List.forall_mem_cons.mp hall
    exact ⟨⟨w ++ s'.rest,s.captures⟩,⟨c,hc,hw,rfl⟩,w,rfl,hall,hcs⟩

theorem passes_group {n : ℕ} {r : Pattern A} :
    Passes (.group n r) s s' ↔ ∃ m, Passes r s m ∧ s' = m.capture s n := by
  constructor
  · rintro ⟨⟩
    exact ⟨_,by assumption,rfl⟩
  · rintro ⟨m,hm,rfl⟩
    exact .group hm

end Parts

def Quiet (r : Pattern A) (s : List A) : Prop := ∀ u ∈ s.tails, u ≠ [] → ∀ t s', ¬ Passes r ⟨u ++ t,[]⟩ s'

theorem quiet_nil (r : Pattern A) : Quiet r [] := by
  intro u hu hne
  exact absurd (List.suffix_nil.mp ((List.mem_tails _ _).mp hu)) hne

theorem Quiet.tail {r : Pattern A} {c : A} {s : List A} (h : Quiet r (c :: s)) : Quiet r s := by
  intro u hu
  exact h u ((List.mem_tails _ _).mpr (((List.mem_tails _ _).mp hu).trans (List.suffix_cons c s)))

theorem Quiet.append {r : Pattern A} {s s' : List A} (h : Quiet r s) (h' : Quiet r s') : Quiet r (s ++ s') := by
  induction s with
  | nil => exact h'
  | cons c s ih =>
    intro u hu hne t
    rcases List.suffix_cons_iff.mp ((List.mem_tails _ _).mp hu) with rfl | hu
    · have hwhole := h (c :: s) ((List.mem_tails _ _).mpr (List.suffix_refl _)) (List.cons_ne_nil c s) (s' ++ t)
      rwa [← List.append_assoc] at hwhole
    · exact ih h.tail u ((List.mem_tails _ _).mpr hu) hne t

theorem run_eq_nil {r : Pattern A} {s : Place A} (h : ∀ s', ¬ Passes r s s') : run r s = [] :=
  List.eq_nil_iff_forall_not_mem.mpr fun s' hs' => h s' (mem_run.mp hs')

theorem search_append {r : Pattern A} {s : List A} (h : Quiet r s) (t : List A) : search r (s ++ t) = search r t := by
  induction s with
  | nil => rfl
  | cons c s ih =>
    have hnone := h (c :: s) ((List.mem_tails _ _).mpr (List.suffix_refl _)) (List.cons_ne_nil c s) t
    rw [List.cons_append,search,← List.cons_append,run_eq_nil hnone]
    exact ih h.tail

theorem found_here {r : Pattern A} {n : ℕ} {t w : List A} {s : Place A} (hs : Passes r ⟨t,[]⟩ s)
    (h : ∀ s', Passes r ⟨t,[]⟩ s' → s'.captures.lookup n = some w) : found r n t = some w := by
  have hhead : ∃ s', (run r ⟨t,[]⟩).head? = some s' ∧ Passes r ⟨t,[]⟩ s' := by
    cases hrun : run r ⟨t,[]⟩ with
    | nil =>
      have hmem := mem_run.mpr hs
      rw [hrun] at hmem
      cases hmem
    | cons s' ss =>
      refine ⟨s',rfl,mem_run.mp ?_⟩
      rw [hrun]
      exact List.mem_cons_self
  obtain ⟨s',hs',hpass⟩ := hhead
  have hsearch : search r t = some s' := by
    cases t with
    | nil => exact hs'
    | cons c t => rw [search,hs',Option.some_or]
  rw [found,hsearch]
  exact h s' hpass

theorem found_append {r : Pattern A} {s : List A} (h : Quiet r s) (n : ℕ) (t : List A) :
    found r n (s ++ t) = found r n t := by
  rw [found,found,search_append h]

theorem found_none {r : Pattern A} {s : List A} (h : ∀ u, u <:+ s → ∀ s', ¬ Passes r ⟨u,[]⟩ s') (n : ℕ) :
    found r n s = none := by
  have hsearch : search r s = none := by
    induction s with
    | nil => rw [search,run_eq_nil (h [] (List.suffix_refl _)),List.head?_nil]
    | cons c s ih =>
      rw [search,run_eq_nil (h (c :: s) (List.suffix_refl _)),List.head?_nil,Option.none_or]
      exact ih fun u hu => h u (hu.trans (List.suffix_cons c s))
  rw [found,hsearch,Option.bind_none]

theorem span_unique {p : A → Bool} {w w' t t' : List A} {c c' : A} (h : w ++ c :: t = w' ++ c' :: t')
    (hw : ∀ x ∈ w, p x = true) (hw' : ∀ x ∈ w', p x = true) (hc : p c = false) (hc' : p c' = false) :
    w = w' ∧ c = c' ∧ t = t' := by
  induction w generalizing w' with
  | nil =>
    cases w' with
    | nil =>
      obtain ⟨hcc,htt⟩ := List.cons.inj h
      exact ⟨rfl,hcc,htt⟩
    | cons x w' =>
      have hx := hw' x List.mem_cons_self
      rw [← (List.cons.inj h).1,hc] at hx
      cases hx
  | cons x w ih =>
    cases w' with
    | nil =>
      have hx := hw x List.mem_cons_self
      rw [(List.cons.inj h).1,hc'] at hx
      cases hx
    | cons y w' =>
      obtain ⟨hxy,hrest⟩ := List.cons.inj h
      obtain ⟨hww,hcc,htt⟩ := ih hrest (fun z hz => hw z (List.mem_cons_of_mem x hz))
        (fun z hz => hw' z (List.mem_cons_of_mem y hz))
      exact ⟨by rw [hxy,hww],hcc,htt⟩

/-- Whatever choices there are, the pattern passes to one place. -/
def Only (r : Pattern A) (s s' : Place A) : Prop := ∀ m, Passes r s m ↔ m = s'

/-- The pattern only passes from a member that is not of this kind. -/
def Outside (p : A → Bool) (r : Pattern A) : Prop :=
  ∀ s s', Passes r s s' → ∃ c t, s.rest = c :: t ∧ p c = false

section Determined
variable {p q : A → Bool} {r r' : Pattern A} {s m s' : Place A} {cs : List (ℕ × List A)}

theorem Only.seq (h : Only r s m) (h' : Only r' m s') : Only (.seq r r') s s' := by
  intro n
  simp only [passes_seq,h _,exists_eq_left,h' n]

theorem only_word {ps : List (A → Bool)} {w : List A} (h : List.Forall₂ (fun p c => p c = true) ps w) (t : List A)
    (cs : List (ℕ × List A)) : Only (word ps) ⟨w ++ t,cs⟩ ⟨t,cs⟩ := by
  intro m
  rw [passes_word]
  constructor
  · rintro ⟨w',hw',hall,hcs⟩
    obtain ⟨-,ht⟩ := List.append_inj hw' (h.length_eq.symm.trans hall.length_eq)
    obtain ⟨rest,captures⟩ := m
    cases ht
    cases hcs
    rfl
  · rintro rfl
    exact ⟨w,rfl,h,rfl⟩

theorem only_times {w : List A} (h : ∀ c ∈ w, p c = true) (t : List A) (cs : List (ℕ × List A)) :
    Only (times w.length p) ⟨w ++ t,cs⟩ ⟨t,cs⟩ := by
  intro m
  rw [passes_times]
  constructor
  · rintro ⟨w',hw',hlength,-,hcs⟩
    obtain ⟨-,ht⟩ := List.append_inj hw' hlength.symm
    obtain ⟨rest,captures⟩ := m
    cases ht
    cases hcs
    rfl
  · rintro rfl
    exact ⟨w,rfl,rfl,h,rfl⟩

theorem only_group {n : ℕ} {w t : List A} (h : Only r ⟨w ++ t,cs⟩ ⟨t,cs⟩) :
    Only (.group n r) ⟨w ++ t,cs⟩ ⟨t,(n,w) :: cs⟩ := by
  intro m
  have htaken : taken ⟨w ++ t,cs⟩ (⟨t,cs⟩ : Place A) = w := by
    simp [taken]
  simp only [passes_group,h _,exists_eq_left,Place.capture,htaken]

theorem passes_star_of_plus (h : Passes (plus p) s s') : Passes (star p) s s' := by
  obtain ⟨w,hw,-,hall,hcs⟩ := passes_plus.mp h
  exact passes_star.mpr ⟨w,hw,hall,hcs⟩

/-- A run that ends before a member of another kind is taken to its end, if what follows needs one. -/
theorem star_span (hr : Outside p r) {w t : List A} {c : A} (hw : ∀ x ∈ w, p x = true) (hc : p c = false)
    (hs : s.rest = w ++ c :: t) (h : Passes (star p) s m) (hm : Passes r m s') : m = ⟨c :: t,s.captures⟩ := by
  obtain ⟨w',hw',hall,hcs⟩ := passes_star.mp h
  obtain ⟨c',t',hrest,hc'⟩ := hr m s' hm
  rw [hrest,hs] at hw'
  obtain ⟨-,rfl,rfl⟩ := span_unique hw' hw hall hc hc'
  obtain ⟨rest,captures⟩ := m
  cases hrest
  cases hcs
  rfl

theorem Only.star (hr : Outside p r) {w t : List A} {c : A} (hw : ∀ x ∈ w, p x = true) (hc : p c = false)
    (h : Only r ⟨c :: t,cs⟩ s') : Only (.seq (star p) r) ⟨w ++ c :: t,cs⟩ s' := by
  intro n
  rw [passes_seq]
  constructor
  · rintro ⟨m,hm,hn⟩
    rw [star_span hr hw hc rfl hm hn] at hn
    exact (h n).mp hn
  · rintro rfl
    exact ⟨⟨c :: t,cs⟩,passes_star.mpr ⟨w,rfl,hw,rfl⟩,(h n).mpr rfl⟩

theorem only_star {c : A} {t : List A} (hc : p c = false) (cs : List (ℕ × List A)) :
    Only (star p) ⟨c :: t,cs⟩ ⟨c :: t,cs⟩ := by
  intro m
  rw [passes_star]
  constructor
  · rintro ⟨w,hw,hall,hcs⟩
    obtain ⟨rest,captures⟩ := m
    cases w with
    | nil =>
      cases hw
      cases hcs
      rfl
    | cons d w =>
      have hd := hall d List.mem_cons_self
      rw [← (List.cons.inj hw).1,hc] at hd
      cases hd
  · rintro rfl
    exact ⟨[],rfl,by simp,rfl⟩

theorem Only.plus (hr : Outside p r) {w t : List A} {c : A} (hne : w ≠ []) (hw : ∀ x ∈ w, p x = true)
    (hc : p c = false) (h : Only r ⟨c :: t,cs⟩ s') : Only (.seq (plus p) r) ⟨w ++ c :: t,cs⟩ s' := by
  intro n
  rw [passes_seq]
  constructor
  · rintro ⟨m,hm,hn⟩
    rw [star_span hr hw hc rfl (passes_star_of_plus hm) hn] at hn
    exact (h n).mp hn
  · rintro rfl
    exact ⟨⟨c :: t,cs⟩,passes_plus.mpr ⟨w,rfl,hne,hw,rfl⟩,(h n).mpr rfl⟩

theorem Only.skip (hr : ∀ m, ¬ Passes r s m) (h : Only r' s s') : Only (.seq (maybe r) r') s s' := by
  intro n
  simp only [passes_seq,passes_maybe,hr,false_or,exists_eq_left,h n]

theorem Only.take (hr : Only r s m) (hnot : ∀ n, ¬ Passes r' s n) (h : Only r' m s') :
    Only (.seq (maybe r) r') s s' := by
  intro n
  rw [passes_seq]
  constructor
  · rintro ⟨k,hk,hn⟩
    rcases passes_maybe.mp hk with hk | rfl
    · rw [(hr k).mp hk] at hn
      exact (h n).mp hn
    · exact absurd hn (hnot n)
  · rintro rfl
    exact ⟨m,passes_maybe.mpr (Or.inl ((hr m).mpr rfl)),(h n).mpr rfl⟩

theorem Only.starSkip {a : Pattern A} (ha : Outside p a) (hr : Outside p r) {w t : List A} {c : A}
    (hw : ∀ x ∈ w, p x = true) (hc : p c = false) (hnot : ∀ m, ¬ Passes a ⟨c :: t,cs⟩ m)
    (h : Only r ⟨c :: t,cs⟩ s') :
    Only (.seq (Regex.star p) (.seq (maybe a) (.seq (Regex.star p) r))) ⟨w ++ c :: t,cs⟩ s' := by
  intro n
  rw [passes_seq]
  constructor
  · rintro ⟨m,hm,hn⟩
    obtain ⟨k,hk,hrest⟩ := passes_seq.mp hn
    rcases passes_maybe.mp hk with hk | rfl
    · rw [star_span ha hw hc rfl hm hk] at hk
      exact absurd hk (hnot k)
    · obtain ⟨w',hw',hall,hcs⟩ := passes_star.mp hm
      obtain ⟨l,hl,hlast⟩ := passes_seq.mp hrest
      obtain ⟨w'',hw'',hall',hcs'⟩ := passes_star.mp hl
      have hwhole : Passes (Regex.star p) ⟨w ++ c :: t,cs⟩ l := by
        refine passes_star.mpr ⟨w' ++ w'',?_,?_,hcs'.trans hcs⟩
        · rw [hw',hw'',List.append_assoc]
        · intro x hx
          rcases List.mem_append.mp hx with hx | hx
          · exact hall x hx
          · exact hall' x hx
      rw [star_span hr hw hc rfl hwhole hlast] at hlast
      exact (h n).mp hlast
  · rintro rfl
    have hstay : Passes (Regex.star p) ⟨c :: t,cs⟩ ⟨c :: t,cs⟩ := passes_star.mpr ⟨[],rfl,by simp,rfl⟩
    exact ⟨⟨c :: t,cs⟩,passes_star.mpr ⟨w,rfl,hw,rfl⟩,passes_seq.mpr ⟨_,passes_maybe.mpr (Or.inr rfl),
      passes_seq.mpr ⟨_,hstay,(h n).mpr rfl⟩⟩⟩

theorem outside_word {q : A → Bool} {ps : List (A → Bool)} (h : ∀ c, q c = true → p c = false) :
    Outside p (word (q :: ps)) := by
  intro s s' hs
  obtain ⟨w,hw,hall,-⟩ := passes_word.mp hs
  cases hall with
  | cons hc _ => exact ⟨_,_,hw,h _ hc⟩

theorem Outside.seq (h : Outside p r) (r' : Pattern A) : Outside p (.seq r r') := by
  intro s s' hs
  obtain ⟨m,hm,-⟩ := passes_seq.mp hs
  exact h s m hm

theorem Outside.maybe (h : Outside p r) (h' : Outside p r') : Outside p (.seq (maybe r) r') := by
  intro s s' hs
  obtain ⟨m,hm,hm'⟩ := passes_seq.mp hs
  rcases passes_maybe.mp hm with hm | rfl
  · exact h s m hm
  · exact h' m s' hm'

theorem Outside.star (hq : ∀ c, q c = true → p c = false) (h : Outside p r) :
    Outside p (.seq (Regex.star q) r) := by
  intro s s' hs
  obtain ⟨m,hm,hm'⟩ := passes_seq.mp hs
  obtain ⟨w,hw,hall,-⟩ := passes_star.mp hm
  cases w with
  | nil =>
    rw [hw]
    exact h m s' hm'
  | cons c w => exact ⟨c,w ++ m.rest,hw,hq c (hall c List.mem_cons_self)⟩

theorem Outside.not_passes (h : Outside p r) {c : A} {t : List A} (hc : p c = true) (s' : Place A) :
    ¬ Passes r ⟨c :: t,cs⟩ s' := by
  intro hs
  obtain ⟨d,t',hrest,hd⟩ := h _ s' hs
  rw [← (List.cons.inj hrest).1,hc] at hd
  cases hd

theorem Outside.quiet (h : Outside p r) {w : List A} (hw : ∀ c ∈ w, p c = true) : Quiet r w := by
  intro u hu hne t s' hs
  obtain ⟨c,u',rfl⟩ := List.exists_cons_of_ne_nil hne
  exact h.not_passes (hw c (((List.mem_tails _ _).mp hu).subset List.mem_cons_self)) s' hs

theorem Outside.group (h : Outside p r) (n : ℕ) : Outside p (.group n r) := by
  intro s s' hs
  obtain ⟨m,hm,-⟩ := passes_group.mp hs
  exact h s m hm

theorem Only.found {n : ℕ} {t w : List A} (h : Only r ⟨t,[]⟩ s') (hw : s'.captures.lookup n = some w) :
    found r n t = some w := by
  refine found_here ((h s').mpr rfl) fun m hm => ?_
  rw [(h m).mp hm]
  exact hw

end Determined

end Oidc4acLab.Regex
