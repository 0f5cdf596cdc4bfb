import Mathlib.Data.List.Infix
import Mathlib.Data.Nat.Notation
import Mathlib.Tactic.Common

/-! # Lazy searches

A pattern is tried at a place of a text. `seek` tries it at every place from the left: a
search, or `.*?` before the rest of a pattern. `capture` gives what `(.*?)` takes before a
literal text. A text that is clear of the literal one neither holds a beginning of it nor
ends in one.
-/
namespace Oidc4acLab.Search
variable {A B : Type} {w s t : List A}

/-- At no place of the text the literal one can match, whatever follows. -/
def Clear (w s : List A) : Prop := ∀ u ∈ s.tails, u ≠ [] → ¬ w <+: u ∧ ¬ u <+: w

theorem not_prefix_append {u : List A} (h : ¬ w <+: u ∧ ¬ u <+: w) (t : List A) : ¬ w <+: u ++ t := by
  intro hw
  rcases List.prefix_or_prefix_of_prefix hw (List.prefix_append u t) with h' | h'
  · exact h.1 h'
  · exact h.2 h'

theorem clear_nil (w : List A) : Clear w [] := by
  intro u hu hne
  exact absurd (List.suffix_nil.mp ((List.mem_tails _ _).mp hu)) hne

theorem Clear.tail {c : A} (h : Clear w (c :: s)) : Clear w s := by
  intro u hu
  exact h u ((List.mem_tails _ _).mpr (((List.mem_tails _ _).mp hu).trans (List.suffix_cons c s)))

theorem Clear.head {c : A} (h : Clear w (c :: s)) : ¬ w <+: c :: s ∧ ¬ c :: s <+: w :=
  h _ ((List.mem_tails _ _).mpr (List.suffix_refl _)) (List.cons_ne_nil c s)

theorem Clear.append (hs : Clear w s) (ht : Clear w t) : Clear w (s ++ t) := by
  induction s with
  | nil => exact ht
  | cons c s ih =>
    intro u hu hne
    rcases List.suffix_cons_iff.mp ((List.mem_tails _ _).mp hu) with rfl | hu
    · refine ⟨not_prefix_append hs.head t,fun h => hs.head.2 ?_⟩
      exact (List.prefix_append (c :: s) t).trans h
    · exact ih hs.tail u ((List.mem_tails _ _).mpr hu) hne

theorem clear_of_not_mem {c : A} (h : c ∉ s) (w : List A) : Clear (c :: w) s := by
  intro u hu hne
  obtain ⟨d,u,rfl⟩ := List.exists_cons_of_ne_nil hne
  have hd : d ≠ c := by
    rintro rfl
    exact h (((List.mem_tails _ _).mp hu).subset List.mem_cons_self)
  exact ⟨fun hp => hd (List.cons_prefix_cons.mp hp).1.symm,fun hp => hd (List.cons_prefix_cons.mp hp).1⟩

theorem Clear.longer {m : List A} (h : Clear m s) (hw : m <+: w) : Clear w s := by
  intro u hu hne
  obtain ⟨hm,hu'⟩ := h u hu hne
  refine ⟨fun hp => hm (hw.trans hp),fun hp => ?_⟩
  rcases List.prefix_or_prefix_of_prefix hw hp with h' | h'
  · exact hm h'
  · exact hu' h'

/-- The rest of the pattern at the first place where it matches. -/
def seek (k : List A → Option B) : List A → Option B
  | [] => k []
  | c :: t =>
    match k (c :: t) with
    | some b => some b
    | none => seek k t

theorem seek_here {k : List A → Option B} {b : B} (h : k t = some b) : seek k t = some b := by
  cases t with
  | nil => exact h
  | cons c t => rw [seek,h]

variable [DecidableEq A]

instance (w s : List A) : Decidable (Clear w s) := inferInstanceAs (Decidable (∀ u ∈ s.tails, _))

def expect (w : List A) (k : List A → Option B) (t : List A) : Option B :=
  if w <+: t then k (t.drop w.length) else none

def capture (w : List A) : List A → Option (List A)
  | [] => if w = [] then some [] else none
  | c :: t => if w <+: c :: t then some [] else (capture w t).map (c :: ·)

variable {k : List A → Option B}

theorem expect_append (w t : List A) (k : List A → Option B) : expect w k (w ++ t) = k t := by
  rw [expect,if_pos (List.prefix_append w t),List.drop_left]

theorem expect_eq_none (h : ¬ w <+: t) : expect w k t = none := if_neg h

theorem seek_clear (h : Clear w s) (t : List A) : seek (expect w k) (s ++ t) = seek (expect w k) t := by
  induction s with
  | nil => rfl
  | cons c s ih =>
    have hnone : expect w k (c :: (s ++ t)) = none := expect_eq_none (not_prefix_append h.head t)
    rw [List.cons_append,seek,hnone]
    exact ih h.tail

theorem seek_none (h : Clear w s) (hw : w ≠ []) : seek (expect w k) s = none := by
  have hnil : expect w k [] = none := expect_eq_none fun h => hw (List.prefix_nil.mp h)
  rw [← List.append_nil s,seek_clear h,seek,hnil]

theorem capture_append (h : Clear w s) (t : List A) : capture w (s ++ (w ++ t)) = some s := by
  induction s with
  | nil =>
    rw [List.nil_append]
    cases hw : w ++ t with
    | nil => rw [capture,if_pos (List.append_eq_nil_iff.mp hw).1]
    | cons c r => rw [capture,if_pos (hw ▸ List.prefix_append w t)]
  | cons c s ih =>
    have hnot : ¬ w <+: c :: (s ++ (w ++ t)) := not_prefix_append h.head (w ++ t)
    rw [List.cons_append,capture,if_neg hnot,ih h.tail]
    rfl

end Oidc4acLab.Search
