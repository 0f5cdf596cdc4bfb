import Mathlib.Data.List.DropRight
import Mathlib.Data.Nat.Notation
import Mathlib.Tactic.Ring

/-! # Strings of UTF-16 code units

A script string is a list of code units, so lone surrogates are strings as well.
Trimming, splitting and digits are those of the script language.
-/
namespace Oidc4acLab

abbrev Text := List UInt16

/-- The code units of a literal from the Basic Multilingual Plane. -/
def js (s : String) : Text := s.toList.map fun c => UInt16.ofNat c.toNat

theorem js_eq {s : String} {cs : List Char} (h : s = String.ofList cs) : js s = cs.map fun c => UInt16.ofNat c.toNat := by
  rw [h,js,String.toList_ofList]

namespace Text

/-- White space and line terminators, as `String.prototype.trim` removes them. -/
def isSpace (c : UInt16) : Bool :=
  [9,10,11,12,13,32,160,0x1680,0x2028,0x2029,0x202F,0x205F,0x3000,0xFEFF].contains c ||
    (0x2000 ≤ c && c ≤ 0x200A)

def isNewline (c : UInt16) : Bool := c == 10 || c == 13

theorem not_newline_of_not_space {c : UInt16} (h : isSpace c = false) : isNewline c = false := by
  rw [isNewline,Bool.or_eq_false_iff,beq_eq_false_iff_ne,beq_eq_false_iff_ne]
  constructor
  · rintro rfl
    exact absurd h (by decide)
  · rintro rfl
    exact absurd h (by decide)

def trim (t : Text) : Text := (t.dropWhile isSpace).rdropWhile isSpace

/-- `text.split(separator)` for a separator of one code unit. -/
def split (separator : UInt16) (t : Text) : List Text := t.splitOn separator

/-- A property of all members of a list is decided along the list, and not for all units. -/
scoped instance (priority := 2000) decidableMembers {α : Type} {p : α → Prop} [DecidablePred p] (l : List α) :
    Decidable (∀ x ∈ l, p x) :=
  List.decidableBAll p l

def join (separator : Text) (ts : List Text) : Text := (ts.intersperse separator).flatten

theorem join_singleton (separator t : Text) : join separator [t] = t := by
  simp [join]

theorem join_cons_cons (separator t t' : Text) (ts : List Text) :
    join separator (t :: t' :: ts) = t ++ (separator ++ join separator (t' :: ts)) := by
  simp [join]

theorem mem_join {separator : Text} {ts : List Text} {c : UInt16} (h : c ∈ join separator ts) :
    c ∈ separator ∨ ∃ t ∈ ts, c ∈ t := by
  induction ts with
  | nil => cases h
  | cons t ts ih =>
    cases ts with
    | nil =>
      rw [join_singleton] at h
      exact Or.inr ⟨t,List.mem_cons_self,h⟩
    | cons t' ts =>
      rw [join_cons_cons,List.mem_append,List.mem_append] at h
      rcases h with h | h | h
      · exact Or.inr ⟨t,List.mem_cons_self,h⟩
      · exact Or.inl h
      · exact (ih h).imp_right fun ⟨u,hu,hc⟩ => ⟨u,List.mem_cons_of_mem t hu,hc⟩

@[simp] theorem trim_nil : trim [] = [] := rfl

theorem trim_eq_self {t : Text} (h : ∀ c ∈ t, isSpace c = false) : trim t = t := by
  have hl : t.dropWhile isSpace = t := by
    rw [List.dropWhile_eq_self_iff]
    intro h0
    simp [h _ (List.getElem_mem h0)]
  rw [trim,hl,List.rdropWhile_eq_self_iff]
  intro h0
  simp [h _ (List.getLast_mem h0)]

theorem mem_of_mem_trim {t : Text} {c : UInt16} (h : c ∈ trim t) : c ∈ t :=
  (List.dropWhile_suffix _).subset ((List.rdropWhile_prefix _ _).subset h)

def isDigit (c : UInt16) : Bool := 48 ≤ c && c ≤ 57

/-- The number that a run of decimal digits denotes. -/
def digitsValue (ds : Text) : ℕ := ds.foldl (fun v c => 10*v + (c.toNat-48)) 0

/-- The decimal digits of a number. -/
def digits (n : ℕ) : Text := (Nat.toDigits 10 n).map fun c => UInt16.ofNat c.toNat

theorem digits_ne_nil (n : ℕ) : digits n ≠ [] := by
  intro h
  exact Nat.toDigits_ne_nil (List.map_eq_nil_iff.mp h)

theorem unit_of_isDigit {c : Char} (h : c.isDigit = true) :
    (UInt16.ofNat c.toNat).toNat = c.toNat ∧ isDigit (UInt16.ofNat c.toNat) = true := by
  have hb : 48 ≤ c.toNat ∧ c.toNat ≤ 57 := by
    simp only [Char.isDigit,Bool.and_eq_true,decide_eq_true_eq] at h
    exact h
  have ht : (UInt16.ofNat c.toNat).toNat = c.toNat := by
    rw [UInt16.toNat_ofNat']
    exact Nat.mod_eq_of_lt (by omega)
  refine ⟨ht,?_⟩
  simp only [isDigit,Bool.and_eq_true,decide_eq_true_eq,UInt16.le_iff_toNat_le,ht]
  exact hb

theorem isDigit_of_mem_digits {n : ℕ} {c : UInt16} (h : c ∈ digits n) : isDigit c = true := by
  obtain ⟨d,hd,rfl⟩ := List.mem_map.mp h
  exact (unit_of_isDigit (Nat.isDigit_of_mem_toDigits (by decide) (by decide) hd)).2

theorem head_toDigits {n : ℕ} (h : 0 < n) : (Nat.toDigits 10 n).head? ≠ some '0' := by
  induction n using Nat.strongRecOn with
  | _ n ih =>
    by_cases hn : n < 10
    · have hsmall : ∀ k < 10, 0 < k → [Nat.digitChar k].head? ≠ some '0' := by decide
      rw [Nat.toDigits_of_lt_base hn]
      exact hsmall n hn h
    · have hle : 10 ≤ n := by omega
      rw [Nat.toDigits_of_base_le (by decide) hle,List.head?_append_of_ne_nil _ Nat.toDigits_ne_nil]
      exact ih (n/10) (by omega) (by omega)

theorem head_digits {n : ℕ} (h : 0 < n) : (digits n).head? ≠ some 48 := by
  intro h0
  rw [digits,List.head?_map,Option.map_eq_some_iff] at h0
  obtain ⟨c,hc,h48⟩ := h0
  have hmem : c ∈ Nat.toDigits 10 n := List.mem_of_mem_head? hc
  have hdigit := (unit_of_isDigit (Nat.isDigit_of_mem_toDigits (by decide) (by decide) hmem)).1
  rw [h48] at hdigit
  have hzero : c = '0' := by
    apply Char.ext
    apply UInt32.toNat_inj.mp
    exact hdigit.symm
  exact head_toDigits h (hzero ▸ hc)

@[simp] theorem digitsValue_digits (n : ℕ) : digitsValue (digits n) = n := by
  have hmap : ∀ (cs : List Char) (v : ℕ), (∀ c ∈ cs, c.isDigit = true) →
      (cs.map fun c => UInt16.ofNat c.toNat).foldl (fun v c => 10*v + (c.toNat-48)) v =
        Nat.ofDigitChars 10 cs v := by
    intro cs
    induction cs with
    | nil => intro v _; rfl
    | cons c cs ih =>
      intro v h
      have hc := unit_of_isDigit (h c List.mem_cons_self)
      rw [List.map_cons,List.foldl_cons,hc.1,ih _ (fun d hd => h d (List.mem_cons_of_mem c hd)),
        Nat.ofDigitChars_cons]
      rfl
  rw [digitsValue,digits,hmap _ 0 (fun c hc => Nat.isDigit_of_mem_toDigits (by decide) (by decide) hc),
    Nat.ofDigitChars_ten_toDigits]

theorem digitsValue_append_zeros (ds : Text) (z : ℕ) :
    digitsValue (ds ++ List.replicate z 48) = digitsValue ds * 10^z := by
  induction z with
  | zero => simp
  | succ z ih =>
    have h : digitsValue (ds ++ List.replicate (z+1) 48) =
        10*digitsValue (ds ++ List.replicate z 48) := by
      rw [List.replicate_succ',← List.append_assoc,digitsValue,List.foldl_append]
      rfl
    rw [h,ih,Nat.pow_succ]
    ring

theorem digitsValue_zeros_append (ds : Text) (z : ℕ) :
    digitsValue (List.replicate z 48 ++ ds) = digitsValue ds := by
  have hz : digitsValue (List.replicate z 48) = 0 := by
    have h := digitsValue_append_zeros [] z
    rw [List.nil_append] at h
    rw [h]
    exact Nat.zero_mul _
  rw [digitsValue,List.foldl_append,← digitsValue,hz]
  rfl

end Text
end Oidc4acLab
