import Mathlib.Data.Nat.Notation

/-! # Decimal digit strings

A nonempty run of ASCII digits denotes a natural number. Reading back what
`Nat.toDigits` prints is the identity, also behind leading zeros.
-/
namespace Oidc4acLab.Decimal

def parseDigits (ds : List Char) : Option ℕ :=
  if ds ≠ [] ∧ ds.all Char.isDigit then some (Nat.ofDigitChars 10 ds 0) else none

theorem toDigits_all_isDigit (n : ℕ) : (Nat.toDigits 10 n).all Char.isDigit = true := by
  rw [List.all_eq_true]
  intro c hc
  exact Nat.isDigit_of_mem_toDigits (by decide) (by decide) hc

@[simp] theorem parseDigits_toDigits (n : ℕ) : parseDigits (Nat.toDigits 10 n) = some n := by
  have hne : Nat.toDigits 10 n ≠ [] := Nat.toDigits_ne_nil
  rw [parseDigits, if_pos ⟨hne,toDigits_all_isDigit n⟩, Nat.ofDigitChars_ten_toDigits]

theorem toDigits_head_isDigit {n : ℕ} {c : Char} {cs : List Char}
    (h : Nat.toDigits 10 n = c :: cs) : c.isDigit = true := by
  apply Nat.isDigit_of_mem_toDigits (b := 10) (n := n) (by decide) (by decide)
  rw [h]
  exact List.mem_cons_self

end Oidc4acLab.Decimal
