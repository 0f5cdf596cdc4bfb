import Mathlib.Data.Nat.Notation
import Mathlib.Tactic.Common

/-! # Base64 of the URL-safe alphabet

Three bytes are four symbols of six bits; one or two bytes at the end are two or three
symbols. Decoding takes both alphabets, skips whatever is no symbol and stops behind
padding that completes a group. Encoding and decoding what was padded is the identity.
-/
namespace Oidc4acLab.Base64

/-- The bits of a symbol of the standard alphabet. -/
def value (c : UInt8) : Option ℕ :=
  if 65 ≤ c ∧ c ≤ 90 then some (c.toNat-65)
  else if 97 ≤ c ∧ c ≤ 122 then some (c.toNat-71)
  else if 48 ≤ c ∧ c ≤ 57 then some (c.toNat+4)
  else if c = 43 then some 62
  else if c = 47 then some 63
  else none

def symbol (n : ℕ) : UInt8 :=
  if n < 26 then UInt8.ofNat (65+n)
  else if n < 52 then UInt8.ofNat (71+n)
  else if n < 62 then UInt8.ofNat (n-4)
  else if n = 62 then 45
  else 95

/-- `-_` become `+/`. -/
def standard (c : UInt8) : UInt8 := if c = 45 then 43 else if c = 95 then 47 else c

def encode : List UInt8 → List UInt8
  | [] => []
  | [a] => [symbol (a.toNat/4),symbol (a.toNat%4*16)]
  | [a,b] => [symbol (a.toNat/4),symbol (a.toNat%4*16+b.toNat/16),symbol (b.toNat%16*4)]
  | a :: b :: c :: bs =>
    symbol (a.toNat/4) :: symbol (a.toNat%4*16+b.toNat/16) :: symbol (b.toNat%16*4+c.toNat/64) ::
      symbol (c.toNat%64) :: encode bs

/-- `binascii.a2b_base64`: the position in the group, the bits that are left over and how many padding
characters followed the last symbol. -/
def decodeFrom : ℕ → ℕ → ℕ → List UInt8 → Option (List UInt8)
  | quad, _, _, [] => if quad = 0 then some [] else none
  | quad, left, pads, c :: cs =>
    if c = 61 then
      if 2 ≤ quad then if 4 ≤ quad+(pads+1) then some [] else decodeFrom quad left (pads+1) cs
      else decodeFrom quad left pads cs
    else match value c with
      | none => decodeFrom quad left pads cs
      | some v =>
        match quad with
        | 0 => decodeFrom 1 v 0 cs
        | 1 => (decodeFrom 2 (v%16) 0 cs).map (UInt8.ofNat (left*4+v/16) :: ·)
        | 2 => (decodeFrom 3 (v%4) 0 cs).map (UInt8.ofNat (left*16+v/4) :: ·)
        | _ => (decodeFrom 0 0 0 cs).map (UInt8.ofNat (left*64+v) :: ·)

/-- `base64.urlsafe_b64decode` of bytes. -/
def decode (s : List UInt8) : Option (List UInt8) := decodeFrom 0 0 0 (s.map standard)

/-- `-n % 4` -/
def padding (n : ℕ) : ℕ := (4-n%4)%4

def padded (s : List UInt8) : List UInt8 := s ++ List.replicate (padding s.length) 61

theorem symbol_spec : ∀ n < 64, value (standard (symbol n)) = some n ∧ standard (symbol n) ≠ 61 ∧
    symbol n < 128 ∧ symbol n ≠ 46 := by
  decide

section Symbols
variable {n : ℕ} (h : n < 64) (left pads : ℕ) (cs : List UInt8)
include h

theorem decodeFrom_first : decodeFrom 0 left pads (standard (symbol n) :: cs) = decodeFrom 1 n 0 cs := by
  obtain ⟨hvalue,hpad,-⟩ := symbol_spec n h
  rw [decodeFrom,if_neg hpad,hvalue]
  rfl

theorem decodeFrom_second : decodeFrom 1 left pads (standard (symbol n) :: cs) =
    (decodeFrom 2 (n%16) 0 cs).map (UInt8.ofNat (left*4+n/16) :: ·) := by
  obtain ⟨hvalue,hpad,-⟩ := symbol_spec n h
  rw [decodeFrom,if_neg hpad,hvalue]
  rfl

theorem decodeFrom_third : decodeFrom 2 left pads (standard (symbol n) :: cs) =
    (decodeFrom 3 (n%4) 0 cs).map (UInt8.ofNat (left*16+n/4) :: ·) := by
  obtain ⟨hvalue,hpad,-⟩ := symbol_spec n h
  rw [decodeFrom,if_neg hpad,hvalue]
  rfl

theorem decodeFrom_fourth : decodeFrom 3 left pads (standard (symbol n) :: cs) =
    (decodeFrom 0 0 0 cs).map (UInt8.ofNat (left*64+n) :: ·) := by
  obtain ⟨hvalue,hpad,-⟩ := symbol_spec n h
  rw [decodeFrom,if_neg hpad,hvalue]
  rfl

end Symbols

theorem ofNat_eq {a : UInt8} {n : ℕ} (h : n = a.toNat) : UInt8.ofNat n = a := by
  rw [h,UInt8.ofNat_toNat]

theorem decodeFrom_group (a b c : UInt8) (cs : List UInt8) :
    decodeFrom 0 0 0 (standard (symbol (a.toNat/4)) :: standard (symbol (a.toNat%4*16+b.toNat/16)) ::
      standard (symbol (b.toNat%16*4+c.toNat/64)) :: standard (symbol (c.toNat%64)) :: cs) =
      (decodeFrom 0 0 0 cs).map fun bs => a :: b :: c :: bs := by
  have ha : a.toNat < 256 := a.toNat_lt
  have hb : b.toNat < 256 := b.toNat_lt
  have hc : c.toNat < 256 := c.toNat_lt
  have h1 : UInt8.ofNat (a.toNat/4*4+(a.toNat%4*16+b.toNat/16)/16) = a := ofNat_eq (by omega)
  have h2 : UInt8.ofNat ((a.toNat%4*16+b.toNat/16)%16*16+(b.toNat%16*4+c.toNat/64)/4) = b := ofNat_eq (by omega)
  have h3 : UInt8.ofNat ((b.toNat%16*4+c.toNat/64)%4*64+c.toNat%64) = c := ofNat_eq (by omega)
  rw [decodeFrom_first (by omega),decodeFrom_second (by omega),decodeFrom_third (by omega),
    decodeFrom_fourth (by omega),h1,h2,h3,Option.map_map,Option.map_map]
  rfl

theorem decodeFrom_one (a : UInt8) :
    decodeFrom 0 0 0 [standard (symbol (a.toNat/4)),standard (symbol (a.toNat%4*16)),61,61] = some [a] := by
  have ha : a.toNat < 256 := a.toNat_lt
  have h1 : UInt8.ofNat (a.toNat/4*4+a.toNat%4*16/16) = a := ofNat_eq (by omega)
  rw [decodeFrom_first (by omega),decodeFrom_second (by omega),h1]
  rfl

theorem decodeFrom_two (a b : UInt8) :
    decodeFrom 0 0 0 [standard (symbol (a.toNat/4)),standard (symbol (a.toNat%4*16+b.toNat/16)),
      standard (symbol (b.toNat%16*4)),61] = some [a,b] := by
  have ha : a.toNat < 256 := a.toNat_lt
  have hb : b.toNat < 256 := b.toNat_lt
  have h1 : UInt8.ofNat (a.toNat/4*4+(a.toNat%4*16+b.toNat/16)/16) = a := ofNat_eq (by omega)
  have h2 : UInt8.ofNat ((a.toNat%4*16+b.toNat/16)%16*16+b.toNat%16*4/4) = b := ofNat_eq (by omega)
  rw [decodeFrom_first (by omega),decodeFrom_second (by omega),decodeFrom_third (by omega),h1,h2]
  rfl

/-- Decoding what was encoded and padded gives the bytes, for every length modulo three. -/
theorem decode_padded_encode (bs : List UInt8) : decode (padded (encode bs)) = some bs := by
  have hpadding : ∀ n, padding (n+4) = padding n := by
    intro n
    rw [padding,padding,Nat.add_mod_right]
  rw [decode,padded,List.map_append]
  fun_induction encode bs with
  | case1 => rfl
  | case2 a => exact decodeFrom_one a
  | case3 a b => exact decodeFrom_two a b
  | case4 a b c bs ih =>
    simp only [List.map_cons,List.length_cons,hpadding,List.cons_append]
    rw [decodeFrom_group,ih]
    rfl

theorem of_mem_encode {bs : List UInt8} {c : UInt8} (h : c ∈ encode bs) : c < 128 ∧ c ≠ 46 := by
  have hsymbol : ∀ {n}, n < 64 → c = symbol n → c < 128 ∧ c ≠ 46 := by
    rintro n hn rfl
    exact (symbol_spec n hn).2.2
  fun_induction encode bs with
  | case1 => cases h
  | case2 a =>
    have ha : a.toNat < 256 := a.toNat_lt
    simp only [List.mem_cons,List.not_mem_nil,or_false] at h
    rcases h with h | h
    · exact hsymbol (by omega) h
    · exact hsymbol (by omega) h
  | case3 a b =>
    have ha : a.toNat < 256 := a.toNat_lt
    have hb : b.toNat < 256 := b.toNat_lt
    simp only [List.mem_cons,List.not_mem_nil,or_false] at h
    rcases h with h | h | h
    · exact hsymbol (by omega) h
    · exact hsymbol (by omega) h
    · exact hsymbol (by omega) h
  | case4 a b c' bs ih =>
    have ha : a.toNat < 256 := a.toNat_lt
    have hb : b.toNat < 256 := b.toNat_lt
    have hc : c'.toNat < 256 := c'.toNat_lt
    simp only [List.mem_cons] at h
    rcases h with h | h | h | h | h
    · exact hsymbol (by omega) h
    · exact hsymbol (by omega) h
    · exact hsymbol (by omega) h
    · exact hsymbol (by omega) h
    · exact ih h

end Oidc4acLab.Base64
