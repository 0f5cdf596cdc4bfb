import Oidc4acLab.Json.Notation

/-! # Strings of code points

A string of a program that counts code points may hold surrogates; a page that is sent
holds none. The code units of a string are its UTF-16 form, where a pair of surrogates
and the code point they stand for are the same.
-/
namespace Oidc4acLab

abbrev CodePoint := Fin 0x110000

instance (priority := 2000) codePoints_neZero : NeZero 0x110000 := Nat.instNeZeroSucc

abbrev Str := List CodePoint

namespace Str
open Json (isLead isTrail)

def literal (s : String) : Str := s.toList.map fun c => Fin.ofNat 0x110000 c.toNat

theorem literal_eq {s : String} {cs : List Char} (h : s = String.ofList cs) :
    literal s = cs.map fun c => Fin.ofNat 0x110000 c.toNat := by
  rw [h,literal,String.toList_ofList]

def isSurrogate (p : CodePoint) : Bool := 0xD800 ≤ p.val && p.val ≤ 0xDFFF

/-- `text.encode("utf-8")` succeeds. -/
def Encodable (s : Str) : Prop := ∀ p ∈ s, isSurrogate p = false

instance (s : Str) : Decidable (Encodable s) :=
  decidable_of_iff ((s.all fun p => !isSurrogate p) = true) (by simp [Encodable])

/-- `len(text.encode("utf-8"))` -/
def utf8Length (s : Str) : ℕ :=
  (s.map fun p => if p.val < 0x80 then 1 else if p.val < 0x800 then 2 else if p.val < 0x10000 then 3 else 4).sum

/-- `str.isspace` -/
def isSpace (p : CodePoint) : Bool :=
  (9 ≤ p.val && p.val ≤ 13) || (28 ≤ p.val && p.val ≤ 32) ||
    ([0x85,0xA0,0x1680,0x2028,0x2029,0x202F,0x205F,0x3000] : List ℕ).contains p.val ||
    (0x2000 ≤ p.val && p.val ≤ 0x200A)

/-- `text.strip()` -/
def strip (s : Str) : Str := (s.dropWhile isSpace).rdropWhile isSpace

def pointUnits (p : CodePoint) : Text :=
  if p.val < 0x10000 then [UInt16.ofNat p.val]
  else [UInt16.ofNat (0xD800+(p.val-0x10000)/0x400),UInt16.ofNat (0xDC00+(p.val-0x10000)%0x400)]

def units (s : Str) : Text := s.flatMap pointUnits

def ofUnit (c : UInt16) : CodePoint := ⟨c.toNat,by have h := c.toNat_lt; omega⟩

def ofPair (c d : UInt16) : CodePoint := Fin.ofNat 0x110000 (0x10000+(c.toNat-0xD800)*0x400+(d.toNat-0xDC00))

def ofUnits : Text → Str
  | [] => []
  | [c] => [ofUnit c]
  | c :: d :: t => if isLead c && isTrail d then ofPair c d :: ofUnits t else ofUnit c :: ofUnits (d :: t)

theorem pointUnits_ofUnit (c : UInt16) : pointUnits (ofUnit c) = [c] := by
  have hc : (ofUnit c).val < 0x10000 := c.toNat_lt
  rw [pointUnits,if_pos hc]
  simp [ofUnit]

theorem pointUnits_ofPair {c d : UInt16} (hc : isLead c = true) (hd : isTrail d = true) :
    pointUnits (ofPair c d) = [c,d] := by
  simp only [isLead,isTrail,Bool.and_eq_true,decide_eq_true_eq,UInt16.le_iff_toNat_le] at hc hd
  have hlow : (0xD800:UInt16).toNat = 0xD800 ∧ (0xDBFF:UInt16).toNat = 0xDBFF ∧ (0xDC00:UInt16).toNat = 0xDC00 ∧
      (0xDFFF:UInt16).toNat = 0xDFFF := ⟨rfl,rfl,rfl,rfl⟩
  rw [hlow.1,hlow.2.1] at hc
  rw [hlow.2.2.1,hlow.2.2.2] at hd
  have hval : (ofPair c d).val = 0x10000+(c.toNat-0xD800)*0x400+(d.toNat-0xDC00) := by
    rw [ofPair,Fin.val_ofNat]
    omega
  have hlead : 0xD800+(0x10000+(c.toNat-0xD800)*0x400+(d.toNat-0xDC00)-0x10000)/0x400 = c.toNat := by omega
  have htrail : 0xDC00+(0x10000+(c.toNat-0xD800)*0x400+(d.toNat-0xDC00)-0x10000)%0x400 = d.toNat := by omega
  rw [pointUnits,hval,if_neg (by omega),hlead,htrail,UInt16.ofNat_toNat,UInt16.ofNat_toNat]

/-- Pairs are joined and split again. -/
@[simp] theorem units_ofUnits (t : Text) : units (ofUnits t) = t := by
  fun_induction ofUnits t with
  | case1 => rfl
  | case2 c => simp [units,pointUnits_ofUnit]
  | case3 c d t h ih =>
    rw [Bool.and_eq_true] at h
    rw [units,List.flatMap_cons,pointUnits_ofPair h.1 h.2,← units,ih]
    rfl
  | case4 c d t h ih =>
    rw [units,List.flatMap_cons,pointUnits_ofUnit,← units,ih]
    rfl

theorem ofUnits_append_cons {c : UInt16} (hlead : isLead c = false) (htrail : isTrail c = false) (a b : Text) :
    ofUnits (a ++ c :: b) = ofUnits a ++ ofUnit c :: ofUnits b := by
  have hcons : ofUnits (c :: b) = ofUnit c :: ofUnits b := by
    cases b with
    | nil => rfl
    | cons d b => rw [ofUnits,hlead,Bool.false_and,if_neg Bool.false_ne_true]
  fun_induction ofUnits a with
  | case1 => exact hcons
  | case2 x =>
    rw [List.singleton_append,ofUnits,htrail,Bool.and_false,if_neg Bool.false_ne_true,hcons]
    rfl
  | case3 x d t h ih =>
    rw [List.cons_append,List.cons_append,ofUnits,if_pos h,ih]
    rfl
  | case4 x d t h ih =>
    rw [List.cons_append,List.cons_append,ofUnits,if_neg h,← List.cons_append,ih]
    rfl

theorem isSurrogate_ofUnit (c : UInt16) : isSurrogate (ofUnit c) = (isLead c || isTrail c) := by
  have hlow : (0xD800:UInt16).toNat = 0xD800 ∧ (0xDBFF:UInt16).toNat = 0xDBFF ∧ (0xDC00:UInt16).toNat = 0xDC00 ∧
      (0xDFFF:UInt16).toNat = 0xDFFF := ⟨rfl,rfl,rfl,rfl⟩
  have hval : (ofUnit c).val = c.toNat := rfl
  rw [Bool.eq_iff_iff]
  simp only [isSurrogate,hval,isLead,isTrail,Bool.and_eq_true,Bool.or_eq_true,decide_eq_true_eq,
    UInt16.le_iff_toNat_le,hlow.1,hlow.2.1,hlow.2.2.1,hlow.2.2.2]
  omega

def Paired (t : Text) : Prop := Encodable (ofUnits t)

theorem paired_append_cons {c : UInt16} (hlead : isLead c = false) (htrail : isTrail c = false) (a b : Text) :
    Paired (a ++ c :: b) ↔ Paired a ∧ Paired b := by
  have hc : isSurrogate (ofUnit c) = false := by
    rw [isSurrogate_ofUnit,hlead,htrail]
    rfl
  rw [Paired,ofUnits_append_cons hlead htrail,Encodable]
  simp only [List.mem_append,List.mem_cons,or_imp,forall_and,forall_eq,hc,true_and]
  rfl

theorem paired_nil : Paired [] := by
  intro p hp
  cases hp

theorem paired_of_plain {t : Text} (h : ∀ c ∈ t, isLead c = false ∧ isTrail c = false) : Paired t := by
  induction t with
  | nil => exact paired_nil
  | cons c t ih =>
    have hc := h c List.mem_cons_self
    rw [← List.nil_append (c :: t),paired_append_cons hc.1 hc.2]
    exact ⟨paired_nil,ih fun d hd => h d (List.mem_cons_of_mem c hd)⟩

end Str
end Oidc4acLab
