import Oidc4acLab.Python.Json
import Oidc4acLab.Text.CodePoints

/-! # `json.loads` of bytes

The encoding of bytes is told from a byte order mark or from the zeros among the first four
of them. Lone surrogates pass the decoders. A pair of surrogates that was encoded one by
one has the same code units as the code point that the pair stands for.
-/
namespace Oidc4acLab.Python
open Text Str Scanner

inductive Encoding
  | utf8
  | utf16 (big : Bool)
  | utf32 (big : Bool)
  deriving DecidableEq

/-- `json.detect_encoding` and the length of the byte order mark. -/
def detectEncoding (b : List UInt8) : Encoding × ℕ :=
  if [0,0,0xFE,0xFF].isPrefixOf b then (.utf32 true,4)
  else if [0xFF,0xFE,0,0].isPrefixOf b then (.utf32 false,4)
  else if [0xFE,0xFF].isPrefixOf b then (.utf16 true,2)
  else if [0xFF,0xFE].isPrefixOf b then (.utf16 false,2)
  else if [0xEF,0xBB,0xBF].isPrefixOf b then (.utf8,3)
  else match b with
    | [x,y] => if x = 0 then (.utf16 true,0) else if y = 0 then (.utf16 false,0) else (.utf8,0)
    | x :: y :: z :: w :: _ =>
      if x = 0 then if y = 0 then (.utf32 true,0) else (.utf16 true,0)
      else if y = 0 then if z = 0 ∧ w = 0 then (.utf32 false,0) else (.utf16 false,0)
      else (.utf8,0)
    | _ => (.utf8,0)

def pointOf (n : ℕ) : Text := pointUnits (Fin.ofNat 0x110000 n)

/-- The bytes of a point that are to come, what the bytes read so far are worth and the least point that is
written in so many bytes. -/
def utf8From : ℕ → ℕ → ℕ → List UInt8 → Option Text
  | 0, _, _, [] => some []
  | _+1, _, _, [] => none
  | 0, _, _, a :: t =>
    if a < 0x80 then (utf8From 0 0 0 t).map (pointOf a.toNat ++ ·)
    else if a < 0xC0 then none
    else if a < 0xE0 then utf8From 1 (a.toNat-0xC0) 0x80 t
    else if a < 0xF0 then utf8From 2 (a.toNat-0xE0) 0x800 t
    else if a < 0xF8 then utf8From 3 (a.toNat-0xF0) 0x10000 t
    else none
  | owed+1, v, least, a :: t =>
    if a < 0x80 ∨ 0xC0 ≤ a then none
    else
      let v := 64*v+(a.toNat-0x80)
      if owed ≠ 0 then utf8From owed v least t
      else if least ≤ v ∧ v < 0x110000 then (utf8From 0 0 0 t).map (pointOf v ++ ·)
      else none

/-- The number that bytes stand for, the first or the last one leading. -/
def wordOf (big : Bool) (bytes : List UInt8) : ℕ :=
  (if big then bytes else bytes.reverse).foldl (fun v b => 256*v+b.toNat) 0

def utf16 (big : Bool) : List UInt8 → Option Text
  | [] => some []
  | [_] => none
  | a :: b :: t => (utf16 big t).map (UInt16.ofNat (wordOf big [a,b]) :: ·)

def utf32 (big : Bool) : List UInt8 → Option Text
  | [] => some []
  | a :: b :: c :: d :: t =>
    if wordOf big [a,b,c,d] < 0x110000 then (utf32 big t).map (pointOf (wordOf big [a,b,c,d]) ++ ·) else none
  | _ => none

/-- `b.decode(detect_encoding(b), "surrogatepass")` -/
def decodeBytes (b : List UInt8) : Option Text :=
  let e := detectEncoding b
  match e.1 with
  | .utf8 => utf8From 0 0 0 (b.drop e.2)
  | .utf16 big => utf16 big (b.drop e.2)
  | .utf32 big => utf32 big (b.drop e.2)

/-- `json.loads(b)` -/
def loadsBytes (py : Interpreter) (b : List UInt8) : Except Refusal Value :=
  match decodeBytes b with
  | none => .error .malformed
  | some t => loads py t

example : decodeBytes [0xF0,0x9F,0x98,0x80,0xED,0xA0,0x80] = some [0xD83D,0xDE00,0xD800] := by decide

def Ascii (c : UInt16) : Prop := 0 < c.toNat ∧ c.toNat < 128

instance (c : UInt16) : Decidable (Ascii c) := inferInstanceAs (Decidable (_ ∧ _))

def asciiBytes (t : Text) : List UInt8 := t.map fun c => UInt8.ofNat c.toNat

theorem toNat_byte {c : UInt16} (hc : Ascii c) : (UInt8.ofNat c.toNat).toNat = c.toNat := by
  have hlt : c.toNat < 128 := hc.2
  rw [UInt8.toNat_ofNat']
  exact Nat.mod_eq_of_lt (by omega)

theorem utf8From_ascii {t : Text} (h : ∀ c ∈ t, Ascii c) : utf8From 0 0 0 (asciiBytes t) = some t := by
  induction t with
  | nil => rfl
  | cons c t ih =>
    obtain ⟨hc,ht⟩ := List.forall_mem_cons.mp h
    have hbyte := toNat_byte hc
    have hlow : UInt8.ofNat c.toNat < 0x80 := by
      rw [UInt8.lt_iff_toNat_lt,hbyte]
      exact hc.2
    have hpoint : pointOf c.toNat = [c] := by
      have hlt := c.toNat_lt
      have hval : (Fin.ofNat 0x110000 c.toNat : CodePoint) = ofUnit c := by
        apply Fin.ext
        rw [Fin.val_ofNat]
        exact Nat.mod_eq_of_lt (by omega)
      rw [pointOf,hval,pointUnits_ofUnit]
    rw [asciiBytes,List.map_cons,← asciiBytes,utf8From,if_pos hlow,ih ht,Option.map_some,hbyte,hpoint]
    rfl

theorem mem_asciiBytes {t : Text} (h : ∀ c ∈ t, Ascii c) {b : UInt8} (hb : b ∈ asciiBytes t) :
    b ≠ 0 ∧ b.toNat < 128 := by
  obtain ⟨c,hc,rfl⟩ := List.mem_map.mp hb
  obtain ⟨hpos,hlt⟩ := h c hc
  have hbyte := toNat_byte (h c hc)
  rw [hbyte]
  refine ⟨?_,hlt⟩
  intro hzero
  rw [hzero] at hbyte
  exact absurd hbyte.symm hpos.ne'

theorem detectEncoding_ascii {t : Text} (h : ∀ c ∈ t, Ascii c) : detectEncoding (asciiBytes t) = (.utf8,0) := by
  have hbytes : ∀ b ∈ asciiBytes t, b ≠ 0 ∧ b.toNat < 128 := fun b => mem_asciiBytes h
  have hmark : ∀ m : List UInt8, (∃ b ∈ m, 128 ≤ b.toNat) → m.isPrefixOf (asciiBytes t) = false := by
    rintro m ⟨b,hb,hle⟩
    rw [← Bool.not_eq_true,List.isPrefixOf_iff_prefix]
    intro hpre
    exact absurd (hbytes b (hpre.subset hb)).2 (by omega)
  have hwide := hmark [0,0,0xFE,0xFF] (by decide)
  have hwide' := hmark [0xFF,0xFE,0,0] (by decide)
  have hpair := hmark [0xFE,0xFF] (by decide)
  have hpair' := hmark [0xFF,0xFE] (by decide)
  have hsignature := hmark [0xEF,0xBB,0xBF] (by decide)
  unfold detectEncoding
  simp only [hwide,hwide',hpair,hpair',hsignature,Bool.false_eq_true,if_false]
  split
  · next x y heq =>
    rw [heq] at hbytes
    rw [if_neg (hbytes x (by simp)).1,if_neg (hbytes y (by simp)).1]
  · next x y z w u heq =>
    rw [heq] at hbytes
    rw [if_neg (hbytes x (by simp)).1,if_neg (hbytes y (by simp)).1]
  · rfl

theorem decodeBytes_ascii {t : Text} (h : ∀ c ∈ t, Ascii c) : decodeBytes (asciiBytes t) = some t := by
  rw [decodeBytes,detectEncoding_ascii h]
  exact utf8From_ascii h

end Oidc4acLab.Python
