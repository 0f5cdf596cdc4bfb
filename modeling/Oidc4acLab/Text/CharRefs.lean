import Oidc4acLab.Json.Scanner
import Oidc4acLab.Text.CodePoints

/-! # Character references

`escape` writes five characters as references and `unescape` decodes the references of a
text in one pass. The tables of names and of numbers that stand for something else are
parameters; what is escaped needs five of their entries.
-/
namespace Oidc4acLab.Html
open Str Scanner

/-- `markupsafe.escape` of a character. -/
def escapePoint (p : CodePoint) : Str :=
  if p = 38 then literal "&amp;"
  else if p = 60 then literal "&lt;"
  else if p = 62 then literal "&gt;"
  else if p = 34 then literal "&#34;"
  else if p = 39 then literal "&#39;"
  else [p]

def escape (s : Str) : Str := s.flatMap escapePoint

/-- `html5`, `_invalid_charrefs` and `_invalid_codepoints` of the module `html`. -/
structure CharRefs where
  html5 : Str → Option Str
  invalidCharrefs : ℕ → Option Str
  invalidCodepoints : ℕ → Bool
  amp : html5 (literal "amp;") = some [38]
  lt : html5 (literal "lt;") = some [60]
  gt : html5 (literal "gt;") = some [62]
  valid : ∀ n, n = 34 ∨ n = 39 → invalidCharrefs n = none ∧ invalidCodepoints n = false

def isDecimal (p : CodePoint) : Bool := 48 ≤ p.val && p.val ≤ 57

def isHex (p : CodePoint) : Bool :=
  isDecimal p || (65 ≤ p.val && p.val ≤ 70) || (97 ≤ p.val && p.val ≤ 102)

/-- `[^\t\n\f <&#;]` -/
def isNamePart (p : CodePoint) : Bool := !([9,10,12,32,60,38,35,59] : List CodePoint).contains p

/-- What a group takes that has some `body` and then `;?`, and what it leaves. -/
def closed (start body rest : Str) : Option (Str × Str) :=
  if body = [] then none
  else if rest.head? = some 59 then some (start ++ (body ++ [59]),rest.tail)
  else some (start ++ body,rest)

/-- The group behind `&` in `&(#[0-9]+;?|#[xX][0-9a-fA-F]+;?|[^\t\n\f <&#;]{1,32};?)`. -/
def charref (t : Str) : Option (Str × Str) :=
  if t.head? = some 35 then
    match closed [35] (t.tail.takeWhile isDecimal) (t.tail.dropWhile isDecimal) with
    | some m => some m
    | none =>
      match t.tail with
      | [] => none
      | x :: r => if x = 120 ∨ x = 88 then closed [35,x] (r.takeWhile isHex) (r.dropWhile isHex) else none
  else closed [] ((t.take 32).takeWhile isNamePart) (t.drop ((t.take 32).takeWhile isNamePart).length)

def digitValue (p : CodePoint) : ℕ :=
  if p.val ≤ 57 then p.val-48 else if p.val ≤ 70 then p.val-55 else p.val-87

/-- `int(ds, base)` -/
def numeral (base : ℕ) (ds : Str) : ℕ := ds.foldl (fun v p => base*v+digitValue p) 0

/-- `s.rstrip(";")` -/
def stripped (s : Str) : Str := s.rdropWhile fun p => decide (p = 59)

variable (refs : CharRefs)

def numbered (num : ℕ) : Str :=
  match refs.invalidCharrefs num with
  | some r => r
  | none =>
    if 0xD800 ≤ num ∧ num ≤ 0xDFFF ∨ 0x10FFFF < num then [0xFFFD]
    else if refs.invalidCodepoints num then []
    else [Fin.ofNat 0x110000 num]

/-- The longest beginning of two characters or more that is a name is replaced. -/
def named (s : Str) : Str :=
  match refs.html5 s with
  | some r => r
  | none =>
    (((List.range s.length).reverse.filter (2 ≤ ·)).findSome? fun x =>
      (refs.html5 (s.take x)).map (· ++ s.drop x)).getD (38 :: s)

variable (limit : ℕ)

def replaceCharref (s : Str) : Except Refusal Str :=
  if s.head? = some 35 then
    if s.tail.head? = some 120 ∨ s.tail.head? = some 88 then .ok (numbered refs (numeral 16 (stripped (s.drop 2))))
    else if limit < (stripped s.tail).length then .error .digits
    else .ok (numbered refs (numeral 10 (stripped s.tail)))
  else .ok (named refs s)

def unescapeFrom : ℕ → Str → Except Refusal Str
  | 0, _ => .ok []
  | _+1, [] => .ok []
  | n+1, p :: t =>
    if p = 38 then
      match charref t with
      | none => (unescapeFrom n t).map (p :: ·)
      | some (s,rest) => do
        let r ← replaceCharref refs limit s
        let u ← unescapeFrom n rest
        return r ++ u
    else (unescapeFrom n t).map (p :: ·)

def unescape (t : Str) : Except Refusal Str := unescapeFrom refs limit t.length t

section Escaped
variable {refs limit}

/-- What stands behind the ampersand of a reference to a character. -/
structure Refers (refs : CharRefs) (limit : ℕ) (w : Str) (p : CodePoint) : Prop where
  taken : ∀ r, charref (w ++ r) = some (w,r)
  replaced : replaceCharref refs limit w = .ok [p]

theorem refers_name {w : Str} {p : CodePoint} (h : refs.html5 w = some [p]) (hhash : w.head? ≠ some 35)
    (htaken : ∀ r, charref (w ++ r) = some (w,r)) : Refers refs limit w p := by
  refine ⟨htaken,?_⟩
  rw [replaceCharref,if_neg hhash,named,h]

theorem refers_number {n : ℕ} {w : Str} (hn : n = 34 ∨ n = 39) (hlimit : 2 ≤ limit) (hhash : w.head? = some 35)
    (hhex : ¬ (w.tail.head? = some 120 ∨ w.tail.head? = some 88)) (hlength : (stripped w.tail).length = 2)
    (hnumeral : numeral 10 (stripped w.tail) = n) (htaken : ∀ r, charref (w ++ r) = some (w,r)) :
    Refers refs limit w (Fin.ofNat 0x110000 n) := by
  obtain ⟨hcharref,hcodepoint⟩ := refs.valid n hn
  refine ⟨htaken,?_⟩
  rw [replaceCharref,if_pos hhash,if_neg hhex,hlength,if_neg (by omega),hnumeral,numbered,hcharref,hcodepoint]
  simp only
  rw [if_neg (by omega),if_neg Bool.false_ne_true]

theorem escapePoint_cases (hlimit : 2 ≤ limit) (p : CodePoint) :
    p ≠ 38 ∧ escapePoint p = [p] ∨ ∃ w, escapePoint p = 38 :: w ∧ Refers refs limit w p := by
  rw [escapePoint]
  split_ifs with hamp hlt hgt hquot hapos
  · rw [hamp]
    exact Or.inr ⟨literal "amp;",rfl,refers_name refs.amp (by decide) fun r => rfl⟩
  · rw [hlt]
    exact Or.inr ⟨literal "lt;",rfl,refers_name refs.lt (by decide) fun r => rfl⟩
  · rw [hgt]
    exact Or.inr ⟨literal "gt;",rfl,refers_name refs.gt (by decide) fun r => rfl⟩
  · rw [hquot]
    exact Or.inr ⟨literal "#34;",rfl,
      refers_number (Or.inl rfl) hlimit rfl (by decide) rfl rfl fun r => rfl⟩
  · rw [hapos]
    exact Or.inr ⟨literal "#39;",rfl,
      refers_number (Or.inr rfl) hlimit rfl (by decide) rfl rfl fun r => rfl⟩
  · exact Or.inl ⟨hamp,rfl⟩

theorem unescape_escape (hlimit : 2 ≤ limit) (s : Str) : unescape refs limit (escape s) = .ok s := by
  have hfrom : ∀ n, (escape s).length ≤ n → unescapeFrom refs limit n (escape s) = .ok s := by
    induction s with
    | nil =>
      intro n _
      cases n <;> rfl
    | cons p s ih =>
      intro n hn
      rw [escape,List.flatMap_cons,← escape] at hn ⊢
      rcases @escapePoint_cases refs limit hlimit p with ⟨hp,he⟩ | ⟨w,he,hw⟩
      · rw [he,List.singleton_append,List.length_cons] at hn
        obtain ⟨n,rfl⟩ := Nat.exists_eq_add_of_le' (Nat.lt_of_lt_of_le (Nat.succ_pos _) hn)
        rw [he,List.singleton_append,unescapeFrom,if_neg hp,ih n (by omega)]
        rfl
      · rw [he,List.cons_append,List.length_cons,List.length_append] at hn
        obtain ⟨n,rfl⟩ := Nat.exists_eq_add_of_le' (Nat.lt_of_lt_of_le (Nat.succ_pos _) hn)
        have hrest := ih n (by omega)
        rw [he,List.cons_append,unescapeFrom,if_pos rfl,hw.taken]
        simp only [hw.replaced,hrest]
        rfl
  exact hfrom _ (Nat.le_refl _)

theorem not_mem_escape (s : Str) : (60 : CodePoint) ∉ escape s := by
  intro h
  obtain ⟨p,-,hp⟩ := List.mem_flatMap.mp h
  rw [escapePoint] at hp
  split_ifs at hp with hamp hlt hgt hquot hapos
  · revert hp
    decide +kernel
  · revert hp
    decide +kernel
  · revert hp
    decide +kernel
  · revert hp
    decide +kernel
  · revert hp
    decide +kernel
  · exact hlt (List.mem_singleton.mp hp).symm

end Escaped

end Oidc4acLab.Html
