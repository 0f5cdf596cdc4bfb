import Oidc4acLab.Number.Binary64
import Oidc4acLab.Text.CodeUnits
import Mathlib.Data.Nat.Log

/-! # Numbers in decimal notation

`Number.toText` is the shortest decimal that reads back as the number, the
closest of them, and of two closest the even one. Reading is correctly rounded,
so what is printed for a finite number reads back as this number.
-/
namespace Oidc4acLab

/-- `[-]whole[.fraction][e[±]exponent]` -/
structure Numeral where
  negative : Bool
  whole : Text
  fraction : Text
  exponent : ℤ
  deriving DecidableEq

namespace Numeral
open Text

def value (n : Numeral) : Number :=
  .ofIndex n.negative
    (Binary64.ofDecimal (digitsValue (n.whole ++ n.fraction)) (n.exponent-n.fraction.length))

def scanMinus : Text → Bool × Text
  | [] => (false,[])
  | c :: t => if c = 45 then (true,t) else (false,c :: t)

def scanDigits (t : Text) : Text × Text := (t.takeWhile isDigit,t.dropWhile isDigit)

def scanFraction : Text → Text × Text
  | [] => ([],[])
  | c :: t =>
    if c = 46 ∧ (scanDigits t).1 ≠ [] then scanDigits t else ([],c :: t)

def scanExponent : Text → ℤ × Text
  | [] => (0,[])
  | c :: t =>
    let s := if t.head? = some 43 then (false,t.tail) else scanMinus t
    let d := scanDigits s.2
    if (c = 101 ∨ c = 69) ∧ d.1 ≠ [] then
      ((if s.1 then -(digitsValue d.1) else digitsValue d.1),d.2)
    else (0,c :: t)

/-- The longest numeral at the start of a text, and what follows it. -/
def scan (t : Text) : Numeral × Text :=
  let s := scanMinus t
  let w := scanDigits s.2
  let f := scanFraction w.2
  let e := scanExponent f.2
  (⟨s.1,w.1,f.1,e.1⟩,e.2)

def read (t : Text) : Option Numeral :=
  if (scan t).2 = [] ∧ (scan t).1.whole ++ (scan t).1.fraction ≠ [] then some (scan t).1 else none

theorem scanDigits_append {ds t : Text} (hds : ∀ c ∈ ds, isDigit c = true)
    (ht : ∀ c, t.head? = some c → isDigit c = false) : scanDigits (ds ++ t) = (ds,t) := by
  have htake : t.takeWhile isDigit = [] := by
    cases t with
    | nil => rfl
    | cons c t => exact List.takeWhile_cons_of_neg (by simp [ht c rfl])
  have hdrop : t.dropWhile isDigit = t := by
    cases t with
    | nil => rfl
    | cons c t => exact List.dropWhile_cons_of_neg (by simp [ht c rfl])
  rw [scanDigits,List.takeWhile_append_of_pos hds,List.dropWhile_append_of_pos hds,htake,hdrop,
    List.append_nil]

theorem scanDigits_all {ds : Text} (hds : ∀ c ∈ ds, isDigit c = true) :
    scanDigits ds = (ds,[]) := by
  have h := scanDigits_append (t := []) hds (by simp)
  rwa [List.append_nil] at h

end Numeral

namespace Number
open Binary64 Text

/-- The `n` with `10^(n-1) ≤ x < 10^n` for the number at index `k`. -/
def decimalPoint (k : ℕ) : ℤ := Nat.log 10 (magnitude k*10^324/2^scale)+1-324

/-- Decimals of `d` digits next to the number at index `k`, the closer one first. -/
def candidates (k d : ℕ) : List (ℕ × ℤ) :=
  let e := decimalPoint k-d
  let num := if 0 ≤ e then magnitude k else magnitude k*10^(-e).toNat
  let den := if 0 ≤ e then 2^scale*10^e.toNat else 2^scale
  let s := num/den
  let r := num%den
  let below := (s,e)
  -- `9…9` rounds up to a power of ten, whose only digit is the first
  let above := if s+1 = 10^d then (1,e+d) else (s+1,e)
  if 2*r < den ∨ (2*r = den ∧ s%2 = 0) then [below,above] else [above,below]

def readsBack (k : ℕ) (c : ℕ × ℤ) : Bool := ofDecimal c.1 c.2 == k

/-- The fewest digits that read back; seventeen are enough, and were they not the whole
expansion reads back. -/
def shortest (k : ℕ) : ℕ × ℤ :=
  (((List.range 17).flatMap fun d => candidates k (d+1)).find? (readsBack k)).getD
    (magnitude k*5^scale,-scale)

theorem ofDecimal_shortest (k : ℕ) : ofDecimal (shortest k).1 (shortest k).2 = k := by
  rw [shortest]
  cases h : ((List.range 17).flatMap fun d => candidates k (d+1)).find? (readsBack k) with
  | none => exact ofDecimal_expansion k
  | some c =>
    have hc := List.find?_some h
    exact beq_iff_eq.mp hc

/-- The parts that `Number::toString` prints for the digits `ds` and the exponent `e` of the
last digit: before the point, after the point, and the exponent. -/
def layout (ds : Text) (e : ℤ) : Text × Text × Option ℤ :=
  let n := e+ds.length
  if 0 ≤ e ∧ n ≤ 21 then (ds ++ List.replicate e.toNat 48,[],none)
  else if 0 < n ∧ n ≤ 21 then (ds.take n.toNat,ds.drop n.toNat,none)
  else if -6 < n ∧ n ≤ 0 then ([48],List.replicate (-n).toNat 48 ++ ds,none)
  else (ds.take 1,ds.tail,some (n-1))

def printFraction (f : Text) : Text := if f = [] then [] else 46 :: f

def printExponent : Option ℤ → Text
  | none => []
  | some p => 101 :: (if 0 < p then 43 else 45) :: digits p.natAbs

def print (l : Text × Text × Option ℤ) : Text := l.1 ++ (printFraction l.2.1 ++ printExponent l.2.2)

/-- `String(x)` -/
def toText : Number → Text
  | .nan => js "NaN"
  | .infinity negative => js (if negative then "-Infinity" else "Infinity")
  | .finite i =>
    let s := shortest i.1.natAbs
    let t := if i.1 = 0 then [48] else print (layout (digits s.1) s.2)
    if i.1 < 0 then 45 :: t else t

/-- `Number(text)` for the content of a number control, which holds no numeral of another
kind. -/
def ofText (t : Text) : Number :=
  match Numeral.read t with
  | some n => n.value
  | none => .nan

theorem layout_value {ds : Text} {e : ℤ} (hds : ds ≠ []) :
    ofDecimal (digitsValue ((layout ds e).1 ++ (layout ds e).2.1))
      ((layout ds e).2.2.getD 0-(layout ds e).2.1.length) = ofDecimal (digitsValue ds) e := by
  have hlen : 0 < ds.length := List.length_pos_iff.mpr hds
  rw [layout]
  split_ifs with h1 h2 h3
  · have he : (e.toNat:ℤ) = e := Int.toNat_of_nonneg h1.1
    have hz := ofDecimal_mul_pow (digitsValue ds) e.toNat
    rw [he] at hz
    simpa [digitsValue_append_zeros] using hz
  · have hn : e < 0 := by omega
    have hlast : (0:ℤ)-((ds.drop (e+ds.length).toNat).length:ℕ) = e := by
      rw [List.length_drop]
      omega
    simp only [List.take_append_drop,Option.getD_none,hlast]
  · have hlast : (0:ℤ)-((List.replicate (-(e+ds.length)).toNat 48 ++ ds).length:ℕ) = e := by
      rw [List.length_append,List.length_replicate]
      omega
    have hv := digitsValue_zeros_append ds ((-(e+ds.length)).toNat+1)
    rw [List.replicate_succ,List.cons_append] at hv
    simp only [List.cons_append,List.nil_append,Option.getD_none,hlast,hv]
  · have hlast : e+ds.length-1-(ds.tail.length:ℕ) = e := by
      rw [List.length_tail]
      omega
    have hsplit : ds.take 1 ++ ds.tail = ds := by
      rw [← List.drop_one,List.take_append_drop]
    simp only [Option.getD_some,hlast,hsplit]

theorem layout_whole_ne_nil {ds : Text} {e : ℤ} (hds : ds ≠ []) : (layout ds e).1 ≠ [] := by
  have hlen : 0 < ds.length := List.length_pos_iff.mpr hds
  rw [layout]
  split_ifs with h1 h2 h3
  · exact List.append_ne_nil_of_left_ne_nil hds _
  · rw [Ne,List.take_eq_nil_iff,not_or]
    exact ⟨by omega,hds⟩
  · exact List.cons_ne_nil _ _
  · rw [Ne,List.take_eq_nil_iff,not_or]
    exact ⟨by omega,hds⟩

theorem scanExponent_printExponent (p : Option ℤ) :
    Numeral.scanExponent (printExponent p) = (p.getD 0,[]) := by
  cases p with
  | none => rfl
  | some p =>
    have hd : Numeral.scanDigits (digits p.natAbs) = (digits p.natAbs,[]) :=
      Numeral.scanDigits_all fun c => isDigit_of_mem_digits
    have hne := digits_ne_nil p.natAbs
    by_cases h : 0 < p
    · have hp : (p.natAbs:ℤ) = p := by omega
      simp [printExponent,Numeral.scanExponent,h,hd,hne,hp]
    · obtain ⟨n,rfl⟩ : ∃ n : ℕ, p = -n := ⟨p.natAbs,by omega⟩
      rw [Int.natAbs_neg,Int.natAbs_natCast] at hd hne
      simp [printExponent,Numeral.scanExponent,Numeral.scanMinus,hd,hne]

theorem head_printExponent {p : Option ℤ} {c : UInt16}
    (h : (printExponent p).head? = some c) : c = 101 := by
  cases p with
  | none => simp [printExponent] at h
  | some p => simpa [printExponent] using h.symm

theorem scan_fraction {f x : Text} (hf : ∀ c ∈ f, isDigit c = true)
    (hx : ∀ c, x.head? = some c → c = 101) :
    Numeral.scanFraction (printFraction f ++ x) = (f,x) := by
  have hstop : ∀ c, x.head? = some c → isDigit c = false := by
    intro c hc
    rw [hx c hc]
    decide
  by_cases h : f = []
  · subst h
    cases x with
    | nil => rfl
    | cons c x =>
      have hc := hx c rfl
      simp [printFraction,Numeral.scanFraction,hc]
  · rw [printFraction,if_neg h,List.cons_append,Numeral.scanFraction,
      Numeral.scanDigits_append hf hstop,if_pos ⟨rfl,h⟩]

theorem scan_print {l : Text × Text × Option ℤ} (negative : Bool) (hw : l.1 ≠ [])
    (hl : ∀ c, c ∈ l.1 ∨ c ∈ l.2.1 → isDigit c = true) :
    Numeral.scan (if negative then 45 :: print l else print l) =
      (⟨negative,l.1,l.2.1,l.2.2.getD 0⟩,[]) := by
  obtain ⟨w,f,p⟩ := l
  simp only at hw hl
  have hminus : Numeral.scanMinus (if negative then 45 :: print (w,f,p) else print (w,f,p)) =
      (negative,print (w,f,p)) := by
    cases negative with
    | true => rfl
    | false =>
      obtain ⟨c,w',rfl⟩ := List.exists_cons_of_ne_nil hw
      have hc : c ≠ 45 := by
        rintro rfl
        exact absurd (hl 45 (Or.inl List.mem_cons_self)) (by decide)
      simp [print,Numeral.scanMinus,hc]
  have hstop : ∀ c, (printFraction f ++ printExponent p).head? = some c → isDigit c = false := by
    intro c hc
    by_cases h : f = []
    · rw [printFraction,if_pos h,List.nil_append] at hc
      rw [head_printExponent hc]
      decide
    · rw [printFraction,if_neg h] at hc
      simp only [List.cons_append,List.head?_cons,Option.some.injEq] at hc
      rw [← hc]
      decide
  have hdigits : Numeral.scanDigits (print (w,f,p)) = (w,printFraction f ++ printExponent p) :=
    Numeral.scanDigits_append (fun c hc => hl c (Or.inl hc)) hstop
  have hfraction := scan_fraction (f := f) (x := printExponent p)
    (fun c hc => hl c (Or.inr hc)) (fun c => head_printExponent)
  simp only [Numeral.scan,hminus,hdigits,hfraction,scanExponent_printExponent]

theorem layout_digits {ds : Text} {e : ℤ} (hds : ∀ c ∈ ds, isDigit c = true) :
    ∀ c, c ∈ (layout ds e).1 ∨ c ∈ (layout ds e).2.1 → isDigit c = true := by
  intro c hc
  rw [layout] at hc
  have hzero : isDigit 48 = true := by decide
  split_ifs at hc with h1 h2 h3
  · simp only [List.mem_append,List.mem_replicate,List.not_mem_nil,or_false] at hc
    rcases hc with hc | ⟨-,rfl⟩
    · exact hds c hc
    · exact hzero
  · rcases hc with hc | hc
    · exact hds c (List.mem_of_mem_take hc)
    · exact hds c (List.mem_of_mem_drop hc)
  · simp only [List.mem_append,List.mem_replicate,List.mem_singleton] at hc
    rcases hc with rfl | ⟨-,rfl⟩ | hc
    · exact hzero
    · exact hzero
    · exact hds c hc
  · rcases hc with hc | hc
    · exact hds c (List.mem_of_mem_take hc)
    · exact hds c (List.mem_of_mem_tail hc)

theorem shortest_pos {k : ℕ} (h : 0 < k) : 0 < (shortest k).1 := by
  by_contra h0
  have hz : (shortest k).1 = 0 := by omega
  have hk := ofDecimal_shortest k
  rw [hz] at hk
  have hzero : ∀ e, ofDecimal 0 e = 0 := by
    intro e
    have hr : ∀ den, Binary64.round 0 den = 0 := by
      intro den
      simp [Binary64.round]
    rw [ofDecimal]
    split_ifs <;> simp [hr]
  rw [hzero] at hk
  omega

theorem head_layout {ds : Text} {e : ℤ} (hds : ds ≠ []) (h : ds.head? ≠ some 48) :
    (layout ds e).1.head? = some 48 → (layout ds e).1 = [48] := by
  have htake : ∀ n, (ds.take (n+1)).head? = ds.head? := by
    intro n
    rw [List.head?_take,if_neg (by omega)]
  rw [layout]
  split_ifs with h1 h2 h3
  · intro h48
    rw [List.head?_append_of_ne_nil _ hds] at h48
    exact absurd h48 h
  · intro h48
    obtain ⟨n,hn⟩ : ∃ n, (e+ds.length).toNat = n+1 := ⟨(e+ds.length).toNat-1,by omega⟩
    rw [hn,htake] at h48
    exact absurd h48 h
  · intro _
    rfl
  · intro h48
    rw [htake 0] at h48
    exact absurd h48 h

theorem scan_layout {ds : Text} {e : ℤ} (negative : Bool) (hne : ds ≠ [])
    (hds : ∀ c ∈ ds, isDigit c = true) :
    ∃ n, Numeral.scan (if negative then 45 :: print (layout ds e) else print (layout ds e)) = (n,[]) ∧
      n.value = ofIndex negative (ofDecimal (digitsValue ds) e) ∧ n.whole = (layout ds e).1 := by
  have hw := layout_whole_ne_nil (e := e) hne
  have hscan := scan_print negative hw (layout_digits hds)
  refine ⟨⟨negative,(layout ds e).1,(layout ds e).2.1,(layout ds e).2.2.getD 0⟩,hscan,?_,rfl⟩
  rw [Numeral.value,layout_value hne]

theorem scan_toText (i : {i : ℤ // i.natAbs < overflow}) :
    ∃ n, Numeral.scan (toText (.finite i)) = (n,[]) ∧ n.value = .finite i ∧ n.whole ≠ [] ∧
      (n.whole.head? = some 48 → n.whole = [48]) := by
  by_cases h0 : i.1 = 0
  · have hi : i = ⟨0,by decide⟩ := Subtype.ext h0
    subst hi
    have hz : ofIndex false (ofDecimal 0 0) = .finite ⟨0,by decide⟩ := by
      rw [ofDecimal_zero]
      rfl
    exact ⟨⟨false,[48],[],0⟩,rfl,hz,List.cons_ne_nil _ _,fun _ => rfl⟩
  · have hne := digits_ne_nil (shortest i.1.natAbs).1
    obtain ⟨n,hscan,hv,hwhole⟩ := scan_layout (e := (shortest i.1.natAbs).2) (decide (i.1 < 0)) hne
      (fun c => isDigit_of_mem_digits)
    rw [digitsValue_digits,ofDecimal_shortest,ofIndex_natAbs] at hv
    refine ⟨n,?_,hv,?_,?_⟩
    · simpa only [toText,h0,if_false,decide_eq_true_eq] using hscan
    · rw [hwhole]
      exact layout_whole_ne_nil hne
    · rw [hwhole]
      exact head_layout hne (head_digits (shortest_pos (Int.natAbs_pos.mpr h0)))

/-- What is printed for a finite number is a valid floating-point number that denotes it. -/
theorem read_toText (i : {i : ℤ // i.natAbs < overflow}) :
    ∃ n, Numeral.read (toText (.finite i)) = some n ∧ n.value = .finite i := by
  obtain ⟨n,hscan,hv,hw,-⟩ := scan_toText i
  refine ⟨n,?_,hv⟩
  rw [Numeral.read,hscan,if_pos ⟨rfl,List.append_ne_nil_of_left_ne_nil hw _⟩]

theorem not_space_of_isDigit {c : UInt16} (h : isDigit c = true) : isSpace c = false := by
  simp only [isDigit,Bool.and_eq_true,decide_eq_true_eq,UInt16.le_iff_toNat_le] at h
  obtain ⟨h1,h2⟩ := h
  have hc : c.toNat ≤ 57 := h2
  have hc' : 48 ≤ c.toNat := h1
  have hne : ∀ d : UInt16, d.toNat < 48 ∨ 57 < d.toNat → c ≠ d := by
    rintro d hd rfl
    omega
  have hlow : ¬ (0x2000:UInt16) ≤ c := by
    rw [UInt16.le_iff_toNat_le]
    have h : (0x2000:UInt16).toNat = 0x2000 := rfl
    omega
  simp [isSpace,hlow,hne]

def IsNumeric (c : UInt16) : Prop := isDigit c = true ∨ c ∈ [43,45,46,101]

theorem IsNumeric.not_space {c : UInt16} (h : IsNumeric c) : isSpace c = false := by
  rcases h with h | h
  · exact not_space_of_isDigit h
  · have hall : ∀ d ∈ ([43,45,46,101] : Text), isSpace d = false := by decide
    exact hall c h

theorem print_numeric {l : Text × Text × Option ℤ}
    (hl : ∀ c, c ∈ l.1 ∨ c ∈ l.2.1 → isDigit c = true) :
    ∀ c ∈ print l, IsNumeric c := by
  intro c hc
  simp only [print,List.mem_append] at hc
  rcases hc with hc | hc | hc
  · exact Or.inl (hl c (Or.inl hc))
  · rw [printFraction] at hc
    split_ifs at hc
    · simp at hc
    · rcases List.mem_cons.mp hc with rfl | hc
      · exact Or.inr (by decide)
      · exact Or.inl (hl c (Or.inr hc))
  · cases h : l.2.2 with
    | none => simp [h,printExponent] at hc
    | some p =>
      simp only [h,printExponent,List.mem_cons] at hc
      rcases hc with rfl | rfl | hc
      · exact Or.inr (by decide)
      · split_ifs
        · exact Or.inr (by decide)
        · exact Or.inr (by decide)
      · exact Or.inl (isDigit_of_mem_digits hc)

theorem toText_numeric (i : {i : ℤ // i.natAbs < overflow}) :
    ∀ c ∈ toText (.finite i), IsNumeric c := by
  intro c hc
  have hprint := print_numeric (layout_digits (e := (shortest i.1.natAbs).2)
    (fun c => isDigit_of_mem_digits (n := (shortest i.1.natAbs).1)))
  simp only [toText] at hc
  split_ifs at hc with h1 h2 h2
  · omega
  · rcases List.mem_cons.mp hc with rfl | hc
    · exact Or.inr (by decide)
    · exact hprint c hc
  · rw [List.mem_singleton.mp hc]
    exact Or.inl (by decide)
  · exact hprint c hc

theorem toText_trimmed (i : {i : ℤ // i.natAbs < overflow}) :
    trim (toText (.finite i)) = toText (.finite i) :=
  trim_eq_self fun c hc => (toText_numeric i c hc).not_space

/-- `Number(String(x))` is `x`. -/
@[simp] theorem ofText_toText (i : {i : ℤ // i.natAbs < overflow}) :
    ofText (toText (.finite i)) = .finite i := by
  obtain ⟨n,hn,hv⟩ := read_toText i
  rw [ofText,hn]
  exact hv

end Number
end Oidc4acLab
