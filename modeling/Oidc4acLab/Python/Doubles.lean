import Oidc4acLab.Json.Document
import Oidc4acLab.Number.Exact

/-! # Floating-point numbers and their literals

`repr` writes the shortest digits that are read back as the number, with an exponent
where the point is far from them and with a fraction elsewhere.
-/
namespace Oidc4acLab.Python
open Text Json Document Binary64

inductive Double
  | nan
  | infinity (negative : Bool)
  | finite (negative : Bool) (index : Fin overflow)
  deriving DecidableEq

def Double.ofDecimal (negative : Bool) (m : ℕ) (e : ℤ) : Double :=
  if h : Binary64.ofDecimal m e < overflow then .finite negative ⟨_,h⟩ else .infinity negative

/-- `float(literal)` -/
def Double.ofLiteral (l : Literal) : Double :=
  .ofDecimal l.negative (digitsValue (l.whole ++ l.fraction)) (l.exponent.getD 0-l.fraction.length)

def integerLiteral (z : ℤ) : Literal := ⟨z < 0,digits z.natAbs,[],none⟩

/-- The whole part, the fraction and the exponent for the digits `ds` and the exponent `e` of the last
digit. -/
def layout (ds : Text) (e : ℤ) : Text × Text × Option ℤ :=
  let n := e+ds.length
  if 0 ≤ e ∧ n ≤ 16 then (ds ++ List.replicate e.toNat 48,[48],none)
  else if 0 < n ∧ n ≤ 16 then (ds.take n.toNat,ds.drop n.toNat,none)
  else if -4 < n ∧ n ≤ 0 then ([48],List.replicate (-n).toNat 48 ++ ds,none)
  else (ds.take 1,ds.tail,some (n-1))

/-- The literal for the digits of a number and the exponent of the last one. -/
def digitsLiteral (negative : Bool) (d : ℕ × ℤ) : Literal :=
  let l := layout (digits d.1) d.2
  ⟨negative,l.1,l.2.1,l.2.2⟩

def doubleLiteral (negative : Bool) (k : ℕ) : Literal :=
  if k = 0 then ⟨negative,[48],[48],none⟩ else digitsLiteral negative (Number.shortest k)

def exponentText : Option ℤ → Text
  | none => []
  | some p => 101 :: (if p < 0 then 45 else 43) :: (if p.natAbs < 10 then 48 :: digits p.natAbs else digits p.natAbs)

def literalText (l : Literal) : Text :=
  signText l.negative ++ (l.whole ++ (Number.printFraction l.fraction ++ exponentText l.exponent))

theorem exponentText_exponent (x : Option ℤ) : ExponentText (exponentText x) x := by
  cases x with
  | none => exact .absent
  | some p =>
    have hdigits : ∀ d ∈ (if p.natAbs < 10 then 48 :: digits p.natAbs else digits p.natAbs : Text),
        isDigit d = true := by
      intro d hd
      split_ifs at hd
      · rcases List.mem_cons.mp hd with rfl | hd
        · decide
        · exact isDigit_of_mem_digits hd
      · exact isDigit_of_mem_digits hd
    have hne : (if p.natAbs < 10 then 48 :: digits p.natAbs else digits p.natAbs : Text) ≠ [] := by
      split_ifs
      · exact List.cons_ne_nil _ _
      · exact digits_ne_nil _
    have hvalue : digitsValue (if p.natAbs < 10 then 48 :: digits p.natAbs else digits p.natAbs) = p.natAbs := by
      split_ifs
      · have h := digitsValue_zeros_append (digits p.natAbs) 1
        rwa [digitsValue_digits] at h
      · exact digitsValue_digits _
    rw [exponentText]
    by_cases hp : p < 0
    · have h := ExponentText.minus (c := 101) (Or.inl rfl) hne hdigits
      rw [hvalue,show -(p.natAbs:ℤ) = p by omega] at h
      rwa [if_pos hp]
    · have h := ExponentText.plus (c := 101) (Or.inl rfl) hne hdigits
      rw [hvalue,show (p.natAbs:ℤ) = p by omega] at h
      rwa [if_neg hp]

theorem literalText_written {l : Literal} (h : l.WellFormed) : l.Written (literalText l) :=
  ⟨h,exponentText l.exponent,exponentText_exponent l.exponent,rfl⟩

theorem mem_literalText {l : Literal} (h : l.WellFormed) {c : UInt16} (hc : c ∈ literalText l) :
    isDigit c = true ∨ c ∈ [(43:UInt16),45,46,101] := by
  have hdigits : ∀ n, c ∈ digits n → isDigit c = true := fun n => isDigit_of_mem_digits
  simp only [literalText,List.mem_append] at hc
  rcases hc with hc | hc | hc | hc
  · rw [signText] at hc
    split_ifs at hc
    · rw [List.mem_singleton.mp hc]
      exact Or.inr (by decide)
    · cases hc
  · exact Or.inl (h.whole_digits c hc)
  · rw [Number.printFraction] at hc
    split_ifs at hc
    · cases hc
    · rcases List.mem_cons.mp hc with rfl | hc
      · exact Or.inr (by decide)
      · exact Or.inl (h.fraction_digits c hc)
  · cases hx : l.exponent with
    | none =>
      rw [hx] at hc
      cases hc
    | some p =>
      rw [hx,exponentText] at hc
      rcases List.mem_cons.mp hc with rfl | hc
      · exact Or.inr (by decide)
      rcases List.mem_cons.mp hc with rfl | hc
      · split_ifs <;> exact Or.inr (by decide)
      split_ifs at hc
      · rcases List.mem_cons.mp hc with rfl | hc
        · exact Or.inl (by decide)
        · exact Or.inl (hdigits _ hc)
      · exact Or.inl (hdigits _ hc)

theorem integerLiteral_wellFormed (z : ℤ) : (integerLiteral z).WellFormed := by
  refine ⟨digits_ne_nil _,fun d => isDigit_of_mem_digits,fun h => ?_,by simp [integerLiteral]⟩
  by_cases hz : z.natAbs = 0
  · simp only [integerLiteral,hz]
    decide
  · exact absurd h (head_digits (Nat.pos_of_ne_zero hz))

theorem layout_wellFormed {ds : Text} (e : ℤ) (negative : Bool) (hne : ds ≠ []) (hds : ∀ d ∈ ds, isDigit d = true)
    (hhead : ds.head? ≠ some 48) :
    Literal.WellFormed ⟨negative,(layout ds e).1,(layout ds e).2.1,(layout ds e).2.2⟩ := by
  have hzero : isDigit 48 = true := by decide
  have hlen : 0 < ds.length := List.length_pos_iff.mpr hne
  have hzeros : ∀ n, ∀ d ∈ List.replicate n (48:UInt16), isDigit d = true := by
    intro n d hd
    rw [List.eq_of_mem_replicate hd]
    exact hzero
  have hboth : ∀ {a b : Text}, (∀ d ∈ a, isDigit d = true) → (∀ d ∈ b, isDigit d = true) →
      ∀ d ∈ a ++ b, isDigit d = true := by
    intro a b ha hb d hd
    exact (List.mem_append.mp hd).elim (ha d) (hb d)
  have htake : ∀ n, 0 < n → ds.take n ≠ [] ∧ ((ds.take n).head? = some 48 → ds.take n = [48]) := by
    intro n hn
    refine ⟨fun h => ?_,fun h => ?_⟩
    · rcases List.take_eq_nil_iff.mp h with h | h
      · omega
      · exact hne h
    · rw [List.head?_take,if_neg (by omega)] at h
      exact absurd h hhead
  rw [layout]
  split_ifs with h1 h2 h3
  · refine ⟨List.append_ne_nil_of_left_ne_nil hne _,hboth hds (hzeros _),fun h => ?_,?_⟩
    · rw [List.head?_append_of_ne_nil _ hne] at h
      exact absurd h hhead
    · exact fun d hd => (List.mem_singleton.mp hd) ▸ hzero
  · obtain ⟨hnil,h48⟩ := htake (e+ds.length).toNat (by omega)
    exact ⟨hnil,fun d hd => hds d (List.mem_of_mem_take hd),h48,fun d hd => hds d (List.mem_of_mem_drop hd)⟩
  · exact ⟨List.cons_ne_nil _ _,fun d hd => (List.mem_singleton.mp hd) ▸ hzero,fun _ => rfl,hboth (hzeros _) hds⟩
  · obtain ⟨hnil,h48⟩ := htake 1 (by omega)
    exact ⟨hnil,fun d hd => hds d (List.mem_of_mem_take hd),h48,fun d hd => hds d (List.mem_of_mem_tail hd)⟩

theorem digitsLiteral_wellFormed (negative : Bool) {d : ℕ × ℤ} (hd : 0 < d.1) :
    (digitsLiteral negative d).WellFormed :=
  layout_wellFormed d.2 negative (digits_ne_nil d.1) (fun _ => isDigit_of_mem_digits) (head_digits hd)

theorem doubleLiteral_wellFormed (negative : Bool) (k : ℕ) : (doubleLiteral negative k).WellFormed := by
  rw [doubleLiteral]
  split_ifs with hk
  · have hzero : ∀ d ∈ ([48] : Text), isDigit d = true := by decide
    exact ⟨List.cons_ne_nil _ _,hzero,fun _ => rfl,hzero⟩
  · exact digitsLiteral_wellFormed negative (Number.shortest_pos (Nat.pos_of_ne_zero hk))

theorem layout_value {ds : Text} (e : ℤ) (hne : ds ≠ []) :
    (digitsValue ((layout ds e).1 ++ (layout ds e).2.1):ℚ)*10^((layout ds e).2.2.getD 0-(layout ds e).2.1.length) =
      digitsValue ds*10^e := by
  have hlen : 0 < ds.length := List.length_pos_iff.mpr hne
  rw [layout]
  split_ifs with h1 h2 h3
  · have hzeros : ds ++ List.replicate e.toNat 48 ++ [48] = ds ++ List.replicate (e.toNat+1) 48 := by
      rw [List.append_assoc,← List.replicate_succ']
    have he : e = (e.toNat:ℤ) := (Int.toNat_of_nonneg h1.1).symm
    simp only [hzeros,digitsValue_append_zeros,Option.getD_none,List.length_singleton]
    rw [he,Int.toNat_natCast,zpow_natCast]
    push_cast
    rw [pow_succ,zpow_neg_one]
    field_simp
  · have hlast : (0:ℤ)-((ds.drop (e+ds.length).toNat).length:ℕ) = e := by
      rw [List.length_drop]
      omega
    simp only [List.take_append_drop,Option.getD_none,hlast]
  · have hlast : (0:ℤ)-((List.replicate (-(e+ds.length)).toNat 48 ++ ds).length:ℕ) = e := by
      rw [List.length_append,List.length_replicate]
      omega
    have hv := digitsValue_zeros_append ds ((-(e+ds.length)).toNat+1)
    rw [List.replicate_succ,List.cons_append] at hv
    simp only [List.cons_append,List.nil_append,Option.getD_none,hlast,hv]
  · have hlast : e+ds.length-1-(ds.tail.length:ℕ) = e := by
      rw [List.length_tail]
      omega
    have hsplit : ds.take 1 ++ ds.tail = ds := by
      rw [← List.drop_one,List.take_append_drop]
    simp only [Option.getD_some,hlast,hsplit]

theorem ofDecimal_zero_left (e : ℤ) : Binary64.ofDecimal 0 e = 0 := by
  have hround : ∀ den, Binary64.round 0 den = 0 := by
    intro den
    simp [Binary64.round]
  rw [Binary64.ofDecimal]
  split_ifs <;> simp [hround]

theorem shortest_zero : (Number.shortest 0).1 = 0 := by
  have hmagnitude : magnitude 0 = 0 := rfl
  have hcandidates : (Number.candidates 0 1).head? = some (0,Number.decimalPoint 0-1) := by
    simp only [Number.candidates,hmagnitude,Nat.zero_mul,ite_self,Nat.zero_div,Nat.zero_mod,Nat.mul_zero]
    rw [if_pos]
    · rfl
    · left
      split_ifs <;> positivity
  have hcons := (List.cons_head?_tail hcandidates).symm
  have hreads : Number.readsBack 0 (0,Number.decimalPoint 0-1) = true := by
    rw [Number.readsBack,ofDecimal_zero_left]
    rfl
  rw [Number.shortest,List.range_succ_eq_map,List.flatMap_cons,Nat.zero_add,hcons,List.cons_append,
    List.find?_cons_of_pos hreads,Option.getD_some]

theorem digitsLiteral_value (negative : Bool) (d : ℕ × ℤ) :
    (digitsLiteral negative d).value = decimal negative d.1 d.2 := by
  have h := layout_value d.2 (digits_ne_nil d.1)
  rw [digitsValue_digits] at h
  rw [digitsLiteral,Literal.value,decimal,decimal,h]

theorem doubleLiteral_negative (negative : Bool) (k : ℕ) : (doubleLiteral negative k).negative = negative := by
  rw [doubleLiteral]
  split_ifs <;> rfl

theorem doubleLiteral_value (negative : Bool) (k : ℕ) :
    (doubleLiteral negative k).value = decimal negative (Number.shortest k).1 (Number.shortest k).2 := by
  rw [doubleLiteral]
  split_ifs with hk
  · have hdigits : digitsValue ([48] ++ [48]) = 0 := by decide
    rw [hk,Literal.value,hdigits,decimal,decimal,shortest_zero,Nat.cast_zero,zero_mul,zero_mul]
  · exact digitsLiteral_value negative (Number.shortest k)

theorem integerLiteral_value (z : ℤ) : (integerLiteral z).value = z := by
  have hq : ((if z < 0 then -1 else 1:ℚ)*(z.natAbs:ℚ)) = z := by
    split_ifs with hz
    · have habs : z = -(z.natAbs:ℤ) := by omega
      have hcast := congrArg (fun i : ℤ => (i:ℚ)) habs
      simp only [Int.cast_neg,Int.cast_natCast] at hcast
      rw [hcast,neg_one_mul]
    · have habs : z = (z.natAbs:ℤ) := by omega
      have hcast := congrArg (fun i : ℤ => (i:ℚ)) habs
      simp only [Int.cast_natCast] at hcast
      rw [one_mul,← hcast]
  simp only [Literal.value,decimal,integerLiteral,List.append_nil,digitsValue_digits,decide_eq_true_eq,
    Option.getD_none,List.length_nil,Nat.cast_zero,sub_zero,zpow_zero,mul_one]
  exact hq

theorem decimal_inj_right {negative : Bool} {m m' : ℕ} {e e' : ℤ}
    (h : decimal negative m e = decimal negative m' e') : (m:ℚ)*10^e = m'*10^e' := by
  rw [decimal,decimal] at h
  cases negative with
  | true => simpa using h
  | false => simpa using h

theorem ofLiteral_of_value {l : Literal} {k : ℕ} (hk : k < overflow)
    (h : l.value = decimal l.negative (Number.shortest k).1 (Number.shortest k).2) :
    Double.ofLiteral l = .finite l.negative ⟨k,hk⟩ := by
  have hsame := ofDecimal_congr (decimal_inj_right h)
  rw [Number.ofDecimal_shortest] at hsame
  simp only [Double.ofLiteral,Double.ofDecimal,hsame,dif_pos hk]

/-- `float(repr(x))` is `x`. -/
theorem ofLiteral_doubleLiteral (negative : Bool) (k : Fin overflow) :
    Double.ofLiteral (doubleLiteral negative k) = .finite negative k := by
  have h := ofLiteral_of_value (l := doubleLiteral negative k) k.2 (by
    rw [doubleLiteral_negative,doubleLiteral_value])
  rwa [doubleLiteral_negative] at h

theorem digitsLiteral_not_integer (negative : Bool) (d : ℕ × ℤ) : ¬ (digitsLiteral negative d).IsInteger := by
  rintro ⟨hfraction,hexponent⟩
  have hlen : 0 < (digits d.1).length := List.length_pos_iff.mpr (digits_ne_nil _)
  simp only [digitsLiteral,layout] at hfraction hexponent
  split_ifs at hfraction hexponent with h1 h2 h3
  · simp only [List.drop_eq_nil_iff] at hfraction
    omega
  · exact digits_ne_nil _ (List.append_eq_nil_iff.mp hfraction).2

theorem doubleLiteral_not_integer (negative : Bool) (k : ℕ) : ¬ (doubleLiteral negative k).IsInteger := by
  rw [doubleLiteral]
  split_ifs
  · exact fun h => List.cons_ne_nil _ _ h.1
  · exact digitsLiteral_not_integer negative _

end Oidc4acLab.Python
