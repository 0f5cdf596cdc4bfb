import Oidc4acLab.Json.Scanner

/-! # The scalars `json.loads` reads

A number is an integer literal, an optional fraction and an optional exponent, each as
long as possible. Literals of integers are limited in length; the words for numbers that
are not finite are read as well.
-/
namespace Oidc4acLab.Python
open Text Json Document Scanner Numeral

/-- `0|[1-9]\d*` -/
def scanWhole : Text → Text × Text
  | [] => ([],[])
  | c :: t => if c = 48 then ([48],t) else scanDigits (c :: t)

/-- `([eE][-+]?\d+)?` -/
def scanExponent : Text → Option ℤ × Text
  | [] => (none,[])
  | c :: t =>
    let s := if t.head? = some 43 then (false,t.tail) else scanMinus t
    let d := scanDigits s.2
    if (c = 101 ∨ c = 69) ∧ d.1 ≠ [] then
      (some (if s.1 then -(digitsValue d.1) else digitsValue d.1),d.2)
    else (none,c :: t)

def scanNumber (limit : ℕ) (t : Text) : Except Refusal (Atom × Text) :=
  let s := scanMinus t
  let w := scanWhole s.2
  let f := scanFraction w.2
  let e := scanExponent f.2
  let l : Literal := ⟨s.1,w.1,f.1,e.1⟩
  if l.whole = [] then .error .malformed
  else if l.IsInteger ∧ limit < l.whole.length then .error .digits
  else .ok (.num l,e.2)

def words : List (Text × Atom) :=
  [(js "null",.null),(js "true",.bool true),(js "false",.bool false),(js "NaN",.nan),
    (js "Infinity",.infinity false),(js "-Infinity",.infinity true)]

/-- A value other than an array or an object, at its first unit. -/
def scanAtom (limit : ℕ) (t : Text) : Except Refusal (Atom × Text) :=
  if t.head? = some 34 then
    match parseString t.tail with
    | none => .error .malformed
    | some (s,r) => .ok (.str s,r)
  else match words.find? fun w => w.1.isPrefixOf t with
    | some w => .ok (w.2,t.drop w.1.length)
    | none => scanNumber limit t

/-- No integer literal is longer than the limit. -/
def Fits (limit : ℕ) : Atom → Prop
  | .num l => l.IsInteger → l.whole.length ≤ limit
  | _ => True

theorem scanMinus_sound (t : Text) : t = signText (scanMinus t).1 ++ (scanMinus t).2 := by
  cases t with
  | nil => rfl
  | cons c t =>
    rw [scanMinus]
    split_ifs with h
    · rw [h]
      rfl
    · rfl

theorem scanMinus_signText (negative : Bool) {t : Text} (ht : t.head? ≠ some 45) :
    scanMinus (signText negative ++ t) = (negative,t) := by
  cases negative with
  | true => rfl
  | false =>
    cases t with
    | nil => rfl
    | cons c t =>
      have hc : c ≠ 45 := by
        rintro rfl
        exact ht rfl
      exact if_neg hc

theorem scanDigits_sound (t : Text) : t = (scanDigits t).1 ++ (scanDigits t).2 ∧
    (∀ c ∈ (scanDigits t).1, isDigit c = true) ∧ ∀ c, (scanDigits t).2.head? = some c → isDigit c = false := by
  refine ⟨List.takeWhile_append_dropWhile.symm,fun c hc => List.mem_takeWhile_imp hc,fun c hc => ?_⟩
  have hnot := List.head?_dropWhile_not isDigit t
  rw [show t.dropWhile isDigit = (scanDigits t).2 from rfl,hc] at hnot
  simpa using hnot

theorem scanWhole_sound (t : Text) : t = (scanWhole t).1 ++ (scanWhole t).2 ∧
    (∀ c ∈ (scanWhole t).1, isDigit c = true) ∧
    ((scanWhole t).1.head? = some 48 → (scanWhole t).1 = [48]) := by
  cases t with
  | nil => simp [scanWhole]
  | cons c t =>
    rw [scanWhole]
    split_ifs with h
    · subst h
      refine ⟨rfl,?_,fun _ => rfl⟩
      intro d hd
      rw [List.mem_singleton.mp hd]
      decide
    · obtain ⟨ht,hds,-⟩ := scanDigits_sound (c :: t)
      refine ⟨ht,hds,fun hhead => ?_⟩
      rw [scanDigits,List.takeWhile_cons] at hhead
      split_ifs at hhead
      · exact absurd (Option.some.inj hhead) h
      · cases hhead

theorem scanWhole_append {ds r : Text} (hne : ds ≠ []) (hds : ∀ c ∈ ds, isDigit c = true)
    (hzero : ds.head? = some 48 → ds = [48]) (hr : ∀ c, r.head? = some c → isDigit c = false) :
    scanWhole (ds ++ r) = (ds,r) := by
  obtain ⟨c,ds,rfl⟩ := List.exists_cons_of_ne_nil hne
  rw [List.cons_append,scanWhole]
  split_ifs with h
  · have hnil := hzero (by rw [h,List.head?_cons])
    rw [List.cons.injEq] at hnil
    rw [hnil.1,hnil.2,List.nil_append]
  · rw [← List.cons_append]
    exact scanDigits_append hds hr

def StartsFraction (t : Text) : Prop := ∃ d t', isDigit d = true ∧ t = 46 :: d :: t'

theorem scanFraction_none {t : Text} (h : ¬ StartsFraction t) : scanFraction t = ([],t) := by
  cases t with
  | nil => rfl
  | cons c t =>
    rw [scanFraction,if_neg]
    rintro ⟨rfl,hne⟩
    cases t with
    | nil => exact hne rfl
    | cons d t =>
      rw [scanDigits,List.takeWhile_cons] at hne
      split_ifs at hne with hd
      · exact h ⟨d,t,hd,rfl⟩
      · exact hne rfl

theorem scanFraction_sound (t : Text) : t = Number.printFraction (scanFraction t).1 ++ (scanFraction t).2 ∧
    (∀ c ∈ (scanFraction t).1, isDigit c = true) ∧ ((scanFraction t).1 = [] → ¬ StartsFraction t) := by
  cases t with
  | nil =>
    refine ⟨rfl,by simp [scanFraction],fun _ => ?_⟩
    rintro ⟨d,t',-,h⟩
    cases h
  | cons c t =>
    rw [scanFraction]
    split_ifs with h
    · obtain ⟨ht,hds,-⟩ := scanDigits_sound t
      refine ⟨?_,hds,fun hnil => absurd hnil h.2⟩
      rw [Number.printFraction,if_neg h.2,h.1,List.cons_append,← ht]
    · refine ⟨rfl,by simp,fun _ => ?_⟩
      rintro ⟨d,t',hd,heq⟩
      cases heq
      refine h ⟨rfl,?_⟩
      rw [scanDigits,List.takeWhile_cons_of_pos hd]
      exact List.cons_ne_nil _ _

theorem scanFraction_append {ds r : Text} (hds : ∀ c ∈ ds, isDigit c = true)
    (hr : ∀ c, r.head? = some c → isDigit c = false) (hfraction : ¬ StartsFraction r) :
    scanFraction (Number.printFraction ds ++ r) = (ds,r) := by
  by_cases h : ds = []
  · subst h
    exact scanFraction_none hfraction
  · rw [Number.printFraction,if_neg h,List.cons_append,scanFraction,scanDigits_append hds hr,if_pos ⟨rfl,h⟩]

def StartsExponent (t : Text) : Prop := ∃ e x r, ExponentText e (some x) ∧ t = e ++ r

theorem scanExponent_sound (t : Text) : ∃ e, t = e ++ (scanExponent t).2 ∧ ExponentText e (scanExponent t).1 := by
  cases t with
  | nil => exact ⟨[],rfl,.absent⟩
  | cons c t =>
    rw [scanExponent]
    split_ifs with hplus hexp hneg hexp hneg
    · exact absurd hneg id
    · obtain ⟨u,rfl⟩ : ∃ u, t = 43 :: u := ⟨t.tail,(List.cons_head?_tail hplus).symm⟩
      obtain ⟨ht,hds,-⟩ := scanDigits_sound u
      exact ⟨c :: 43 :: (scanDigits u).1,by simp [← ht],.plus hexp.1 hexp.2 hds⟩
    · exact ⟨[],rfl,.absent⟩
    · obtain ⟨ht,hds,-⟩ := scanDigits_sound (scanMinus t).2
      refine ⟨c :: 45 :: (scanDigits (scanMinus t).2).1,?_,.minus hexp.1 hexp.2 hds⟩
      have hminus := scanMinus_sound t
      rw [hneg] at hminus
      simp [signText] at hminus
      simp [← ht,← hminus]
    · obtain ⟨ht,hds,-⟩ := scanDigits_sound (scanMinus t).2
      refine ⟨c :: (scanDigits (scanMinus t).2).1,?_,.plain hexp.1 hexp.2 hds⟩
      have hminus := scanMinus_sound t
      rw [Bool.not_eq_true] at hneg
      rw [hneg,show signText false = [] from rfl,List.nil_append] at hminus
      rw [List.cons_append,← ht,← hminus]
    · exact ⟨[],rfl,.absent⟩

theorem scanExponent_append {e : Text} {x : Option ℤ} (he : ExponentText e x) {r : Text}
    (hr : ∀ c, r.head? = some c → isDigit c = false) (hexponent : ¬ StartsExponent r) :
    scanExponent (e ++ r) = (x,r) := by
  cases he with
  | absent =>
    obtain ⟨e',hr',htext⟩ := scanExponent_sound r
    cases hx : (scanExponent r).1 with
    | some x =>
      rw [hx] at htext
      exact absurd ⟨e',x,_,htext,hr'⟩ hexponent
    | none =>
      rw [hx] at htext
      cases htext
      rw [List.nil_append] at hr' ⊢
      exact Prod.ext hx hr'.symm
  | @plain c ds hc hne hds =>
    obtain ⟨d,ds,rfl⟩ := List.exists_cons_of_ne_nil hne
    have hd := hds d List.mem_cons_self
    have h43 : d ≠ 43 := by
      rintro rfl
      exact absurd hd (by decide)
    have h45 : d ≠ 45 := by
      rintro rfl
      exact absurd hd (by decide)
    have hscan := scanDigits_append hds hr
    rw [List.cons_append] at hscan
    simp [scanExponent,scanMinus,h43,h45,hscan,hc]
  | @plus c ds hc hne hds =>
    simp [scanExponent,scanDigits_append hds hr,hc,hne]
  | @minus c ds hc hne hds =>
    simp [scanExponent,scanMinus,scanDigits_append hds hr,hc,hne]

/-- A number ends before `t`. -/
structure EndsNumber (t : Text) : Prop where
  not_digit : ∀ c, t.head? = some c → isDigit c = false
  not_fraction : ¬ StartsFraction t
  not_exponent : ¬ StartsExponent t

theorem EndsNumber.of_delimited {t : Text} (h : Delimited t) : EndsNumber t := by
  have hhead : ∀ c : UInt16, isDigit c = true ∨ c = 46 ∨ c = 101 ∨ c = 69 → t.head? ≠ some c := by
    intro c hc ht
    have hne : ∀ d : UInt16, (isDigit d = false ∧ d ≠ 46 ∧ d ≠ 101 ∧ d ≠ 69) → c ≠ d := by
      rintro d ⟨h1,h2,h3,h4⟩ rfl
      rcases hc with hc | hc | hc | hc
      · rw [h1] at hc
        cases hc
      · exact h2 hc
      · exact h3 hc
      · exact h4 hc
    rcases h c ht with hb | hb | hb | hb
    · simp only [isBlank,Bool.or_eq_true,beq_iff_eq] at hb
      rcases hb with ((hb | hb) | hb) | hb
      · exact hne 9 (by decide) hb
      · exact hne 10 (by decide) hb
      · exact hne 13 (by decide) hb
      · exact hne 32 (by decide) hb
    · exact hne 44 (by decide) hb
    · exact hne 93 (by decide) hb
    · exact hne 125 (by decide) hb
  refine ⟨fun c hc => ?_,?_,?_⟩
  · by_contra hd
    exact hhead c (Or.inl (by simpa using hd)) hc
  · rintro ⟨d,t',-,rfl⟩
    exact hhead 46 (Or.inr (Or.inl rfl)) rfl
  · rintro ⟨e,x,r,he,rfl⟩
    cases he with
    | plain hc | plus hc | minus hc => exact hhead _ (Or.inr (Or.inr hc)) rfl

theorem EndsNumber.exponent_append {e r : Text} {x : Option ℤ} (he : ExponentText e x) (hr : EndsNumber r) :
    (∀ c, (e ++ r).head? = some c → isDigit c = false) ∧ ¬ StartsFraction (e ++ r) := by
  have hletter : ∀ c : UInt16, c = 101 ∨ c = 69 → isDigit c = false ∧ c ≠ 46 := by
    rintro c (rfl | rfl) <;> decide
  have hcons : ∀ (c : UInt16) (t : Text), c = 101 ∨ c = 69 →
      (∀ d, (c :: t).head? = some d → isDigit d = false) ∧ ¬ StartsFraction (c :: t) := by
    intro c t hc
    refine ⟨?_,?_⟩
    · rintro d ⟨⟩
      exact (hletter c hc).1
    · rintro ⟨d,t',-,heq⟩
      cases heq
      exact (hletter 46 hc).2 rfl
  cases he with
  | absent => exact ⟨hr.not_digit,hr.not_fraction⟩
  | plain hc | plus hc | minus hc => exact hcons _ _ hc

theorem scanNumber_append {l : Literal} {w r : Text} (limit : ℕ) (hw : l.Written w) (hr : EndsNumber r) :
    scanNumber limit (w ++ r) =
      if l.IsInteger ∧ limit < l.whole.length then .error .digits else .ok (.num l,r) := by
  obtain ⟨hl,e,he,rfl⟩ := hw
  obtain ⟨negative,whole,fraction,exponent⟩ := l
  have hfollow := hr.exponent_append he
  have hstop : ∀ c, (Number.printFraction fraction ++ (e ++ r)).head? = some c → isDigit c = false := by
    by_cases h : fraction = []
    · rw [h]
      exact hfollow.1
    · rw [Number.printFraction,if_neg h]
      rintro c ⟨⟩
      decide
  have hminus : scanMinus (signText negative ++ (whole ++ (Number.printFraction fraction ++ (e ++ r)))) =
      (negative,whole ++ (Number.printFraction fraction ++ (e ++ r))) := by
    refine scanMinus_signText negative ?_
    rw [List.head?_append_of_ne_nil _ hl.whole_ne_nil]
    intro h
    exact absurd (hl.whole_digits 45 (List.mem_of_mem_head? h)) (by decide)
  have hwhole := scanWhole_append hl.whole_ne_nil hl.whole_digits hl.whole_zero hstop
  have hfraction := scanFraction_append hl.fraction_digits hfollow.1 hfollow.2
  have hexponent := scanExponent_append he hr.not_digit hr.not_exponent
  have hassoc : signText negative ++ (whole ++ (Number.printFraction fraction ++ e)) ++ r =
      signText negative ++ (whole ++ (Number.printFraction fraction ++ (e ++ r))) := by
    simp
  rw [scanNumber,hassoc,hminus]
  simp only [hwhole,hfraction,hexponent,if_neg hl.whole_ne_nil]

def LongInteger (limit : ℕ) (t : Text) : Prop :=
  ∃ negative ds r, t = signText negative ++ (ds ++ r) ∧ (∀ d ∈ ds, isDigit d = true) ∧ ds.head? ≠ some 48 ∧
    limit < ds.length ∧ EndsNumber r

theorem not_startsExponent {t : Text} (h : (scanExponent t).1 = none) : ¬ StartsExponent t := by
  rintro ⟨e,x,r,he,rfl⟩
  have hdigits : ∀ ds : Text, ds ≠ [] → (∀ d ∈ ds, isDigit d = true) → ∃ d ds', ds = d :: ds' ∧
      isDigit d = true ∧ d ≠ 43 ∧ d ≠ 45 := by
    intro ds hne hds
    obtain ⟨d,ds',rfl⟩ := List.exists_cons_of_ne_nil hne
    have hd := hds d List.mem_cons_self
    exact ⟨d,ds',rfl,hd,by rintro rfl; exact absurd hd (by decide),by rintro rfl; exact absurd hd (by decide)⟩
  cases he with
  | plain hc hne hds =>
    obtain ⟨d,ds',rfl,hd,h43,h45⟩ := hdigits _ hne hds
    simp [scanExponent,scanMinus,scanDigits,hc,hd,h43,h45] at h
  | plus hc hne hds =>
    obtain ⟨d,ds',rfl,hd,-⟩ := hdigits _ hne hds
    simp [scanExponent,scanDigits,hc,hd] at h
  | minus hc hne hds =>
    obtain ⟨d,ds',rfl,hd,-⟩ := hdigits _ hne hds
    simp [scanExponent,scanMinus,scanDigits,hc,hd] at h

/-- The parts that `scanNumber` finds make up the text that it reads. -/
theorem scanNumber_parts {t : Text} {l : Literal}
    (hl : l = ⟨(scanMinus t).1,(scanWhole (scanMinus t).2).1,(scanFraction (scanWhole (scanMinus t).2).2).1,
      (scanExponent (scanFraction (scanWhole (scanMinus t).2).2).2).1⟩) (hne : l.whole ≠ []) :
    ∃ w, t = w ++ (scanExponent (scanFraction (scanWhole (scanMinus t).2).2).2).2 ∧ l.Written w := by
  subst hl
  obtain ⟨hw,hdigits,hzero⟩ := scanWhole_sound (scanMinus t).2
  obtain ⟨hf,hfdigits,-⟩ := scanFraction_sound (scanWhole (scanMinus t).2).2
  obtain ⟨e,he,htext⟩ := scanExponent_sound (scanFraction (scanWhole (scanMinus t).2).2).2
  refine ⟨_,?_,⟨hne,hdigits,hzero,hfdigits⟩,e,htext,rfl⟩
  simp only [List.append_assoc]
  rw [← he,← hf,← hw]
  exact scanMinus_sound t

theorem scanNumber_sound {limit : ℕ} {t r : Text} {a : Atom} (h : scanNumber limit t = .ok (a,r)) :
    ∃ w, t = w ++ r ∧ Standard w a ∧ Fits limit a := by
  simp only [scanNumber] at h
  split_ifs at h with hne hlong
  cases h
  obtain ⟨w,hw,hwritten⟩ := scanNumber_parts rfl hne
  exact ⟨w,hw,.num hwritten,fun hint => by_contra fun hlt => hlong ⟨hint,Nat.lt_of_not_le hlt⟩⟩

theorem exceeds_scanNumber {limit : ℕ} (hlimit : 0 < limit) {t : Text} :
    Exceeds (scanNumber limit t) ↔ LongInteger limit t := by
  constructor
  · rintro ⟨e,h,he⟩
    simp only [scanNumber] at h
    split_ifs at h with hne hlong
    · cases h
      exact absurd rfl he
    · obtain ⟨⟨hfraction,hexponent⟩,hlt⟩ := hlong
      simp only at hfraction hexponent hlt
      obtain ⟨hw,hdigits,hzero⟩ := scanWhole_sound (scanMinus t).2
      obtain ⟨hf,-,hfnil⟩ := scanFraction_sound (scanWhole (scanMinus t).2).2
      have hhead : (scanWhole (scanMinus t).2).1.head? ≠ some 48 := by
        intro h48
        rw [hzero h48,List.length_singleton] at hlt
        omega
      rw [hfraction,show Number.printFraction [] = [] from rfl,List.nil_append] at hf
      rw [← hf] at hexponent
      refine ⟨(scanMinus t).1,_,_,?_,hdigits,hhead,hlt,?_,hfnil hfraction,not_startsExponent hexponent⟩
      · rw [← hw]
        exact scanMinus_sound t
      · cases hu : (scanMinus t).2 with
        | nil => simp [scanWhole]
        | cons c u =>
          rw [hu] at hhead
          rw [scanWhole] at hhead ⊢
          split_ifs at hhead ⊢ with h48
          · exact absurd rfl hhead
          · exact (scanDigits_sound (c :: u)).2.2
  · rintro ⟨negative,ds,r,rfl,hds,hhead,hlt,hr⟩
    have hne : ds ≠ [] := by
      rintro rfl
      exact absurd hlt (Nat.not_lt_zero limit)
    have hwritten : Literal.Written ⟨negative,ds,[],none⟩ (signText negative ++ ds) :=
      ⟨⟨hne,hds,fun h => absurd h hhead,by simp⟩,[],.absent,by simp [Number.printFraction]⟩
    refine ⟨.digits,?_,by decide⟩
    rw [← List.append_assoc,scanNumber_append limit hwritten hr,if_pos ⟨⟨rfl,rfl⟩,hlt⟩]

theorem words_extended : ∀ w ∈ words, Extended w.1 w.2 := by
  simp only [words,List.forall_mem_cons]
  exact ⟨.standard .null,.standard (.bool true),.standard (.bool false),.nan,.infinity false,.infinity true,
    by simp⟩

theorem find_words_append {w : Text × Atom} (hw : w ∈ words) (r : Text) :
    (w.1 ++ r).head? ≠ some 34 ∧ (words.find? fun v => v.1.isPrefixOf (w.1 ++ r)) = some w := by
  have hall : ∀ w ∈ words, w.1.head? ≠ some 34 ∧ w.1 ≠ [] := by decide
  have hdistinct : ∀ v ∈ words, ∀ w ∈ words, v = w ∨ v.1.head? ≠ w.1.head? := by decide
  refine ⟨?_,?_⟩
  · rw [List.head?_append_of_ne_nil _ (hall w hw).2]
    exact (hall w hw).1
  · have hfirst : ∀ v ∈ words, v.1.isPrefixOf (w.1 ++ r) = true → v = w := by
      intro v hv hpre
      refine (hdistinct v hv w hw).resolve_right fun hne => hne ?_
      obtain ⟨s,hs⟩ := List.isPrefixOf_iff_prefix.mp hpre
      have hhead := congrArg List.head? hs
      rwa [List.head?_append_of_ne_nil _ (hall v hv).2,List.head?_append_of_ne_nil _ (hall w hw).2] at hhead
    cases hfind : words.find? fun v => v.1.isPrefixOf (w.1 ++ r) with
    | none =>
      have hself : w.1.isPrefixOf (w.1 ++ r) = true := List.isPrefixOf_iff_prefix.mpr (List.prefix_append _ _)
      exact absurd hself (List.find?_eq_none.mp hfind w hw)
    | some v =>
      have hpre := List.find?_some hfind
      rw [hfirst v (List.mem_of_find?_eq_some hfind) hpre]

theorem find_words_number (negative : Bool) {d : UInt16} (hd : isDigit d = true) (t : Text) :
    (signText negative ++ d :: t).head? ≠ some 34 ∧
      (words.find? fun v => v.1.isPrefixOf (signText negative ++ d :: t)) = none := by
  have hne : ∀ c : UInt16, isDigit c = false → d ≠ c := by
    rintro c hc rfl
    rw [hd] at hc
    cases hc
  have hjs : words = [([110,117,108,108],.null),([116,114,117,101],.bool true),([102,97,108,115,101],.bool false),
      ([78,97,78],.nan),([73,110,102,105,110,105,116,121],.infinity false),
      ([45,73,110,102,105,110,105,116,121],.infinity true)] := by decide
  have h34 := hne 34 (by decide)
  have h110 := hne 110 (by decide)
  have h116 := hne 116 (by decide)
  have h102 := hne 102 (by decide)
  have h78 := hne 78 (by decide)
  have h73 := hne 73 (by decide)
  have h45 := hne 45 (by decide)
  rw [hjs]
  cases negative with
  | true => simp [signText,h73.symm]
  | false => simp [signText,h34,h110.symm,h116.symm,h102.symm,h78.symm,h73.symm,h45.symm]

theorem scanAtom_sound {limit : ℕ} {t r : Text} {a : Atom} (h : scanAtom limit t = .ok (a,r)) :
    ∃ w, t = w ++ r ∧ Extended w a ∧ Fits limit a := by
  rw [scanAtom] at h
  split_ifs at h with hquote
  · split at h
    · cases h
    · next s r' hs =>
      cases h
      obtain ⟨w,hw,hchars⟩ := parseString_sound hs
      refine ⟨34 :: (w ++ [34]),?_,.standard (.str hchars),trivial⟩
      rw [← List.cons_head?_tail hquote,hw]
      simp
  · split at h
    · next w hw =>
      cases h
      have hpre := List.find?_some hw
      obtain ⟨s,hs⟩ := List.isPrefixOf_iff_prefix.mp hpre
      refine ⟨w.1,by rw [← hs,List.drop_left],words_extended w (List.mem_of_find?_eq_some hw),?_⟩
      have hall : ∀ v ∈ words, ∀ l, v.2 ≠ .num l := by
        intro v hv l
        simp only [words,List.mem_cons,List.not_mem_nil,or_false] at hv
        rcases hv with rfl | rfl | rfl | rfl | rfl | rfl <;> simp
      cases hv : w.2 with
      | num l => exact absurd hv (hall w (List.mem_of_find?_eq_some hw) l)
      | null | bool | str | nan | infinity => trivial
    · obtain ⟨w,hw,hstandard,hfits⟩ := scanNumber_sound h
      exact ⟨w,hw,.standard hstandard,hfits⟩

theorem scanAtom_word {w : Text × Atom} (hw : w ∈ words) (limit : ℕ) (r : Text) :
    scanAtom limit (w.1 ++ r) = .ok (w.2,r) := by
  obtain ⟨hquote,hfind⟩ := find_words_append hw r
  rw [scanAtom,if_neg hquote]
  simp only [hfind,List.drop_left]

theorem scanAtom_complete {limit : ℕ} {w r : Text} {a : Atom} (h : Extended w a) (hr : Delimited r) :
    Reads (scanAtom limit (w ++ r)) (Fits limit a) (a,r) := by
  have hword : ∀ v ∈ words, Reads (scanAtom limit (v.1 ++ r)) True (v.2,r) := by
    intro v hv
    rw [scanAtom_word hv]
    exact Reads.ok _
  cases h with
  | standard h =>
    cases h with
    | null => exact hword (js "null",.null) (by decide)
    | bool b =>
      cases b with
      | true => exact hword (js "true",.bool true) (by decide)
      | false => exact hword (js "false",.bool false) (by decide)
    | @num l _ hw =>
      have hnumber := scanNumber_append limit hw (.of_delimited hr)
      obtain ⟨d,ds,hds⟩ := List.exists_cons_of_ne_nil hw.1.whole_ne_nil
      have hd := hw.1.whole_digits d (by rw [hds]; exact List.mem_cons_self)
      obtain ⟨e,-,rfl⟩ := hw.2
      rw [hds] at hnumber ⊢
      simp only [List.append_assoc,List.cons_append] at hnumber ⊢
      obtain ⟨hquote,hfind⟩ := find_words_number l.negative hd
        (ds ++ (Number.printFraction l.fraction ++ (e ++ r)))
      rw [scanAtom,if_neg hquote]
      simp only [hfind,hnumber]
      rw [← hds]
      refine ⟨fun hfits => if_neg fun hlong => absurd (hfits hlong.1) (Nat.not_le_of_lt hlong.2),fun hfits => ?_⟩
      have hlong : l.IsInteger ∧ limit < l.whole.length := by
        rw [Fits,not_forall] at hfits
        obtain ⟨hint,hlt⟩ := hfits
        exact ⟨hint,Nat.lt_of_not_le hlt⟩
      exact ⟨.digits,if_pos hlong,by decide⟩
    | @str w s h =>
      have hparse := parseString_complete h r
      rw [scanAtom,if_pos (by simp)]
      simp only [List.cons_append,List.tail_cons,List.append_assoc,List.nil_append,hparse]
      exact Reads.ok _
  | nan => exact hword (js "NaN",.nan) (by decide)
  | infinity negative =>
    cases negative with
    | true => exact hword (js "-Infinity",.infinity true) (by decide)
    | false => exact hword (js "Infinity",.infinity false) (by decide)

theorem number_starts (negative : Bool) {d : UInt16} (hd : isDigit d = true) (t : Text) :
    ∃ c w', signText negative ++ d :: t = c :: w' ∧ startsLeaf c = true := by
  have hne : ∀ c : UInt16, isDigit c = false → d ≠ c := by
    rintro c hc rfl
    rw [hd] at hc
    cases hc
  cases negative with
  | true => exact ⟨45,_,rfl,by decide⟩
  | false =>
    refine ⟨d,t,rfl,?_⟩
    simp [startsLeaf,isBlank,hne 9 (by decide),hne 10 (by decide),hne 13 (by decide),hne 32 (by decide),
      hne 91 (by decide),hne 93 (by decide),hne 123 (by decide),hne 125 (by decide),hne 0xFEFF (by decide)]

theorem longInteger_starts {limit : ℕ} {t : Text} (h : LongInteger limit t) :
    ∃ c t', t = c :: t' ∧ startsLeaf c = true := by
  obtain ⟨negative,ds,r,rfl,hds,-,hlt,-⟩ := h
  obtain ⟨d,ds,rfl⟩ := List.exists_cons_of_length_pos (Nat.lt_of_le_of_lt (Nat.zero_le limit) hlt)
  exact number_starts negative (hds d List.mem_cons_self) (ds ++ r)

theorem extended_starts {w : Text} {a : Atom} (h : Extended w a) : ∃ c w', w = c :: w' ∧ startsLeaf c = true := by
  have hword : ∀ v ∈ words, ∃ c w', v.1 = c :: w' ∧ startsLeaf c = true := by
    intro v hv
    have hall : ∀ v ∈ words, (v.1.head?.map startsLeaf) = some true := by decide
    obtain ⟨c,hc,hstarts⟩ := Option.map_eq_some_iff.mp (hall v hv)
    exact ⟨c,v.1.tail,(List.cons_head?_tail hc).symm,hstarts⟩
  cases h with
  | standard h =>
    cases h with
    | null => exact hword (js "null",.null) (by decide)
    | bool b =>
      cases b with
      | true => exact hword (js "true",.bool true) (by decide)
      | false => exact hword (js "false",.bool false) (by decide)
    | @num l _ hw =>
      obtain ⟨hl,e,-,rfl⟩ := hw
      obtain ⟨d,ds,hds⟩ := List.exists_cons_of_ne_nil hl.whole_ne_nil
      have hd := hl.whole_digits d (by rw [hds]; exact List.mem_cons_self)
      rw [hds]
      exact number_starts l.negative hd _
    | str h => exact ⟨34,_,rfl,by decide⟩
  | nan => exact hword (js "NaN",.nan) (by decide)
  | infinity negative =>
    cases negative with
    | true => exact hword (js "-Infinity",.infinity true) (by decide)
    | false => exact hword (js "Infinity",.infinity false) (by decide)

theorem exceeds_scanAtom {limit : ℕ} (hlimit : 0 < limit) (t : Text) :
    Exceeds (scanAtom limit t) ↔ LongInteger limit t := by
  constructor
  · intro h
    rw [scanAtom] at h
    split_ifs at h
    · split at h
      · exact absurd h not_exceeds_malformed
      · exact absurd h (not_exceeds_ok _)
    · split at h
      · exact absurd h (not_exceeds_ok _)
      · exact (exceeds_scanNumber hlimit).mp h
  · intro h
    have hnumber := (exceeds_scanNumber hlimit).mpr h
    obtain ⟨negative,ds,r,rfl,hds,-,hlt,-⟩ := h
    obtain ⟨d,ds,rfl⟩ := List.exists_cons_of_length_pos (Nat.lt_of_le_of_lt (Nat.zero_le limit) hlt)
    obtain ⟨hquote,hfind⟩ := find_words_number negative (hds d List.mem_cons_self) (ds ++ r)
    rw [List.cons_append] at hnumber ⊢
    rw [scanAtom,if_neg hquote]
    simp only [hfind]
    exact hnumber

/-- The scalars of `json.loads`. -/
def scalars (limit : ℕ) (hlimit : 0 < limit) : Leaf Atom where
  Denotes := Extended
  Fits := Fits limit
  Overflows := LongInteger limit
  scan := scanAtom limit
  starts := extended_starts
  sound := scanAtom_sound
  complete := scanAtom_complete
  overflows := exceeds_scanAtom hlimit
  overflows_starts := longInteger_starts

end Oidc4acLab.Python
