import Oidc4acLab.Json.Value

/-! # JSON texts

`JSON.parse` and `JSON.stringify` without indentation. A later member of one name
replaces an earlier one; lone surrogates are printed as escapes.
-/
namespace Oidc4acLab
namespace Json
open Text

def skipSpace (t : Text) : Text := t.dropWhile fun c => c == 9 || c == 10 || c == 13 || c == 32

def hexDigit (c : UInt16) : Option ℕ :=
  if isDigit c then some (c.toNat-48)
  else if 97 ≤ c ∧ c ≤ 102 then some (c.toNat-87)
  else if 65 ≤ c ∧ c ≤ 70 then some (c.toNat-55)
  else none

/-- What `\e` stands for, other than `\u`. -/
def unescape (e : UInt16) : Option UInt16 :=
  [(34,34),(92,92),(47,47),(98,8),(102,12),(110,10),(114,13),(116,9)].lookup e

def parseString : Text → Option (Text × Text)
  | [] => none
  | c :: t =>
    if c = 34 then some ([],t)
    else if c < 32 then none
    else if c ≠ 92 then (parseString t).map fun s => (c :: s.1,s.2)
    else match t with
      | [] => none
      | e :: t =>
        if e ≠ 117 then do
          let u ← unescape e
          let s ← parseString t
          return (u :: s.1,s.2)
        else match t with
          | a :: b :: c :: d :: t => do
            let a ← hexDigit a
            let b ← hexDigit b
            let c ← hexDigit c
            let d ← hexDigit d
            let s ← parseString t
            return (UInt16.ofNat (((a*16+b)*16+c)*16+d) :: s.1,s.2)
          | _ => none

def parseNumber (t : Text) : Option (Json × Text) :=
  let n := Numeral.scan t
  if n.1.whole = [] ∨ (n.1.whole.head? = some 48 ∧ n.1.whole ≠ [48]) then none
  else some (.num n.1.value,n.2)

def parseWord (t : Text) : Option (Json × Text) :=
  if (js "null").isPrefixOf t then some (.null,t.drop 4)
  else if (js "true").isPrefixOf t then some (.bool true,t.drop 4)
  else if (js "false").isPrefixOf t then some (.bool false,t.drop 5)
  else none

mutual

def parseValue : ℕ → Text → Option (Json × Text)
  | 0, _ => none
  | n+1, t =>
    match skipSpace t with
    | [] => none
    | c :: t =>
      if c = 34 then (parseString t).map fun s => (.str s.1,s.2)
      else if c = 91 then
        if (skipSpace t).head? = some 93 then some (.arr [],(skipSpace t).tail)
        else (parseItems n t).map fun s => (.arr s.1,s.2)
      else if c = 123 then
        if (skipSpace t).head? = some 125 then some (.obj [],(skipSpace t).tail)
        else (parseMembers n t []).map fun s => (.obj s.1,s.2)
      else (parseWord (c :: t)).or (parseNumber (c :: t))

def parseItems : ℕ → Text → Option (List Json × Text)
  | 0, _ => none
  | n+1, t => do
    let item ← parseValue n t
    match skipSpace item.2 with
    | [] => none
    | c :: t =>
      if c = 44 then do
        let items ← parseItems n t
        return (item.1 :: items.1,items.2)
      else if c = 93 then return ([item.1],t)
      else none

/-- The members that follow the members `ms` of an object. -/
def parseMembers : ℕ → Text → List (Text × Json) → Option (List (Text × Json) × Text)
  | 0, _, _ => none
  | n+1, t, ms =>
    if (skipSpace t).head? = some 34 then do
      let name ← parseString (skipSpace t).tail
      if (skipSpace name.2).head? = some 58 then do
        let v ← parseValue n (skipSpace name.2).tail
        match skipSpace v.2 with
        | [] => none
        | c :: t =>
          if c = 44 then parseMembers n t (Object.set ms name.1 v.1)
          else if c = 125 then return (Object.set ms name.1 v.1,t)
          else none
      else none
    else none

end

/-- `JSON.parse(text)`; every two recursive calls read a code unit. -/
def parse (t : Text) : Option Json := do
  let v ← parseValue (2*t.length+2) t
  if skipSpace v.2 = [] then some v.1 else none

def hexUnit (n : ℕ) : UInt16 := UInt16.ofNat (if n < 10 then 48+n else 87+n)

def escapeUnit (c : UInt16) : Text :=
  let n := c.toNat
  [92,117,hexUnit (n/4096),hexUnit (n/256%16),hexUnit (n/16%16),hexUnit (n%16)]

def isLead (c : UInt16) : Bool := 0xD800 ≤ c && c ≤ 0xDBFF
def isTrail (c : UInt16) : Bool := 0xDC00 ≤ c && c ≤ 0xDFFF

def quoteUnit (c : UInt16) : Text :=
  match [(8,98),(9,116),(10,110),(12,102),(13,114),(34,34),(92,92)].lookup c with
  | some e => [92,e]
  | none => if c < 32 then escapeUnit c else [c]

def quoteBody : Text → Text
  | [] => []
  | [c] => if isLead c || isTrail c then escapeUnit c else quoteUnit c
  | c :: d :: t =>
    if isLead c && isTrail d then c :: d :: quoteBody t
    else (if isLead c || isTrail c then escapeUnit c else quoteUnit c) ++ quoteBody (d :: t)

def quote (t : Text) : Text := 34 :: (quoteBody t ++ [34])

mutual

/-- `JSON.stringify(value)` -/
def stringify : Json → Text
  | .null => js "null"
  | .bool b => js (if b then "true" else "false")
  | .num (.finite i) => Number.toText (.finite i)
  | .num _ => js "null"
  | .str t => quote t
  | .arr items => 91 :: (join [44] (stringifyItems items) ++ [93])
  | .obj ms => 123 :: (join [44] (stringifyMembers ms) ++ [125])

def stringifyItems : List Json → List Text
  | [] => []
  | item :: items => stringify item :: stringifyItems items

def stringifyMembers : List (Text × Json) → List Text
  | [] => []
  | (name,v) :: ms => (quote name ++ 58 :: stringify v) :: stringifyMembers ms

end

def MembersWellFormed (ms : List (Text × Json)) : Prop :=
  (Object.names ms).Nodup ∧ ∀ m ∈ ms, WellFormed m.2

theorem MembersWellFormed.set {ms : List (Text × Json)} (h : MembersWellFormed ms) (name : Text)
    {v : Json} (hv : WellFormed v) : MembersWellFormed (Object.set ms name v) := by
  refine ⟨Object.nodup_set name v h.1,?_⟩
  intro m hm
  rcases Object.mem_set hm with rfl | hm
  · exact hv
  · exact h.2 m hm

theorem parseWord_wellFormed {t : Text} {v : Json × Text} (h : parseWord t = some v) :
    WellFormed v.1 := by
  rw [parseWord] at h
  split_ifs at h
  · cases h
    exact .null
  · cases h
    exact .bool true
  · cases h
    exact .bool false

theorem parseNumber_wellFormed {t : Text} {v : Json × Text} (h : parseNumber t = some v) :
    WellFormed v.1 := by
  simp only [parseNumber] at h
  split_ifs at h
  cases h
  exact .num _

theorem parse_wellFormed_aux (n : ℕ) :
    (∀ t v, parseValue n t = some v → WellFormed v.1) ∧
    (∀ t vs, parseItems n t = some vs → ∀ v ∈ vs.1, WellFormed v) ∧
    ∀ t ms vs, parseMembers n t ms = some vs → MembersWellFormed ms → MembersWellFormed vs.1 := by
  induction n with
  | zero =>
    refine ⟨?_,?_,?_⟩
    · intro t v h
      simp [parseValue] at h
    · intro t vs h
      simp [parseItems] at h
    · intro t ms vs h
      simp [parseMembers] at h
  | succ n ih =>
    obtain ⟨ihValue,ihItems,ihMembers⟩ := ih
    refine ⟨?_,?_,?_⟩
    · intro t v h
      rw [parseValue] at h
      split at h
      · simp at h
      · split_ifs at h
        · obtain ⟨s,-,rfl⟩ := Option.map_eq_some_iff.mp h
          exact .str s.1
        · cases h
          exact .arr (by simp)
        · obtain ⟨s,hs,rfl⟩ := Option.map_eq_some_iff.mp h
          exact .arr (ihItems _ s hs)
        · cases h
          exact .obj List.nodup_nil (by simp)
        · obtain ⟨s,hs,rfl⟩ := Option.map_eq_some_iff.mp h
          have hm := ihMembers _ [] s hs ⟨List.nodup_nil,by simp⟩
          exact .obj hm.1 hm.2
        · rw [Option.or_eq_some_iff] at h
          rcases h with h | ⟨-,h⟩
          · exact parseWord_wellFormed h
          · exact parseNumber_wellFormed h
    · intro t vs h
      rw [parseItems,Option.bind_eq_bind,Option.bind_eq_some_iff] at h
      obtain ⟨item,hitem,h⟩ := h
      have hwf := ihValue t item hitem
      split at h
      · simp at h
      · split_ifs at h
        · obtain ⟨items,hitems,h⟩ := Option.bind_eq_some_iff.mp h
          cases h
          intro v hv
          rcases List.mem_cons.mp hv with rfl | hv
          · exact hwf
          · exact ihItems _ items hitems v hv
        · cases h
          intro v hv
          rw [List.mem_singleton.mp hv]
          exact hwf
    · intro t ms vs h hms
      rw [parseMembers] at h
      split_ifs at h
      obtain ⟨name,-,h⟩ := Option.bind_eq_some_iff.mp h
      split_ifs at h
      obtain ⟨v,hv,h⟩ := Option.bind_eq_some_iff.mp h
      have hset := hms.set name.1 (ihValue _ v hv)
      split at h
      · simp at h
      · split_ifs at h
        · exact ihMembers _ _ vs h hset
        · cases h
          exact hset

/-- `JSON.parse` builds objects with distinct names. -/
theorem parse_wellFormed {t : Text} {j : Json} (h : parse t = some j) : WellFormed j := by
  obtain ⟨v,hv,h⟩ := Option.bind_eq_some_iff.mp h
  split_ifs at h
  cases h
  exact (parse_wellFormed_aux _).1 t v hv

theorem head_of_scan {t : Text} (h : (Numeral.scan t).1.whole ≠ []) :
    ∃ c t', t = c :: t' ∧ (c = 45 ∨ isDigit c = true) := by
  cases t with
  | nil => exact absurd rfl h
  | cons c t' =>
    refine ⟨c,t',rfl,?_⟩
    by_cases hc : c = 45
    · exact Or.inl hc
    · right
      by_contra hd
      simp [Numeral.scan,Numeral.scanMinus,Numeral.scanDigits,hc,hd] at h

theorem parseWord_number {c : UInt16} {t : Text} (h : c = 45 ∨ isDigit c = true) :
    parseWord (c :: t) = none := by
  have hne : (js "null").head? ≠ some c ∧ (js "true").head? ≠ some c ∧ (js "false").head? ≠ some c := by
    rcases h with rfl | h
    · decide
    · refine ⟨?_,?_,?_⟩ <;> rintro ⟨⟩ <;> exact absurd h (by decide)
  have hpre : ∀ w : Text, w ≠ [] → w.head? ≠ some c → w.isPrefixOf (c :: t) = false := by
    intro w hw hh
    cases w with
    | nil => exact absurd rfl hw
    | cons d w =>
      have hd : (d == c) = false := by
        rw [beq_eq_false_iff_ne]
        rintro rfl
        exact hh rfl
      rw [List.isPrefixOf,hd,Bool.false_and]
  rw [parseWord,hpre _ (by decide) hne.1,hpre _ (by decide) hne.2.1,hpre _ (by decide) hne.2.2]
  rfl

theorem parseValue_number {n : ℕ} {t : Text} (hw : (Numeral.scan t).1.whole ≠ [])
    (h0 : (Numeral.scan t).1.whole.head? = some 48 → (Numeral.scan t).1.whole = [48]) :
    parseValue (n+1) t = some (.num (Numeral.scan t).1.value,(Numeral.scan t).2) := by
  obtain ⟨c,t',rfl,hc⟩ := head_of_scan hw
  have hne : ∀ d : UInt16, d ≠ 45 → isDigit d = false → c ≠ d := by
    rintro d h1 h2 rfl
    rcases hc with h | h
    · exact h1 h
    · rw [h2] at h
      cases h
  have hskip : skipSpace (c :: t') = c :: t' := by
    refine List.dropWhile_cons_of_neg ?_
    simp [hne 9,hne 10,hne 13,hne 32,isDigit]
  have hother : c ≠ 34 ∧ c ≠ 91 ∧ c ≠ 123 :=
    ⟨hne 34 (by decide) (by decide),hne 91 (by decide) (by decide),hne 123 (by decide) (by decide)⟩
  rw [parseValue,hskip]
  simp only [if_neg hother.1,if_neg hother.2.1,if_neg hother.2.2,parseWord_number hc,Option.none_or,
    parseNumber]
  rw [if_neg]
  rintro (h | ⟨h,hne⟩)
  · exact hw h
  · exact hne (h0 h)

/-- `JSON.parse(JSON.stringify(x))` is `x` for a finite number. -/
theorem parse_toText (i : {i : ℤ // i.natAbs < Binary64.overflow}) :
    parse (Number.toText (.finite i)) = some (.num (.finite i)) := by
  obtain ⟨n,hscan,hv,hw,h0⟩ := Number.scan_toText i
  have hvalue := parseValue_number (n := 2*(Number.toText (.finite i)).length+1)
    (t := Number.toText (.finite i)) (by rw [hscan]; exact hw) (by rw [hscan]; exact h0)
  rw [hscan] at hvalue
  rw [parse,hvalue]
  simp [hv,skipSpace]

theorem length_parseString {t s r : Text} (h : parseString t = some (s,r)) :
    s.length+r.length < t.length := by
  fun_induction parseString t generalizing s r with
  | case1 => cases h
  | case2 t =>
    cases h
    simp
  | case3 c t h1 h2 => cases h
  | case4 c t h1 h2 h3 ih =>
    obtain ⟨v,hv,heq⟩ := Option.map_eq_some_iff.mp h
    cases heq
    have hlt := ih hv
    simp only [List.length_cons]
    omega
  | case5 => cases h
  | case6 c h1 h2 h3 e t h4 ih =>
    obtain ⟨u,-,h⟩ := Option.bind_eq_some_iff.mp h
    obtain ⟨v,hv,h⟩ := Option.bind_eq_some_iff.mp h
    cases h
    have hlt := ih hv
    simp only [List.length_cons]
    omega
  | case7 c h1 h2 h3 e h4 x y z w t ih =>
    obtain ⟨_,-,h⟩ := Option.bind_eq_some_iff.mp h
    obtain ⟨_,-,h⟩ := Option.bind_eq_some_iff.mp h
    obtain ⟨_,-,h⟩ := Option.bind_eq_some_iff.mp h
    obtain ⟨_,-,h⟩ := Option.bind_eq_some_iff.mp h
    obtain ⟨v,hv,h⟩ := Option.bind_eq_some_iff.mp h
    cases h
    have hlt := ih hv
    simp only [List.length_cons]
    omega
  | case8 => cases h

theorem length_parse_str {t s : Text} (h : parse t = some (.str s)) : s.length < t.length := by
  obtain ⟨⟨v,r⟩,hv,h⟩ := Option.bind_eq_some_iff.mp h
  split_ifs at h
  cases h
  rw [parseValue] at hv
  have hskip : (skipSpace t).length ≤ t.length := (List.dropWhile_suffix _).length_le
  cases hs : skipSpace t with
  | nil => rw [hs] at hv; cases hv
  | cons c t' =>
    rw [hs] at hv hskip
    simp only [List.length_cons] at hskip
    dsimp only at hv
    split_ifs at hv
    · obtain ⟨⟨s',r'⟩,hstr,heq⟩ := Option.map_eq_some_iff.mp hv
      cases heq
      have hlt := length_parseString hstr
      show s'.length < t.length
      omega
    · cases hv
    · obtain ⟨_,-,heq⟩ := Option.map_eq_some_iff.mp hv
      cases heq
    · cases hv
    · obtain ⟨_,-,heq⟩ := Option.map_eq_some_iff.mp hv
      cases heq
    · rw [Option.or_eq_some_iff] at hv
      rcases hv with hword | ⟨-,hnum⟩
      · rw [parseWord] at hword
        split_ifs at hword <;> cases hword
      · simp only [parseNumber] at hnum
        split_ifs at hnum
        cases hnum

end Json
end Oidc4acLab
