import Oidc4acLab.Python.Doubles
import Oidc4acLab.Python.Scalars

/-! # `json.loads` and `json.dumps`

Loading keeps the last member of each name, rounds numbers to doubles and reads integers
exactly. Dumping writes one line or indented lines, and escapes or keeps what is not
ASCII. What is dumped is a text of the grammar, and loading it gives the value back.

A string is held by its UTF-16 code units: loading joins an escaped pair of surrogates,
so no string that is loaded has a leading one before a trailing one otherwise.
-/
namespace Oidc4acLab.Python
open Text Json Document Scanner Fallible

/-- What an interpreter sets limits to: open arrays and objects while a text is loaded, dumped in one line
and dumped with indentation, and the digits of an integer. -/
structure Interpreter where
  decoding : ℕ
  encoding : ℕ
  indented : ℕ
  digits : ℕ
  digits_pos : 0 < digits

/-- The limits of the interpreter in use. -/
def Interpreter.usual : Interpreter :=
  { decoding := 5000, encoding := 5000, indented := 900, digits := 4300, digits_pos := by decide }

inductive Scalar
  | none
  | bool (b : Bool)
  | int (z : ℤ)
  | float (x : Double)
  | str (t : Text)
  deriving DecidableEq

/-- A value of `json`: lists are arrays, dictionaries are objects. -/
abbrev Value := Tree Scalar

def scalar : Atom → Scalar
  | .null => .none
  | .bool b => .bool b
  | .num l =>
    if l.IsInteger then .int (if l.negative then -(digitsValue l.whole) else digitsValue l.whole)
    else .float (.ofLiteral l)
  | .str t => .str t
  | .nan => .float .nan
  | .infinity negative => .float (.infinity negative)

theorem scalar_integer {l : Literal} (h : l.IsInteger) :
    scalar (.num l) = .int (if l.negative then -(digitsValue l.whole) else digitsValue l.whole) := if_pos h

theorem scalar_double {l : Literal} (h : ¬ l.IsInteger) : scalar (.num l) = .float (.ofLiteral l) := if_neg h

def loaded (d : Tree Atom) : Value := (d.map scalar).collapse

def loads (py : Interpreter) (t : Text) : Except Refusal Value :=
  if t.head? = some 0xFEFF then .error .malformed
  else ((scalars py.digits py.digits_pos).document py.decoding t).map loaded

structure Style where
  indent : Option ℕ
  space : Text
  ascii : Bool
  blank_space : Blank space

/-- `separators=(",", ":")` -/
def Style.compact : Style := ⟨none,[],true,blank_nil⟩

/-- `indent=2, ensure_ascii=False` -/
def Style.pretty : Style := ⟨some 2,[32],false,by rw [Blank]; decide⟩

def shortEscapes : List (UInt16 × UInt16) := [(8,98),(9,116),(10,110),(12,102),(13,114),(34,34),(92,92)]

def quoteUnit (ascii : Bool) (c : UInt16) : Text :=
  match shortEscapes.lookup c with
  | some e => [92,e]
  | none => if c < 32 ∨ (ascii = true ∧ 126 < c) then escapeUnit c else [c]

def quote (ascii : Bool) (t : Text) : Text := 34 :: (t.flatMap (quoteUnit ascii) ++ [34])

def Style.newline (style : Style) (level : ℕ) : Text :=
  match style.indent with
  | none => []
  | some n => 10 :: List.replicate (n*level) 32

def enclosed (style : Style) (level : ℕ) (opening closing : UInt16) (ts : List Text) : Text :=
  if ts = [] then [opening,closing]
  else opening :: (join [44] (ts.map fun t => style.newline (level+1) ++ t) ++ (style.newline level ++ [closing]))

def Style.memberText (style : Style) (name t : Text) : Text := quote style.ascii name ++ 58 :: (style.space ++ t)

def atom : Scalar → Atom
  | .none => .null
  | .bool b => .bool b
  | .int z => .num (integerLiteral z)
  | .float .nan => .nan
  | .float (.infinity negative) => .infinity negative
  | .float (.finite negative k) => .num (doubleLiteral negative k)
  | .str t => .str t

def atomText (ascii : Bool) : Atom → Text
  | .null => js "null"
  | .bool b => js (if b then "true" else "false")
  | .num l => literalText l
  | .str t => quote ascii t
  | .nan => js "NaN"
  | .infinity negative => js (if negative then "-Infinity" else "Infinity")

def scalarText (ascii : Bool) (limit : ℕ) : Scalar → Except Refusal Text
  | .int z => if limit < (digits z.natAbs).length then .error .digits else .ok (literalText (integerLiteral z))
  | s => .ok (atomText ascii (atom s))

/-- `json.dumps` at a level of indentation, with at most so many arrays and objects open at once. -/
def dumpsAt (style : Style) (limit : ℕ) : ℕ → ℕ → Value → Except Refusal Text
  | _, _, .leaf s => scalarText style.ascii limit s
  | 0, _, _ => .error .recursion
  | n+1, level, .arr items => do
    let ts ← items.mapM (dumpsAt style limit n (level+1))
    return enclosed style level 91 93 ts
  | n+1, level, .obj ms => do
    let ts ← ms.mapM fun m => dumpsAt style limit n (level+1) m.2
    return enclosed style level 123 125 (List.zipWith (fun m t => style.memberText m.1 t) ms ts)

/-- `json.dumps(value, separators=(",", ":"))` -/
def dumps (py : Interpreter) (v : Value) : Except Refusal Text := dumpsAt .compact py.digits py.encoding 0 v

theorem hexDigit_hexUnit : ∀ n < 16, hexDigit (hexUnit n) = some n := by
  decide

theorem chars_escapeUnit (c : UInt16) {w s : Text} (h : Chars w s) : Chars (escapeUnit c ++ w) (c :: s) := by
  have hc : c.toNat < 65536 := c.toNat_lt
  have hunit := Chars.unicode (hexDigit_hexUnit (c.toNat/4096) (by omega))
    (hexDigit_hexUnit (c.toNat/256%16) (by omega)) (hexDigit_hexUnit (c.toNat/16%16) (by omega))
    (hexDigit_hexUnit (c.toNat%16) (by omega)) h
  have hvalue : ((c.toNat/4096*16+c.toNat/256%16)*16+c.toNat/16%16)*16+c.toNat%16 = c.toNat := by omega
  rw [hvalue,UInt16.ofNat_toNat] at hunit
  exact hunit

theorem chars_quoteUnit (ascii : Bool) (c : UInt16) {w s : Text} (h : Chars w s) :
    Chars (quoteUnit ascii c ++ w) (c :: s) := by
  rw [quoteUnit]
  cases he : shortEscapes.lookup c with
  | some e =>
    have hall : ∀ p ∈ shortEscapes, unescape p.2 = some p.1 := by decide
    exact .escape (hall (c,e) (Collections.mem_of_lookup he)) h
  | none =>
    simp only
    split_ifs with hc
    · exact chars_escapeUnit c h
    · rw [not_or] at hc
      have hne : ∀ d, (shortEscapes.lookup d).isSome = true → c ≠ d := by
        rintro d hd rfl
        rw [he] at hd
        cases hd
      exact .plain (hne 34 (by decide)) hc.1 (hne 92 (by decide)) h

theorem chars_quote (ascii : Bool) (t : Text) : Chars (t.flatMap (quoteUnit ascii)) t := by
  induction t with
  | nil => exact .nil
  | cons c t ih =>
    rw [List.flatMap_cons]
    exact chars_quoteUnit ascii c ih

theorem atomText_extended (ascii : Bool) {a : Atom} (h : ∀ l, a = .num l → l.WellFormed) :
    Extended (atomText ascii a) a := by
  cases a with
  | null => exact .standard .null
  | bool b => exact .standard (.bool b)
  | num l => exact .standard (.num (literalText_written (h l rfl)))
  | str t => exact .standard (.str (chars_quote ascii t))
  | nan => exact .nan
  | infinity negative => exact .infinity negative

theorem atom_wellFormed {s : Scalar} {l : Literal} (h : atom s = .num l) : l.WellFormed := by
  cases s with
  | int z =>
    cases h
    exact integerLiteral_wellFormed z
  | float x =>
    cases x with
    | finite negative k =>
      cases h
      exact doubleLiteral_wellFormed negative k
    | nan | infinity => cases h
  | none | bool | str => cases h

/-- What is written is read as the scalar. -/
@[simp] theorem scalar_atom (s : Scalar) : scalar (atom s) = s := by
  cases s with
  | int z =>
    have hz : (if (z < 0) then -(z.natAbs:ℤ) else z.natAbs) = z := by
      split_ifs <;> omega
    rw [atom,scalar_integer ⟨rfl,rfl⟩]
    simp only [integerLiteral,digitsValue_digits,decide_eq_true_eq,hz]
  | float x =>
    cases x with
    | finite negative k =>
      rw [atom,scalar_double (doubleLiteral_not_integer negative k),ofLiteral_doubleLiteral]
    | nan | infinity => rfl
  | none | bool | str => rfl

theorem scalarText_eq_ok {ascii : Bool} {limit : ℕ} {s : Scalar} {t : Text} :
    scalarText ascii limit s = .ok t ↔ t = atomText ascii (atom s) ∧ Fits limit (atom s) := by
  cases s with
  | int z =>
    have hfits : Fits limit (atom (.int z)) ↔ ¬ limit < (digits z.natAbs).length := by
      rw [Nat.not_lt]
      exact ⟨fun h => h ⟨rfl,rfl⟩,fun h _ => h⟩
    rw [scalarText,ite_eq_ok,hfits,and_comm,Except.ok.injEq,eq_comm]
    rfl
  | float x =>
    cases x with
    | finite negative k =>
      have hfits : Fits limit (atom (.float (.finite negative k))) :=
        fun h => absurd h (doubleLiteral_not_integer negative k)
      simp [scalarText,hfits,eq_comm]
    | nan | infinity => simp [scalarText,Fits,atom,eq_comm]
  | none | bool | str => simp [scalarText,Fits,atom,eq_comm]

theorem Style.blank_newline (style : Style) (level : ℕ) : Blank (style.newline level) := by
  rw [newline]
  cases style.indent with
  | none => exact blank_nil
  | some n =>
    intro c hc
    rcases List.mem_cons.mp hc with rfl | hc
    · decide
    · rw [List.eq_of_mem_replicate hc]
      decide

theorem enclosed_eq {β : Type} (style : Style) (level : ℕ) (opening closing : UInt16) (text : β → Text)
    (es : List β) : ∃ close, Blank close ∧ enclosed style level opening closing (es.map text) = opening ::
      (joined (es.map fun e => ⟨style.newline (level+1),text e,[],e⟩) ++ (close ++ [closing])) := by
  rw [enclosed]
  split_ifs with h
  · rw [List.map_eq_nil_iff] at h
    rw [h]
    exact ⟨[],blank_nil,rfl⟩
  · refine ⟨style.newline level,style.blank_newline level,?_⟩
    simp [joined,Function.comp_def]

theorem enclosed_arr (style : Style) (level : ℕ) (es : List (Text × Tree Atom))
    (h : ∀ e ∈ es, Document.Value Extended e.1 e.2) :
    Document.Value Extended (enclosed style level 91 93 (es.map Prod.fst)) (.arr (es.map Prod.snd)) := by
  obtain ⟨close,hclose,htext⟩ := enclosed_eq style level 91 93 Prod.fst es
  let piece (e : Text × Tree Atom) : Piece (Tree Atom) := ⟨style.newline (level+1),e.1,[],e.2⟩
  have hspaced : ∀ p ∈ es.map piece, p.Spaced :=
    List.forall_mem_map.mpr fun e _ => ⟨style.blank_newline _,blank_nil⟩
  have hvalue : ∀ p ∈ es.map piece, Document.Value Extended p.text p.value := List.forall_mem_map.mpr h
  have hpieces : joined (es.map fun e => (⟨style.newline (level+1),e.1,[],e⟩ : Piece (Text × Tree Atom))) =
      joined (es.map piece) := by
    simp [joined,Function.comp_def,piece]
  have harr := Document.Value.arr hclose hspaced hvalue
  rw [List.map_map] at harr
  rw [htext,hpieces]
  exact harr

theorem enclosed_obj (style : Style) (level : ℕ) (es : List (Text × (Text × Tree Atom)))
    (h : ∀ e ∈ es, Document.Value Extended e.1 e.2.2) :
    Document.Value Extended (enclosed style level 123 125 (es.map fun e => style.memberText e.2.1 e.1))
      (.obj (es.map Prod.snd)) := by
  obtain ⟨close,hclose,htext⟩ := enclosed_eq style level 123 125 (fun e => style.memberText e.2.1 e.1) es
  let member (e : Text × (Text × Tree Atom)) : Member Atom :=
    ⟨style.newline (level+1),e.2.1.flatMap (quoteUnit style.ascii),e.2.1,[],style.space,e.1,[],e.2.2⟩
  have hspaced : ∀ m ∈ es.map member, m.piece.Spaced :=
    List.forall_mem_map.mpr fun e _ => ⟨style.blank_newline _,blank_nil⟩
  have hspelled : ∀ m ∈ es.map member, m.Spelled :=
    List.forall_mem_map.mpr fun e _ => ⟨chars_quote _ _,blank_nil,style.blank_space⟩
  have hvalue : ∀ m ∈ es.map member, Document.Value Extended m.text m.value := List.forall_mem_map.mpr h
  have hpieces : joined (es.map fun e => (⟨style.newline (level+1),style.memberText e.2.1 e.1,[],e⟩ :
      Piece (Text × (Text × Tree Atom)))) = joined ((es.map member).map Member.piece) := by
    simp [joined,Function.comp_def,Member.piece,Style.memberText,quote,member]
  have hobj := Document.Value.obj hclose hspaced hspelled hvalue
  rw [htext,hpieces]
  simpa [Function.comp_def,member] using hobj

theorem exists_zip {γ δ : Type} {f : γ → Except Refusal δ} {xs : List γ} {ys : List δ}
    (h : xs.mapM f = .ok ys) : ∃ es : List (δ × γ), es.map Prod.snd = xs ∧ es.map Prod.fst = ys ∧
      ∀ e ∈ es, f e.2 = .ok e.1 := by
  have hall := mapM_eq_ok.mp h
  clear h
  induction hall with
  | nil => exact ⟨[],rfl,rfl,by simp⟩
  | @cons x y xs ys hR _ ih =>
    obtain ⟨es,rfl,rfl,hes⟩ := ih
    exact ⟨(y,x) :: es,rfl,rfl,List.forall_mem_cons.mpr ⟨hR,hes⟩⟩

theorem scalarText_sound {ascii : Bool} {limit n : ℕ} {s : Scalar} {t : Text} (h : scalarText ascii limit s = .ok t) :
    Document.Value Extended t (.leaf (atom s)) ∧ Tree.Nested n (.leaf s) ∧
      (Tree.leaf s).Every (fun s => Fits limit (atom s)) fun _ => True := by
  obtain ⟨rfl,hfits⟩ := scalarText_eq_ok.mp h
  exact ⟨.leaf (atomText_extended _ fun l => atom_wellFormed),.leaf n s,.leaf hfits⟩

theorem dumpsAt_sound {style : Style} {limit n level : ℕ} {v : Value} {t : Text}
    (h : dumpsAt style limit n level v = .ok t) :
    Document.Value Extended t (v.map atom) ∧ v.Nested n ∧ v.Every (fun s => Fits limit (atom s)) fun _ => True := by
  induction n generalizing level v t with
  | zero =>
    cases v with
    | leaf s =>
      rw [dumpsAt] at h
      rw [Tree.map_leaf]
      exact scalarText_sound h
    | arr | obj => cases h
  | succ n ih =>
    cases v with
    | leaf s =>
      rw [dumpsAt] at h
      rw [Tree.map_leaf]
      exact scalarText_sound h
    | arr items =>
      obtain ⟨ts,hts,heq⟩ := bind_eq_ok.mp h
      cases heq
      obtain ⟨es,rfl,rfl,hes⟩ := exists_zip hts
      have hread : ∀ e ∈ es, _ := fun e he => ih (hes e he)
      have harr := enclosed_arr style level (es.map fun e => (e.1,e.2.map atom))
        (List.forall_mem_map.mpr fun e he => (hread e he).1)
      refine ⟨?_,.arr (List.forall_mem_map.mpr fun e he => (hread e he).2.1),
        .arr (List.forall_mem_map.mpr fun e he => (hread e he).2.2)⟩
      rw [Tree.map_arr]
      simpa [Function.comp_def] using harr
    | obj ms =>
      obtain ⟨ts,hts,heq⟩ := bind_eq_ok.mp h
      cases heq
      obtain ⟨es,rfl,rfl,hes⟩ := exists_zip hts
      have hread : ∀ e ∈ es, _ := fun e he => ih (hes e he)
      have hobj := enclosed_obj style level (es.map fun e => (e.1,e.2.1,e.2.2.map atom))
        (List.forall_mem_map.mpr fun e he => (hread e he).1)
      refine ⟨?_,.obj (List.forall_mem_map.mpr fun e he => (hread e he).2.1),
        .obj trivial (List.forall_mem_map.mpr fun e he => (hread e he).2.2)⟩
      rw [Tree.map_obj]
      simpa [Function.comp_def,List.zipWith_map,List.zipWith_self] using hobj

theorem dumpsAt_ok (style : Style) {limit n : ℕ} (level : ℕ) {v : Value} (hn : v.Nested n)
    (hv : v.Every (fun s => Fits limit (atom s)) fun _ => True) : ∃ t, dumpsAt style limit n level v = .ok t := by
  induction hn generalizing level with
  | leaf n s =>
    have hfits : Fits limit (atom s) := by
      cases hv
      assumption
    refine ⟨atomText style.ascii (atom s),?_⟩
    rw [dumpsAt]
    exact scalarText_eq_ok.mpr ⟨rfl,hfits⟩
  | arr _ ih =>
    obtain ⟨ts,hts⟩ := exists_forall₂ fun d hd => ih d hd (level+1) (Tree.every_arr.mp hv d hd)
    exact ⟨_,bind_eq_ok.mpr ⟨ts,mapM_eq_ok.mpr hts,rfl⟩⟩
  | obj _ ih =>
    obtain ⟨ts,hts⟩ := exists_forall₂ fun m hm => ih m hm (level+1) ((Tree.every_obj.mp hv).2 m hm)
    exact ⟨_,bind_eq_ok.mpr ⟨ts,mapM_eq_ok.mpr hts,rfl⟩⟩

theorem enclosed_of_line {style : Style} (hline : style.indent = none) (level level' : ℕ) (opening closing : UInt16)
    (ts : List Text) : enclosed style level opening closing ts = enclosed style level' opening closing ts := by
  have hnewline : ∀ level, style.newline level = [] := by
    intro level
    rw [Style.newline,hline]
  rw [enclosed,enclosed,hnewline,hnewline,hnewline,hnewline]

/-- A value that is dumped in one line is dumped alike inside another value and with more room. -/
theorem dumpsAt_of_line {style : Style} (hline : style.indent = none) {limit n n' level level' : ℕ} {v : Value}
    {t : Text} (hle : n ≤ n') (h : dumpsAt style limit n level v = .ok t) :
    dumpsAt style limit n' level' v = .ok t := by
  induction n generalizing n' level level' v t with
  | zero =>
    cases v with
    | leaf s =>
      rw [dumpsAt] at h ⊢
      exact h
    | arr | obj => cases h
  | succ n ih =>
    cases v with
    | leaf s =>
      rw [dumpsAt] at h ⊢
      exact h
    | arr items =>
      obtain ⟨k,rfl⟩ := Nat.exists_eq_add_of_lt hle
      obtain ⟨ts,hts,heq⟩ := bind_eq_ok.mp h
      have hitems : List.Forall₂ (fun v t => dumpsAt style limit (n+k) (level'+1) v = .ok t) items ts :=
        (mapM_eq_ok.mp hts).imp fun v t hv => ih (Nat.le_add_right n k) hv
      refine bind_eq_ok.mpr ⟨ts,mapM_eq_ok.mpr hitems,?_⟩
      rw [enclosed_of_line hline level' level]
      exact heq
    | obj ms =>
      obtain ⟨k,rfl⟩ := Nat.exists_eq_add_of_lt hle
      obtain ⟨ts,hts,heq⟩ := bind_eq_ok.mp h
      have hmembers : List.Forall₂ (fun m t => dumpsAt style limit (n+k) (level'+1) m.2 = .ok t) ms ts :=
        (mapM_eq_ok.mp hts).imp fun m t hm => ih (Nat.le_add_right n k) hm
      refine bind_eq_ok.mpr ⟨ts,mapM_eq_ok.mpr hmembers,?_⟩
      rw [enclosed_of_line hline level' level]
      exact heq

theorem dumpsAt_refused {style : Style} {limit n level : ℕ} {v : Value} {e : Refusal}
    (h : dumpsAt style limit n level v = .error e) : e ≠ .malformed := by
  have hscalar : ∀ {s e}, scalarText style.ascii limit s = .error e → e ≠ .malformed := by
    intro s e hs
    cases s with
    | int z =>
      rw [scalarText] at hs
      split_ifs at hs
      cases hs
      decide
    | none | bool | float | str => cases hs
  induction n generalizing level v with
  | zero =>
    cases v with
    | leaf s =>
      rw [dumpsAt] at h
      exact hscalar h
    | arr | obj =>
      cases h
      decide
  | succ n ih =>
    cases v with
    | leaf s =>
      rw [dumpsAt] at h
      exact hscalar h
    | arr items =>
      rw [dumpsAt] at h
      cases hts : items.mapM (dumpsAt style limit n (level+1)) with
      | ok ts =>
        rw [hts] at h
        cases h
      | error e' =>
        rw [hts] at h
        cases h
        obtain ⟨t,-,ht⟩ := mapM_eq_error hts
        exact ih ht
    | obj ms =>
      rw [dumpsAt] at h
      cases hts : ms.mapM fun m => dumpsAt style limit n (level+1) m.2 with
      | ok ts =>
        rw [hts] at h
        cases h
      | error e' =>
        rw [hts] at h
        cases h
        obtain ⟨m,-,hm⟩ := mapM_eq_error hts
        exact ih hm

theorem Fits.mono {limit limit' : ℕ} (hle : limit ≤ limit') {a : Atom} (h : Fits limit a) : Fits limit' a := by
  cases a with
  | num l => exact fun hl => Nat.le_trans (h hl) hle
  | null | bool | str | nan | infinity => trivial

theorem loads_eq_ok {py : Interpreter} {t : Text} {v : Value} (h : loads py t = .ok v) :
    ∃ d, Whole Extended t d ∧ (scalars py.digits py.digits_pos).Within py.decoding d ∧ v = loaded d := by
  rw [loads] at h
  split_ifs at h
  obtain ⟨d,hd,rfl⟩ := map_eq_ok.mp h
  obtain ⟨hwhole,hwithin⟩ := Leaf.document_sound _ hd
  exact ⟨d,hwhole,hwithin,rfl⟩

theorem not_bom (py : Interpreter) {t : Text} {d : Tree Atom} (h : Whole Extended t d) : t.head? ≠ some 0xFEFF := by
  obtain ⟨before,text,after,rfl,hb,-,hv⟩ := h
  cases before with
  | cons c before =>
    rintro ⟨⟩
    exact absurd (hb 0xFEFF List.mem_cons_self) (by decide)
  | nil =>
    obtain ⟨c,w,rfl,-,-,-,hc⟩ := (scalars py.digits py.digits_pos).value_starts hv
    rintro ⟨⟩
    exact hc rfl

/-- A text of the grammar is loaded as the value of its tree within the limits, and refused for a
limit beyond them. -/
theorem loads_reads (py : Interpreter) {t : Text} {d : Tree Atom} (h : Whole Extended t d) :
    Reads (loads py t) ((scalars py.digits py.digits_pos).Within py.decoding d) (loaded d) := by
  rw [loads,if_neg (not_bom py h)]
  exact (Leaf.document_complete _ h).map loaded

theorem fits_of_extended {w : Text} {a : Atom} (h : Extended w a) {n : ℕ} (hn : w.length ≤ n) : Fits n a := by
  cases h with
  | standard h =>
    cases h with
    | num hl =>
      intro _
      obtain ⟨-,e,-,rfl⟩ := hl
      simp only [List.length_append] at hn
      omega
    | null | bool | str => trivial
  | nan | infinity => trivial

theorem whole_unique {t : Text} {d d' : Tree Atom} (h : Whole Extended t d) (h' : Whole Extended t d') : d = d' := by
  let S := scalars (t.length+1) (Nat.succ_pos _)
  have hwithin : ∀ {d}, Whole Extended t d → S.Within (t.length+1) d := by
    rintro d ⟨before,text,after,ht,-,-,hv⟩
    have hlen : text.length ≤ t.length+1 := by
      rw [ht,List.length_append,List.length_append]
      omega
    obtain ⟨hnested,hleaves⟩ := hv.bounded hlen
    exact ⟨hnested,hleaves.mono (fun _ ⟨w,hw,hle⟩ => fits_of_extended hw hle) fun _ _ => trivial⟩
  have hread := (S.document_complete h).1 (hwithin h)
  rw [(S.document_complete h').1 (hwithin h')] at hread
  exact (Except.ok.inj hread).symm

theorem whole_dumpsAt {style : Style} {limit n level : ℕ} {v : Value} {t : Text}
    (h : dumpsAt style limit n level v = .ok t) : Whole Extended t (v.map atom) :=
  ⟨[],t,[],by simp,blank_nil,blank_nil,(dumpsAt_sound h).1⟩

theorem loaded_map_atom {v : Value} (hv : v.Distinct) : loaded (v.map atom) = v := by
  rw [loaded,Tree.map_map,show scalar ∘ atom = id from funext scalar_atom,Tree.map_id,Tree.collapse_of_distinct hv]

theorem loads_dumpsAt {py : Interpreter} {style : Style} {limit n level : ℕ} {v : Value} {t : Text}
    (h : dumpsAt style limit n level v = .ok t) (hv : v.Distinct) (hn : n ≤ py.decoding)
    (hlimit : limit ≤ py.digits) : loads py t = .ok v := by
  obtain ⟨-,hnested,hfits⟩ := dumpsAt_sound h
  have hread := loads_reads py (whole_dumpsAt h)
  rw [loaded_map_atom hv] at hread
  refine hread.1 ⟨Tree.nested_map.mpr (hnested.mono hn),Tree.every_map.mpr ?_⟩
  exact hfits.mono (fun _ => Fits.mono hlimit) fun _ _ => trivial

end Oidc4acLab.Python
