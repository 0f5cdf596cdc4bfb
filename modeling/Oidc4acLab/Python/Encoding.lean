import Oidc4acLab.Json.Limits
import Oidc4acLab.Python.Bytes

/-! # Dumping what was loaded, and encoding it

What was loaded is dumped if it is nested within the limit: its integers are no longer
than those that were read. A text that is dumped without escapes can be encoded if all
strings and names of the value can.
-/
namespace Oidc4acLab.Python
open Text Json Document Scanner Str

theorem digitsValue_lt {ds : Text} (hds : ∀ d ∈ ds, isDigit d = true) : digitsValue ds < 10^ds.length := by
  have hfold : ∀ v, ds.foldl (fun v c => 10*v+(c.toNat-48)) v < (v+1)*10^ds.length := by
    induction ds with
    | nil =>
      intro v
      simp
    | cons d ds ih =>
      intro v
      have hd := hds d List.mem_cons_self
      simp only [isDigit,Bool.and_eq_true,decide_eq_true_eq,UInt16.le_iff_toNat_le] at hd
      have hd' : d.toNat ≤ 57 := hd.2
      rw [List.foldl_cons,List.length_cons]
      refine Nat.lt_of_lt_of_le (ih (fun c hc => hds c (List.mem_cons_of_mem d hc)) _) ?_
      rw [Nat.pow_succ',← Nat.mul_assoc]
      exact Nat.mul_le_mul_right _ (by omega)
  have h := hfold 0
  rwa [Nat.zero_add,Nat.one_mul] at h

theorem length_digits_digitsValue {ds : Text} (hne : ds ≠ []) (hds : ∀ d ∈ ds, isDigit d = true) :
    (digits (digitsValue ds)).length ≤ ds.length := by
  rw [digits,List.length_map]
  exact (Nat.length_toDigits_le_iff (by decide) (List.length_pos_iff.mpr hne)).mpr (digitsValue_lt hds)

theorem fits_written {limit : ℕ} {w : Text} {a : Atom} (hw : Extended w a) (ha : Fits limit a) :
    Fits limit (atom (scalar a)) := by
  cases a with
  | num l =>
    by_cases hint : l.IsInteger
    · have hl : l.WellFormed := by
        cases hw with
        | standard h =>
          cases h with
          | num h => exact h.1
      have hlen := length_digits_digitsValue hl.whole_ne_nil hl.whole_digits
      rw [scalar_integer hint]
      intro _
      have habs : (if l.negative then -(digitsValue l.whole:ℤ) else digitsValue l.whole).natAbs =
          digitsValue l.whole := by
        split_ifs <;> simp
      simp only [integerLiteral,habs]
      exact Nat.le_trans hlen (ha hint)
    · rw [scalar_double hint]
      cases Double.ofLiteral l with
      | finite negative k => exact fun h => absurd h (doubleLiteral_not_integer negative k)
      | nan | infinity => trivial
  | null | bool | str | nan | infinity => trivial

theorem loaded_fits {limit : ℕ} {t : Text} {d : Tree Atom} (h : Whole Extended t d)
    (hd : d.Every (Fits limit) fun _ => True) : (loaded d).Every (fun s => Fits limit (atom s)) fun _ => True := by
  obtain ⟨before,text,after,-,-,-,hv⟩ := h
  have hread : d.Every (fun a => ∃ w, Extended w a) fun _ => True := hv.every fun w _ h => ⟨w,h⟩
  have hboth : d.Every (fun a => Fits limit (atom (scalar a))) fun _ => True :=
    (hread.and hd).mono (fun _ h => fits_written h.1.choose_spec h.2) fun _ _ => trivial
  have hwritten : (d.map scalar).Every (fun s => Fits limit (atom s)) fun _ => True := Tree.every_map.mpr hboth
  exact hwritten.collapse_leaves

theorem exceeds_loads {py : Interpreter} {t : Text} :
    Exceeds (loads py t) ↔ (scalars py.digits py.digits_pos).PassesLimit py.decoding t := by
  rw [← Leaf.exceeds_document,loads]
  split_ifs with hbom
  · refine iff_of_false not_exceeds_malformed fun h => ?_
    have hvalue : Exceeds ((scalars py.digits py.digits_pos).value py.decoding t) := by
      rcases exceeds_bind.mp h with h | ⟨v,-,h⟩
      · exact h
      · split_ifs at h
        · exact absurd h (not_exceeds_ok _)
        · exact absurd h not_exceeds_malformed
    obtain ⟨c,r,hskip,hc⟩ := Leaf.head_of_exceeds _ hvalue
    obtain ⟨t,rfl⟩ : ∃ u, t = 0xFEFF :: u := ⟨t.tail,(List.cons_head?_tail hbom).symm⟩
    have hhead : skipSpace (0xFEFF :: t) = 0xFEFF :: t := by
      have h := skipSpace_append blank_nil (t := 0xFEFF :: t) (by rintro c ⟨⟩; decide)
      rwa [List.nil_append] at h
    rw [hhead] at hskip
    cases hskip
    rcases hc with hc | hc | hc <;> exact absurd hc (by decide)
  · exact exceeds_map

theorem nested_loaded {n : ℕ} {d : Tree Atom} : (loaded d).Nested n ↔ d.collapse.Nested n := by
  rw [loaded,Tree.collapse_map,Tree.nested_map]

theorem ascii_of_isDigit {c : UInt16} (h : isDigit c = true) : Ascii c := by
  simp only [isDigit,Bool.and_eq_true,decide_eq_true_eq,UInt16.le_iff_toNat_le] at h
  have hlow : 48 ≤ c.toNat := h.1
  have hhigh : c.toNat ≤ 57 := h.2
  exact ⟨by omega,by omega⟩

theorem ascii_literalText {l : Literal} (h : l.WellFormed) : ∀ c ∈ literalText l, Ascii c := by
  have hsigns : ∀ c ∈ [(43:UInt16),45,46,101], Ascii c := by decide
  intro c hc
  exact (mem_literalText h hc).elim ascii_of_isDigit (hsigns c)

theorem ascii_escapeUnit (c : UInt16) : ∀ d ∈ escapeUnit c, Ascii d := by
  have hunit : ∀ n < 16, Ascii (hexUnit n) := by decide
  have hlt : c.toNat < 65536 := c.toNat_lt
  intro d hd
  simp only [escapeUnit,List.mem_cons,List.not_mem_nil,or_false] at hd
  rcases hd with rfl | rfl | rfl | rfl | rfl | rfl
  · decide
  · decide
  all_goals exact hunit _ (by omega)

/-- A unit is quoted by ASCII characters, or by itself where nothing asks for an escape. -/
theorem mem_quoteUnit {ascii : Bool} {c d : UInt16} (hd : d ∈ quoteUnit ascii c) :
    Ascii d ∨ d = c ∧ 32 ≤ c.toNat ∧ (ascii = true → c.toNat ≤ 126) := by
  rw [quoteUnit] at hd
  cases he : shortEscapes.lookup c with
  | some e =>
    have hall : ∀ p ∈ shortEscapes, Ascii p.2 := by decide
    rw [he] at hd
    rcases List.mem_cons.mp hd with rfl | hd
    · exact Or.inl (by decide)
    · rw [List.mem_singleton.mp hd]
      exact Or.inl (hall (c,e) (Collections.mem_of_lookup he))
  | none =>
    simp only [he] at hd
    split_ifs at hd with hc
    · exact Or.inl (ascii_escapeUnit c d hd)
    · rw [not_or,not_and,UInt16.not_lt,UInt16.not_lt,UInt16.le_iff_toNat_le,UInt16.le_iff_toNat_le] at hc
      exact Or.inr ⟨List.mem_singleton.mp hd,hc⟩

theorem ascii_quote (t : Text) : ∀ c ∈ quote true t, Ascii c := by
  intro c hc
  rcases List.mem_cons.mp hc with rfl | hc
  · decide
  rcases List.mem_append.mp hc with hc | hc
  · obtain ⟨d,-,hd⟩ := List.mem_flatMap.mp hc
    rcases mem_quoteUnit hd with hascii | ⟨rfl,hlow,hhigh⟩
    · exact hascii
    · have hle := hhigh rfl
      exact ⟨by omega,by omega⟩
  · rw [List.mem_singleton.mp hc]
    decide

theorem ascii_words : ∀ w ∈ words, ∀ c ∈ w.1, Ascii c := by
  decide

theorem ascii_atomText (s : Scalar) : ∀ c ∈ atomText true (atom s), Ascii c := by
  cases s with
  | none => exact ascii_words (js "null",.null) (by decide)
  | bool b =>
    cases b with
    | true => exact ascii_words (js "true",.bool true) (by decide)
    | false => exact ascii_words (js "false",.bool false) (by decide)
  | int z => exact ascii_literalText (integerLiteral_wellFormed z)
  | float x =>
    cases x with
    | nan => exact ascii_words (js "NaN",.nan) (by decide)
    | infinity negative =>
      cases negative with
      | true => exact ascii_words (js "-Infinity",.infinity true) (by decide)
      | false => exact ascii_words (js "Infinity",.infinity false) (by decide)
    | finite negative k => exact ascii_literalText (doubleLiteral_wellFormed negative k)
  | str t => exact ascii_quote t

def Plain (c : UInt16) : Prop := isLead c = false ∧ isTrail c = false

instance (c : UInt16) : Decidable (Plain c) := inferInstanceAs (Decidable (_ ∧ _))

theorem paired_cons {c : UInt16} (hc : Plain c) (t : Text) : Paired (c :: t) ↔ Paired t := by
  have h := paired_append_cons hc.1 hc.2 [] t
  rw [List.nil_append] at h
  rw [h]
  exact and_iff_right paired_nil

theorem paired_plain_append {b : Text} (hb : ∀ c ∈ b, Plain c) (t : Text) : Paired (b ++ t) ↔ Paired t := by
  induction b with
  | nil => rfl
  | cons c b ih =>
    rw [List.cons_append,paired_cons (hb c List.mem_cons_self),ih fun d hd => hb d (List.mem_cons_of_mem c hd)]

theorem paired_join (ts : List Text) : Paired (join [44] ts) ↔ ∀ t ∈ ts, Paired t := by
  induction ts with
  | nil => simp [join,paired_nil]
  | cons t ts ih =>
    cases ts with
    | nil => rw [join_singleton,List.forall_mem_singleton]
    | cons t' ts =>
      rw [join_cons_cons,List.singleton_append,paired_append_cons (by decide) (by decide),ih,List.forall_mem_cons (a := t)]

theorem plain_of_lt {c : UInt16} (h : c.toNat < 0xD800) : Plain c := by
  have hlow : (0xD800:UInt16).toNat = 0xD800 ∧ (0xDC00:UInt16).toNat = 0xDC00 := ⟨rfl,rfl⟩
  simp only [Plain,isLead,isTrail,Bool.and_eq_false_iff,decide_eq_false_iff_not,UInt16.le_iff_toNat_le,hlow.1,hlow.2]
  omega

theorem plain_of_ascii {c : UInt16} (h : Ascii c) : Plain c := by
  have hlt : c.toNat < 128 := h.2
  exact plain_of_lt (by omega)

theorem plain_literalText {l : Literal} (h : l.WellFormed) : ∀ c ∈ literalText l, Plain c :=
  fun c hc => plain_of_ascii (ascii_literalText h c hc)

/-- What is quoted without escapes for surrogates: plain units for a plain unit, the unit itself for a
surrogate. -/
theorem quoteUnit_plain {c : UInt16} (hc : Plain c) : ∀ d ∈ quoteUnit false c, Plain d := by
  intro d hd
  rcases mem_quoteUnit hd with hascii | ⟨rfl,-⟩
  · exact plain_of_ascii hascii
  · exact hc

theorem quoteUnit_surrogate {c : UInt16} (hc : ¬ Plain c) : quoteUnit false c = [c] := by
  have hne : ∀ d : UInt16, Plain d → c ≠ d := by
    rintro d hd rfl
    exact hc hd
  have hlookup : shortEscapes.lookup c = none := by
    rw [List.lookup_eq_none_iff]
    have hall : ∀ p ∈ shortEscapes, Plain p.1 := by decide
    intro p hp
    exact bne_iff_ne.mpr (hne p.1 (hall p hp))
  have hlow : ¬ c < 32 := by
    intro hlt
    have hc' : c.toNat < 32 := hlt
    exact hc (plain_of_lt (by omega))
  rw [quoteUnit,hlookup]
  simp [hlow]

theorem paired_quoted (t : Text) : Paired (t.flatMap (quoteUnit false)) ↔ Paired t := by
  fun_induction ofUnits t with
  | case1 => rfl
  | case2 c =>
    rw [List.flatMap_singleton]
    by_cases hc : Plain c
    · have h := paired_plain_append (quoteUnit_plain hc) []
      rw [List.append_nil] at h
      rw [h,paired_cons hc]
    · rw [quoteUnit_surrogate hc]
  | case3 c d t h ih =>
    have hsplit := Bool.and_eq_true_iff.mp h
    have hc : ¬ Plain c := fun hc => by
      rw [hc.1] at hsplit
      cases hsplit.1
    have hd : ¬ Plain d := fun hd => by
      rw [hd.2] at hsplit
      cases hsplit.2
    have hpair : ∀ t, Paired (c :: d :: t) ↔ isSurrogate (ofPair c d) = false ∧ Paired t := by
      intro t
      rw [Paired,ofUnits,if_pos h,Str.Encodable,List.forall_mem_cons]
      rfl
    rw [List.flatMap_cons,List.flatMap_cons,quoteUnit_surrogate hc,quoteUnit_surrogate hd,List.singleton_append,
      List.singleton_append,hpair,hpair,ih]
  | case4 c d t h ih =>
    rw [List.flatMap_cons]
    by_cases hc : Plain c
    · rw [paired_plain_append (quoteUnit_plain hc),ih,paired_cons hc]
    · -- a surrogate that the next unit does not complete
      have hlone : ∀ e u, (isLead c && isTrail e) = false → ¬ Paired (c :: e :: u) := by
        intro e u he hp
        rw [Paired,ofUnits,if_neg (by rw [he]; exact Bool.false_ne_true),Str.Encodable,List.forall_mem_cons] at hp
        have hs := hp.1
        rw [isSurrogate_ofUnit,Bool.or_eq_false_iff] at hs
        exact hc hs
      have hnext : ∃ e u, (d :: t).flatMap (quoteUnit false) = e :: u ∧ (isLead c && isTrail e) = false := by
        rw [List.flatMap_cons]
        by_cases hd : Plain d
        · have hne : quoteUnit false d ≠ [] := by
            rw [quoteUnit]
            cases shortEscapes.lookup d with
            | some e => exact List.cons_ne_nil _ _
            | none =>
              simp only
              split_ifs <;> exact List.cons_ne_nil _ _
          obtain ⟨e,u,hu⟩ := List.exists_cons_of_ne_nil hne
          have he := quoteUnit_plain hd e (by rw [hu]; exact List.mem_cons_self)
          exact ⟨e,_,by rw [hu]; rfl,by rw [he.2,Bool.and_false]⟩
        · rw [quoteUnit_surrogate hd]
          exact ⟨d,_,rfl,Bool.eq_false_iff.mpr h⟩
      obtain ⟨e,u,hu,he⟩ := hnext
      rw [quoteUnit_surrogate hc,hu,List.singleton_append]
      exact iff_of_false (hlone e u he) (hlone d t (Bool.eq_false_iff.mpr h))

theorem paired_quote (t : Text) : Paired (quote false t) ↔ Paired t := by
  have h := paired_append_cons (c := 34) (by decide) (by decide) (t.flatMap (quoteUnit false)) []
  rw [quote,paired_cons (by decide),h,paired_quoted]
  exact and_iff_left paired_nil

def ScalarPaired : Scalar → Prop
  | .str t => Paired t
  | _ => True

abbrev ValuePaired (v : Value) : Prop := v.Every ScalarPaired fun names => ∀ name ∈ names, Paired name

theorem paired_atomText (s : Scalar) : Paired (atomText false (atom s)) ↔ ScalarPaired s := by
  have hword : ∀ v ∈ words, Paired v.1 := fun v hv =>
    paired_of_plain fun c hc => plain_of_ascii (ascii_words v hv c hc)
  cases s with
  | none => exact iff_of_true (hword (js "null",.null) (by decide)) trivial
  | bool b =>
    refine iff_of_true ?_ trivial
    cases b with
    | true => exact hword (js "true",.bool true) (by decide)
    | false => exact hword (js "false",.bool false) (by decide)
  | int z => exact iff_of_true (paired_of_plain (plain_literalText (integerLiteral_wellFormed z))) trivial
  | float x =>
    refine iff_of_true ?_ trivial
    cases x with
    | nan => exact hword (js "NaN",.nan) (by decide)
    | infinity negative =>
      cases negative with
      | true => exact hword (js "-Infinity",.infinity true) (by decide)
      | false => exact hword (js "Infinity",.infinity false) (by decide)
    | finite negative k => exact paired_of_plain (plain_literalText (doubleLiteral_wellFormed negative k))
  | str t => exact paired_quote t

theorem plain_of_isBlank {c : UInt16} (h : isBlank c = true) : Plain c := by
  simp only [isBlank,Bool.or_eq_true,beq_iff_eq] at h
  rcases h with ((rfl | rfl) | rfl) | rfl <;> decide

theorem paired_enclosed (style : Style) (level : ℕ) {opening closing : UInt16} (ho : Plain opening)
    (hc : Plain closing) (ts : List Text) :
    Paired (enclosed style level opening closing ts) ↔ ∀ t ∈ ts, Paired t := by
  have hblank : ∀ level, ∀ c ∈ style.newline level, Plain c := fun level c hc =>
    plain_of_isBlank (style.blank_newline level c hc)
  rw [enclosed]
  split_ifs with h
  · rw [h]
    exact iff_of_true (by rw [paired_cons ho,paired_cons hc]; exact paired_nil) (by simp)
  · have hclosing : ∀ t, Paired (t ++ (style.newline level ++ [closing])) ↔ Paired t := by
      intro t
      have hplain : ∀ c ∈ style.newline level ++ [closing], Plain c := by
        intro c hmem
        rcases List.mem_append.mp hmem with hmem | hmem
        · exact hblank level c hmem
        · exact (List.mem_singleton.mp hmem) ▸ hc
      obtain ⟨d,u,hu⟩ := List.exists_cons_of_ne_nil (List.append_ne_nil_of_right_ne_nil (style.newline level)
        (List.cons_ne_nil closing []))
      rw [hu] at hplain ⊢
      have hd := hplain d List.mem_cons_self
      rw [paired_append_cons hd.1 hd.2]
      exact and_iff_left (paired_of_plain fun c hmem => hplain c (List.mem_cons_of_mem d hmem))
    rw [paired_cons ho,hclosing,paired_join,List.forall_mem_map]
    exact forall₂_congr fun t _ => paired_plain_append (hblank (level+1)) t

/-- A text that is dumped without escapes can be encoded exactly if the value's strings and names can. -/
theorem paired_dumpsAt {style : Style} (hascii : style.ascii = false) {limit n level : ℕ} {v : Value} {t : Text}
    (h : dumpsAt style limit n level v = .ok t) : Paired t ↔ ValuePaired v := by
  have hleaf : ∀ {s t}, scalarText style.ascii limit s = .ok t → (Paired t ↔ ValuePaired (.leaf s)) := by
    intro s t hs
    obtain ⟨rfl,-⟩ := scalarText_eq_ok.mp hs
    rw [hascii,paired_atomText]
    exact Tree.every_leaf.symm
  induction n generalizing level v t with
  | zero =>
    cases v with
    | leaf s =>
      rw [dumpsAt] at h
      exact hleaf h
    | arr | obj => cases h
  | succ n ih =>
    cases v with
    | leaf s =>
      rw [dumpsAt] at h
      exact hleaf h
    | arr items =>
      obtain ⟨ts,hts,heq⟩ := Fallible.bind_eq_ok.mp h
      cases heq
      obtain ⟨es,rfl,rfl,hes⟩ := exists_zip hts
      rw [paired_enclosed style level (by decide) (by decide),ValuePaired,Tree.every_arr,List.forall_mem_map,
        List.forall_mem_map]
      exact forall₂_congr fun e he => ih (hes e he)
    | obj ms =>
      obtain ⟨ts,hts,heq⟩ := Fallible.bind_eq_ok.mp h
      cases heq
      obtain ⟨es,rfl,rfl,hes⟩ := exists_zip hts
      have hmember : ∀ e ∈ es, Paired (style.memberText e.2.1 e.1) ↔ Paired e.2.1 ∧ ValuePaired e.2.2 := by
        intro e he
        have hspace : ∀ c ∈ style.space, Plain c := fun c hc => plain_of_isBlank (style.blank_space c hc)
        have hvalue : Paired e.1 ↔ ValuePaired e.2.2 := ih (hes e he)
        rw [Style.memberText,hascii,paired_append_cons (by decide) (by decide),paired_quote,
          paired_plain_append hspace,hvalue]
      rw [List.zipWith_map,List.zipWith_self,paired_enclosed style level (by decide) (by decide),ValuePaired,
        Tree.every_obj,List.forall_mem_map,List.forall_mem_map,List.forall_mem_map,List.forall_mem_map,
        forall₂_congr hmember]
      exact forall₂_and

theorem ascii_enclosed {opening closing : UInt16} (ho : Ascii opening) (hc : Ascii closing) (level : ℕ) {ts : List Text}
    (h : ∀ t ∈ ts, ∀ c ∈ t, Ascii c) : ∀ c ∈ enclosed .compact level opening closing ts, Ascii c := by
  rw [enclosed]
  split_ifs with hnil
  · exact List.forall_mem_cons.mpr ⟨ho,List.forall_mem_singleton.mpr hc⟩
  · refine List.forall_mem_cons.mpr ⟨ho,?_⟩
    intro c hmem
    rcases List.mem_append.mp hmem with hmem | hmem
    · rcases mem_join hmem with hcomma | ⟨u,hu,hcu⟩
      · rw [List.mem_singleton.mp hcomma]
        decide
      · obtain ⟨t,ht,rfl⟩ := List.mem_map.mp hu
        exact h t ht c hcu
    · exact List.mem_singleton.mp hmem ▸ hc

theorem ascii_dumpsAt {limit n level : ℕ} {v : Value} {t : Text} (h : dumpsAt .compact limit n level v = .ok t) :
    ∀ c ∈ t, Ascii c := by
  have hleaf : ∀ {s t}, scalarText true limit s = .ok t → ∀ c ∈ t, Ascii c := by
    intro s t hs
    obtain ⟨rfl,-⟩ := scalarText_eq_ok.mp hs
    exact ascii_atomText s
  induction n generalizing level v t with
  | zero =>
    cases v with
    | leaf s =>
      rw [dumpsAt] at h
      exact hleaf h
    | arr | obj => cases h
  | succ n ih =>
    cases v with
    | leaf s =>
      rw [dumpsAt] at h
      exact hleaf h
    | arr items =>
      obtain ⟨ts,hts,heq⟩ := Fallible.bind_eq_ok.mp h
      cases heq
      refine ascii_enclosed (by decide) (by decide) level ?_
      intro t ht
      obtain ⟨v,-,hv⟩ := Fallible.exists_of_mem_right (Fallible.mapM_eq_ok.mp hts) ht
      exact ih hv
    | obj ms =>
      obtain ⟨ts,hts,heq⟩ := Fallible.bind_eq_ok.mp h
      cases heq
      obtain ⟨es,rfl,rfl,hes⟩ := exists_zip hts
      rw [List.zipWith_map,List.zipWith_self]
      refine ascii_enclosed (by decide) (by decide) level (List.forall_mem_map.mpr ?_)
      intro e he c hc
      rcases List.mem_append.mp hc with hc | hc
      · exact ascii_quote e.2.1 c hc
      · rcases List.mem_cons.mp hc with rfl | hc
        · decide
        · exact ih (hes e he) c hc

end Oidc4acLab.Python
