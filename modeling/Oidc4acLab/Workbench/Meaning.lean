import Oidc4acLab.Workbench.Claims

/-! # What the submitted claims denote

The text of the editor and the text that `/login` sends are compared as texts of the
standard: the same members and strings, numbers equal as numbers. Loading rounds numbers
with a fraction or an exponent and keeps one member of each name, so they denote the
same value exactly if there is nothing to round and no name twice.
-/
namespace Oidc4acLab.Workbench
open Python Document Binary64 Str
open scoped Text

/-- A number is an integer or has the value of the shortest decimal of a double. -/
def Representable : Atom → Prop
  | .num l => l.IsInteger ∨
      ∃ k < overflow, l.value = decimal l.negative (Number.shortest k).1 (Number.shortest k).2
  | .nan => False
  | .infinity _ => False
  | _ => True

/-- A text of the standard without a name twice in one object, whose numbers are representable. -/
def Exact (t : Text) : Prop := ∃ d, Whole Standard t d ∧ d.Distinct ∧ d.Every Representable fun _ => True

theorem denoted_written_iff {a : Atom} (ha : a.Finite) :
    (atom (scalar a)).denoted = a.denoted ↔ Representable a := by
  cases a with
  | num l =>
    by_cases hint : l.IsInteger
    · have hvalue : l.value = ((if l.negative then -(Text.digitsValue l.whole) else Text.digitsValue l.whole:ℤ):ℚ) := by
        rw [Literal.value,hint.1,hint.2,List.append_nil,decimal]
        cases l.negative <;> simp
      rw [scalar_integer hint,atom,Atom.denoted,Atom.denoted,integerLiteral_value,← hvalue]
      exact iff_of_true rfl (Or.inl hint)
    · have hrepresentable : Representable (.num l) ↔
          ∃ k < overflow, l.value = decimal l.negative (Number.shortest k).1 (Number.shortest k).2 :=
        or_iff_right hint
      rw [scalar_double hint,hrepresentable]
      constructor
      · intro h
        cases hx : Double.ofLiteral l with
        | finite negative k =>
          have hneg : negative = l.negative := by
            simp only [Double.ofLiteral,Double.ofDecimal] at hx
            split_ifs at hx
            cases hx
            rfl
          rw [hx,atom,Atom.denoted,Atom.denoted,doubleLiteral_value,hneg] at h
          rw [Option.some.injEq,Denoted.num.injEq] at h
          exact ⟨k,k.2,h.symm⟩
        | nan | infinity =>
          rw [hx] at h
          cases h
      · rintro ⟨k,hk,hvalue⟩
        rw [ofLiteral_of_value hk hvalue,atom,Atom.denoted,Atom.denoted,doubleLiteral_value,hvalue]
  | null | bool | str => simp [scalar,atom,Atom.denoted,Representable]
  | nan | infinity => exact absurd ha id

theorem finite_of_denoted {a b : Atom} (h : b.denoted = a.denoted) (ha : a.Finite) : b.Finite := by
  cases a <;> cases b <;> trivial

theorem map_atom_loaded {β : Type} (f : Atom → β) (d : Tree Atom) :
    ((loaded d).map atom).map f = (d.map fun a => f (atom (scalar a))).collapse := by
  rw [loaded,← Tree.collapse_map,← Tree.collapse_map,Tree.map_map,Tree.map_map]
  rfl

theorem Whole.extended {t : Text} {d : Tree Atom} (h : Whole Standard t d) : Whole Extended t d := by
  obtain ⟨before,text,after,rfl,hb,ha,hv⟩ := h
  exact ⟨before,text,after,rfl,hb,ha,hv.mono (P := fun _ => True) (fun _ _ h _ => .standard h)
    (hv.every fun _ _ _ => trivial)⟩

theorem Whole.finite {t : Text} {d : Tree Atom} (h : Whole Standard t d) : d.Every Atom.Finite fun _ => True := by
  obtain ⟨_,_,_,_,_,_,hv⟩ := h
  exact hv.every fun _ _ h => Standard.finite h

/-- The claims that `/login` sends denote the value of the text exactly if the text is a text of the
standard without a name twice in one object, whose numbers are representable. -/
theorem sent_same_iff {server : Server} {form : LoginForm} {nonce contextId raw : Str} {sent : Text}
    (hraw : form.claimsJson = some raw) (hsent : sentClaims (login server form nonce contextId) = some sent) :
    SameValue (units raw) sent ↔ Exact (units raw) := by
  obtain ⟨claims,hparse,hdumps⟩ := sent_of_login hsent
  rw [hraw] at hparse
  obtain ⟨d,hd,-,hloaded⟩ := loads_eq_ok (loads_of_parseClaims hparse)
  have hsentText : Whole Extended sent ((loaded d).map atom) := by
    rw [← hloaded]
    exact whole_dumpsAt hdumps
  constructor
  · rintro ⟨d1,d2,h1,h2,heq⟩
    have hd1 := whole_unique (Whole.extended h1) hd
    have hd2 := whole_unique (Whole.extended h2) hsentText
    subst hd1 hd2
    rw [map_atom_loaded] at heq
    obtain ⟨hdistinct,hleaves⟩ := Tree.collapse_map_eq_map_iff.mp heq.symm
    have hboth := (Whole.finite h1).and hleaves
    exact ⟨d1,h1,hdistinct,hboth.mono (fun _ h => (denoted_written_iff h.1).mp h.2) fun _ _ => trivial⟩
  · rintro ⟨d1,h1,hdistinct,hrepresentable⟩
    have hd1 := whole_unique (Whole.extended h1) hd
    subst hd1
    have hboth := (Whole.finite h1).and hrepresentable
    have hleaves : d1.Every (fun a => (atom (scalar a)).denoted = a.denoted) fun _ => True :=
      hboth.mono (fun _ h => (denoted_written_iff h.1).mpr h.2) fun _ _ => trivial
    have hfinite : (d1.map scalar).Every (fun s => (atom s).Finite) fun _ => True :=
      Tree.every_map.mpr (((Whole.finite h1).and hleaves).mono (fun _ h => finite_of_denoted h.2 h.1)
        fun _ _ => trivial)
    have hwritten : ((loaded d1).map atom).Every Atom.Finite fun _ => True :=
      Tree.every_map.mpr hfinite.collapse_leaves
    refine ⟨d1,(loaded d1).map atom,h1,hsentText.mono (fun _ _ h hP => Extended.of_finite h hP) hwritten,?_⟩
    rw [map_atom_loaded]
    exact (Tree.collapse_map_eq_map_iff.mpr ⟨hdistinct,hleaves⟩).symm

theorem representable_atom {s : Scalar} (h : (atom s).Finite) : Representable (atom s) := by
  cases s with
  | float x =>
    cases x with
    | finite negative k => exact Or.inr ⟨k,k.2,by rw [doubleLiteral_value,doubleLiteral_negative]⟩
    | nan | infinity => exact absurd h id
  | int z => exact Or.inl ⟨rfl,rfl⟩
  | none | bool | str => trivial

theorem exact_dumps {py : Interpreter} {v : Value} {t : Text} (h : dumps py v = .ok t) (hdistinct : v.Distinct)
    (hfinite : v.Every (fun s => (atom s).Finite) fun _ => True) : Exact t := by
  refine ⟨v.map atom,(whole_dumpsAt h).mono (fun _ _ h hP => Extended.of_finite h hP) (Tree.every_map.mpr hfinite),
    Tree.every_map.mpr hdistinct,Tree.every_map.mpr ?_⟩
  exact hfinite.mono (fun _ => representable_atom) fun _ _ => trivial

/-- A server with the limits of the interpreter in use. -/
def lab : Server where
  py := .usual
  errorPosition := fun _ => (1,1)

/-- The text of an object with one member `a`. -/
def memberA (w : Text) : Text := [123,34,97,34,58] ++ (w ++ [125])

def submitted (t : Text) : LoginForm := ⟨some (ofUnits t),false,false,false⟩

theorem whole_memberA {L : Text → Atom → Prop} {w : Text} {a : Atom} (h : L w a) :
    Whole L (memberA w) (.obj [([97],.leaf a)]) := by
  let m : Member Atom := ⟨[],[97],[97],[],[],w,[],.leaf a⟩
  have hchars : Chars [97] [97] := .plain (by decide) (by decide) (by decide) .nil
  have hobj : Value L (123 :: (joined ([m].map Member.piece) ++ ([] ++ [125]))) (.obj [([97],.leaf a)]) :=
    .obj blank_nil (by simp [m,Member.piece,Piece.Spaced]) (by simpa [m,Member.Spelled] using hchars)
      (by simpa [m] using .leaf h)
  exact ⟨[],_,[],by simp [memberA,m,joined,Text.join,Member.piece],blank_nil,blank_nil,hobj⟩

/-- An object with strings, an array and a decimal. -/
def sample : Object :=
  [(js "a",.obj [(js "b",.leaf (.str (js "é\n")))]),
    (js "c",.arr [.leaf (.float (.finite false ⟨4609434218613702656,by decide⟩)),.leaf (.int (-2)),.leaf .none])]

def sampleText : Text := js "\x7b\"a\":\x7b\"b\":\"\\u00e9\\n\"\x7d,\"c\":[1.5,-2,null]\x7d"

theorem dumps_sample : dumps lab.py (.obj sample) = .ok sampleText := by
  decide +kernel

theorem distinct_sample : (Tree.obj sample).Distinct := by
  have hne : js "a" ≠ js "c" := by decide
  simp [sample,hne]

/-- The object is sent as it is. -/
theorem sample_sent_same : sentClaims (login lab (submitted sampleText) [] []) = some sampleText ∧
    SameValue (units (ofUnits sampleText)) sampleText := by
  have hsent : sentClaims (login lab (submitted sampleText) [] []) = some sampleText := by
    decide +kernel
  refine ⟨hsent,(sent_same_iff rfl hsent).mpr ?_⟩
  rw [units_ofUnits]
  exact exact_dumps dumps_sample distinct_sample (by simp [sample,atom,Atom.Finite])

/-- The word `NaN` is accepted and sent. -/
theorem nan_sent :
    sentClaims (login lab (submitted (memberA (js "NaN"))) [] []) = some (memberA (js "NaN")) ∧
      ¬ SameValue (units (ofUnits (memberA (js "NaN")))) (memberA (js "NaN")) := by
  refine ⟨by decide +kernel,?_⟩
  rintro ⟨d,d',h,-,-⟩
  rw [units_ofUnits] at h
  have hd := whole_unique (Whole.extended h) (whole_memberA .nan)
  have hfinite := Whole.finite h
  rw [hd] at hfinite
  simp [Atom.Finite] at hfinite

end Oidc4acLab.Workbench
