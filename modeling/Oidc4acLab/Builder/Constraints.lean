import Oidc4acLab.Builder.RoundTrip
import Oidc4acLab.Text.Pieces

/-! # Constraint rows

A constraint is shown in one row and read back from it. Values travel as untyped text: a
string that reads as JSON, that an input or trimming changes, or that holds a comma in a
list of values does not come back.
-/
namespace Oidc4acLab.Builder
open Text Fallible

abbrev FiniteNumber := {i : ℤ // i.natAbs < Binary64.overflow}

inductive Scalar
  | null
  | bool (b : Bool)
  | num (x : Number)
  | str (t : Text)

def Scalar.toJson : Scalar → Json
  | .null => .null
  | .bool b => .bool b
  | .num x => .num x
  | .str t => .str t

/-- The constraints that a row is for. -/
inductive Requirement
  | requested
  | presence (essential : Bool)
  | value (essential : Bool) (v : Scalar)
  | values (essential : Bool) (vs : List Scalar) (nonempty : vs ≠ [])
  | range (essential : Bool) (min max : Option FiniteNumber) (bounded : ¬ (min = none ∧ max = none))

def boundMember (name : Text) (x : Option FiniteNumber) : List (Text × Json) :=
  x.elim [] fun i => [(name,.num (.finite i))]

def Requirement.toJson : Requirement → Json
  | .requested => .null
  | .presence essential => .obj (essentialMember essential)
  | .value essential v => .obj (essentialMember essential ++ [(js "value",v.toJson)])
  | .values essential vs _ =>
    .obj (essentialMember essential ++ [(js "values",.arr (vs.map Scalar.toJson))])
  | .range essential min max _ =>
    .obj (essentialMember essential ++ boundMember (js "min") min ++ boundMember (js "max") max)

/-- Text that comes back as the string it is. -/
structure KeptString (t : Text) : Prop extends Plain t where
  notJson : Json.parse t = none

/-- The value comes back when it stands alone. -/
def Scalar.Kept : Scalar → Prop
  | .str t => KeptString t
  | .num x => ∃ i, x = .finite i
  | _ => True

def Scalar.KeptInList : Scalar → Prop
  | .str t => KeptString t ∧ (44 : UInt16) ∉ t
  | .num x => ∃ i, x = .finite i
  | _ => True

def Requirement.Kept : Requirement → Prop
  | .value _ v => v.Kept
  | .values _ vs _ => ∀ v ∈ vs, v.KeptInList
  | _ => True

/-- Looking up suggestions for this name does not throw. -/
def Shown (d : Discovery) (kind : Kind) (identifier name : Text) : Prop :=
  ¬ (trim (TextInput.assign name).value = js "constructor" ∧
    js "constructor" ∉ suggestedNames d kind (trim identifier))

/-- What `parseScalar` gives for a trimmed, nonempty text. -/
def scalarOf (t : Text) : Json := (Json.parse t).getD (.str t)

theorem parseScalar_eq {t label : Text} {v : Json} :
    parseScalar t label = .ok v ↔ trim t ≠ [] ∧ v = scalarOf (trim t) := by
  rw [parseScalar,ite_eq_ok,scalarOf]
  refine and_congr_right fun _ => ?_
  cases Json.parse (trim t) <;> simp [eq_comm]

theorem scalarOf_str {t s : Text} (h : scalarOf t = .str s) :
    t = s ∧ Json.parse t = none ∨ s.length < t.length := by
  rw [scalarOf] at h
  cases hp : Json.parse t with
  | none =>
    rw [hp] at h
    cases h
    exact Or.inl ⟨rfl,rfl⟩
  | some j =>
    rw [hp,Option.getD_some] at h
    rw [h] at hp
    exact Or.inr (Json.length_parse_str hp)

def shownText (v : Json) : Text := (TextInput.assign (valueForInput v)).value

theorem shownText_str_subset {t : Text} {c : UInt16} (h : c ∈ shownText (.str t)) :
    c ∈ t ∧ isNewline c = false :=
  ⟨(List.mem_filter.mp h).1,(TextInput.assign t).singleLine c h⟩

theorem length_shownText_str (t : Text) : (shownText (.str t)).length ≤ t.length :=
  List.length_filter_le _ _

theorem shown_other {v : Scalar} (hv : ∀ t, v ≠ .str t) :
    Plain (shownText v.toJson) ∧ (44 : UInt16) ∉ shownText v.toJson ∧
      (scalarOf (shownText v.toJson) = v.toJson ↔ v.Kept) := by
  have hword : ∀ t : Text, (trim t = t ∧ t ≠ [] ∧ (∀ c ∈ t, isNewline c = false) ∧ (44 : UInt16) ∉ t) →
      Plain t ∧ (44 : UInt16) ∉ t := fun t h => ⟨⟨h.1,h.2.1,h.2.2.1⟩,h.2.2.2⟩
  cases v with
  | str t => exact absurd rfl (hv t)
  | null =>
    have h := hword (js "null") (by decide)
    exact ⟨h.1,h.2,iff_of_true (by decide +kernel) trivial⟩
  | bool b =>
    cases b with
    | false =>
      have h := hword (js "false") (by decide)
      exact ⟨h.1,h.2,iff_of_true (by decide +kernel) trivial⟩
    | true =>
      have h := hword (js "true") (by decide)
      exact ⟨h.1,h.2,iff_of_true (by decide +kernel) trivial⟩
  | num x =>
    have hnull := hword (js "null") (by decide)
    have hread : scalarOf (js "null") = .null := by decide +kernel
    cases x with
    | nan =>
      refine ⟨hnull.1,hnull.2,iff_of_false ?_ (by simp [Scalar.Kept])⟩
      exact fun h => nomatch hread.symm.trans h
    | infinity negative =>
      refine ⟨hnull.1,hnull.2,iff_of_false ?_ (by simp [Scalar.Kept])⟩
      exact fun h => nomatch hread.symm.trans h
    | finite i =>
      have hchars := Number.toText_numeric i
      have hline : ∀ c ∈ Number.toText (.finite i), isNewline c = false := fun c hc =>
        not_newline_of_not_space (hchars c hc).not_space
      have hcomma : (44 : UInt16) ∉ Number.toText (.finite i) := by
        intro hc
        rcases hchars 44 hc with h | h
        · cases h
        · exact absurd h (by decide)
      have hshown : shownText (Scalar.num (.finite i)).toJson = Number.toText (.finite i) := assign_value hline
      rw [hshown]
      refine ⟨⟨Number.toText_trimmed i,toText_ne_nil i,hline⟩,hcomma,iff_of_true ?_ ⟨i,rfl⟩⟩
      rw [scalarOf,Json.parse_toText]
      rfl

theorem shownText_plain {t : Text} (h : Plain t) : shownText (.str t) = t := assign_value h.singleLine

/-- A text that gives a string back, and is no longer than it and holds no other characters, is
the string. -/
theorem keptString_of_scalarOf {p t : Text} (hlen : p.length ≤ t.length) (htrim : trim p = p)
    (hne : p ≠ []) (hline : ∀ c ∈ p, isNewline c = false) (h : scalarOf p = .str t) :
    p = t ∧ KeptString t := by
  rcases scalarOf_str h with ⟨rfl,hp⟩ | hlt
  · exact ⟨rfl,⟨⟨htrim,hne,hline⟩,hp⟩⟩
  · omega

theorem scalarOf_kept {t : Text} (h : KeptString t) : scalarOf t = .str t := by
  rw [scalarOf,h.notJson,Option.getD_none]

theorem Scalar.str_or (v : Scalar) : (∃ t, v = .str t) ∨ ∀ t, v ≠ .str t := by
  cases v with
  | str t => exact Or.inl ⟨t,rfl⟩
  | _ => exact Or.inr fun t => nofun

theorem value_kept_iff (v : Scalar) :
    (trim (shownText v.toJson) ≠ [] ∧ scalarOf (trim (shownText v.toJson)) = v.toJson) ↔ v.Kept := by
  rcases v.str_or with ⟨t,rfl⟩ | hv
  · constructor
    · rintro ⟨hne,h⟩
      have hlen := (length_trim_le (shownText (.str t))).trans (length_shownText_str t)
      refine (keptString_of_scalarOf hlen (trim_trim _) hne ?_ h).2
      exact fun c hc => (shownText_str_subset (mem_of_mem_trim hc)).2
    · intro h
      have hk : KeptString t := h
      rw [Scalar.toJson,shownText_plain hk.toPlain,hk.trimmed]
      exact ⟨hk.nonblank,scalarOf_kept hk⟩
  · obtain ⟨hplain,-,hiff⟩ := shown_other hv
    rw [hplain.trimmed,← hiff]
    exact ⟨fun h => h.2,fun h => ⟨hplain.nonblank,h⟩⟩

def items (v : Scalar) : List Text := pieces 44 (shownText v.toJson)

theorem items_alone {v : Scalar} {p : Text} (hp : p ∈ items v) (h : scalarOf p = v.toJson) :
    items v = [p] := by
  rcases v.str_or with ⟨t,rfl⟩ | hv
  · refine pieces_eq_singleton hp ?_
    have hlen := length_shownText_str t
    rcases scalarOf_str h with ⟨rfl,-⟩ | hlt
    · exact hlen
    · exact hlen.trans hlt.le
  · obtain ⟨hplain,hcomma,-⟩ := shown_other hv
    have hone := pieces_of_plain hplain.trimmed hplain.nonblank hcomma
    rw [items,hone] at hp ⊢
    rw [List.mem_singleton.mp hp]

theorem item_kept_iff (v : Scalar) :
    (∃ p, items v = [p] ∧ scalarOf p = v.toJson) ↔ v.KeptInList := by
  rcases v.str_or with ⟨t,rfl⟩ | hv
  · constructor
    · rintro ⟨p,hp,h⟩
      have hmem : p ∈ items (.str t) := by
        rw [hp]
        exact List.mem_singleton_self p
      obtain ⟨htrim,hne,hcomma,hsub⟩ := mem_pieces hmem
      have hw := weight_pieces_le 44 (shownText (Scalar.str t).toJson)
      rw [items] at hp
      rw [hp] at hw
      have hlen := length_shownText_str t
      simp only [weight,List.map_singleton,List.sum_singleton,Scalar.toJson] at hw
      obtain ⟨rfl,hk⟩ := keptString_of_scalarOf (by omega) htrim hne
        (fun c hc => (shownText_str_subset (hsub c hc)).2) h
      exact ⟨hk,hcomma⟩
    · rintro ⟨hk,hcomma⟩
      refine ⟨t,?_,scalarOf_kept hk⟩
      rw [items,Scalar.toJson,shownText_plain hk.toPlain]
      exact pieces_of_plain hk.trimmed hk.nonblank hcomma
  · obtain ⟨hplain,hcomma,hiff⟩ := shown_other hv
    have hone : items v = [shownText v.toJson] :=
      pieces_of_plain hplain.trimmed hplain.nonblank hcomma
    have hsame : v.KeptInList ↔ v.Kept := by
      cases v with
      | str t => exact absurd rfl (hv t)
      | _ => exact Iff.rfl
    rw [hsame,← hiff,hone]
    constructor
    · rintro ⟨p,hp,h⟩
      rw [← List.singleton_inj.mp hp] at h
      exact h
    · exact fun h => ⟨_,rfl,h⟩

theorem filter_join (q : UInt16 → Bool) {separator : Text} (hs : separator.filter q = separator)
    (ts : List Text) : (join separator ts).filter q = join separator (ts.map fun t => t.filter q) := by
  induction ts with
  | nil => rfl
  | cons t ts ih =>
    cases ts with
    | nil => rw [List.map_singleton,join_singleton,join_singleton]
    | cons t' ts =>
      rw [join_cons_cons,List.filter_append,List.filter_append,hs,ih]
      simp only [List.map_cons,join_cons_cons]

theorem pieces_values (vs : List Scalar) :
    pieces 44 (TextInput.assign (join (js ", ") (vs.map fun v => valueForInput v.toJson))).value =
      vs.flatMap items := by
  have hfilter : (js ", ").filter (fun c => !isNewline c) = js ", " := by decide
  have hjoin := filter_join (fun c => !isNewline c) hfilter
    (vs.map fun v => valueForInput v.toJson)
  rw [TextInput.assign]
  dsimp only
  rw [hjoin,show js ", " = [44,32] from rfl,pieces_join (by decide),List.map_map,List.flatMap_map]
  rfl

theorem values_kept_iff (vs : List Scalar) :
    (vs.flatMap items).map scalarOf = vs.map Scalar.toJson ↔ ∀ v ∈ vs, v.KeptInList := by
  simp only [← item_kept_iff]
  constructor
  · intro h
    refine aligned (fun v p hp hv => items_alone hp hv) ?_
    intro i v hi
    have hget : ((vs.flatMap items).map scalarOf)[i]? = some v.toJson := by
      rw [h,List.getElem?_map,hi,Option.map_some]
    rw [List.getElem?_map] at hget
    exact Option.map_eq_some_iff.mp hget
  · intro h
    induction vs with
    | nil => rfl
    | cons v vs ih =>
      obtain ⟨p,hp,hv⟩ := h v List.mem_cons_self
      rw [List.flatMap_cons,List.map_append,hp,List.map_singleton,hv,
        ih fun u hu => h u (List.mem_cons_of_mem v hu)]
      rfl

/-- The model of the row that shows the constraint. -/
def Requirement.model (name : Text) : Requirement → RowModel
  | .requested => { name := some name, mode := some .requested }
  | .presence essential =>
    { name := some name, mode := some .presence, essential := essentialFlag essential }
  | .value essential v =>
    { name := some name, mode := some .value, value := some (valueForInput v.toJson),
      essential := essentialFlag essential }
  | .values essential vs _ =>
    { name := some name, mode := some .values,
      value := some (join (js ", ") (vs.map fun v => valueForInput v.toJson)),
      essential := essentialFlag essential }
  | .range essential min max _ =>
    { name := some name, mode := some .range, min := min.map fun i => .num (.finite i),
      max := max.map fun i => .num (.finite i), essential := essentialFlag essential }
where
  essentialFlag (essential : Bool) : Option Json := if essential then some (.bool true) else none

theorem propertyModel_toJson (name : Text) (r : Requirement) :
    propertyModel name r.toJson = .ok (r.model name) := by
  cases r with
  | requested => rfl
  | presence essential => cases essential <;> rfl
  | value essential v => cases essential <;> rfl
  | values essential vs h =>
    have hmap : (vs.map Scalar.toJson).map valueForInput = vs.map fun v => valueForInput v.toJson :=
      List.map_map
    cases essential
    · simp only [Requirement.model,← hmap]
      rfl
    · simp only [Requirement.model,← hmap]
      rfl
  | range essential min max h =>
    cases min with
    | none =>
      cases max with
      | none => exact absurd ⟨rfl,rfl⟩ h
      | some j => cases essential <;> rfl
    | some i => cases max <;> cases essential <;> rfl

theorem same_scalar {j : Json} {v : Scalar} (h : Json.Same j v.toJson) : j = v.toJson := by
  cases v <;> cases h <;> rfl

theorem same_scalars {j : Json} {vs : List Scalar} (h : Json.Same j (.arr (vs.map Scalar.toJson))) :
    j = .arr (vs.map Scalar.toJson) := by
  cases h with
  | @arr xs _ hlen hitems =>
    congr 1
    refine List.ext_getElem hlen fun i h1 h2 => ?_
    have hx := hitems i _ _ (List.getElem?_eq_getElem h1) (List.getElem?_eq_getElem h2)
    rw [List.getElem_map] at hx ⊢
    exact same_scalar hx

def Rigid (y : Json) : Prop := ∀ j, Json.Same j y → j = y

theorem rigid_member (r : Requirement) {name : Text} {y : Json} (h : r.toJson.member? name = some y) :
    Rigid y := by
  have hmem : ∀ {ms : List (Text × Json)}, ms.lookup name = some y → (name,y) ∈ ms := Collections.mem_of_lookup
  have hess : ∀ essential, (name,y) ∈ essentialMember essential → Rigid y := by
    intro essential hm
    rw [essentialMember] at hm
    split_ifs at hm
    · cases List.mem_singleton.mp hm
      exact fun j hj => same_scalar (v := .bool true) hj
    · cases hm
  have hbound : ∀ n x, (name,y) ∈ boundMember n x → Rigid y := by
    intro n x hm
    cases x with
    | none => cases hm
    | some i =>
      cases List.mem_singleton.mp hm
      exact fun j hj => same_scalar (v := .num (.finite i)) hj
  cases r with
  | requested => cases h
  | presence essential => exact hess essential (hmem h)
  | value essential v =>
    rcases List.mem_append.mp (hmem h) with hm | hm
    · exact hess essential hm
    · cases List.mem_singleton.mp hm
      exact fun j hj => same_scalar hj
  | values essential vs _ =>
    rcases List.mem_append.mp (hmem h) with hm | hm
    · exact hess essential hm
    · cases List.mem_singleton.mp hm
      exact fun j hj => same_scalars hj
  | range essential min max _ =>
    rcases List.mem_append.mp (hmem h) with hm | hm
    · rcases List.mem_append.mp hm with hm | hm
      · exact hess essential hm
      · exact hbound _ _ hm
    · exact hbound _ _ hm

theorem propertyModel_same (name : Text) {c : Json} {r : Requirement} (h : Json.Same c r.toJson) :
    propertyModel name c = .ok (r.model name) := by
  rw [← propertyModel_toJson]
  have hmember : ∀ n y, r.toJson.member? n = some y → Rigid y := fun _ _ => rigid_member r
  generalize r.toJson = c' at h hmember
  cases h with
  | null => rfl
  | bool b => rfl
  | num x => rfl
  | str t => rfl
  | arr _ _ => rfl
  | @obj xs ys hnames hsame =>
    have hlookup : ∀ n, xs.lookup n = ys.lookup n := by
      intro n
      have hn := hnames n
      cases hx : xs.lookup n with
      | none =>
        rw [hx] at hn
        exact (Option.not_isSome_iff_eq_none.mp (by rw [← hn]; simp)).symm
      | some x =>
        rw [hx] at hn
        obtain ⟨y,hy⟩ := Option.isSome_iff_exists.mp hn.symm
        rw [hy,hmember n y hy x (hsame n x y hx hy)]
    simp only [propertyModel,Json.own,Json.member?,hlookup]
    rfl

theorem addConstraint_eq {d : Discovery} {kind : Kind} {identifier name min max : Text}
    {model : RowModel} {row : Row} (hname : model.name = some name)
    (hmin : textOr model.min [] = .ok min) (hmax : textOr model.max [] = .ok max) :
    addConstraint d kind identifier model = .ok row ↔ Shown d kind identifier name ∧
      row = ⟨.assign name,model.mode.getD .requested,.assign (model.value.getD []),.assign min,
        .assign max,truthy model.essential⟩ := by
  simp only [addConstraint,bind_eq_ok,pure_eq_ok,hname,hmin,hmax,Except.ok.injEq,exists_eq_left',
    Option.some_or,Option.getD_some,refreshConstraintSuggestions,ite_eq_ok]
  constructor
  · rintro ⟨_,⟨hs,-⟩,rfl⟩
    exact ⟨hs,rfl⟩
  · rintro ⟨hs,rfl⟩
    exact ⟨(),⟨hs,trivial⟩,rfl⟩

def boundText (x : Option FiniteNumber) : Text := x.elim [] fun i => Number.toText (.finite i)

theorem textOr_bound (x : Option FiniteNumber) :
    textOr (x.map fun i => Json.num (.finite i)) [] = .ok (boundText x) := by
  cases x <;> rfl

def Requirement.minText : Requirement → Text
  | .range _ min _ _ => boundText min
  | _ => []

def Requirement.maxText : Requirement → Text
  | .range _ _ max _ => boundText max
  | _ => []

def Requirement.row (name : Text) (r : Requirement) : Row :=
  ⟨.assign name,(r.model name).mode.getD .requested,.assign ((r.model name).value.getD []),
    .assign r.minText,.assign r.maxText,truthy (r.model name).essential⟩

theorem reproduced_row_iff (d : Discovery) (kind : Kind) (identifier name : Text) {c : Json}
    {r : Requirement} (h : Json.Same c r.toJson) :
    Reproduced d kind identifier name c ↔ Shown d kind identifier name ∧
      ∃ v, constraintValue (r.row name) name = .ok v ∧ Json.Same v r.toJson := by
  have hadd : ∀ row, addConstraint d kind identifier (r.model name) = .ok row ↔
      Shown d kind identifier name ∧ row = r.row name := by
    intro row
    cases r with
    | range essential min max _ => exact addConstraint_eq rfl (textOr_bound min) (textOr_bound max)
    | _ => exact addConstraint_eq rfl rfl rfl
  rw [Reproduced,propertyModel_same name h]
  constructor
  · rintro ⟨_,⟨⟩,row,hrow,v,hv,hsame⟩
    obtain ⟨hs,rfl⟩ := (hadd row).mp hrow
    exact ⟨hs,v,hv,hsame.trans h⟩
  · rintro ⟨hs,v,hv,hsame⟩
    exact ⟨_,rfl,_,(hadd _).mpr ⟨hs,rfl⟩,v,hv,hsame.trans h.symm⟩

theorem essential_row (name : Text) {r : Requirement} {essential : Bool}
    (h : (r.model name).essential = Requirement.model.essentialFlag essential) :
    (r.row name).essential = essential := by
  rw [Requirement.row]
  simp only [h]
  cases essential <;> rfl

theorem same_last_iff {essential : Bool} {name : Text} (hn : name ≠ js "essential") {w y : Json}
    (hy : Rigid y) :
    Json.Same (.obj (essentialMember essential ++ [(name,w)]))
      (.obj (essentialMember essential ++ [(name,y)])) ↔ w = y := by
  constructor
  · intro h
    cases h with
    | obj _ hsame =>
      have hlookup : ∀ u : Json, (essentialMember essential ++ [(name,u)]).lookup name = some u := by
        intro u
        rw [lookup_essentialMember_append essential [(name,u)] hn,List.lookup_cons,beq_self_eq_true]
      exact hy w (hsame name w y (hlookup w) (hlookup y))
  · rintro rfl
    exact .refl _

theorem constraintValue_value {name : Text} (essential : Bool) (v : Scalar) :
    (∃ w, constraintValue ((Requirement.value essential v).row name) name = .ok w ∧
      Json.Same w (Requirement.value essential v).toJson) ↔ v.Kept := by
  have hess := essential_row name (r := .value essential v) rfl
  have hconstraint : ∀ w, constraintValue ((Requirement.value essential v).row name) name = .ok w ↔
      ∃ x, (trim (shownText v.toJson) ≠ [] ∧ x = scalarOf (trim (shownText v.toJson))) ∧
        .obj (essentialMember essential ++ [(js "value",x)]) = w := by
    intro w
    rw [constraintValue,hess]
    simp only [Requirement.row,Requirement.model,Option.getD_some,bind_eq_ok,pure_eq_ok,parseScalar_eq]
    rfl
  simp only [hconstraint]
  rw [← value_kept_iff]
  constructor
  · rintro ⟨_,⟨x,⟨hne,rfl⟩,rfl⟩,hsame⟩
    exact ⟨hne,(same_last_iff (by decide) fun j hj => same_scalar hj).mp hsame⟩
  · rintro ⟨hne,h⟩
    exact ⟨_,⟨_,⟨hne,rfl⟩,rfl⟩,(same_last_iff (by decide) fun j hj => same_scalar hj).mpr h⟩

theorem mapM_parseScalar {ps : List Text} {label : Text} (h : ∀ p ∈ ps, trim p = p ∧ p ≠ [])
    {ys : List Json} :
    ps.mapM (fun p => parseScalar p label) = .ok ys ↔ ys = ps.map scalarOf := by
  induction ps generalizing ys with
  | nil =>
    rw [List.mapM_nil,pure_eq_ok]
    exact eq_comm
  | cons p ps ih =>
    obtain ⟨htrim,hne⟩ := h p List.mem_cons_self
    have hrest : ∀ zs, ps.mapM (fun p => parseScalar p label) = .ok zs ↔ zs = ps.map scalarOf :=
      fun zs => ih fun q hq => h q (List.mem_cons_of_mem p hq)
    rw [List.mapM_cons]
    simp only [bind_eq_ok,pure_eq_ok,parseScalar_eq,hrest,htrim,List.map_cons]
    constructor
    · rintro ⟨y,⟨-,rfl⟩,zs,rfl,rfl⟩
      rfl
    · rintro rfl
      exact ⟨_,⟨hne,rfl⟩,_,rfl,rfl⟩

theorem constraintValue_values {name : Text} (essential : Bool) {vs : List Scalar} (hvs : vs ≠ []) :
    (∃ w, constraintValue ((Requirement.values essential vs hvs).row name) name = .ok w ∧
      Json.Same w (Requirement.values essential vs hvs).toJson) ↔ ∀ v ∈ vs, v.KeptInList := by
  have hess := essential_row name (r := .values essential vs hvs) rfl
  have hpieces : ((split 44 ((Requirement.values essential vs hvs).row name).value.value).map
      trim).filter (fun item => !item.isEmpty) = vs.flatMap items := pieces_values vs
  have hparts : ∀ p ∈ vs.flatMap items, trim p = p ∧ p ≠ [] := by
    intro p hp
    obtain ⟨v,-,hv⟩ := List.mem_flatMap.mp hp
    exact ⟨(mem_pieces hv).1,(mem_pieces hv).2.1⟩
  have hconstraint : ∀ w, constraintValue ((Requirement.values essential vs hvs).row name) name = .ok w ↔
      vs.flatMap items ≠ [] ∧ .obj (essentialMember essential ++
        [(js "values",.arr ((vs.flatMap items).map scalarOf))]) = w := by
    intro w
    rw [constraintValue,hess]
    simp only [hpieces]
    simp only [Requirement.row,Requirement.model,Option.getD_some,ite_eq_ok,bind_eq_ok,pure_eq_ok,
      mapM_parseScalar hparts,exists_eq_left]
  simp only [hconstraint]
  have hvalues := values_kept_iff vs
  rw [← hvalues]
  constructor
  · rintro ⟨_,⟨-,rfl⟩,hsame⟩
    have harr := (same_last_iff (by decide) fun j hj => same_scalars hj).mp hsame
    exact Json.arr.inj harr
  · intro h
    refine ⟨_,⟨?_,rfl⟩,?_⟩
    · intro hnil
      rw [hnil] at h
      exact hvs (List.map_eq_nil_iff.mp h.symm)
    · exact (same_last_iff (by decide) fun j hj => same_scalars hj).mpr (by rw [h])

theorem trim_boundText (x : Option FiniteNumber) :
    trim (NumberInput.assign (boundText x)).value = boundText x := by
  cases x with
  | none => rfl
  | some i => exact (congrArg trim (assign_toText i)).trans (Number.toText_trimmed i)

theorem boundText_eq_nil {x : Option FiniteNumber} : boundText x = [] ↔ x = none := by
  cases x with
  | none => exact iff_of_true rfl rfl
  | some i => exact iff_of_false (toText_ne_nil i) (Option.some_ne_none i)

theorem boundMember_eq (name : Text) (x : Option FiniteNumber) :
    (if boundText x = [] then [] else [(name,Json.num (Number.ofText (boundText x)))]) =
      boundMember name x := by
  cases x with
  | none => rfl
  | some i =>
    rw [if_neg (show boundText (some i) ≠ [] from toText_ne_nil i)]
    exact congrArg (fun n => [(name,Json.num n)]) (Number.ofText_toText i)

theorem constraintValue_range {name : Text} (essential : Bool) (min max : Option FiniteNumber)
    (h : ¬ (min = none ∧ max = none)) :
    constraintValue ((Requirement.range essential min max h).row name) name =
      .ok (Requirement.range essential min max h).toJson := by
  have hess := essential_row name (r := .range essential min max h) rfl
  have hblank : ¬ (boundText min = [] ∧ boundText max = []) := by
    rw [boundText_eq_nil,boundText_eq_nil]
    exact h
  rw [constraintValue,hess]
  simp only [Requirement.row,Requirement.model,Option.getD_some,Requirement.minText,
    Requirement.maxText,trim_boundText,if_neg hblank,boundMember_eq]
  rfl

/-- A constraint comes back from its row exactly when the row can be shown and each of its values
survives as text. -/
theorem constraint_reproduced_iff (d : Discovery) (kind : Kind) (identifier name : Text) (c : Json)
    (r : Requirement) (h : Json.Same c r.toJson) :
    Reproduced d kind identifier name c ↔ Shown d kind identifier name ∧ r.Kept := by
  rw [reproduced_row_iff d kind identifier name h]
  refine and_congr_right fun _ => ?_
  cases r with
  | requested => exact iff_of_true ⟨_,rfl,.null⟩ trivial
  | presence essential =>
    have hess := essential_row name (r := .presence essential) rfl
    refine iff_of_true ⟨.obj (essentialMember essential),?_,.refl _⟩ trivial
    rw [constraintValue,hess]
    rfl
  | value essential v => exact constraintValue_value essential v
  | values essential vs hvs => exact constraintValue_values essential hvs
  | range essential min max hb =>
    exact iff_of_true ⟨_,constraintValue_range essential min max hb,.refl _⟩ trivial

/-- `{"value":"123"}` comes back as `{"value":123}`. -/
theorem numeral_string_changed :
    ¬ Reproduced noDiscovery .property (js "pwd") (js "pwd_policy")
      (.obj [(js "value",.str (js "123"))]) := by
  intro h
  have hsame : Json.Same (.obj [(js "value",.str (js "123"))])
      (Requirement.value false (.str (js "123"))).toJson := .refl _
  obtain ⟨-,hback⟩ := (reproduced_row_iff noDiscovery .property _ _ hsame).mp h
  have hkept : KeptString (js "123") := (constraintValue_value false (.str (js "123"))).mp hback
  exact absurd hkept.notJson (by decide +kernel)

theorem plain_value_reproduced :
    Reproduced noDiscovery .property (js "pwd") (js "pwd_policy")
      (.obj [(js "value",.str (js "argon2id"))]) := by
  have hkept : KeptString (js "argon2id") := ⟨plain_of_decide (by decide),by decide +kernel⟩
  have hsame : Json.Same (.obj [(js "value",.str (js "argon2id"))])
      (Requirement.value false (.str (js "argon2id"))).toJson := .refl _
  have hshown : Shown noDiscovery .property (js "pwd") (js "pwd_policy") := by
    rw [Shown]
    decide
  exact (constraint_reproduced_iff noDiscovery .property _ _ _ _ hsame).mpr ⟨hshown,hkept⟩

end Oidc4acLab.Builder
