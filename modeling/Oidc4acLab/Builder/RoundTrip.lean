import Oidc4acLab.Builder.Reload

/-! # The visual builder round trip

Requests of the shape that the builder produces come back from loading and building as
they were, whatever their nesting. What one constraint row keeps is taken as it is from
`propertyModel`, `addConstraint` and `constraintValue`.
-/
namespace Oidc4acLab.Builder
open Text Fallible

/-- The name of a metadata or property constraint. -/
structure MemberName (name : Text) : Prop extends Plain name where
  notProto : name ≠ js "__proto__"

/-- `constraintValue` gives the constraint back after `propertyModel` and `addConstraint`. -/
def Reproduced (d : Discovery) (kind : Kind) (identifier name : Text) (c : Json) : Prop :=
  ∃ model, propertyModel name c = .ok model ∧
    ∃ row, addConstraint d kind identifier model = .ok row ∧
    ∃ v, constraintValue row name = .ok v ∧ Json.Same v c

/-- `null`, or a nonempty object of `essential: true` and a non-negative integer `max_age`. -/
inductive TimeRequest : Json → Prop
  | null : TimeRequest .null
  | members {ms : List (Text × Json)} : ms ≠ [] →
      (∀ name ∈ Object.names ms, name = js "essential" ∨ name = js "max_age") →
      (∀ v, ms.lookup (js "essential") = some v → v = .bool true) →
      (∀ v, ms.lookup (js "max_age") = some v →
        ∃ i, v = .num (.finite i) ∧ Number.isInteger (.finite i) = true ∧ 0 ≤ i.1) →
      TimeRequest (.obj ms)

/-- An expression that may have the names in `extra` besides. -/
inductive Expression (d : Discovery) : List Text → Json → Prop
  | group (operator : Operator) {extra : List Text} {ms : List (Text × Json)} {items : List Json} :
      ms.lookup operator.name = some (.arr items) → items ≠ [] →
      (∀ e ∈ items, Expression d [] e) →
      (∀ name ∈ Object.names ms, name = operator.name ∨ name ∈ extra) →
      Expression d extra (.obj ms)
  | factor {extra : List Text} {ms : List (Text × Json)} {s : Text} : Plain s →
      ms.lookup (js "amr_identifier") = some (.obj [(js "value",.str s)]) →
      (∀ v, ms.lookup (js "amr_metadata") = some v → ∃ md, v = .obj md ∧ md ≠ [] ∧
        ∀ m ∈ md, if m.1 = js "time" then TimeRequest m.2
          else MemberName m.1 ∧ Reproduced d .metadata s m.1 m.2) →
      (∀ v, ms.lookup (js "amr_properties") = some v → ∃ pr, v = .obj pr ∧ pr ≠ [] ∧
        ∀ m ∈ pr, MemberName m.1 ∧ Reproduced d .property s m.1 m.2) →
      (∀ name ∈ Object.names ms, name = js "amr_identifier" ∨ name = js "amr_metadata" ∨
        name = js "amr_properties" ∨ name ∈ extra) →
      Expression d extra (.obj ms)

/-- The value of `amr_details`: null, `{essential: true}`, or an expression that is essential at
its root at most. -/
inductive Details (d : Discovery) : Json → Prop
  | null : Details d .null
  | essential : Details d (.obj [(js "essential",.bool true)])
  | expression {e : Json} : Expression d [js "essential"] e →
      (∀ v, e.member? (js "essential") = some v → v = .bool true) → Details d e

/-- The claims object requests `details` at some locations and nothing else. -/
structure RequestsDetails (d : Discovery) (claims details : Json) : Prop where
  requests : ∃ ms, claims = .obj ms ∧ ms ≠ [] ∧ ∀ m ∈ ms, ∃ (l : Location) (details' : Json),
    m = (l.name,.obj [(js "amr_details",details')]) ∧ Details d details' ∧ Json.Same details' details

def Kind.check : Kind → Text → Except Thrown Unit
  | .property => checkPropertyName
  | .metadata => checkMetadataName

theorem propertyModel_name {name : Text} {c : Json} {model : RowModel}
    (h : propertyModel name c = .ok model) : model.name = some name := by
  unfold propertyModel at h
  dsimp only at h
  split at h
  · cases h
    rfl
  · rw [ite_eq_ok] at h
    replace h := h.2
    split at h
    · cases h
      rfl
    · split at h
      · cases h
        rfl
      · cases h
      · split_ifs at h
        · cases h
          rfl
        · cases h
          rfl

theorem addConstraint_name {d : Discovery} {kind : Kind} {identifier name : Text}
    {model : RowModel} {row : Row} (h : addConstraint d kind identifier model = .ok row)
    (hm : model.name = some name) : row.name = .assign name := by
  rw [addConstraint] at h
  simp only [bind_eq_ok,pure_eq_ok,hm] at h
  obtain ⟨_,-,_,-,_,-,rfl⟩ := h
  rfl

theorem Plain.trim_assign {t : Text} (h : Plain t) : trim (TextInput.assign t).value = t := by
  rw [assign_value h.singleLine,h.trimmed]

theorem putRow_reproduced {d : Discovery} {kind : Kind} {identifier name : Text} {c : Json}
    (hname : MemberName name) (hcheck : kind.check name = .ok ())
    (hc : Reproduced d kind identifier name c) :
    ∃ model, propertyModel name c = .ok model ∧
      ∃ row, addConstraint d kind identifier model = .ok row ∧ ∃ v, Json.Same v c ∧
        ∀ ms, putRow kind.check ⟨ms,true⟩ row = .ok ⟨Object.set ms name v,true⟩ := by
  obtain ⟨model,hmodel,row,hrow,v,hv,hsame⟩ := hc
  refine ⟨model,hmodel,row,hrow,v,hsame,?_⟩
  intro ms
  have htrim : trim row.name.value = name := by
    rw [addConstraint_name hrow (propertyModel_name hmodel)]
    exact hname.toPlain.trim_assign
  simp only [putRow,bind_eq_ok,pure_eq_ok,htrim]
  exact ⟨(),hcheck,v,hv,Draft.put_of_not v fun h => hname.notProto h.1⟩

/-- The value at each name is the same, or there is none on both sides. -/
def Agree (xs ys : List (Text × Json)) : Prop :=
  ∀ name, Option.Rel Json.Same (xs.lookup name) (ys.lookup name)

theorem Agree.same {xs ys : List (Text × Json)} (h : Agree xs ys) : Json.Same (.obj xs) (.obj ys) := by
  constructor
  · intro name
    have hn := h name
    cases hx : xs.lookup name <;> cases hy : ys.lookup name <;> simp_all
  · intro name x y hx hy
    have hn := h name
    rw [hx,hy] at hn
    cases hn
    assumption

theorem rel_symm {v w : Option Json} (h : Option.Rel Json.Same v w) : Option.Rel Json.Same w v := by
  cases h with
  | some hsame => exact .some hsame.symm
  | none => exact .none

theorem Agree.symm {xs ys : List (Text × Json)} (h : Agree xs ys) : Agree ys xs :=
  fun name => rel_symm (h name)

theorem Agree.eq_nil {xs : List (Text × Json)} (h : Agree xs []) : xs = [] := by
  by_contra hne
  obtain ⟨m,ms,rfl⟩ := List.exists_cons_of_ne_nil hne
  have hrel := h m.1
  rw [List.lookup_cons,beq_self_eq_true] at hrel
  cases hrel

theorem Agree.nil_iff {xs ys : List (Text × Json)} (h : Agree xs ys) : xs = [] ↔ ys = [] := by
  constructor
  · rintro rfl
    exact h.symm.eq_nil
  · rintro rfl
    exact h.eq_nil

theorem same_arr {xs ys : List Json} (h : List.Forall₂ Json.Same xs ys) :
    Json.Same (.arr xs) (.arr ys) := by
  refine .arr h.length_eq ?_
  intro i x y hx hy
  obtain ⟨hi,rfl⟩ := List.getElem?_eq_some_iff.mp hx
  obtain ⟨hi',rfl⟩ := List.getElem?_eq_some_iff.mp hy
  exact h.get hi hi'

/-- A loop over the rows of constraints `es` sets a member for each and keeps the others. -/
theorem rows_reproduced {d : Discovery} {kind : Kind} {identifier : Text} {es : List (Text × Json)}
    (hnodup : (Object.names es).Nodup)
    (hes : ∀ m ∈ es, MemberName m.1 ∧ kind.check m.1 = .ok () ∧ Reproduced d kind identifier m.1 m.2) :
    ∃ models, propertyModels es = .ok models ∧
      ∃ rows, models.mapM (addConstraint d kind identifier) = .ok rows ∧
        ∀ start, ∃ ms, rows.foldlM (putRow kind.check) ⟨start,true⟩ = .ok ⟨ms,true⟩ ∧
          ∀ name, match es.lookup name with
            | some c => ∃ v, ms.lookup name = some v ∧ Json.Same v c
            | none => ms.lookup name = start.lookup name := by
  induction es with
  | nil => exact ⟨[],rfl,[],rfl,fun start => ⟨start,rfl,fun _ => rfl⟩⟩
  | cons m es ih =>
    simp only [Object.names,List.map_cons,List.nodup_cons] at hnodup
    obtain ⟨models,hmodels,rows,hrows,hloop⟩ :=
      ih hnodup.2 fun k hk => hes k (List.mem_cons_of_mem m hk)
    obtain ⟨hname,hcheck,hrep⟩ := hes m List.mem_cons_self
    obtain ⟨model,hmodel,row,hrow,v,hsame,hput⟩ := putRow_reproduced hname hcheck hrep
    have hmapM : propertyModels (m :: es) = .ok (model :: models) :=
      mapM_eq_ok.mpr (.cons hmodel (mapM_eq_ok.mp hmodels))
    have hadd : (model :: models).mapM (addConstraint d kind identifier) = .ok (row :: rows) :=
      mapM_eq_ok.mpr (.cons hrow (mapM_eq_ok.mp hrows))
    refine ⟨_,hmapM,_,hadd,?_⟩
    intro start
    obtain ⟨ms,hms,hlookup⟩ := hloop (Object.set start m.1 v)
    refine ⟨ms,?_,?_⟩
    · rw [List.foldlM_cons,hput]
      exact hms
    · intro name
      have hl := hlookup name
      rw [List.lookup_cons]
      by_cases hn : name = m.1
      · have hnone : es.lookup name = none := by
          rw [← Option.not_isSome_iff_eq_none,Object.lookup_isSome_iff,hn]
          exact hnodup.1
        rw [hnone] at hl
        rw [beq_iff_eq.mpr hn]
        exact ⟨v,by rw [hl,Object.lookup_set,if_pos hn],hsame⟩
      · rw [beq_eq_false_iff_ne.mpr hn]
        rw [Object.lookup_set,if_neg hn] at hl
        exact hl

theorem rel_of_kept {v start c : Option Json}
    (h : match c with
      | some c => ∃ w, v = some w ∧ Json.Same w c
      | none => v = start)
    (hstart : c = none → start = none) : Option.Rel Json.Same v c := by
  cases c with
  | none =>
    have hv : v = none := h.trans (hstart rfl)
    rw [hv]
    exact .none
  | some c =>
    obtain ⟨w,rfl,hsame⟩ := h
    exact .some hsame

theorem toText_ne_nil (i : {i : ℤ // i.natAbs < Binary64.overflow}) :
    Number.toText (.finite i) ≠ [] := by
  intro h
  obtain ⟨n,hn,-⟩ := Number.read_toText i
  rw [h] at hn
  cases hn

theorem assign_toText (i : {i : ℤ // i.natAbs < Binary64.overflow}) :
    (NumberInput.assign (Number.toText (.finite i))).value = Number.toText (.finite i) := by
  obtain ⟨n,hn,-⟩ := Number.read_toText i
  rw [NumberInput.assign,dif_pos (by rw [hn]; rfl)]

theorem timeRequest_blank {f : Factor} (h : f.timeMaxAge.value = []) :
    timeRequest f =
      if f.timeRequested then
        .ok (some (if essentialMember f.timeEssential = [] then .null
          else .obj (essentialMember f.timeEssential)))
      else .ok none := by
  simp [timeRequest,h]

theorem timeRequest_maxAge {f : Factor} {i : {i : ℤ // i.natAbs < Binary64.overflow}}
    (h : f.timeMaxAge.value = Number.toText (.finite i))
    (hint : Number.isInteger (.finite i) = true) (hpos : 0 ≤ i.1) :
    timeRequest f =
      .ok (some (.obj (essentialMember f.timeEssential ++ [(js "max_age",.num (.finite i))]))) := by
  have hneg : Number.isNegative (.finite i) = false := by
    simpa [Number.isNegative] using hpos
  simp [timeRequest,h,Number.toText_trimmed,toText_ne_nil,hint,hneg]

theorem lookup_eq_none {ms : List (Text × Json)} {name : Text} (h : name ∉ Object.names ms) :
    ms.lookup name = none := by
  rwa [← Option.not_isSome_iff_eq_none,Object.lookup_isSome_iff]

theorem rel_refl (v : Option Json) : Option.Rel Json.Same v v := by
  cases v with
  | none => exact .none
  | some v => exact .some (.refl v)

theorem lookup_essentialMember {v : Option Json} (h : ∀ w, v = some w → w = .bool true)
    (name : Text) :
    (essentialMember (truthy v)).lookup name = if name = js "essential" then v else none := by
  cases v with
  | none => simp [essentialMember,truthy]
  | some w =>
    rw [h w rfl]
    by_cases hn : name = js "essential"
    · simp [essentialMember,truthy,Json.truthy,hn]
    · simp [essentialMember,truthy,Json.truthy,hn]

theorem time_reproduced {time : Option Json} (h : ∀ t, time = some t → TimeRequest t) :
    ∃ t, textOr (andMember time (js "max_age")) [] = .ok t ∧
      ∀ f : Factor, f.timeRequested = time.isSome →
        f.timeEssential = truthy (andMember time (js "essential")) →
        f.timeMaxAge = .assign t →
        ∃ time', timeRequest f = .ok time' ∧ Option.Rel Json.Same time' time := by
  rcases time with _ | time
  · refine ⟨[],rfl,?_⟩
    intro f hr _ ha
    refine ⟨none,?_,.none⟩
    rw [timeRequest_blank (by rw [ha]; rfl),hr]
    rfl
  · cases h time rfl with
    | null =>
      refine ⟨[],rfl,?_⟩
      intro f hr he ha
      refine ⟨some .null,?_,.some .null⟩
      rw [timeRequest_blank (by rw [ha]; rfl),hr,he]
      rfl
    | @members ms hne hnames hess hage =>
      have hmember : ∀ name, andMember (some (.obj ms)) name = ms.lookup name := fun _ => rfl
      have hage_ne : js "max_age" ≠ js "essential" := by decide
      have hlookup := lookup_essentialMember hess
      have hother : ∀ name, name ≠ js "essential" → name ≠ js "max_age" → ms.lookup name = none := by
        intro name h1 h2
        refine lookup_eq_none fun hmem => ?_
        rcases hnames name hmem with hn | hn
        · exact h1 hn
        · exact h2 hn
      rw [hmember,hmember]
      cases hm : ms.lookup (js "max_age") with
      | none =>
        refine ⟨[],rfl,?_⟩
        intro f hr he ha
        have hagree : Agree (essentialMember f.timeEssential) ms := by
          intro name
          rw [he,hlookup name]
          split_ifs with h1
          · rw [h1]
            exact rel_refl _
          · by_cases h2 : name = js "max_age"
            · rw [h2,hm]
              exact .none
            · rw [hother name h1 h2]
              exact .none
        have hsome : essentialMember f.timeEssential ≠ [] := by
          intro h0
          exact hne (hagree.nil_iff.mp h0)
        refine ⟨some (.obj (essentialMember f.timeEssential)),?_,.some hagree.same⟩
        rw [timeRequest_blank (by rw [ha]; rfl),hr,Option.isSome_some,if_pos rfl,if_neg hsome]
      | some v =>
        obtain ⟨i,rfl,hint,hpos⟩ := hage v hm
        refine ⟨Number.toText (.finite i),rfl,?_⟩
        intro f hr he ha
        refine ⟨_,timeRequest_maxAge (by rw [ha,assign_toText]) hint hpos,.some (Agree.same ?_)⟩
        intro name
        rw [List.lookup_append,he,hlookup name,List.lookup_cons]
        by_cases h2 : name = js "max_age"
        · rw [h2,hm,if_neg hage_ne,beq_self_eq_true]
          exact rel_refl _
        · rw [beq_eq_false_iff_ne.mpr h2,List.lookup_nil,Option.or_none]
          split_ifs with h1
          · rw [h1]
            exact rel_refl _
          · rw [hother name h1 h2]
            exact .none

theorem wellFormed_lookup {ms : List (Text × Json)} {name : Text} {v : Json}
    (h : Json.WellFormed (.obj ms)) (hv : ms.lookup name = some v) : Json.WellFormed v := by
  cases h with
  | obj hnodup hms => exact hms _ ((Object.lookup_eq_some_iff hnodup).mp hv)

theorem wellFormed_names {ms : List (Text × Json)} (h : Json.WellFormed (.obj ms)) :
    (Object.names ms).Nodup := by
  cases h
  assumption

theorem section_cases {v : Option Json} {P : Text × Json → Prop}
    (hwf : ∀ w, v = some w → w.WellFormed)
    (h : ∀ w, v = some w → ∃ ms, w = .obj ms ∧ ms ≠ [] ∧ ∀ m ∈ ms, P m) :
    ∃ ms, entriesOf v = ms ∧ (Object.names ms).Nodup ∧ (∀ m ∈ ms, P m) ∧
      (∀ name, andMember v name = ms.lookup name) ∧
      v = if ms = [] then none else some (.obj ms) := by
  cases v with
  | none => exact ⟨[],rfl,List.nodup_nil,by simp,fun _ => rfl,rfl⟩
  | some w =>
    obtain ⟨ms,rfl,hne,hms⟩ := h w rfl
    cases hwf _ rfl with
    | obj hnodup _ => exact ⟨ms,rfl,hnodup,hms,fun _ => rfl,(if_neg hne).symm⟩

theorem lookup_filter_ne (ms : List (Text × Json)) (name name' : Text) :
    (ms.filter fun m => m.1 != name).lookup name' = if name' = name then none else ms.lookup name' := by
  rw [Collections.lookup_filter (· != name)]
  by_cases hn : name' = name
  · simp [hn]
  · simp [hn]

theorem rel_section {xs ys : List (Text × Json)} (h : Agree xs ys) :
    Option.Rel Json.Same (if xs = [] then none else some (.obj xs))
      (if ys = [] then none else some (.obj ys)) := by
  by_cases hx : xs = []
  · rw [if_pos hx,if_pos (h.nil_iff.mp hx)]
    exact .none
  · rw [if_neg hx,if_neg (fun hy => hx (h.nil_iff.mpr hy))]
    exact .some h.same

theorem factor_reproduced {d : Discovery} {ms md pr : List (Text × Json)} {s : Text} (hs : Plain s)
    (hid : ms.lookup (js "amr_identifier") = some (.obj [(js "value",.str s)]))
    (hmd : entriesOf (ms.lookup (js "amr_metadata")) = md) (hmdn : (Object.names md).Nodup)
    (hmdt : ∀ name, andMember (ms.lookup (js "amr_metadata")) name = md.lookup name)
    (hmdr : ∀ m ∈ md, if m.1 = js "time" then TimeRequest m.2
      else MemberName m.1 ∧ Reproduced d .metadata s m.1 m.2)
    (hpr : entriesOf (ms.lookup (js "amr_properties")) = pr) (hprn : (Object.names pr).Nodup)
    (hprr : ∀ m ∈ pr, MemberName m.1 ∧ Reproduced d .property s m.1 m.2) :
    ∃ md' pr', RebuiltFactor d (.obj ms) (.obj (factorMembers s md' pr')) ∧ Agree md' md ∧
      Agree pr' pr := by
  have htime : ∀ t, md.lookup (js "time") = some t → TimeRequest t := by
    intro t ht
    have hm := hmdr _ ((Object.lookup_eq_some_iff hmdn).mp ht)
    rwa [if_pos rfl] at hm
  obtain ⟨age,hage,hsection⟩ := time_reproduced htime
  have hmdrows : ∀ m ∈ md.filter fun m => m.1 != js "time", MemberName m.1 ∧
      Kind.metadata.check m.1 = .ok () ∧ Reproduced d .metadata s m.1 m.2 := by
    intro m hm
    obtain ⟨hmem,hne⟩ := List.mem_filter.mp hm
    have hne' : m.1 ≠ js "time" := by simpa using hne
    have h := hmdr m hmem
    rw [if_neg hne'] at h
    refine ⟨h.1,?_,h.2⟩
    rw [Kind.check,checkMetadataName,if_neg h.1.nonblank,if_neg hne']
  have hprrows : ∀ m ∈ pr, MemberName m.1 ∧ Kind.property.check m.1 = .ok () ∧
      Reproduced d .property s m.1 m.2 := by
    intro m hm
    have h := hprr m hm
    refine ⟨h.1,?_,h.2⟩
    rw [Kind.check,checkPropertyName,if_neg h.1.nonblank]
  have hfilter : (Object.names (md.filter fun m => m.1 != js "time")).Nodup :=
    hmdn.sublist (List.filter_sublist.map Prod.fst)
  obtain ⟨mmodels,hmmodels,mrows,hmrows,hmloop⟩ := rows_reproduced hfilter hmdrows
  obtain ⟨pmodels,hpmodels,prows,hprows,hploop⟩ := rows_reproduced hprn hprrows
  have hkeep : (TextInput.assign s).value = s := assign_value hs.singleLine
  let fm : FactorModel :=
    { identifier := some (.str s), timeRequested := some (md.lookup (js "time")).isSome,
      timeEssential := some (truthy (andMember (md.lookup (js "time")) (js "essential"))),
      maxAge := andMember (md.lookup (js "time")) (js "max_age"),
      metadata := mmodels, properties := pmodels }
  have hidv : identifierValue (.obj ms) = some (.str s) := by
    rw [identifierValue,Json.member?,hid]
    rfl
  have hfm : factorModel (.obj ms) = .ok fm := by
    rw [factorModel]
    simp only [hidv,Json.member?,hmd,hpr,hmdt,ite_eq_ok,bind_eq_ok,pure_eq_ok]
    exact ⟨by simp,mmodels,hmmodels,pmodels,hpmodels,rfl⟩
  let f : Factor :=
    { id := .assign s, timeRequested := (md.lookup (js "time")).isSome,
      timeEssential := truthy (andMember (md.lookup (js "time")) (js "essential")),
      timeMaxAge := .assign age, properties := prows, metadata := mrows }
  have hf : factorControls d fm = .ok f := by
    rw [factorControls]
    simp only [bind_eq_ok,pure_eq_ok]
    refine ⟨s,rfl,age,hage,prows,?_,mrows,?_,rfl⟩
    · rw [hkeep]
      exact hprows
    · rw [hkeep]
      exact hmrows
  obtain ⟨time',htime',hrel⟩ := hsection f rfl rfl rfl
  obtain ⟨md',hmd',hmdl⟩ := hmloop (time'.elim [] fun t => [(js "time",t)])
  obtain ⟨pr',hpr',hprl⟩ := hploop []
  refine ⟨md',pr',⟨fm,hfm,f,hf,?_⟩,?_,?_⟩
  · have htrim : trim f.id.value = s := hs.trim_assign
    refine factorExpression_eq.mpr ⟨?_,time',htime',_,hmd',_,hpr',?_⟩
    · rw [htrim]
      exact hs.nonblank
    · rw [htrim]
  · intro name
    have hl := hmdl name
    rw [lookup_filter_ne] at hl
    by_cases hn : name = js "time"
    · rw [if_pos hn] at hl
      have hstart : md'.lookup name = time' := by
        rw [hl,hn]
        cases time' <;> rfl
      rw [hstart,hn]
      exact hrel
    · rw [if_neg hn] at hl
      refine rel_of_kept hl fun _ => ?_
      cases time' with
      | none => rfl
      | some t => simp [hn]
  · exact fun name => rel_of_kept (hprl name) fun _ => rfl

theorem expression_reproduced {d : Discovery} {extra : List Text} {e : Json}
    (he : Expression d extra e) (hwf : e.WellFormed) (hextra : ∀ name ∈ extra, name = js "essential") :
    ∃ ms ms', e = .obj ms ∧ Rebuilt d e (.obj ms') ∧
      ∀ name, name ∉ extra → Option.Rel Json.Same (ms'.lookup name) (ms.lookup name) := by
  induction he with
  | @group operator extra ms items hop hne hitems hnames ih =>
    have hdisjoint : ∀ name, name ≠ operator.name → name ∉ extra → ms.lookup name = none := by
      intro name h1 h2
      refine lookup_eq_none fun hmem => ?_
      rcases hnames name hmem with hn | hn
      · exact h1 hn
      · exact h2 hn
    have hother : (Json.obj ms).member? operator.other.name = none := by
      refine hdisjoint _ ?_ ?_
      · cases operator <;> decide
      · intro hmem
        have hn := hextra _ hmem
        cases operator <;> exact absurd hn (by decide)
    have hoperands : operands (.obj ms) = some (operator,items) := operands_of_member hop hother
    have hwfs : ∀ e ∈ items, e.WellFormed := by
      have harr := wellFormed_lookup hwf hop
      cases harr
      assumption
    have hsome : ∀ e ∈ items, ∃ e', Rebuilt d e e' ∧ Json.Same e' e := by
      intro e he
      obtain ⟨xs,xs',rfl,hr,hrel⟩ := ih e he (hwfs e he) (by simp)
      exact ⟨_,hr,Agree.same fun name => hrel name (by simp)⟩
    obtain ⟨es,hes⟩ := exists_forall₂ hsome
    refine ⟨ms,[(operator.name,.arr es)],rfl,(rebuilt_group hoperands hne).mpr ⟨es,?_,rfl⟩,?_⟩
    · exact hes.imp fun _ _ h => h.1
    · intro name hn
      rw [List.lookup_cons]
      by_cases h : name = operator.name
      · rw [beq_iff_eq.mpr h,h,hop]
        exact .some (same_arr (hes.flip.imp fun _ _ h => h.2))
      · rw [beq_eq_false_iff_ne.mpr h,hdisjoint name h hn]
        exact .none
  | @factor extra ms s hs hid hmd hpr hnames =>
    have hdisjoint : ∀ name, name ≠ js "amr_identifier" → name ≠ js "amr_metadata" →
        name ≠ js "amr_properties" → name ∉ extra → ms.lookup name = none := by
      intro name h1 h2 h3 h4
      refine lookup_eq_none fun hmem => ?_
      rcases hnames name hmem with hn | hn | hn | hn
      · exact h1 hn
      · exact h2 hn
      · exact h3 hn
      · exact h4 hn
    have hoperands : operands (.obj ms) = none := by
      have hall : (Json.obj ms).member? (js "all_of") = none :=
        hdisjoint _ (by decide) (by decide) (by decide) fun h => absurd (hextra _ h) (by decide)
      have hone : (Json.obj ms).member? (js "one_of") = none :=
        hdisjoint _ (by decide) (by decide) (by decide) fun h => absurd (hextra _ h) (by decide)
      rw [operands,hall,hone]
    obtain ⟨md,hmde,hmdn,hmdr,hmdt,hmds⟩ := section_cases (fun v => wellFormed_lookup hwf) hmd
    obtain ⟨pr,hpre,hprn,hprr,-,hprs⟩ := section_cases (fun v => wellFormed_lookup hwf) hpr
    obtain ⟨md',pr',hr,hmda,hpra⟩ :=
      factor_reproduced hs hid hmde hmdn hmdt hmdr hpre hprn hprr
    refine ⟨ms,factorMembers s md' pr',rfl,(rebuilt_factor hoperands).mpr hr,?_⟩
    intro name hn
    by_cases h1 : name = js "amr_identifier"
    · rw [h1,hid,lookup_factorMembers,if_pos rfl]
      exact rel_refl _
    · by_cases h2 : name = js "amr_metadata"
      · rw [h2,hmds,lookup_factorMembers_metadata]
        exact rel_section hmda
      · by_cases h3 : name = js "amr_properties"
        · rw [h3,hprs,lookup_factorMembers_properties]
          exact rel_section hpra
        · rw [hdisjoint name h1 h2 h3 hn,lookup_factorMembers_other _ _ _ (by simp [h1,h2,h3])]
          exact .none

theorem Expression.isExpression {d : Discovery} {extra : List Text} {e : Json}
    (h : Expression d extra e) : isExpression e = true := by
  cases h with
  | @group operator _ ms items hop =>
    cases operator with
    | allOf =>
      have h : ms.lookup (js "all_of") = some (.arr items) := hop
      simp [Builder.isExpression,Json.own,Json.member?,h]
    | oneOf =>
      have h : ms.lookup (js "one_of") = some (.arr items) := hop
      simp [Builder.isExpression,Json.own,Json.member?,h]
  | factor _ hid => simp [Builder.isExpression,Json.own,Json.member?,hid]

theorem details_reproduced {d : Discovery} {details : Json} (h : Details d details)
    (hwf : details.WellFormed) :
    ∃ ds, Reloaded d details ds ∧ Json.Same (detailsValue ds) details := by
  cases h with
  | null => exact ⟨[],⟨rfl,rfl⟩,.null⟩
  | essential => exact ⟨[(js "essential",.bool true)],rfl,.refl _⟩
  | expression he hess =>
    obtain ⟨ms,ms',rfl,hr,hrel⟩ := expression_reproduced he hwf (by simp)
    obtain ⟨_,heq,hnodup,hnone⟩ := hr.members
    cases heq
    have hx := he.isExpression
    have hagree : Agree (assign (essentialMember (truthy (ms.lookup (js "essential")))) (.obj ms'))
        ms := by
      intro name
      rw [lookup_assign _ hnodup,lookup_essentialMember (v := ms.lookup (js "essential")) hess]
      by_cases hn : name = js "essential"
      · rw [hn,hnone,if_pos rfl,Option.none_or]
        exact rel_refl _
      · rw [if_neg hn,Option.or_none]
        exact hrel name (by simpa using hn)
    have hne : ms ≠ [] := by
      rintro rfl
      cases hx
    refine ⟨assign (essentialMember (truthy (ms.lookup (js "essential")))) (.obj ms'),?_,?_⟩
    · rw [Reloaded,if_pos (show (Json.obj ms).isObject = true from rfl)]
      dsimp only
      rw [if_pos hx]
      exact ⟨_,hr,rfl⟩
    · rw [detailsValue,if_neg (fun h => hne (hagree.nil_iff.mp h))]
      exact hagree.same

theorem same_member (name : Text) {x y : Json} (h : Json.Same x y) :
    Json.Same (.obj [(name,x)]) (.obj [(name,y)]) := by
  apply Agree.same
  intro name'
  rw [List.lookup_cons,List.lookup_cons]
  by_cases hn : name' = name
  · rw [beq_iff_eq.mpr hn]
    exact .some h
  · rw [beq_eq_false_iff_ne.mpr hn]
    exact .none

section Claims
variable {d : Discovery} {ms : List (Text × Json)} {details : Json}
  (hwf : Json.WellFormed (.obj ms))
  (hms : ∀ m ∈ ms, ∃ (l : Location) (details' : Json),
    m = (l.name,.obj [(js "amr_details",details')]) ∧ Details d details' ∧ Json.Same details' details)
include hwf hms

theorem lookup_location {l : Location} {v : Json} (hv : ms.lookup l.name = some v) :
    ∃ details', v = .obj [(js "amr_details",details')] ∧ Details d details' ∧ Json.Same details' details ∧
      requestedDetails (.obj ms) l = some details' ∧ details'.WellFormed := by
  obtain ⟨k,details',heq,hd,hsame⟩ := hms _ ((Object.lookup_eq_some_iff (wellFormed_names hwf)).mp hv)
  obtain ⟨-,rfl⟩ := Prod.mk.inj heq
  refine ⟨details',rfl,hd,hsame,?_,?_⟩
  · rw [requestedDetails,Json.member?,hv]
    simp [Json.member?]
  · cases wellFormed_lookup hwf hv with
    | obj _ hmembers => exact hmembers _ List.mem_cons_self

theorem mem_locations_lookup (l : Location) :
    l ∈ locations (.obj ms) ↔ (ms.lookup l.name).isSome = true := by
  rw [mem_locations]
  cases hv : ms.lookup l.name with
  | none => simp [requestedDetails,Json.member?,hv]
  | some v =>
    obtain ⟨_,-,-,-,hr,-⟩ := lookup_location hwf hms hv
    rw [hr]
    rfl

omit hwf in
theorem lookup_eq_none_of_not_location {name : Text} (hname : ¬ ∃ l : Location, name = l.name) :
    ms.lookup name = none := by
  refine lookup_eq_none fun hmem => hname ?_
  obtain ⟨m,hm,rfl⟩ := List.mem_map.mp hmem
  obtain ⟨k,_,rfl,-⟩ := hms m hm
  exact ⟨k,rfl⟩

theorem claimsObject_same {v : Json} (hv : Json.Same v details) :
    Json.Same (claimsObject (locations (.obj ms)) v) (.obj ms) := by
  rw [claimsObject]
  apply Agree.same
  intro name
  by_cases hname : ∃ k : Location, name = k.name
  · obtain ⟨k,rfl⟩ := hname
    have hk := member_claimsObject (locations (.obj ms)) v k
    rw [claimsObject,Json.member?] at hk
    rw [hk]
    cases hw : ms.lookup k.name with
    | none =>
      rw [if_neg (by rw [mem_locations_lookup hwf hms,hw]; simp)]
      exact .none
    | some w =>
      obtain ⟨details',rfl,-,hsame,-,-⟩ := lookup_location hwf hms hw
      rw [if_pos (by rw [mem_locations_lookup hwf hms,hw]; rfl)]
      exact .some (same_member _ (hv.trans hsame.symm))
  · have hnone : ((locations (.obj ms)).map fun l => (l.name,
        Json.obj [(js "amr_details",v)])).lookup name = none := by
      refine lookup_eq_none fun hmem => hname ?_
      rw [Object.names,List.map_map] at hmem
      obtain ⟨k,-,rfl⟩ := List.mem_map.mp hmem
      exact ⟨k,rfl⟩
    rw [lookup_eq_none_of_not_location hms hname,hnone]
    exact .none

end Claims

/-- Loading a request of the builder's shape and building it gives the request back. -/
theorem builder_round_trip (d : Discovery) (p : Page) (claims details : Json)
    (hparse : Json.parse p.claimsJson = some claims) (hclaims : RequestsDetails d claims details) :
    ∃ p' claims', loadJson d p = (p',none) ∧ buildClaims p' = .ok claims' ∧
      Json.Same claims' claims := by
  obtain ⟨ms,rfl,hne,hms⟩ := hclaims.requests
  have hwf := Json.parse_wellFormed hparse
  obtain ⟨l,ls,hls⟩ : ∃ l ls, locations (.obj ms) = l :: ls := by
    obtain ⟨m,ms',rfl⟩ := List.exists_cons_of_ne_nil hne
    obtain ⟨l,details',rfl,-⟩ := hms m List.mem_cons_self
    exact List.exists_cons_of_ne_nil (List.ne_nil_of_mem ((mem_locations_lookup hwf hms l).mpr (by simp)))
  have hl : (ms.lookup l.name).isSome = true := by
    rw [← mem_locations_lookup hwf hms,hls]
    exact List.mem_cons_self
  obtain ⟨v,hv⟩ := Option.isSome_iff_exists.mp hl
  obtain ⟨details',-,hdetails,hsame,hrequested,hwf'⟩ := lookup_location hwf hms hv
  obtain ⟨ds,hds,hvalue⟩ := details_reproduced hdetails hwf'
  have hbuilt : ∃ p', loadJson d p = (p',none) ∧
      buildClaims p' = .ok (claimsObject (l :: ls) (detailsValue ds)) :=
    load_build_iff.mpr ⟨_,l,ls,details',ds,hparse,hls,hrequested,hds,rfl⟩
  obtain ⟨p',hload,hbuild⟩ := hbuilt
  refine ⟨p',_,hload,hbuild,?_⟩
  rw [← hls]
  exact claimsObject_same hwf hms (hvalue.trans hsame)

/-- `{"id_token":{"amr_details":{"essential":true,"all_of":[{"amr_identifier":{"value":"pwd"},
"amr_metadata":{"time":{"max_age":60}}},{"one_of":[{"amr_identifier":{"value":"otp"},
"amr_properties":{"otp_algorithm":{"essential":true}}}]}]}}}` -/
def nestedText : Text :=
  js "\x7b\"id_token\":\x7b\"amr_details\":\x7b\"essential\":true,\"all_of\":[\x7b\"amr_identifier\":\x7b\"value\":\"pwd\"\x7d," ++
  js "\"amr_metadata\":\x7b\"time\":\x7b\"max_age\":60\x7d\x7d\x7d,\x7b\"one_of\":[\x7b\"amr_identifier\":\x7b\"value\":\"otp\"\x7d," ++
  js "\"amr_properties\":\x7b\"otp_algorithm\":\x7b\"essential\":true\x7d\x7d\x7d]\x7d]\x7d\x7d\x7d"

def sixty : {i : ℤ // i.natAbs < Binary64.overflow} := ⟨1027*2^52+60*2^47,by decide⟩

def methodMember (s : Text) : Text × Json := (js "amr_identifier",.obj [(js "value",.str s)])

def essentialTrue : Json := .obj [(js "essential",.bool true)]

def nestedPassword : Json :=
  .obj [methodMember (js "pwd"),
    (js "amr_metadata",.obj [(js "time",.obj [(js "max_age",.num (.finite sixty))])])]

def nestedOtp : Json :=
  .obj [methodMember (js "otp"),(js "amr_properties",.obj [(js "otp_algorithm",essentialTrue)])]

def nestedDetails : Json :=
  .obj [(js "essential",.bool true),
    (js "all_of",.arr [nestedPassword,.obj [(js "one_of",.arr [nestedOtp])]])]

theorem plain_of_decide {t : Text} (h : trim t = t ∧ t ≠ [] ∧ ∀ c ∈ t, isNewline c = false) : Plain t :=
  ⟨h.1,h.2.1,h.2.2⟩

theorem builder_round_trip_nested :
    ∃ p' claims', loadJson noDiscovery (editorPage nestedText) = (p',none) ∧
      buildClaims p' = .ok claims' ∧
      Json.Same claims' (.obj [(js "id_token",.obj [(js "amr_details",nestedDetails)])]) := by
  have hparse : Json.parse nestedText =
      some (.obj [(js "id_token",.obj [(js "amr_details",nestedDetails)])]) := by
    rw [nestedText,js_eq rfl,js_eq rfl,js_eq rfl]
    decide +kernel
  have hotp : Expression noDiscovery [] nestedOtp := by
    refine .factor (plain_of_decide (by decide)) rfl (fun v hv => ?_) ?_ ?_
    · cases hv
    · intro v hv
      cases hv
      refine ⟨_,rfl,List.cons_ne_nil _ _,?_⟩
      intro m hm
      rw [List.mem_singleton.mp hm]
      refine ⟨⟨plain_of_decide (by decide),by decide⟩,?_⟩
      exact ⟨_,rfl,_,rfl,_,rfl,.refl _⟩
    · intro name hname
      simp only [methodMember,Object.names,List.map_cons,List.map_nil,List.mem_cons,
        List.not_mem_nil,or_false] at hname
      rcases hname with rfl | rfl
      · exact Or.inl rfl
      · exact Or.inr (Or.inr (Or.inl rfl))
  have htime : TimeRequest (.obj [(js "max_age",.num (.finite sixty))]) := by
    refine .members (List.cons_ne_nil _ _) ?_ (fun v hv => ?_) ?_
    · intro name hname
      exact Or.inr (List.mem_singleton.mp hname)
    · cases hv
    · intro v hv
      cases hv
      exact ⟨sixty,rfl,by decide +kernel,by decide⟩
  have hpwd : Expression noDiscovery [] nestedPassword := by
    refine .factor (plain_of_decide (by decide)) rfl ?_ (fun v hv => ?_) ?_
    · intro v hv
      cases hv
      refine ⟨_,rfl,List.cons_ne_nil _ _,?_⟩
      intro m hm
      rw [List.mem_singleton.mp hm]
      exact htime
    · cases hv
    · intro name hname
      simp only [methodMember,Object.names,List.map_cons,List.map_nil,List.mem_cons,
        List.not_mem_nil,or_false] at hname
      rcases hname with rfl | rfl
      · exact Or.inl rfl
      · exact Or.inr (Or.inl rfl)
  have hone : Expression noDiscovery [] (.obj [(js "one_of",.arr [nestedOtp])]) := by
    refine .group .oneOf rfl (List.cons_ne_nil _ _) ?_ ?_
    · intro e he
      rw [List.mem_singleton.mp he]
      exact hotp
    · intro name hname
      exact Or.inl (List.mem_singleton.mp hname)
  have hall : Expression noDiscovery [js "essential"] nestedDetails := by
    refine .group .allOf rfl (List.cons_ne_nil _ _) ?_ ?_
    · intro e he
      rcases List.mem_cons.mp he with rfl | he
      · exact hpwd
      · rw [List.mem_singleton.mp he]
        exact hone
    · intro name hname
      rcases List.mem_cons.mp hname with rfl | hname
      · exact Or.inr (List.mem_singleton.mpr rfl)
      · exact Or.inl (List.mem_singleton.mp hname)
  have hdetails : Details noDiscovery nestedDetails := by
    refine .expression hall fun v hv => ?_
    cases hv
    rfl
  refine builder_round_trip noDiscovery (editorPage nestedText) _ nestedDetails hparse ⟨_,rfl,List.cons_ne_nil _ _,?_⟩
  intro m hm
  exact ⟨.idToken,nestedDetails,List.mem_singleton.mp hm,hdetails,.refl _⟩

end Oidc4acLab.Builder
