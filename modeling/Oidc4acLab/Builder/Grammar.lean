import Oidc4acLab.Builder.Reload

/-! # The request grammar

The protocol grammar of `amr_details`, read off any JSON value, and the builder states
whose claims are in it. `time` is mandatory in `amr_metadata`; the builder leaves it out
when a metadata row is present and the time section asks for nothing.
-/
namespace Oidc4acLab.Builder
open Text Fallible

def NonNegativeInteger (v : Json) : Prop :=
  ∃ x : Number, v = .num x ∧ x.isInteger = true ∧ x.isNegative = false

/-- No constraint has both `value` and `values`. -/
def ValueOrValues (c : Json) : Prop :=
  ¬ (c.own (js "value") = true ∧ c.own (js "values") = true)

/-- A constraint other than the one on the execution time. -/
structure ConstraintGrammar (c : Json) : Prop where
  valueOrValues : ValueOrValues c
  noMaxAge : c.member? (js "max_age") = none

/-- The constraint on the execution time. -/
structure TimeGrammar (t : Json) : Prop where
  valueOrValues : ValueOrValues t
  maxAge : ∀ v, t.member? (js "max_age") = some v → NonNegativeInteger v

structure MetadataGrammar (m : Json) : Prop where
  time : ∃ t, m.member? (js "time") = some t ∧ TimeGrammar t
  constraints : ∀ name c, m.member? name = some c → name ≠ js "time" → ConstraintGrammar c

def PropertiesGrammar (m : Json) : Prop :=
  ∀ name c, m.member? name = some c → ConstraintGrammar c

/-- What holds of a node besides its operator. -/
structure SectionsGrammar (e : Json) : Prop where
  metadata : ∀ m, e.member? (js "amr_metadata") = some m → MetadataGrammar m
  properties : ∀ m, e.member? (js "amr_properties") = some m → PropertiesGrammar m
  noMaxAge : e.member? (js "max_age") = none

/-- An expression node; what a nested node may not carry is said where it is nested. -/
inductive NodeGrammar : Json → Prop
  | group (operator : Operator) {e : Json} {items : List Json} :
      e.member? operator.name = some (.arr items) → items ≠ [] →
      (∀ x ∈ items, NodeGrammar x) → (∀ x ∈ items, x.member? (js "essential") = none) →
      e.member? operator.other.name = none → e.member? (js "amr_identifier") = none →
      SectionsGrammar e → NodeGrammar e
  | method {e m : Json} :
      e.member? (js "amr_identifier") = some m → m.member? (js "max_age") = none →
      e.member? (js "all_of") = none → e.member? (js "one_of") = none →
      SectionsGrammar e → NodeGrammar e

/-- Null, `{essential: true}`, or an expression with `essential: true` at most. -/
def DetailsGrammar (v : Json) : Prop :=
  v = .null ∨ v = .obj [(js "essential",.bool true)] ∨
    NodeGrammar v ∧ ∀ w, v.member? (js "essential") = some w → w = .bool true

def ClaimsGrammar (ls : List Location) (claims : Json) : Prop :=
  ∀ l ∈ ls, ∃ v, requestedDetails claims l = some v ∧ DetailsGrammar v

/-- The metadata rows leave a member: assigning to `__proto__` leaves none unless an earlier row
has set the prototype to null. -/
def leavesMember : Bool → List Row → Bool
  | _, [] => false
  | chained, row :: rows =>
    if trim row.name.value = js "__proto__" ∧ chained then
      leavesMember (decide (row.mode ≠ .requested)) rows
    else true

/-- A factor with metadata requests time as well. -/
def Timed (f : Factor) : Prop :=
  leavesMember true f.metadata = true →
    f.timeRequested = true ∨ trim f.timeMaxAge.value ≠ []

mutual

def Node.factors : Node → List Factor
  | .factor f => [f]
  | .group _ children => factorsOf children

def factorsOf : List Node → List Factor
  | [] => []
  | n :: ns => n.factors ++ factorsOf ns

end

theorem constraintGrammar_of_members {b : Bool} {ms : List (Text × Json)}
    (hage : ms.lookup (js "max_age") = none)
    (hvalue : ms.lookup (js "value") = none ∨ ms.lookup (js "values") = none) :
    ConstraintGrammar (.obj (essentialMember b ++ ms)) := by
  have hne : js "max_age" ≠ js "essential" ∧ js "value" ≠ js "essential" ∧
      js "values" ≠ js "essential" := by decide
  constructor
  · rintro ⟨h1,h2⟩
    rw [Json.own,Json.member?,lookup_essentialMember_append b ms hne.2.1] at h1
    rw [Json.own,Json.member?,lookup_essentialMember_append b ms hne.2.2] at h2
    rcases hvalue with h | h
    · simp [h] at h1
    · simp [h] at h2
  · rw [Json.member?,lookup_essentialMember_append b ms hne.1]
    exact hage

/-- A constraint is null in the mode `requested`, and an object in the others. -/
theorem constraintValue_grammar {row : Row} {name : Text} {v : Json}
    (h : constraintValue row name = .ok v) :
    ConstraintGrammar v ∧ (v = .null ↔ row.mode = .requested) := by
  rw [constraintValue] at h
  cases hm : row.mode with
  | requested =>
    rw [hm] at h
    cases h
    exact ⟨⟨by simp [ValueOrValues,Json.own,Json.member?],rfl⟩,by simp⟩
  | value =>
    simp only [hm,bind_eq_ok,pure_eq_ok] at h
    obtain ⟨x,-,rfl⟩ := h
    exact ⟨constraintGrammar_of_members rfl (Or.inr rfl),by simp⟩
  | values =>
    simp only [hm,ite_eq_ok,bind_eq_ok,pure_eq_ok] at h
    obtain ⟨-,xs,-,rfl⟩ := h
    exact ⟨constraintGrammar_of_members rfl (Or.inl rfl),by simp⟩
  | range =>
    simp only [hm,ite_eq_ok] at h
    obtain ⟨-,h⟩ := h
    cases h
    rw [List.append_assoc]
    refine ⟨constraintGrammar_of_members ?_ (Or.inl ?_),by simp⟩
    · split_ifs <;> rfl
    · split_ifs <;> rfl
  | presence =>
    rw [hm] at h
    cases h
    have hg : ConstraintGrammar (.obj (essentialMember row.essential ++ [])) :=
      constraintGrammar_of_members rfl (Or.inl rfl)
    rw [List.append_nil] at hg
    exact ⟨hg,by simp⟩

theorem set_ne_nil (ms : List (Text × Json)) (name : Text) (v : Json) :
    Object.set ms name v ≠ [] := by
  intro h
  have hl := Object.lookup_set ms name v name
  rw [h,if_pos rfl] at hl
  cases hl

theorem putRow_eq_ok {check : Text → Except Thrown Unit} {d d' : Draft} {row : Row} :
    putRow check d row = .ok d' ↔ ∃ v, check (trim row.name.value) = .ok () ∧
      constraintValue row (trim row.name.value) = .ok v ∧ d' = d.put (trim row.name.value) v := by
  simp only [putRow,bind_eq_ok,pure_eq_ok]
  constructor
  · rintro ⟨⟨⟩,hc,v,hv,rfl⟩
    exact ⟨v,hc,hv,rfl⟩
  · rintro ⟨v,hc,hv,rfl⟩
    exact ⟨(),hc,v,hv,rfl⟩

/-- The loop over the rows leaves no member exactly when there was none and no row leaves one. -/
theorem rows_members_eq_nil {check : Text → Except Thrown Unit} {rows : List Row} {d d' : Draft}
    (h : rows.foldlM (putRow check) d = .ok d') :
    d'.members = [] ↔ d.members = [] ∧ leavesMember d.chained rows = false := by
  induction rows generalizing d with
  | nil =>
    cases h
    simp [leavesMember]
  | cons row rows ih =>
    rw [List.foldlM_cons] at h
    obtain ⟨d1,hrow,h⟩ := bind_eq_ok.mp h
    obtain ⟨v,-,hv,rfl⟩ := putRow_eq_ok.mp hrow
    have hnull := (constraintValue_grammar hv).2
    rw [ih h,leavesMember]
    split_ifs with hp
    · obtain ⟨ms,chained⟩ := d
      obtain ⟨hname,rfl⟩ := hp
      rw [hname,Draft.put_proto]
      have hmode : decide (v ≠ .null) = decide (row.mode ≠ .requested) := by
        simp [hnull]
      rw [hmode]
    · rw [Draft.put_of_not v hp]
      simp [set_ne_nil]

theorem Draft.put_lookup {d : Draft} {name name' : Text} {v c : Json}
    (h : (d.put name v).members.lookup name' = some c) :
    d.members.lookup name' = some c ∨ name' = name ∧ c = v := by
  by_cases hp : name = js "__proto__" ∧ d.chained = true
  · obtain ⟨ms,chained⟩ := d
    obtain ⟨rfl,rfl⟩ := hp
    rw [Draft.put_proto] at h
    exact Or.inl h
  · rw [Draft.put_of_not v hp,Object.lookup_set] at h
    split_ifs at h with hn
    · exact Or.inr ⟨hn,(Option.some.inj h).symm⟩
    · exact Or.inl h

theorem rows_lookup {check : Text → Except Thrown Unit} {rows : List Row} {d d' : Draft}
    (h : rows.foldlM (putRow check) d = .ok d') :
    ∀ name c, d'.members.lookup name = some c →
      d.members.lookup name = some c ∨ ConstraintGrammar c := by
  refine foldlM_keeps (I := fun d' => ∀ name c, d'.members.lookup name = some c →
      d.members.lookup name = some c ∨ ConstraintGrammar c) ?_ h (fun _ _ hc => Or.inl hc)
  intro row _ d1 d2 hrow hd1 name c hc
  obtain ⟨v,-,hv,rfl⟩ := putRow_eq_ok.mp hrow
  rcases Draft.put_lookup hc with hold | ⟨-,rfl⟩
  · exact hd1 name c hold
  · exact Or.inr (constraintValue_grammar hv).1

/-- No metadata row touches the member `time`. -/
theorem metadata_rows_time {rows : List Row} {d d' : Draft}
    (h : rows.foldlM (putRow checkMetadataName) d = .ok d') :
    d'.members.lookup (js "time") = d.members.lookup (js "time") := by
  refine foldlM_keeps
    (I := fun d' => d'.members.lookup (js "time") = d.members.lookup (js "time")) ?_ h rfl
  intro row _ d1 d2 hrow hd1
  obtain ⟨v,hcheck,-,rfl⟩ := putRow_eq_ok.mp hrow
  have hne : js "time" ≠ trim row.name.value := by
    intro hn
    rw [← hn,checkMetadataName,if_neg (by decide),if_pos rfl] at hcheck
    cases hcheck
  rw [← hd1]
  by_cases hp : trim row.name.value = js "__proto__" ∧ d1.chained = true
  · obtain ⟨ms,chained⟩ := d1
    obtain ⟨hproto,rfl⟩ := hp
    rw [hproto,Draft.put_proto]
  · rw [Draft.put_of_not v hp,Object.lookup_set,if_neg hne]

theorem timeGrammar_of_members {b : Bool} {ms : List (Text × Json)}
    (hvalue : ms.lookup (js "value") = none)
    (hage : ∀ v, ms.lookup (js "max_age") = some v → NonNegativeInteger v) :
    TimeGrammar (.obj (essentialMember b ++ ms)) := by
  have hne : js "max_age" ≠ js "essential" ∧ js "value" ≠ js "essential" := by decide
  constructor
  · rintro ⟨h,-⟩
    rw [Json.own,Json.member?,lookup_essentialMember_append b ms hne.2,hvalue] at h
    cases h
  · intro v hv
    rw [Json.member?,lookup_essentialMember_append b ms hne.1] at hv
    exact hage v hv

theorem timeRequest_grammar {f : Factor} {time : Option Json} (h : timeRequest f = .ok time) :
    (time = none ↔ ¬ (f.timeRequested = true ∨ trim f.timeMaxAge.value ≠ [])) ∧
      ∀ t, time = some t → TimeGrammar t := by
  rw [timeRequest] at h
  dsimp only at h
  by_cases hage : trim f.timeMaxAge.value = []
  · rw [if_neg (not_not.mpr hage)] at h
    by_cases hr : f.timeRequested = true
    · rw [if_pos hr] at h
      cases h
      refine ⟨by simp [hr],?_⟩
      rintro t ⟨⟩
      split_ifs with hnil
      · exact ⟨by simp [ValueOrValues,Json.own,Json.member?],by simp [Json.member?]⟩
      · have hg : TimeGrammar (.obj (essentialMember f.timeEssential ++ [])) :=
          timeGrammar_of_members rfl (by simp)
        rwa [List.append_nil] at hg
    · rw [if_neg hr] at h
      cases h
      exact ⟨by simp [hr,hage],by simp⟩
  · rw [if_pos hage,ite_eq_ok] at h
    obtain ⟨hnum,h⟩ := h
    cases h
    refine ⟨by simp [hage],?_⟩
    rintro t ⟨⟩
    refine timeGrammar_of_members rfl ?_
    rintro v hv
    have hv' : v = .num (Number.ofText (trim f.timeMaxAge.value)) := (Option.some.inj hv).symm
    simp only [Bool.or_eq_true,Bool.not_eq_true',not_or,Bool.not_eq_true,Bool.not_eq_false] at hnum
    exact ⟨_,hv',hnum.1,hnum.2⟩

theorem factor_grammar {f : Factor} {e : Json} (h : factorExpression f = .ok e) :
    NodeGrammar e ↔ Timed f := by
  obtain ⟨-,time,htime,md,hmd,pr,hpr,rfl⟩ := factorExpression_eq.mp h
  obtain ⟨hnone,hgrammar⟩ := timeRequest_grammar htime
  have hlookup : md.members.lookup (js "time") = time := by
    rw [metadata_rows_time hmd]
    cases time <;> rfl
  have hnil := rows_members_eq_nil hmd
  have hother : ∀ name, name ∉ [js "amr_identifier",js "amr_metadata",js "amr_properties"] →
      (Json.obj (factorMembers (trim f.id.value) md.members pr.members)).member? name = none :=
    fun name h => lookup_factorMembers_other _ _ _ h
  have hall := hother (js "all_of") (by decide)
  have hone := hother (js "one_of") (by decide)
  have hid : (Json.obj (factorMembers (trim f.id.value) md.members pr.members)).member?
      (js "amr_identifier") = some (.obj [(js "value",.str (trim f.id.value))]) := rfl
  constructor
  · intro hg hleaves
    have hmembers : md.members ≠ [] := by
      intro h0
      rw [(hnil.mp h0).2] at hleaves
      cases hleaves
    cases hg with
    | group operator hop =>
      cases operator with
      | allOf => exact absurd (hop.symm.trans hall) (by simp)
      | oneOf => exact absurd (hop.symm.trans hone) (by simp)
    | method _ _ _ _ hsections =>
      have hmeta := lookup_factorMembers_metadata (trim f.id.value) md.members pr.members
      rw [if_neg hmembers] at hmeta
      obtain ⟨t,ht,-⟩ := (hsections.metadata _ hmeta).time
      rw [Json.member?,hlookup] at ht
      by_contra hno
      rw [hnone.mpr hno] at ht
      cases ht
  · intro htimed
    refine .method hid rfl hall hone ⟨?_,?_,hother _ (by decide)⟩
    · intro m hm
      rw [Json.member?,lookup_factorMembers_metadata] at hm
      split_ifs at hm with hmembers
      cases hm
      have htime' : time ≠ none := by
        intro h0
        refine hnone.mp h0 (htimed ?_)
        by_contra hleaves
        refine hmembers (hnil.mpr ⟨?_,by simpa using hleaves⟩)
        rw [h0]
        rfl
      obtain ⟨t,rfl⟩ := Option.ne_none_iff_exists'.mp htime'
      refine ⟨⟨t,hlookup,hgrammar t rfl⟩,?_⟩
      intro name c hc hname
      rcases rows_lookup hmd name c hc with hstart | hg
      · rw [Option.elim_some,List.lookup_cons,beq_eq_false_iff_ne.mpr hname] at hstart
        cases hstart
      · exact hg
    · intro m hm name c hc
      rw [Json.member?,lookup_factorMembers_properties] at hm
      split_ifs at hm
      cases hm
      rcases rows_lookup hpr name c hc with hstart | hg
      · simp at hstart
      · exact hg

theorem mem_factorsOf {ns : List Node} {f : Factor} :
    f ∈ factorsOf ns ↔ ∃ n ∈ ns, f ∈ n.factors := by
  induction ns with
  | nil => simp [factorsOf]
  | cons n ns ih => simp [factorsOf,ih]

theorem group_grammar {operator : Operator} {es : List Json} :
    NodeGrammar (.obj [(operator.name,.arr es)]) ↔
      es ≠ [] ∧ (∀ x ∈ es, NodeGrammar x) ∧ ∀ x ∈ es, x.member? (js "essential") = none := by
  constructor
  · intro h
    cases h with
    | @group operator' _ items hop hne hitems hess =>
      have heq : items = es := by
        cases operator <;> cases operator' <;> first | (cases hop; rfl) | cases hop
      subst heq
      exact ⟨hne,hitems,hess⟩
    | method hid =>
      cases operator <;> cases hid
  · rintro ⟨hne,hitems,hess⟩
    refine .group operator ?_ hne hitems hess ?_ ?_ ⟨fun m hm => ?_,fun m hm => ?_,?_⟩
    · cases operator <;> rfl
    · cases operator <;> rfl
    · cases operator <;> rfl
    · cases operator <;> cases hm
    · cases operator <;> cases hm
    · cases operator <;> rfl

theorem children_essential {children : List Node} {es : List Json}
    (h : List.Forall₂ (fun n e => nodeExpression n = .ok e) children es) :
    ∀ x ∈ es, x.member? (js "essential") = none := by
  induction h with
  | nil => simp
  | cons hn _ ih =>
    intro x hx
    rcases List.mem_cons.mp hx with rfl | hx
    · obtain ⟨ms,rfl,-,hnone⟩ := nodeExpression_members hn
      exact hnone
    · exact ih x hx

theorem children_grammar {children : List Node} {es : List Json}
    (h : List.Forall₂ (fun n e => nodeExpression n = .ok e) children es)
    (ih : ∀ n ∈ children, ∀ {e}, nodeExpression n = .ok e →
      (NodeGrammar e ↔ ∀ f ∈ n.factors, Timed f)) :
    (∀ x ∈ es, NodeGrammar x) ↔ ∀ n ∈ children, ∀ f ∈ n.factors, Timed f := by
  induction h with
  | nil => simp
  | @cons n e ns es hn _ ih' =>
    rw [List.forall_mem_cons,List.forall_mem_cons]
    refine and_congr (ih n List.mem_cons_self hn) (ih' ?_)
    intro k hk
    exact ih k (List.mem_cons_of_mem n hk)

theorem node_grammar {n : Node} {e : Json} (h : nodeExpression n = .ok e) :
    NodeGrammar e ↔ ∀ f ∈ n.factors, Timed f := by
  induction n using Node.induction generalizing e with
  | factor f =>
    rw [factor_grammar h]
    simp [Node.factors]
  | group operator children ih =>
    obtain ⟨hne,es,hes,rfl⟩ := nodeExpression_group.mp h
    have hesne : es ≠ [] := by
      rintro rfl
      exact hne (List.forall₂_nil_right_iff.mp hes)
    have hchildren := children_grammar hes fun n hn {e} he => ih n hn he
    rw [group_grammar,hchildren,Node.factors]
    simp only [mem_factorsOf]
    constructor
    · rintro ⟨-,hall,-⟩ f ⟨n,hn,hf⟩
      exact hall n hn f hf
    · intro hall
      exact ⟨hesne,fun n hn f hf => hall f ⟨n,hn,hf⟩,children_essential hes⟩

/-- The node whose expression `buildClaims` puts into `details`: several roots stand under the
operator of the page. -/
def rootNode (p : Page) : Node :=
  match p.expressionRoot with
  | [n] => n
  | ns => .group p.operator ns

theorem buildDetails_eq {p : Page} {ds : List (Text × Json)} (hne : p.expressionRoot ≠ []) :
    buildDetails p = .ok ds ↔ ∃ e, nodeExpression (rootNode p) = .ok e ∧
      ds = assign (essentialMember p.claimEssential) e := by
  rw [buildDetails,rootNode]
  rcases hroot : p.expressionRoot with _ | ⟨n,_ | ⟨n',ns⟩⟩
  · exact absurd hroot hne
  · simp only [bind_eq_ok,pure_eq_ok]
    exact exists_congr fun e => and_congr_right fun _ => eq_comm
  · simp only [bind_eq_ok,pure_eq_ok,nodeExpression_group,nodeExpressions_eq_mapM,mapM_eq_ok]
    constructor
    · rintro ⟨es,hes,rfl⟩
      exact ⟨_,⟨List.cons_ne_nil _ _,es,hes,rfl⟩,rfl⟩
    · rintro ⟨_,⟨-,es,hes,rfl⟩,rfl⟩
      exact ⟨es,hes,rfl⟩

theorem factors_rootNode (p : Page) : (rootNode p).factors = factorsOf p.expressionRoot := by
  rw [rootNode]
  rcases p.expressionRoot with _ | ⟨n,_ | ⟨n',ns⟩⟩
  · rfl
  · simp [factorsOf]
  · rfl

/-- `essential` does not matter to the grammar of a node. -/
theorem nodeGrammar_congr {e e' : Json}
    (h : ∀ name, name ≠ js "essential" → e'.member? name = e.member? name) (he : NodeGrammar e) :
    NodeGrammar e' := by
  have hsections : SectionsGrammar e → SectionsGrammar e' := by
    rintro ⟨hm,hp,ha⟩
    refine ⟨?_,?_,?_⟩
    · rw [h _ (by decide)]
      exact hm
    · rw [h _ (by decide)]
      exact hp
    · rw [h _ (by decide)]
      exact ha
  cases he with
  | group operator hop hne hitems hess hother hid hs =>
    have hoperator : e'.member? operator.name = e.member? operator.name := h _ (by cases operator <;> decide)
    have hrival : e'.member? operator.other.name = e.member? operator.other.name := h _ (by cases operator <;> decide)
    exact .group operator (hoperator.trans hop) hne hitems hess (hrival.trans hother) ((h _ (by decide)).trans hid)
      (hsections hs)
  | method hid hm hall hone hs =>
    exact .method ((h _ (by decide)).trans hid) hm ((h _ (by decide)).trans hall) ((h _ (by decide)).trans hone)
      (hsections hs)

/-- The emitted details have the members of the root's expression, and `essential` at most. -/
theorem details_members {p : Page} {ds : List (Text × Json)} (hroot : p.expressionRoot ≠ [])
    (h : buildDetails p = .ok ds) :
    ∃ e, nodeExpression (rootNode p) = .ok e ∧ detailsValue ds = .obj ds ∧
      isExpression (.obj ds) = true ∧
      (∀ name, name ≠ js "essential" → (Json.obj ds).member? name = e.member? name) ∧
      (Json.obj ds).member? (js "essential") =
        if p.claimEssential then some (.bool true) else none := by
  obtain ⟨e,he,rfl⟩ := (buildDetails_eq hroot).mp h
  obtain ⟨ms,rfl,hnodup,hnone⟩ := nodeExpression_members he
  have hsame : ∀ name, name ≠ js "essential" →
      (Json.obj (assign (essentialMember p.claimEssential) (.obj ms))).member? name =
        (Json.obj ms).member? name := by
    intro name hn
    have hess := lookup_essentialMember_append p.claimEssential [] hn
    rw [List.append_nil] at hess
    rw [Json.member?,lookup_assign _ hnodup,hess,List.lookup_nil,Option.or_none,Json.member?]
  have hx : isExpression (.obj (assign (essentialMember p.claimEssential) (.obj ms))) = true := by
    rw [← nodeExpression_isExpression he,isExpression,isExpression,Json.own,Json.own,Json.own,
      hsame _ (by decide),hsame _ (by decide),hsame _ (by decide)]
    rfl
  refine ⟨_,he,if_neg ?_,hx,hsame,?_⟩
  · intro h0
    rw [h0] at hx
    cases hx
  · rw [Json.member?,lookup_assign _ hnodup,hnone,Option.none_or]
    cases p.claimEssential <;> rfl

theorem details_grammar {p : Page} {ds : List (Text × Json)} (h : buildDetails p = .ok ds) :
    DetailsGrammar (detailsValue ds) ↔ ∀ f ∈ factorsOf p.expressionRoot, Timed f := by
  by_cases hroot : p.expressionRoot = []
  · rw [buildDetails,hroot] at h
    cases h
    refine iff_of_true ?_ (by simp [hroot,factorsOf])
    cases p.claimEssential
    · exact Or.inl rfl
    · exact Or.inr (Or.inl rfl)
  · obtain ⟨e,he,hvalue,hx,hsame,hess⟩ := details_members hroot h
    rw [← factors_rootNode,← node_grammar he,hvalue]
    constructor
    · rintro (hv | hv | ⟨hg,-⟩)
      · cases hv
      · rw [hv] at hx
        cases hx
      · exact nodeGrammar_congr (fun name hn => (hsame name hn).symm) hg
    · intro hg
      refine Or.inr (Or.inr ⟨nodeGrammar_congr hsame hg,?_⟩)
      intro w hw
      rw [hess] at hw
      split_ifs at hw
      cases hw
      rfl

/-- The claims of a page are in the grammar exactly when each factor with metadata requests
time. -/
theorem claims_grammar_iff (p : Page) (claims : Json) (hne : selectedDeliveries p ≠ [])
    (h : buildClaims p = .ok claims) :
    ClaimsGrammar (selectedDeliveries p) claims ↔ ∀ f ∈ factorsOf p.expressionRoot, Timed f := by
  obtain ⟨ds,hds,hc⟩ := bind_eq_ok.mp h
  rw [pure_eq_ok] at hc
  subst hc
  rw [← details_grammar hds]
  constructor
  · intro hall
    obtain ⟨l,hl⟩ := List.exists_mem_of_ne_nil _ hne
    obtain ⟨v,hv,hg⟩ := hall l hl
    rw [requestedDetails_claimsObject,if_pos hl] at hv
    cases hv
    exact hg
  · intro hg l hl
    exact ⟨_,by rw [requestedDetails_claimsObject,if_pos hl],hg⟩

def requestedRow (name : Text) : Row :=
  ⟨.assign name,.requested,.assign [],.assign [],.assign [],false⟩

/-- One factor with one metadata row, and the box that requests the time. -/
def onePage (timeRequested : Bool) : Page :=
  { claimEssential := true, operator := .allOf, delivery := fun l => l == .idToken,
    expressionRoot := [.factor ⟨.assign (js "pwd"),timeRequested,false,.assign [],[],
      [requestedRow (js "acr")]⟩],
    claimsJson := [] }

/-- What is requested by the page, with these members of `amr_metadata`. -/
def onePageDetails (metadata : List (Text × Json)) : Json :=
  .obj [(js "essential",.bool true),(js "amr_identifier",.obj [(js "value",.str (js "pwd"))]),
    (js "amr_metadata",.obj metadata)]

def onePageClaims (metadata : List (Text × Json)) : Json :=
  .obj [(js "id_token",.obj [(js "amr_details",onePageDetails metadata)])]

/-- Metadata without the mandatory member `time`. -/
theorem metadata_without_time :
    ∃ claims, buildClaims (onePage false) = .ok claims ∧
      ¬ ClaimsGrammar (selectedDeliveries (onePage false)) claims := by
  refine ⟨onePageClaims [(js "acr",.null)],ok_of_toOption (by decide +kernel),?_⟩
  intro hgrammar
  obtain ⟨v,hv,hdetails⟩ := hgrammar .idToken (by decide)
  have hrequested : requestedDetails (onePageClaims [(js "acr",.null)]) .idToken =
      some (onePageDetails [(js "acr",.null)]) := by decide +kernel
  cases hrequested.symm.trans hv
  rcases hdetails with h | h | ⟨hnode,-⟩
  · cases h
  · exact absurd h (by decide +kernel)
  · cases hnode with
    | group operator hop =>
      have hnone : (onePageDetails [(js "acr",.null)]).member? operator.name = none := by
        cases operator <;> decide +kernel
      rw [hnone] at hop
      cases hop
    | method _ _ _ _ hsections =>
      have hmeta : (onePageDetails [(js "acr",.null)]).member? (js "amr_metadata") =
          some (.obj [(js "acr",.null)]) := by decide +kernel
      obtain ⟨t,ht,-⟩ := (hsections.metadata _ hmeta).time
      have hnone : (Json.obj [(js "acr",.null)]).member? (js "time") = none := by decide +kernel
      rw [hnone] at ht
      cases ht

theorem claims_grammar_timed :
    ∃ claims, buildClaims (onePage true) = .ok claims ∧
      ClaimsGrammar (selectedDeliveries (onePage true)) claims := by
  have hbuild : buildClaims (onePage true) =
      .ok (onePageClaims [(js "time",.null),(js "acr",.null)]) := ok_of_toOption (by decide +kernel)
  refine ⟨_,hbuild,(claims_grammar_iff (onePage true) _ (by decide) hbuild).mpr ?_⟩
  intro f hf _
  rw [List.mem_singleton.mp hf]
  exact Or.inl rfl

end Oidc4acLab.Builder
