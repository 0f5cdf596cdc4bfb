import Oidc4acLab.Builder.Grammar

/-! # Rows and the members they become

The rows of a factor are assigned one after another to a plain object. A name that comes
twice, and `__proto__`, leave fewer members than rows, and no error is thrown.
-/
namespace Oidc4acLab.Builder
open Text Fallible

/-- The member is the one of the row: the trimmed name, and the constraint of the row. -/
def RowMember (row : Row) (m : Text × Json) : Prop :=
  m.1 = trim row.name.value ∧ constraintValue row m.1 = .ok m.2

/-- The members are those of the rows, one for each row, in any order. -/
def HoldsRows (rows : List Row) (members : List (Text × Json)) : Prop :=
  ∃ ms, List.Forall₂ RowMember rows ms ∧ members.Perm ms

def sectionMembers (e : Json) (name : Text) : List (Text × Json) := entriesOf (e.member? name)

def HoldsFactor (f : Factor) (e : Json) : Prop :=
  HoldsRows f.metadata
      ((sectionMembers e (js "amr_metadata")).filter fun m => !(m.1 == js "time")) ∧
    HoldsRows f.properties (sectionMembers e (js "amr_properties"))

mutual

def HoldsNode : Node → Json → Prop
  | .factor f, e => HoldsFactor f e
  | .group operator children, e =>
    ∃ es, e.member? operator.name = some (.arr es) ∧ HoldsNodes children es

def HoldsNodes : List Node → List Json → Prop
  | [], [] => True
  | n :: ns, e :: es => HoldsNode n e ∧ HoldsNodes ns es
  | _, _ => False

end

/-- The emitted `amr_details` holds the rows of every factor of the page. -/
def HoldsPage (p : Page) (claims : Json) : Prop :=
  ∀ l ∈ selectedDeliveries p, ∃ v, requestedDetails claims l = some v ∧
    (p.expressionRoot ≠ [] → HoldsNode (rootNode p) v)

def rowNames (rows : List Row) : List Text := rows.map fun row => trim row.name.value

/-- No name comes twice, and none is special to objects. -/
structure KeptNames (rows : List Row) : Prop where
  nodup : (rowNames rows).Nodup
  notProto : js "__proto__" ∉ rowNames rows

/-- The rows of a factor keep apart, in each of its two sections. -/
def KeepsApart (f : Factor) : Prop := KeptNames f.metadata ∧ KeptNames f.properties

theorem names_rowMembers {rows : List Row} {ms : List (Text × Json)}
    (h : List.Forall₂ RowMember rows ms) : Object.names ms = rowNames rows := by
  induction h with
  | nil => rfl
  | cons hrow _ ih =>
    simp only [Object.names,rowNames,List.map_cons,hrow.1] at ih ⊢
    rw [ih]

theorem Draft.length_put (d : Draft) (name : Text) (v : Json) :
    (d.put name v).members.length ≤ d.members.length+1 := by
  by_cases hp : name = js "__proto__" ∧ d.chained = true
  · obtain ⟨ms,chained⟩ := d
    obtain ⟨rfl,rfl⟩ := hp
    rw [Draft.put_proto]
    exact Nat.le_succ _
  · rw [Draft.put_of_not v hp]
    exact Object.length_set_le _ _ _

theorem length_rows {check : Text → Except Thrown Unit} {rows : List Row} {d d' : Draft}
    (h : rows.foldlM (putRow check) d = .ok d') :
    d'.members.length ≤ d.members.length+rows.length := by
  induction rows generalizing d with
  | nil =>
    cases h
    exact Nat.le_refl _
  | cons row rows ih =>
    rw [List.foldlM_cons] at h
    obtain ⟨d1,hrow,h⟩ := bind_eq_ok.mp h
    obtain ⟨v,-,-,rfl⟩ := putRow_eq_ok.mp hrow
    have hput := d.length_put (trim row.name.value) v
    have hrows := ih h
    rw [List.length_cons]
    omega

/-- The first row named `__proto__` sets the prototype and becomes no member. -/
theorem length_rows_proto {check : Text → Except Thrown Unit} {rows : List Row} {d d' : Draft}
    (h : rows.foldlM (putRow check) d = .ok d') (hc : d.chained = true)
    (hproto : js "__proto__" ∈ rowNames rows) :
    d'.members.length < d.members.length+rows.length := by
  induction rows generalizing d with
  | nil => cases hproto
  | cons row rows ih =>
    rw [List.foldlM_cons] at h
    obtain ⟨d1,hrow,h⟩ := bind_eq_ok.mp h
    obtain ⟨v,-,-,rfl⟩ := putRow_eq_ok.mp hrow
    by_cases hn : trim row.name.value = js "__proto__"
    · have hrows := length_rows h
      obtain ⟨ms,chained⟩ := d
      cases hc
      rw [hn,Draft.put_proto] at hrows
      rw [List.length_cons]
      dsimp only at hrows ⊢
      omega
    · have hput := d.length_put (trim row.name.value) v
      have hmem : js "__proto__" ∈ rowNames rows := by
        rcases List.mem_cons.mp hproto with heq | hmem
        · exact absurd heq.symm hn
        · exact hmem
      have hchained : (d.put (trim row.name.value) v).chained = true := by
        rw [Draft.put_of_not v fun hp => hn hp.1]
        exact hc
      have hrows := ih h hchained hmem
      rw [List.length_cons]
      omega

theorem nodup_rows {check : Text → Except Thrown Unit} {rows : List Row} {d d' : Draft}
    (h : rows.foldlM (putRow check) d = .ok d') (hd : (Object.names d.members).Nodup) :
    (Object.names d'.members).Nodup := by
  refine foldlM_keeps (I := fun d => (Object.names d.members).Nodup) ?_ h hd
  intro row _ d1 d2 hrow hd1
  obtain ⟨v,-,-,rfl⟩ := putRow_eq_ok.mp hrow
  by_cases hp : trim row.name.value = js "__proto__" ∧ d1.chained = true
  · obtain ⟨ms,chained⟩ := d1
    obtain ⟨hname,rfl⟩ := hp
    rw [hname,Draft.put_proto]
    exact hd1
  · rw [Draft.put_of_not v hp]
    exact Object.nodup_set _ _ hd1

theorem perm_rows {check : Text → Except Thrown Unit} {rows : List Row} {d d' : Draft}
    (h : rows.foldlM (putRow check) d = .ok d') (hk : KeptNames rows)
    (hd : ∀ row ∈ rows, trim row.name.value ∉ Object.names d.members) :
    ∃ ms, List.Forall₂ RowMember rows ms ∧ d'.members.Perm (d.members ++ ms) := by
  induction rows generalizing d with
  | nil =>
    cases h
    exact ⟨[],.nil,by rw [List.append_nil]⟩
  | cons row rows ih =>
    rw [List.foldlM_cons] at h
    obtain ⟨d1,hrow,h⟩ := bind_eq_ok.mp h
    obtain ⟨v,-,hv,rfl⟩ := putRow_eq_ok.mp hrow
    obtain ⟨hnodup,hproto⟩ := hk
    rw [rowNames,List.map_cons] at hnodup hproto
    obtain ⟨hnot,hnodup⟩ := List.nodup_cons.mp hnodup
    rw [List.mem_cons,not_or] at hproto
    obtain ⟨hne,hproto⟩ := hproto
    have hput : d.put (trim row.name.value) v =
        { d with members := Object.set d.members (trim row.name.value) v } :=
      Draft.put_of_not v fun hp => hne hp.1.symm
    have hperm := Object.set_perm v (hd row List.mem_cons_self)
    rw [hput] at h
    have hfree : ∀ k ∈ rows, trim k.name.value ∉
        Object.names (Object.set d.members (trim row.name.value) v) := by
      intro k hk hmem
      have hmem' := (hperm.map Prod.fst).mem_iff.mp hmem
      rw [List.map_append,List.mem_append] at hmem'
      rcases hmem' with hold | hnew
      · exact hd k (List.mem_cons_of_mem row hk) hold
      · have heq : trim k.name.value = trim row.name.value := List.mem_singleton.mp hnew
        exact hnot (List.mem_map.mpr ⟨k,hk,heq⟩)
    obtain ⟨ms,hms,hrest⟩ := ih h ⟨hnodup,hproto⟩ hfree
    refine ⟨(trim row.name.value,v) :: ms,.cons ⟨rfl,hv⟩ hms,hrest.trans ?_⟩
    have happend := hperm.append_right ms
    rwa [List.append_assoc] at happend

theorem rows_kept_iff {check : Text → Except Thrown Unit} {rows : List Row} {start : List (Text × Json)}
    {d' : Draft} (h : rows.foldlM (putRow check) ⟨start,true⟩ = .ok d')
    (hs : (Object.names start).Nodup)
    (hfree : ∀ row ∈ rows, trim row.name.value ∉ Object.names start) :
    (∃ ms, List.Forall₂ RowMember rows ms ∧ d'.members.Perm (start ++ ms)) ↔ KeptNames rows := by
  constructor
  · rintro ⟨ms,hms,hperm⟩
    constructor
    · have hnodup := (hperm.map Prod.fst).nodup_iff.mp (nodup_rows h hs)
      rw [List.map_append] at hnodup
      rw [← names_rowMembers hms]
      exact (List.nodup_append.mp hnodup).2.1
    · intro hproto
      have hlt := length_rows_proto h rfl hproto
      have hlen := hperm.length_eq
      rw [List.length_append,← hms.length_eq] at hlen
      dsimp only at hlt
      omega
  · intro hk
    exact perm_rows h hk hfree

theorem rows_checked {check : Text → Except Thrown Unit} {rows : List Row} {d d' : Draft}
    (h : rows.foldlM (putRow check) d = .ok d') :
    ∀ row ∈ rows, check (trim row.name.value) = .ok () := by
  induction rows generalizing d with
  | nil => simp
  | cons row rows ih =>
    rw [List.foldlM_cons] at h
    obtain ⟨d1,hrow,h⟩ := bind_eq_ok.mp h
    obtain ⟨_,hcheck,-,-⟩ := putRow_eq_ok.mp hrow
    exact List.forall_mem_cons.mpr ⟨hcheck,ih h⟩

theorem entriesOf_section (ms : List (Text × Json)) :
    entriesOf (if ms = [] then none else some (.obj ms)) = ms := by
  by_cases h : ms = []
  · rw [if_pos h,h]
    rfl
  · rw [if_neg h]
    rfl

theorem properties_kept_iff {rows : List Row} {d' : Draft}
    (h : rows.foldlM (putRow checkPropertyName) ⟨[],true⟩ = .ok d') :
    HoldsRows rows d'.members ↔ KeptNames rows :=
  rows_kept_iff h List.nodup_nil fun _ _ => List.not_mem_nil

theorem metadata_kept_iff {rows : List Row} {time : Option Json} {d' : Draft}
    (h : rows.foldlM (putRow checkMetadataName) ⟨time.elim [] fun t => [(js "time",t)],true⟩ =
      .ok d') :
    HoldsRows rows (d'.members.filter fun m => !(m.1 == js "time")) ↔ KeptNames rows := by
  have hs : (Object.names (time.elim [] fun t => [(js "time",t)])).Nodup := by
    cases time <;> simp [Object.names]
  have hfree : ∀ row ∈ rows, trim row.name.value ∉
      Object.names (time.elim [] fun t => [(js "time",t)]) := by
    intro row hrow hmem
    have hcheck := rows_checked h row hrow
    have heq : trim row.name.value = js "time" := by
      cases time with
      | none => cases hmem
      | some t => exact List.mem_singleton.mp hmem
    rw [heq,checkMetadataName,if_neg (by decide),if_pos rfl] at hcheck
    cases hcheck
  have hlookup : d'.members.lookup (js "time") = time := by
    rw [metadata_rows_time h]
    cases time <;> rfl
  have htime : (d'.members.filter fun m => m.1 == js "time") =
      time.elim [] fun t => [(js "time",t)] := by
    rw [Object.filter_name (nodup_rows h hs),hlookup]
    cases time <;> rfl
  have hsplit := List.filter_append_perm (fun m : Text × Json => m.1 == js "time") d'.members
  rw [htime] at hsplit
  rw [← rows_kept_iff h hs hfree,HoldsRows]
  refine exists_congr fun ms => and_congr_right fun _ => ?_
  rw [← List.perm_append_left_iff (time.elim [] fun t => [(js "time",t)])]
  exact ⟨fun hp => hsplit.symm.trans hp,fun hp => hsplit.trans hp⟩

/-- `e'` has the members of the factor's expression `e`, and perhaps `essential`. -/
theorem factor_holds_iff {f : Factor} {e e' : Json} (h : factorExpression f = .ok e)
    (hsame : ∀ name, name ≠ js "essential" → e'.member? name = e.member? name) :
    HoldsFactor f e' ↔ KeepsApart f := by
  obtain ⟨-,time,-,md,hmd,pr,hpr,rfl⟩ := factorExpression_eq.mp h
  have hm : sectionMembers e' (js "amr_metadata") = md.members := by
    rw [sectionMembers,hsame _ (by decide),Json.member?,lookup_factorMembers_metadata,
      entriesOf_section]
  have hp : sectionMembers e' (js "amr_properties") = pr.members := by
    rw [sectionMembers,hsame _ (by decide),Json.member?,lookup_factorMembers_properties,
      entriesOf_section]
  rw [HoldsFactor,hm,hp,metadata_kept_iff hmd,properties_kept_iff hpr,KeepsApart]

theorem children_hold_iff {children : List Node} {es : List Json}
    (h : List.Forall₂ (fun n e => nodeExpression n = .ok e) children es)
    (ih : ∀ n ∈ children, ∀ {e}, nodeExpression n = .ok e →
      (HoldsNode n e ↔ ∀ f ∈ n.factors, KeepsApart f)) :
    HoldsNodes children es ↔ ∀ n ∈ children, ∀ f ∈ n.factors, KeepsApart f := by
  induction h with
  | nil => simp [HoldsNodes]
  | @cons n e ns es hn _ ih' =>
    rw [HoldsNodes,List.forall_mem_cons]
    refine and_congr (ih n List.mem_cons_self hn) (ih' ?_)
    intro k hk
    exact ih k (List.mem_cons_of_mem n hk)

theorem node_holds_iff {n : Node} {e e' : Json} (h : nodeExpression n = .ok e)
    (hsame : ∀ name, name ≠ js "essential" → e'.member? name = e.member? name) :
    HoldsNode n e' ↔ ∀ f ∈ n.factors, KeepsApart f := by
  induction n using Node.induction generalizing e e' with
  | factor f =>
    rw [HoldsNode,factor_holds_iff h hsame]
    simp [Node.factors]
  | group operator children ih =>
    obtain ⟨-,es,hes,rfl⟩ := nodeExpression_group.mp h
    have hop : e'.member? operator.name = some (.arr es) := by
      rw [hsame _ (by cases operator <;> decide),Json.member?,List.lookup_cons,beq_self_eq_true]
    have hchildren := children_hold_iff hes fun n hn {e} he => ih n hn he fun _ _ => rfl
    rw [HoldsNode,hop,Node.factors]
    simp only [Option.some.injEq,Json.arr.injEq,exists_eq_left',hchildren,mem_factorsOf]
    constructor
    · rintro hall f ⟨n,hn,hf⟩
      exact hall n hn f hf
    · intro hall n hn f hf
      exact hall f ⟨n,hn,hf⟩

/-- The emitted claims hold every row exactly when the names of each factor keep apart. -/
theorem rows_emitted_iff (p : Page) (claims : Json) (h : buildClaims p = .ok claims) :
    HoldsPage p claims ↔
      selectedDeliveries p = [] ∨ ∀ f ∈ factorsOf p.expressionRoot, KeepsApart f := by
  obtain ⟨ds,hds,hc⟩ := bind_eq_ok.mp h
  rw [pure_eq_ok] at hc
  subst hc
  have hdetails : (p.expressionRoot ≠ [] → HoldsNode (rootNode p) (detailsValue ds)) ↔
      ∀ f ∈ factorsOf p.expressionRoot, KeepsApart f := by
    by_cases hroot : p.expressionRoot = []
    · simp [hroot,factorsOf]
    · obtain ⟨e,he,hvalue,-,hsame,-⟩ := details_members hroot hds
      rw [← factors_rootNode,hvalue,← node_holds_iff he hsame]
      exact ⟨fun hn => hn hroot,fun hn _ => hn⟩
  constructor
  · intro hall
    by_cases hnil : selectedDeliveries p = []
    · exact Or.inl hnil
    · obtain ⟨l,hl⟩ := List.exists_mem_of_ne_nil _ hnil
      obtain ⟨v,hv,hn⟩ := hall l hl
      rw [requestedDetails_claimsObject,if_pos hl] at hv
      cases hv
      exact Or.inr (hdetails.mp hn)
  · rintro hor l hl
    rcases hor with hnil | hk
    · rw [hnil] at hl
      cases hl
    · exact ⟨_,by rw [requestedDetails_claimsObject,if_pos hl],hdetails.mpr hk⟩

def valueRow (name value : Text) : Row :=
  ⟨.assign name,.value,.assign value,.assign [],.assign [],false⟩

/-- One factor with two property rows. -/
def twoRowPage (name name' : Text) : Page :=
  { editorPage [] with
    claimEssential := false
    delivery := fun l => l == .userinfo
    expressionRoot := [.factor ⟨.assign (js "otp"),false,false,.assign [],
      [valueRow name (js "true"),valueRow name' (js "false")],[]⟩] }

def twoRowClaims (properties : List (Text × Json)) : Json :=
  .obj [(js "userinfo",.obj [(js "amr_details",.obj [
    (js "amr_identifier",.obj [(js "value",.str (js "otp"))]),
    (js "amr_properties",.obj properties)])])]

/-- Two rows of one name become one member, and the first value is gone. -/
theorem equal_rows_collapse :
    ∃ claims, buildClaims (twoRowPage (js "otp_digits") (js "otp_digits ")) = .ok claims ∧
      ¬ HoldsPage (twoRowPage (js "otp_digits") (js "otp_digits ")) claims := by
  refine ⟨twoRowClaims [(js "otp_digits",.obj [(js "value",.bool false)])],
    ok_of_toOption (by decide +kernel),?_⟩
  intro hall
  obtain ⟨v,hv,hn⟩ := hall .userinfo (by decide)
  cases hv
  obtain ⟨-,ms,hms,hperm⟩ := hn (List.cons_ne_nil _ _)
  have hlen := hms.length_eq.trans hperm.length_eq.symm
  revert hlen
  decide +kernel

theorem rows_emitted_apart :
    ∃ claims, buildClaims (twoRowPage (js "otp_digits") (js "otp_period")) = .ok claims ∧
      HoldsPage (twoRowPage (js "otp_digits") (js "otp_period")) claims := by
  have hbuild : buildClaims (twoRowPage (js "otp_digits") (js "otp_period")) =
      .ok (twoRowClaims [(js "otp_digits",.obj [(js "value",.bool true)]),
        (js "otp_period",.obj [(js "value",.bool false)])]) := ok_of_toOption (by decide +kernel)
  refine ⟨_,hbuild,(rows_emitted_iff _ _ hbuild).mpr (Or.inr ?_)⟩
  intro f hf
  rw [List.mem_singleton.mp hf]
  exact ⟨⟨by decide,by decide⟩,⟨by decide,by decide⟩⟩

end Oidc4acLab.Builder
