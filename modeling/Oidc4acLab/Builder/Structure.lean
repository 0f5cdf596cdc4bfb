import Oidc4acLab.Builder.Reload

/-! # The logical structure of a request through the builder

The logical structure of an expression is its operators, its operands in order and its
method identifiers, read off any JSON value. Loading and building keeps it exactly for
the requests that the builder can express.
-/
namespace Oidc4acLab.Builder
open Text Fallible

inductive Logic
  | missing
  | malformed
  | identifier (value : Json)
  | operands (children : List Logic)
  | node (allOf oneOf method : Logic)

/-- The structure under `amr_identifier`. -/
def methodLogic (v : Option Json) : Logic :=
  match v with
  | none => .missing
  | some m =>
    match m.member? (js "value") with
    | some v => .identifier v
    | none => .malformed

mutual

def logic : Json → Logic
  | .obj ms =>
    .node (operandLogic (js "all_of") ms) (operandLogic (js "one_of") ms)
      (methodLogic (ms.lookup (js "amr_identifier")))
  | _ => .malformed

def operandLogic (name : Text) : List (Text × Json) → Logic
  | [] => .missing
  | (n,v) :: ms =>
    if n = name then
      match v with
      | .arr items => .operands (logics items)
      | _ => .malformed
    else operandLogic name ms

def logics : List Json → List Logic
  | [] => []
  | e :: es => logic e :: logics es

end

/-- Null requests no expression, as does an object without the members of one. -/
def requestLogic : Json → Logic
  | .null => .node .missing .missing .missing
  | details => logic details

def operatorLogic (v : Option Json) : Logic :=
  match v with
  | none => .missing
  | some (.arr items) => .operands (items.map logic)
  | some _ => .malformed

theorem logics_eq_map (es : List Json) : logics es = es.map logic := by
  induction es with
  | nil => rfl
  | cons e es ih => rw [logics,List.map_cons,ih]

theorem operandLogic_eq (name : Text) (ms : List (Text × Json)) :
    operandLogic name ms = operatorLogic (ms.lookup name) := by
  induction ms with
  | nil => rfl
  | cons m ms ih =>
    obtain ⟨n,v⟩ := m
    rw [List.lookup_cons]
    by_cases h : n = name
    · subst h
      rw [beq_self_eq_true]
      cases v <;> simp [operandLogic,operatorLogic,logics_eq_map]
    · rw [beq_eq_false_iff_ne.mpr (Ne.symm h)]
      cases v <;> simpa [operandLogic,h] using ih

theorem logic_obj (ms : List (Text × Json)) :
    logic (.obj ms) = .node (operatorLogic (ms.lookup (js "all_of")))
      (operatorLogic (ms.lookup (js "one_of"))) (methodLogic (ms.lookup (js "amr_identifier"))) := by
  rw [logic,operandLogic_eq,operandLogic_eq]

@[simp] theorem operatorLogic_eq_missing {v : Option Json} :
    operatorLogic v = .missing ↔ v = none := by
  cases v with
  | none => simp [operatorLogic]
  | some v => cases v <;> simp [operatorLogic]

@[simp] theorem methodLogic_eq_missing {v : Option Json} : methodLogic v = .missing ↔ v = none := by
  cases v with
  | none => simp [methodLogic]
  | some v =>
    simp only [methodLogic]
    split <;> simp

/-- Each expression has one of `all_of`, `one_of` and `amr_identifier`, the operands are a
nonempty array of expressions, and the identifier is plain text. -/
inductive Expressible : Json → Prop
  | group (operator : Operator) {e : Json} {items : List Json} :
      e.member? operator.name = some (.arr items) → items ≠ [] →
      (∀ x ∈ items, Expressible x) → e.member? operator.other.name = none →
      e.member? (js "amr_identifier") = none → Expressible e
  | factor {e : Json} {s : Text} :
      e.member? (js "all_of") = none → e.member? (js "one_of") = none →
      identifierValue e = some (.str s) → Plain s → Expressible e

theorem expressible_group {e : Json} {operator : Operator} {items : List Json}
    (h : operands e = some (operator,items)) :
    Expressible e ↔ items ≠ [] ∧ (∀ x ∈ items, Expressible x) ∧
      e.member? operator.other.name = none ∧ e.member? (js "amr_identifier") = none := by
  constructor
  · intro he
    cases he with
    | group operator' hm hne hitems ho hi =>
      have heq := h.symm.trans (operands_of_member hm ho)
      cases heq
      exact ⟨hne,hitems,ho,hi⟩
    | factor ha hb =>
      rw [operands,ha,hb] at h
      simp at h
  · rintro ⟨hne,hitems,ho,hi⟩
    exact .group operator (member_of_operands h) hne hitems ho hi

theorem expressible_factor {e : Json} (h : operands e = none) :
    Expressible e ↔ e.member? (js "all_of") = none ∧ e.member? (js "one_of") = none ∧
      ∃ s, identifierValue e = some (.str s) ∧ Plain s := by
  constructor
  · intro he
    cases he with
    | group operator hm hne hitems ho hi =>
      rw [operands_of_member hm ho] at h
      simp at h
    | @factor _ s ha hb hv hs => exact ⟨ha,hb,s,hv,hs⟩
  · rintro ⟨ha,hb,s,hv,hs⟩
    exact .factor ha hb hv hs

theorem logic_group (operator : Operator) (es : List Json) :
    logic (.obj [(operator.name,.arr es)]) =
      match operator with
      | .allOf => .node (.operands (es.map logic)) .missing .missing
      | .oneOf => .node .missing (.operands (es.map logic)) .missing := by
  cases operator <;> exact logic_obj _

/-- A group keeps its structure when nothing stands beside it and the operands keep theirs. -/
theorem logic_group_eq_iff {e : Json} {operator : Operator} {items es : List Json}
    (h : operands e = some (operator,items)) :
    logic (.obj [(operator.name,.arr es)]) = logic e ↔ es.map logic = items.map logic ∧
      e.member? operator.other.name = none ∧ e.member? (js "amr_identifier") = none := by
  have hm := member_of_operands h
  cases e with
  | obj ms =>
    rw [logic_group,logic_obj]
    cases operator with
    | allOf =>
      have hall : ms.lookup (js "all_of") = some (.arr items) := hm
      simp only [hall,operatorLogic,Logic.node.injEq,Logic.operands.injEq]
      refine and_congr_right fun _ => and_congr ?_ ?_
      · exact eq_comm.trans operatorLogic_eq_missing
      · exact eq_comm.trans methodLogic_eq_missing
    | oneOf =>
      have hone : ms.lookup (js "one_of") = some (.arr items) := hm
      have hall : Logic.missing = operatorLogic (ms.lookup (js "all_of")) ↔
          (Json.obj ms).member? (js "all_of") = none := eq_comm.trans operatorLogic_eq_missing
      have hid : Logic.missing = methodLogic (ms.lookup (js "amr_identifier")) ↔
          (Json.obj ms).member? (js "amr_identifier") = none := eq_comm.trans methodLogic_eq_missing
      simp only [hone,Logic.node.injEq,hall,hid]
      rw [operatorLogic,Logic.operands.injEq]
      exact and_left_comm
  | _ => simp [Json.member?] at hm

theorem methodLogic_of_identifier {e v : Json} (h : identifierValue e = some v) :
    methodLogic (e.member? (js "amr_identifier")) = .identifier v := by
  obtain ⟨m,hm,hv⟩ := Option.bind_eq_some_iff.mp h
  rw [hm,methodLogic,hv]

theorem RebuiltFactor.identifier {d : Discovery} {e e' : Json} (h : RebuiltFactor d e e') :
    ∃ v t md pr, identifierValue e = some v ∧ textOr (some v) (defaultIdentifier d) = .ok t ∧
      trim (TextInput.assign t).value ≠ [] ∧
      e' = .obj (factorMembers (trim (TextInput.assign t).value) md pr) := by
  obtain ⟨m,hm,f,hf,he⟩ := h
  rw [factorModel,ite_eq_ok] at hm
  obtain ⟨hsome,hm⟩ := hm
  obtain ⟨v,hv⟩ := Option.ne_none_iff_exists'.mp (by simpa using hsome)
  have hid : m.identifier = some v := by
    simp only [bind_eq_ok,pure_eq_ok] at hm
    obtain ⟨_,-,_,-,rfl⟩ := hm
    exact hv
  rw [factorControls,bind_eq_ok,hid] at hf
  obtain ⟨t,ht,hf⟩ := hf
  have hfid : f.id = TextInput.assign t := by
    simp only [bind_eq_ok,pure_eq_ok] at hf
    obtain ⟨_,-,_,-,_,-,rfl⟩ := hf
    rfl
  obtain ⟨hne,_,-,md,-,pr,-,rfl⟩ := factorExpression_eq.mp he
  rw [hfid] at hne ⊢
  exact ⟨v,t,md.members,pr.members,hv,ht,hne,rfl⟩

theorem textOr_trim_eq_iff {v : Json} {fallback t : Text} (ht : textOr (some v) fallback = .ok t)
    (hne : trim (TextInput.assign t).value ≠ []) :
    Json.str (trim (TextInput.assign t).value) = v ↔ ∃ s, v = .str s ∧ Plain s := by
  cases v with
  | str s =>
    cases ht
    simp only [Json.str.injEq,exists_eq_left']
    exact trim_assign_eq_iff hne
  | _ => simp

theorem logic_factor_eq_iff {d : Discovery} {e e' : Json} (h : RebuiltFactor d e e') :
    logic e' = logic e ↔ e.member? (js "all_of") = none ∧ e.member? (js "one_of") = none ∧
      ∃ s, identifierValue e = some (.str s) ∧ Plain s := by
  obtain ⟨v,t,md,pr,hv,ht,hne,rfl⟩ := h.identifier
  have hnew : logic (.obj (factorMembers (trim (TextInput.assign t).value) md pr)) =
      .node .missing .missing (.identifier (.str (trim (TextInput.assign t).value))) := by
    rw [logic_obj,lookup_factorMembers_other _ _ _ (by decide),
      lookup_factorMembers_other _ _ _ (by decide),lookup_factorMembers,if_pos rfl]
    rfl
  cases e with
  | obj ms =>
    have hid := methodLogic_of_identifier hv
    rw [Json.member?] at hid
    rw [hnew,logic_obj,hid,Logic.node.injEq,Logic.identifier.injEq,textOr_trim_eq_iff ht hne,hv]
    simp only [Option.some.injEq]
    refine and_congr ?_ (and_congr ?_ Iff.rfl)
    · exact eq_comm.trans operatorLogic_eq_missing
    · exact eq_comm.trans operatorLogic_eq_missing
  | _ => simp [identifierValue,Json.member?] at hv

theorem logics_eq_iff {R : Json → Json → Prop} {items es : List Json}
    (h : List.Forall₂ R items es)
    (ih : ∀ x ∈ items, ∀ x', R x x' → (logic x' = logic x ↔ Expressible x)) :
    es.map logic = items.map logic ↔ ∀ x ∈ items, Expressible x := by
  induction h with
  | nil => simp
  | @cons x x' items es hx _ ih' =>
    rw [List.map_cons,List.map_cons,List.cons.injEq,List.forall_mem_cons]
    refine and_congr (ih x List.mem_cons_self x' hx) (ih' ?_)
    intro y hy
    exact ih y (List.mem_cons_of_mem x hy)

theorem expression_induction {motive : Json → Prop}
    (step : ∀ e, (∀ operator items, operands e = some (operator,items) → ∀ x ∈ items, motive x) →
      motive e) (e : Json) : motive e := by
  have hboth : motive e ∧ ∀ items, e = .arr items → ∀ x ∈ items, motive x := by
    induction e using Json.induction with
    | arr items ih =>
      refine ⟨step _ (by simp [operands,Json.member?]),?_⟩
      intro items' heq x hx
      cases heq
      exact (ih x hx).1
    | obj ms ih =>
      refine ⟨step _ ?_,by simp⟩
      intro operator items h x hx
      have hm := ih (operator.name,.arr items) (Collections.mem_of_lookup (member_of_operands h))
      exact hm.2 items rfl x hx
    | _ => exact ⟨step _ (by simp [operands,Json.member?]),by simp⟩
  exact hboth.1

theorem logic_rebuilt_iff {d : Discovery} {e e' : Json} (h : Rebuilt d e e') :
    logic e' = logic e ↔ Expressible e := by
  induction e using expression_induction generalizing e' with
  | step e ih =>
    cases hop : operands e with
    | none => exact (logic_factor_eq_iff ((rebuilt_factor hop).mp h)).trans (expressible_factor hop).symm
    | some o =>
      obtain ⟨operator,items⟩ := o
      rw [expressible_group hop]
      by_cases hne : items = []
      · subst hne
        obtain ⟨x,rfl⟩ := rebuilt_empty hop h
        rw [logic_group_eq_iff hop]
        simp
      · obtain ⟨es,hes,rfl⟩ := (rebuilt_group hop hne).mp h
        rw [logic_group_eq_iff hop,logics_eq_iff hes fun x hx x' hx' => ih operator items hop x hx hx']
        simp [hne]

/-- What the builder can express: nothing, or one expression. -/
def ExpressibleRequest (details : Json) : Prop :=
  details = .null ∨ (∃ ms, details = .obj ms ∧ isExpression details = false) ∨ Expressible details

theorem requestLogic_detailsValue (ds : List (Text × Json)) :
    requestLogic (detailsValue ds) = logic (.obj ds) := by
  rw [detailsValue]
  split_ifs with h
  · rw [h]
    rfl
  · rfl

theorem logic_assign {ms : List (Text × Json)} (b : Bool) (h : (Object.names ms).Nodup) :
    logic (.obj (assign (essentialMember b) (.obj ms))) = logic (.obj ms) := by
  have hother : ∀ name, name ≠ js "essential" →
      (assign (essentialMember b) (.obj ms)).lookup name = ms.lookup name := by
    intro name hn
    have hnone : (essentialMember b).lookup name = none := by
      cases b
      · rfl
      · simp [essentialMember,hn]
    rw [lookup_assign _ h,hnone,Option.or_none]
  rw [logic_obj,logic_obj,hother _ (by decide),hother _ (by decide),hother _ (by decide)]

theorem isExpression_iff {details : Json} : isExpression details = false ↔
    details.member? (js "all_of") = none ∧ details.member? (js "one_of") = none ∧
      details.member? (js "amr_identifier") = none := by
  simp [isExpression,Json.own,and_assoc]

theorem requestLogic_reloaded_iff {d : Discovery} {details : Json} {ds : List (Text × Json)}
    (h : Reloaded d details ds) :
    requestLogic (detailsValue ds) = requestLogic details ↔ ExpressibleRequest details := by
  rw [Reloaded] at h
  rw [requestLogic_detailsValue]
  cases details with
  | obj ms =>
    rw [if_pos (show (Json.obj ms).isObject = true from rfl)] at h
    dsimp only at h
    by_cases hx : isExpression (.obj ms) = true
    · rw [if_pos hx] at h
      obtain ⟨e',he,rfl⟩ := h
      obtain ⟨ms',rfl,hnodup,-⟩ := he.members
      rw [logic_assign _ hnodup]
      refine (logic_rebuilt_iff he).trans ?_
      simp [ExpressibleRequest,hx]
    · rw [if_neg hx] at h
      have hnone := isExpression_iff.mp (Bool.not_eq_true _ ▸ hx)
      rw [Json.member?,Json.member?,Json.member?] at hnone
      have hold : requestLogic (.obj ms) = .node .missing .missing .missing := by
        rw [requestLogic,logic_obj,hnone.1,hnone.2.1,hnone.2.2]
        · rfl
        · simp
      have hnew : logic (.obj (essentialMember (truthy ((Json.obj ms).member? (js "essential"))))) =
          .node .missing .missing .missing := by
        cases truthy ((Json.obj ms).member? (js "essential")) <;> rfl
      rw [h,hnew,hold]
      refine iff_of_true rfl (Or.inr (Or.inl ⟨ms,rfl,?_⟩))
      simpa using hx
  | arr items =>
    have hds : logic (.obj ds) ≠ requestLogic (.arr items) := by
      rw [logic_obj]
      simp [requestLogic,logic]
    refine iff_of_false hds ?_
    rintro (hc | ⟨ms,hc,-⟩ | hc)
    · cases hc
    · cases hc
    · cases hc with
      | group operator hm => simp [Json.member?] at hm
      | factor _ _ hv => simp [identifierValue,Json.member?] at hv
  | null =>
    rw [if_neg (by simp [Json.isObject])] at h
    rw [h.2]
    exact iff_of_true rfl (Or.inl rfl)
  | _ =>
    rw [if_neg (by simp [Json.isObject])] at h
    simp at h

/-- The value of `amr_details` that `loadJson` loads. -/
def loadedDetails (text : Text) : Option Json := do
  let claims ← Json.parse text
  let l ← (locations claims).head?
  requestedDetails claims l

/-- The claims request expressions of the same structure as the text, at every location. -/
def KeepsStructure (text : Text) (claims' : Json) : Prop :=
  ∃ details, loadedDetails text = some details ∧ locations claims' ≠ [] ∧
    ∀ l details', requestedDetails claims' l = some details' →
      requestLogic details' = requestLogic details

theorem loadedDetails_eq {text : Text} {claims details : Json} {l : Location} {ls : List Location}
    (hparse : Json.parse text = some claims) (hls : locations claims = l :: ls)
    (hd : requestedDetails claims l = some details) : loadedDetails text = some details := by
  simp [loadedDetails,hparse,hls,hd]

/-- The rebuilt request has the logical structure of the loaded one exactly when the builder can
express the loaded one. -/
theorem structure_kept_iff (d : Discovery) (p p' : Page) (claims' : Json)
    (hload : loadJson d p = (p',none)) (hbuild : buildClaims p' = .ok claims') :
    KeepsStructure p.claimsJson claims' ↔
      ∃ details, loadedDetails p.claimsJson = some details ∧ ExpressibleRequest details := by
  obtain ⟨claims,l,ls,details,ds,hparse,hls,hdetails,hds,rfl⟩ :=
    load_build_iff.mp ⟨p',hload,hbuild⟩
  have hloaded := loadedDetails_eq hparse hls hdetails
  have hiff := requestLogic_reloaded_iff hds
  simp only [KeepsStructure,hloaded,Option.some.injEq,exists_eq_left']
  constructor
  · rintro ⟨-,hkeep⟩
    refine hiff.mp (hkeep l _ ?_)
    rw [requestedDetails_claimsObject,if_pos List.mem_cons_self]
  · intro he
    constructor
    · have hmem : l ∈ locations (claimsObject (l :: ls) (detailsValue ds)) := by
        rw [mem_locations,requestedDetails_claimsObject,if_pos List.mem_cons_self]
        rfl
      exact List.ne_nil_of_mem hmem
    · intro k details' hk
      rw [requestedDetails_claimsObject] at hk
      split_ifs at hk
      cases hk
      exact hiff.mpr he

/-- `{"id_token":{"amr_details":{"all_of":[]}}}` -/
def emptyGroup : Text := js "\x7b\"id_token\":\x7b\"amr_details\":\x7b\"all_of\":[]\x7d\x7d\x7d"

def passwordFactor : Json :=
  .obj [(js "amr_identifier",.obj [(js "value",.str (js "pwd"))]),
    (js "amr_metadata",.obj [(js "time",.null)])]

/-- An `all_of` without operands gains a password factor. -/
theorem empty_group_gains_factor :
    ∃ p' claims', loadJson noDiscovery (editorPage emptyGroup) = (p',none) ∧
      buildClaims p' = .ok claims' ∧ ¬ KeepsStructure emptyGroup claims' := by
  have htext : emptyGroup = _ := js_eq rfl
  have hreload : (reload noDiscovery (editorPage emptyGroup)).toOption =
      some (claimsObject [.idToken] (.obj [(js "all_of",.arr [passwordFactor])])) := by
    rw [htext]
    decide +kernel
  obtain ⟨p',hload,hbuild⟩ := reload_eq_ok.mp (ok_of_toOption hreload)
  refine ⟨p',_,hload,hbuild,?_⟩
  rintro ⟨details,hd,-,hkeep⟩
  have hd' : loadedDetails emptyGroup = some (.obj [(js "all_of",.arr [])]) := by
    rw [htext]
    decide +kernel
  cases hd.symm.trans hd'
  have hlogic := hkeep .idToken (.obj [(js "all_of",.arr [passwordFactor])]) (by decide +kernel)
  simp [requestLogic,logic,operandLogic,logics] at hlogic

/-- `{"id_token":{"amr_details":{"one_of":[{"amr_identifier":{"value":"pwd"}}]}}}` -/
def passwordGroup : Text :=
  js "\x7b\"id_token\":\x7b\"amr_details\":\x7b\"one_of\":[\x7b\"amr_identifier\":\x7b\"value\":\"pwd\"\x7d\x7d]\x7d\x7d\x7d"

theorem structure_kept_password :
    ∃ p' claims', loadJson noDiscovery (editorPage passwordGroup) = (p',none) ∧
      buildClaims p' = .ok claims' ∧ KeepsStructure passwordGroup claims' := by
  have hpwd : Plain (js "pwd") := ⟨by decide,by decide,by decide⟩
  have htext : passwordGroup = _ := js_eq rfl
  have hreload : (reload noDiscovery (editorPage passwordGroup)).toOption =
      some (claimsObject [.idToken] (.obj [(js "one_of",.arr
        [.obj [(js "amr_identifier",.obj [(js "value",.str (js "pwd"))])]])])) := by
    rw [htext]
    decide +kernel
  obtain ⟨p',hload,hbuild⟩ := reload_eq_ok.mp (ok_of_toOption hreload)
  refine ⟨p',_,hload,hbuild,?_⟩
  refine (structure_kept_iff noDiscovery (editorPage passwordGroup) p' _ hload hbuild).mpr ?_
  refine ⟨.obj [(js "one_of",.arr [.obj [(js "amr_identifier",.obj [(js "value",.str (js "pwd"))])]])],
    by rw [htext]; decide +kernel,Or.inr (Or.inr ?_)⟩
  refine .group .oneOf rfl (List.cons_ne_nil _ _) ?_ rfl rfl
  intro x hx
  rw [List.mem_singleton.mp hx]
  exact .factor rfl rfl rfl hpwd

end Oidc4acLab.Builder
