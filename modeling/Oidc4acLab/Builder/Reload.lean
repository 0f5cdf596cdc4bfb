import Oidc4acLab.Builder.Loader
import Oidc4acLab.Fallible.Success

/-! # Loading an expression and building it again

Where nothing throws, each of the three recursions treats one node at a time. Their
composition is the relation `Rebuilt` between an expression in the editor and the one
that is built from its controls.
-/
namespace Oidc4acLab.Builder
open Text Fallible

/-- Text that a one-line input keeps and that trimming keeps. -/
structure Plain (t : Text) : Prop where
  trimmed : trim t = t
  nonblank : t ≠ []
  singleLine : ∀ c ∈ t, isNewline c = false

theorem assign_value {t : Text} (h : ∀ c ∈ t, isNewline c = false) : (TextInput.assign t).value = t :=
  List.filter_eq_self.mpr fun c hc => by simp [h c hc]

theorem trim_assign_eq_iff {t : Text} (hne : trim (TextInput.assign t).value ≠ []) :
    trim (TextInput.assign t).value = t ↔ Plain t := by
  constructor
  · intro h
    have hline : ∀ c ∈ t, isNewline c = false := by
      intro c hc
      rw [← h] at hc
      exact (TextInput.assign t).singleLine c (mem_of_mem_trim hc)
    rw [assign_value hline] at h hne
    exact ⟨h,fun h0 => hne (by rw [h0]; rfl),hline⟩
  · intro h
    rw [assign_value h.singleLine]
    exact h.trimmed

theorem nodeExpressions_eq_mapM (ns : List Node) : nodeExpressions ns = ns.mapM nodeExpression := by
  induction ns with
  | nil => rfl
  | cons n ns ih => rw [nodeExpressions,List.mapM_cons,ih]

theorem nodeExpression_group {operator : Operator} {children : List Node} {e : Json} :
    nodeExpression (.group operator children) = .ok e ↔
      children ≠ [] ∧ ∃ es, List.Forall₂ (fun n e => nodeExpression n = .ok e) children es ∧
        e = .obj [(operator.name,.arr es)] := by
  rw [nodeExpression,ite_eq_ok,bind_eq_ok,List.isEmpty_iff]
  refine and_congr_right fun _ => exists_congr fun es => ?_
  rw [nodeExpressions_eq_mapM,mapM_eq_ok,pure_eq_ok]
  exact and_congr_right fun _ => eq_comm

theorem lookup_essentialMember_append (b : Bool) (ms : List (Text × Json)) {name : Text}
    (h : name ≠ js "essential") : (essentialMember b ++ ms).lookup name = ms.lookup name := by
  cases b
  · rfl
  · rw [essentialMember,if_pos rfl,List.singleton_append,List.lookup_cons,
      beq_eq_false_iff_ne.mpr h]

theorem lookup_objectMember (name : Text) (ms : List (Text × Json)) (name' : Text) :
    (objectMember name ms).lookup name' =
      if name' = name ∧ ms ≠ [] then some (.obj ms) else none := by
  rw [objectMember]
  by_cases hms : ms = []
  · simp [hms]
  · rw [if_neg hms,List.lookup_cons]
    by_cases hn : name' = name
    · simp [hn,hms]
    · simp [hn,beq_eq_false_iff_ne.mpr hn]

theorem lookup_factorMembers (identifier : Text) (md pr : List (Text × Json)) (name : Text) :
    (factorMembers identifier md pr).lookup name =
      if name = js "amr_identifier" then some (.obj [(js "value",.str identifier)])
      else if name = js "amr_metadata" ∧ md ≠ [] then some (.obj md)
      else if name = js "amr_properties" ∧ pr ≠ [] then some (.obj pr) else none := by
  rw [factorMembers,List.lookup_cons,List.lookup_append,lookup_objectMember,lookup_objectMember]
  by_cases hid : name = js "amr_identifier"
  · simp [hid]
  · rw [beq_eq_false_iff_ne.mpr hid,if_neg hid]
    by_cases hmd : name = js "amr_metadata" ∧ md ≠ []
    · simp [hmd]
    · simp [hmd]

theorem lookup_factorMembers_other {name : Text} (identifier : Text) (md pr : List (Text × Json))
    (h : name ∉ [js "amr_identifier",js "amr_metadata",js "amr_properties"]) :
    (factorMembers identifier md pr).lookup name = none := by
  simp only [List.mem_cons,List.not_mem_nil,or_false,not_or] at h
  rw [lookup_factorMembers,if_neg h.1,if_neg fun hn => h.2.1 hn.1,if_neg fun hn => h.2.2 hn.1]

theorem lookup_factorMembers_metadata (identifier : Text) (md pr : List (Text × Json)) :
    (factorMembers identifier md pr).lookup (js "amr_metadata") =
      if md = [] then none else some (.obj md) := by
  have h1 : js "amr_metadata" ≠ js "amr_identifier" := by decide
  have h2 : js "amr_metadata" ≠ js "amr_properties" := by decide
  rw [lookup_factorMembers,if_neg h1,if_neg (c := _ ∧ pr ≠ []) fun h => h2 h.1]
  by_cases h : md = []
  · simp [h]
  · simp [h]

theorem lookup_factorMembers_properties (identifier : Text) (md pr : List (Text × Json)) :
    (factorMembers identifier md pr).lookup (js "amr_properties") =
      if pr = [] then none else some (.obj pr) := by
  have h1 : js "amr_properties" ≠ js "amr_identifier" := by decide
  have h2 : js "amr_properties" ≠ js "amr_metadata" := by decide
  rw [lookup_factorMembers,if_neg h1,if_neg fun h => h2 h.1]
  by_cases h : pr = []
  · simp [h]
  · simp [h]

theorem nodup_factorMembers (identifier : Text) (md pr : List (Text × Json)) :
    (Object.names (factorMembers identifier md pr)).Nodup := by
  rw [factorMembers,objectMember,objectMember]
  split_ifs
  all_goals
    simp only [Object.names,List.map_cons,List.map_nil,List.cons_append,List.nil_append]
    decide

theorem lookup_assign (target : List (Text × Json)) {ms : List (Text × Json)}
    (h : (Object.names ms).Nodup) (name : Text) :
    (assign target (.obj ms)).lookup name = (ms.lookup name).or (target.lookup name) := by
  rw [assign,Json.entries]
  induction ms generalizing target with
  | nil => simp
  | cons m ms ih =>
    simp only [Object.names,List.map_cons,List.nodup_cons] at h
    rw [List.foldl_cons,ih _ h.2,Object.lookup_set,List.lookup_cons]
    by_cases hn : name = m.1
    · have hnone : ms.lookup name = none := by
        rw [← Option.not_isSome_iff_eq_none,Object.lookup_isSome_iff,hn]
        exact h.1
      simp [hn,hn ▸ hnone]
    · simp [hn,beq_eq_false_iff_ne.mpr hn]

/-- What `factorExpression` puts together. -/
theorem factorExpression_eq {f : Factor} {e : Json} :
    factorExpression f = .ok e ↔
      trim f.id.value ≠ [] ∧ ∃ time, timeRequest f = .ok time ∧
        ∃ metadata, f.metadata.foldlM (putRow checkMetadataName)
          ⟨time.elim [] fun t => [(js "time",t)],true⟩ = .ok metadata ∧
        ∃ properties, f.properties.foldlM (putRow checkPropertyName) ⟨[],true⟩ = .ok properties ∧
        e = .obj (factorMembers (trim f.id.value) metadata.members properties.members) := by
  rw [factorExpression]
  simp only [ite_eq_ok,bind_eq_ok,pure_eq_ok]
  refine and_congr_right fun _ => exists_congr fun time => and_congr_right fun _ =>
    exists_congr fun metadata => and_congr_right fun _ => exists_congr fun properties =>
    and_congr_right fun _ => eq_comm

/-- The operator and the operands that `expressionModel` sees in an expression. -/
def operands (e : Json) : Option (Operator × List Json) :=
  match e.member? (js "all_of"), e.member? (js "one_of") with
  | some (.arr items), _ => some (.allOf,items)
  | _, some (.arr items) => some (.oneOf,items)
  | _, _ => none

def Operator.other : Operator → Operator
  | .allOf => .oneOf
  | .oneOf => .allOf

theorem operands_of_member {e : Json} {operator : Operator} {items : List Json}
    (h : e.member? operator.name = some (.arr items)) (ho : e.member? operator.other.name = none) :
    operands e = some (operator,items) := by
  cases operator with
  | allOf =>
    have h1 : e.member? (js "all_of") = some (.arr items) := h
    rw [operands,h1]
  | oneOf =>
    have h1 : e.member? (js "one_of") = some (.arr items) := h
    have h2 : e.member? (js "all_of") = none := ho
    rw [operands,h1,h2]

theorem member_of_operands {e : Json} {operator : Operator} {items : List Json}
    (h : operands e = some (operator,items)) : e.member? operator.name = some (.arr items) := by
  rw [operands] at h
  split at h
  · cases h
    assumption
  · cases h
    assumption
  · simp at h

theorem expressionModels_eq_mapM (es : List Json) : expressionModels es = es.mapM expressionModel := by
  induction es with
  | nil => rfl
  | cons e es ih => rw [expressionModels,List.mapM_cons,ih]

theorem operandModels_eq (name : Text) (ms : List (Text × Json)) :
    operandModels name ms =
      match ms.lookup name with
      | some (.arr items) => some (items.mapM expressionModel)
      | _ => none := by
  induction ms with
  | nil => rfl
  | cons m ms ih =>
    obtain ⟨n,v⟩ := m
    rw [List.lookup_cons]
    by_cases h : n = name
    · subst h
      rw [beq_self_eq_true]
      cases v <;> simp [operandModels,expressionModels_eq_mapM]
    · rw [beq_eq_false_iff_ne.mpr (Ne.symm h)]
      cases v <;> simpa [operandModels,h] using ih

theorem expressionModel_eq (e : Json) :
    expressionModel e =
      match operands e with
      | some (operator,items) => (items.mapM expressionModel).map (.group operator)
      | none => (factorModel e).map .factor := by
  cases e with
  | obj ms =>
    rw [expressionModel,operandModels_eq,operandModels_eq,operands,Json.member?,Json.member?]
    rcases ms.lookup (js "all_of") with _ | v
    · rcases ms.lookup (js "one_of") with _ | w
      · rfl
      · cases w <;> rfl
    · cases v <;> rcases ms.lookup (js "one_of") with _ | w <;> try rfl
      all_goals cases w <;> rfl
  | _ => rfl

@[elab_as_elim]
theorem Model.induction {motive : Model → Prop} (factor : ∀ m, motive (.factor m))
    (group : ∀ operator children, (∀ m ∈ children, motive m) → motive (.group operator children))
    (m : Model) : motive m := by
  refine @Model.rec motive (fun ms => ∀ m ∈ ms, motive m) factor group ?_ ?_ m
  · simp
  · intro m ms hm hms n hn
    rcases List.mem_cons.mp hn with rfl | hn
    · exact hm
    · exact hms n hn

@[elab_as_elim]
theorem Node.induction {motive : Node → Prop} (factor : ∀ f, motive (.factor f))
    (group : ∀ operator children, (∀ n ∈ children, motive n) → motive (.group operator children))
    (n : Node) : motive n := by
  refine @Node.rec motive (fun ns => ∀ n ∈ ns, motive n) factor group ?_ ?_ n
  · simp
  · intro n ns hn hns k hk
    rcases List.mem_cons.mp hk with rfl | hk
    · exact hn
    · exact hns k hk

mutual

/-- The node that `appendNode` appends when it does not throw. -/
def addedNode (d : Discovery) : Model → Except Thrown Node
  | .factor m => (factorControls d m).map .factor
  | .group operator children =>
    if children.isEmpty then (factorControls d {}).map fun f => .group operator [.factor f]
    else (addedNodes d children).map (.group operator)

def addedNodes (d : Discovery) : List Model → Except Thrown (List Node)
  | [] => .ok []
  | m :: ms => do
    let n ← addedNode d m
    let ns ← addedNodes d ms
    return n :: ns

end

theorem addedNodes_eq_mapM (d : Discovery) (ms : List Model) :
    addedNodes d ms = ms.mapM (addedNode d) := by
  induction ms with
  | nil => rfl
  | cons m ms ih => rw [addedNodes,List.mapM_cons,ih]

theorem addFactor_eq {d : Discovery} {m : FactorModel} {container container' : List Node} :
    addFactor d m container = (container',none) ↔
      ∃ f, factorControls d m = .ok f ∧ container' = container ++ [.factor f] := by
  rw [addFactor]
  cases factorControls d m with
  | error e => simp
  | ok f => simp [eq_comm]

theorem appendNodes_eq {d : Discovery} {ms : List Model}
    (h : ∀ m ∈ ms, ∀ container container', appendNode d m container = (container',none) ↔
      ∃ n, addedNode d m = .ok n ∧ container' = container ++ [n]) (container container' : List Node) :
    appendNodes d ms container = (container',none) ↔
      ∃ ns, addedNodes d ms = .ok ns ∧ container' = container ++ ns := by
  induction ms generalizing container with
  | nil => simp [appendNodes,addedNodes,eq_comm]
  | cons m ms ih =>
    have hm := h m List.mem_cons_self container
    have ih' := ih (fun k hk => h k (List.mem_cons_of_mem m hk))
    simp only [appendNodes,addedNodes]
    rcases happ : appendNode d m container with ⟨c,r⟩
    rw [happ] at hm
    cases r with
    | some e =>
      have hn : ∀ n, addedNode d m ≠ .ok n := by
        intro n hn
        have := (hm (container ++ [n])).mpr ⟨n,hn,rfl⟩
        simp at this
      simp only [Prod.mk.injEq,reduceCtorEq,and_false,false_iff]
      rintro ⟨ns,hns,-⟩
      obtain ⟨n,hn',-⟩ := bind_eq_ok.mp hns
      exact hn n hn'
    | none =>
      obtain ⟨n,hn,hc⟩ := (hm c).mp rfl
      subst hc
      rw [hn]
      refine (ih' (container ++ [n])).trans ?_
      constructor
      · rintro ⟨ns,hns,rfl⟩
        exact ⟨n :: ns,by rw [hns]; rfl,by simp⟩
      · rintro ⟨ns,hns,rfl⟩
        obtain ⟨k,hk,hns⟩ := bind_eq_ok.mp hns
        cases hk
        obtain ⟨ns',hns',hcons⟩ := bind_eq_ok.mp hns
        rw [pure_eq_ok] at hcons
        subst hcons
        exact ⟨ns',hns',by simp⟩

theorem appendGroup_eq {operator : Operator} {r : List Node × Option Thrown}
    {container container' : List Node} :
    (container ++ [.group operator r.1],r.2) = (container',none) ↔
      ∃ children, r = (children,none) ∧ container' = container ++ [.group operator children] := by
  obtain ⟨children,thrown⟩ := r
  constructor
  · intro h
    cases h
    exact ⟨children,rfl,rfl⟩
  · rintro ⟨_,h,rfl⟩
    cases h
    rfl

theorem appendNode_eq (d : Discovery) (m : Model) (container container' : List Node) :
    appendNode d m container = (container',none) ↔
      ∃ n, addedNode d m = .ok n ∧ container' = container ++ [n] := by
  induction m using Model.induction generalizing container container' with
  | factor m =>
    rw [appendNode,addFactor_eq,addedNode]
    constructor
    · rintro ⟨f,hf,rfl⟩
      exact ⟨.factor f,map_eq_ok.mpr ⟨f,hf,rfl⟩,rfl⟩
    · rintro ⟨n,hn,rfl⟩
      obtain ⟨f,hf,rfl⟩ := map_eq_ok.mp hn
      exact ⟨f,hf,rfl⟩
  | group operator children ih =>
    rw [appendNode,addedNode]
    simp only [appendGroup_eq]
    split_ifs with hc
    · simp only [addFactor_eq]
      constructor
      · rintro ⟨_,⟨f,hf,rfl⟩,rfl⟩
        exact ⟨_,map_eq_ok.mpr ⟨f,hf,rfl⟩,rfl⟩
      · rintro ⟨n,hn,rfl⟩
        obtain ⟨f,hf,rfl⟩ := map_eq_ok.mp hn
        exact ⟨_,⟨f,hf,rfl⟩,rfl⟩
    · simp only [appendNodes_eq ih,List.nil_append]
      constructor
      · rintro ⟨_,⟨ns,hns,rfl⟩,rfl⟩
        exact ⟨_,map_eq_ok.mpr ⟨_,hns,rfl⟩,rfl⟩
      · rintro ⟨n,hn,rfl⟩
        obtain ⟨ns,hns,rfl⟩ := map_eq_ok.mp hn
        exact ⟨_,⟨ns,hns,rfl⟩,rfl⟩

def Rebuilt (d : Discovery) (e e' : Json) : Prop :=
  ∃ m, expressionModel e = .ok m ∧ ∃ n, addedNode d m = .ok n ∧ nodeExpression n = .ok e'

def RebuiltFactor (d : Discovery) (e e' : Json) : Prop :=
  ∃ m, factorModel e = .ok m ∧ ∃ f, factorControls d m = .ok f ∧ factorExpression f = .ok e'

theorem rebuilt_factor {d : Discovery} {e e' : Json} (h : operands e = none) :
    Rebuilt d e e' ↔ RebuiltFactor d e e' := by
  have hm : expressionModel e = (factorModel e).map .factor := by
    rw [expressionModel_eq,h]
  constructor
  · rintro ⟨m,hm',n,hn,he⟩
    obtain ⟨fm,hfm,rfl⟩ := map_eq_ok.mp (hm.symm.trans hm')
    obtain ⟨f,hf,rfl⟩ := map_eq_ok.mp hn
    exact ⟨fm,hfm,f,hf,he⟩
  · rintro ⟨fm,hfm,f,hf,he⟩
    exact ⟨.factor fm,hm.trans (map_eq_ok.mpr ⟨fm,hfm,rfl⟩),.factor f,map_eq_ok.mpr ⟨f,hf,rfl⟩,he⟩

theorem rebuilt_empty {d : Discovery} {e e' : Json} {operator : Operator}
    (h : operands e = some (operator,[])) (hr : Rebuilt d e e') :
    ∃ x, e' = .obj [(operator.name,.arr [x])] := by
  obtain ⟨m,hm,n,hn,he⟩ := hr
  rw [expressionModel_eq,h] at hm
  have hm : m = .group operator [] := by
    cases hm
    rfl
  subst hm
  rw [addedNode,List.isEmpty_nil,if_pos rfl] at hn
  obtain ⟨f,-,rfl⟩ := map_eq_ok.mp hn
  obtain ⟨-,es,hes,rfl⟩ := nodeExpression_group.mp he
  obtain ⟨x,hx⟩ := List.length_eq_one_iff.mp hes.length_eq.symm
  exact ⟨x,by rw [hx]⟩

theorem rebuilt_group {d : Discovery} {e e' : Json} {operator : Operator} {items : List Json}
    (h : operands e = some (operator,items)) (hne : items ≠ []) :
    Rebuilt d e e' ↔
      ∃ es, List.Forall₂ (Rebuilt d) items es ∧ e' = .obj [(operator.name,.arr es)] := by
  have hm : expressionModel e = (items.mapM expressionModel).map (.group operator) := by
    rw [expressionModel_eq,h]
  have hadd : ∀ {ms : List Model} (_ : ms ≠ []) (n : Node), addedNode d (.group operator ms) = .ok n ↔
      ∃ ns, List.Forall₂ (fun m n => addedNode d m = .ok n) ms ns ∧ .group operator ns = n := by
    intro ms hms n
    rw [addedNode,if_neg (by simpa using hms),map_eq_ok]
    simp only [addedNodes_eq_mapM,mapM_eq_ok]
  constructor
  · rintro ⟨m,hm',n,hn,he⟩
    obtain ⟨ms,hms,rfl⟩ := map_eq_ok.mp (hm.symm.trans hm')
    have hms := mapM_eq_ok.mp hms
    have hmsne : ms ≠ [] := by
      rintro rfl
      exact hne (List.forall₂_nil_right_iff.mp hms)
    obtain ⟨ns,hns,rfl⟩ := (hadd hmsne n).mp hn
    obtain ⟨-,es,hes,rfl⟩ := nodeExpression_group.mp he
    exact ⟨es,forall₂_comp.mp ⟨ms,hms,forall₂_comp.mp ⟨ns,hns,hes⟩⟩,rfl⟩
  · rintro ⟨es,hes,rfl⟩
    obtain ⟨ms,hms,hes⟩ := forall₂_comp.mpr hes
    obtain ⟨ns,hns,hes⟩ := forall₂_comp.mpr hes
    have hmsne : ms ≠ [] := by
      rintro rfl
      exact hne (List.forall₂_nil_right_iff.mp hms)
    have hnsne : ns ≠ [] := by
      rintro rfl
      exact hmsne (List.forall₂_nil_right_iff.mp hns)
    exact ⟨.group operator ms,hm.trans (map_eq_ok.mpr ⟨ms,mapM_eq_ok.mpr hms,rfl⟩),
      .group operator ns,(hadd hmsne _).mpr ⟨ns,hns,rfl⟩,
      nodeExpression_group.mpr ⟨hnsne,es,hes,rfl⟩⟩

/-- What is built for a node is an object without `essential`. -/
theorem nodeExpression_members {n : Node} {e : Json} (h : nodeExpression n = .ok e) :
    ∃ ms, e = .obj ms ∧ (Object.names ms).Nodup ∧ ms.lookup (js "essential") = none := by
  cases n with
  | factor f =>
    obtain ⟨-,_,-,_,-,_,-,rfl⟩ := factorExpression_eq.mp h
    exact ⟨_,rfl,nodup_factorMembers _ _ _,lookup_factorMembers_other _ _ _ (by decide)⟩
  | group operator children =>
    obtain ⟨-,es,-,rfl⟩ := nodeExpression_group.mp h
    refine ⟨_,rfl,by simp [Object.names],?_⟩
    cases operator <;> rfl

theorem nodeExpression_isExpression {n : Node} {e : Json} (h : nodeExpression n = .ok e) :
    isExpression e = true := by
  cases n with
  | factor f =>
    obtain ⟨-,_,-,_,-,_,-,rfl⟩ := factorExpression_eq.mp h
    simp [isExpression,Json.own,Json.member?,factorMembers]
  | group operator children =>
    obtain ⟨-,es,-,rfl⟩ := nodeExpression_group.mp h
    cases operator <;> rfl

theorem Rebuilt.members {d : Discovery} {e e' : Json} (h : Rebuilt d e e') :
    ∃ ms, e' = .obj ms ∧ (Object.names ms).Nodup ∧ ms.lookup (js "essential") = none := by
  obtain ⟨-,-,n,-,he⟩ := h
  exact nodeExpression_members he

/-- The members of `details` that are built after a value was loaded. -/
def Reloaded (d : Discovery) (details : Json) (ds : List (Text × Json)) : Prop :=
  if details.isObject then
    let essential := essentialMember (truthy (details.member? (js "essential")))
    if isExpression details then ∃ e', Rebuilt d details e' ∧ ds = assign essential e'
    else ds = essential
  else details = .null ∧ ds = []

theorem expressionNodes_eq {d : Discovery} {details : Json} {nodes : List Node} :
    expressionNodes d details = (nodes,none) ↔
      if isExpression details then
        ∃ m, expressionModel details = .ok m ∧ ∃ n, addedNode d m = .ok n ∧ nodes = [n]
      else nodes = [] := by
  rw [expressionNodes]
  split_ifs with he
  · cases expressionModel details with
    | error e => simp
    | ok m =>
      simp only [appendNode_eq,List.nil_append,Except.ok.injEq,exists_eq_left']
  · simp [eq_comm]

theorem reloaded_iff {d : Discovery} {p : Page} {details : Json} {ds : List (Text × Json)} :
    (∃ p', loadDetails d p details = (p',none) ∧ buildDetails p' = .ok ds) ↔
      Reloaded d details ds := by
  rw [Reloaded]
  by_cases ho : details.isObject = true
  · simp only [loadDetails,ho,if_true]
    rcases hr : expressionNodes d details with ⟨nodes,_ | t⟩
    · have hn := expressionNodes_eq.mp hr
      split_ifs at hn ⊢ with he
      · obtain ⟨m,hm,n,hn,rfl⟩ := hn
        constructor
        · rintro ⟨p',hp,hb⟩
          cases hp
          obtain ⟨e',he',hb⟩ := bind_eq_ok.mp hb
          exact ⟨e',⟨m,hm,n,hn,he'⟩,(pure_eq_ok.mp hb).symm⟩
        · rintro ⟨e',⟨m',hm',n',hn',he'⟩,rfl⟩
          cases hm.symm.trans hm'
          cases hn.symm.trans hn'
          exact ⟨_,rfl,bind_eq_ok.mpr ⟨e',he',rfl⟩⟩
      · subst hn
        constructor
        · rintro ⟨p',hp,hb⟩
          cases hp
          cases hb
          rfl
        · rintro rfl
          exact ⟨_,rfl,rfl⟩
    · constructor
      · rintro ⟨p',hp,-⟩
        simp at hp
      · intro h
        exfalso
        have hnot : ∀ nodes', expressionNodes d details ≠ (nodes',none) := by
          intro nodes' h'
          rw [hr] at h'
          simp at h'
        split_ifs at h with he
        · obtain ⟨e',⟨m,hm,n,hn,-⟩,-⟩ := h
          refine hnot [n] (expressionNodes_eq.mpr ?_)
          rw [if_pos he]
          exact ⟨m,hm,n,hn,rfl⟩
        · refine hnot [] (expressionNodes_eq.mpr ?_)
          rw [if_neg he]
  · rw [if_neg ho]
    constructor
    · rintro ⟨p',hp,hb⟩
      cases details with
      | null =>
        cases hp
        cases hb
        exact ⟨rfl,rfl⟩
      | arr items => exact absurd rfl ho
      | obj ms => exact absurd rfl ho
      | _ => simp [loadDetails,Json.isObject] at hp
    · rintro ⟨rfl,rfl⟩
      exact ⟨_,rfl,rfl⟩

theorem Location.name_injective : Function.Injective Location.name := by
  intro a b h
  cases a <;> cases b <;> first | rfl | exact absurd h (by decide)

theorem member_claimsObject (ls : List Location) (v : Json) (l : Location) :
    (claimsObject ls v).member? l.name =
      if l ∈ ls then some (.obj [(js "amr_details",v)]) else none := by
  rw [claimsObject,Json.member?]
  induction ls with
  | nil => simp
  | cons k ls ih =>
    rw [List.map_cons,List.lookup_cons]
    by_cases hk : l = k
    · simp [hk]
    · have hn : l.name ≠ k.name := fun h => hk (Location.name_injective h)
      simpa [hk,beq_eq_false_iff_ne.mpr hn] using ih

theorem requestedDetails_claimsObject (ls : List Location) (v : Json) (l : Location) :
    requestedDetails (claimsObject ls v) l = if l ∈ ls then some v else none := by
  rw [requestedDetails,member_claimsObject]
  split_ifs
  · simp [Json.member?]
  · rfl

theorem mem_locations {claims : Json} {l : Location} :
    l ∈ locations claims ↔ (requestedDetails claims l).isSome = true := by
  rw [locations,List.mem_filter]
  refine and_iff_right ?_
  cases l <;> simp

theorem selectedDeliveries_checked (p : Page) (claims : Json) :
    selectedDeliveries (checkDeliveries p (locations claims)) = locations claims := by
  rw [selectedDeliveries,locations]
  apply List.filter_congr
  intro l hl
  simp only [checkDeliveries,List.contains_eq_mem,List.mem_filter,hl,true_and]
  exact Bool.decide_coe _

theorem reload_eq_ok {d : Discovery} {p : Page} {claims' : Json} :
    reload d p = .ok claims' ↔ ∃ p', loadJson d p = (p',none) ∧ buildClaims p' = .ok claims' := by
  rw [reload]
  rcases loadJson d p with ⟨p',_ | e⟩
  · simp
  · simp

theorem load_build_iff {d : Discovery} {p : Page} {claims' : Json} :
    (∃ p', loadJson d p = (p',none) ∧ buildClaims p' = .ok claims') ↔
      ∃ claims l ls details ds, Json.parse p.claimsJson = some claims ∧
        locations claims = l :: ls ∧ requestedDetails claims l = some details ∧
        Reloaded d details ds ∧ claims' = claimsObject (l :: ls) (detailsValue ds) := by
  constructor
  · rintro ⟨p',hp,hb⟩
    rw [loadJson] at hp
    cases hparse : Json.parse p.claimsJson with
    | none => simp [hparse] at hp
    | some claims =>
      rw [hparse] at hp
      split at hp
      · simp at hp
      · simp at hp
      · next heq =>
        cases heq
        split at hp
        · simp at hp
        · next l ls hls =>
          split at hp
          · simp at hp
          · next details hdetails =>
            rcases hload : loadDetails d p details with ⟨p1,_ | t⟩
            · rw [hload] at hp
              cases hp
              obtain ⟨ds,hds,hb⟩ := bind_eq_ok.mp hb
              rw [pure_eq_ok,← hls,selectedDeliveries_checked,hls] at hb
              exact ⟨_,l,ls,details,ds,rfl,hls,hdetails,reloaded_iff.mp ⟨p1,hload,hds⟩,hb.symm⟩
            · rw [hload] at hp
              simp at hp
  · rintro ⟨claims,l,ls,details,ds,hparse,hls,hdetails,hds,rfl⟩
    obtain ⟨p1,hload,hb⟩ := (reloaded_iff (p := p)).mpr hds
    refine ⟨checkDeliveries p1 (l :: ls),?_,?_⟩
    · have hnull : claims ≠ .null := by
        rintro rfl
        cases hls
      rw [loadJson,hparse]
      split
      · next h => cases h
      · next h => exact absurd (Option.some.inj h) hnull
      · next h =>
        cases h
        rw [hls]
        simp only [hdetails,hload]
    · refine bind_eq_ok.mpr ⟨ds,hb,?_⟩
      rw [pure_eq_ok,← hls,selectedDeliveries_checked]

end Oidc4acLab.Builder
