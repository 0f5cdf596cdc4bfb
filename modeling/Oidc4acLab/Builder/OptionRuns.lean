import Oidc4acLab.Builder.Options
import Mathlib.Data.List.InsertIdx

/-! # The suggestion lists and the tree

Without the lists the factors and groups are those of the editor of `Elements`: what is typed
has no part in its tree, and every other action does the same to both. So whatever a refresh
throws, the tree of the page is that of the editor.
-/
namespace Oidc4acLab.Builder.Options
open Text Transition

section Tree
open Elements (Element FactorCard Editor Outline outline outlines)

mutual

def listedOutline : Listed → Outline
  | .factor card => .factor (card.rows .property).length (card.rows .metadata).length
  | .group children => .group (listedOutlines children)

def listedOutlines : List Listed → List Outline
  | [] => []
  | node :: nodes => listedOutline node :: listedOutlines nodes

end

structure Agrees (p : Page) (e : Editor) : Prop where
  discovery : p.discovery.names = e.discovery
  root : listedOutlines p.expressionRoot = outlines e.expressionRoot

/-- The action of the editor, where there is one. -/
def Action.element : Action → Option Elements.Action
  | .addFactor path => some (.addFactor path)
  | .addGroup path operator => some (.addGroup path operator)
  | .addConstraint path i kind => some (.addConstraint path i kind)
  | .removeRow path i kind k => some (.removeRow path i kind k)
  | .removeNode path i => some (.removeNode path i)
  | .moveUp path i => some (.moveUp path i)
  | .moveDown path i => some (.moveDown path i)
  | .typeIdentifier _ _ _ => none
  | .typeName _ _ _ _ _ => none
  | .loadJson text => some (.loadJson text)
  | .loadPreset name => some (.loadPreset name)
  | .loadDiscovery d => some (.loadDiscovery d.names)

variable {v : Vocabulary} {container container' : List Listed} {container₁ : List Element}

theorem listedOutlines_eq_map (nodes : List Listed) : listedOutlines nodes = nodes.map listedOutline := by
  induction nodes with
  | nil => rfl
  | cons node nodes ih => rw [listedOutlines,List.map_cons,ih]

theorem outlines_eq_map (nodes : List Element) : outlines nodes = nodes.map outline := by
  induction nodes with
  | nil => rfl
  | cons node nodes ih => rw [outlines,List.map_cons,ih]

theorem outline_getElem? {i : ℕ} {node : Listed} (h : listedOutlines container = outlines container₁)
    (hi : container[i]? = some node) :
    ∃ element, container₁[i]? = some element ∧ listedOutline node = outline element := by
  rw [listedOutlines_eq_map,outlines_eq_map] at h
  have hget := congrArg (fun os => os[i]?) h
  simp only [List.getElem?_map,hi,Option.map_some] at hget
  obtain ⟨element,helement,heq⟩ := Option.map_eq_some_iff.mp hget.symm
  exact ⟨element,helement,heq.symm⟩

@[simp] theorem listedOutlines_append (ns ns' : List Listed) :
    listedOutlines (ns ++ ns') = listedOutlines ns ++ listedOutlines ns' := by
  rw [listedOutlines_eq_map,listedOutlines_eq_map,listedOutlines_eq_map,List.map_append]

theorem outlines_set_agree {i : ℕ} {node : Listed} {element : Element}
    (h : listedOutlines container = outlines container₁) (hn : listedOutline node = outline element) :
    listedOutlines (container.set i node) = outlines (container₁.set i element) := by
  rw [listedOutlines_eq_map,outlines_eq_map] at h ⊢
  rw [List.map_set,List.map_set,h,hn]

def Alike (c : Card) (c₁ : FactorCard) : Prop := ∀ kind, (c.rows kind).length = (c₁.rows kind).length

theorem alike_iff {c : Card} {c₁ : FactorCard} : listedOutline (.factor c) = outline (.factor c₁) ↔ Alike c c₁ := by
  rw [listedOutline,outline,Outline.factor.injEq]
  constructor
  · rintro ⟨hproperty,hmetadata⟩ (_ | _)
    · exact hproperty
    · exact hmetadata
  · exact fun h => ⟨h .property,h .metadata⟩

/-- The append throws what that of the editor throws and leaves the same tree. -/
def Follows (r : List Listed × Option Thrown) (r' : Elements.Appended) : Prop :=
  r.2 = r'.thrown ∧ listedOutlines r.1 = outlines r'.container

theorem length_refreshed (c : Card) (kind : Kind) :
    ((refreshFactorSuggestions v c).1.rows kind).length = (c.rows kind).length := by
  simpa using congrArg List.length (names_refreshed (v := v) c kind)

theorem addFactor_follows (model : FactorModel) (nodeSequence : ℕ)
    (h : listedOutlines container = outlines container₁) :
    Follows (addFactor v model container) (Elements.addFactor v.names model nodeSequence container₁) := by
  rw [addFactor,Elements.addFactor]
  cases hf : factorControls v.names model with
  | error e => exact ⟨rfl,h⟩
  | ok f =>
    have halike : Alike (refreshFactorSuggestions v (cardOf v f)).1
        (Elements.factorCard (Elements.nodeName (nodeSequence+1)) model) := by
      obtain ⟨hproperties,hmetadata⟩ := Elements.length_controls hf
      obtain ⟨hproperties₁,hmetadata₁⟩ := Elements.length_factorCard (Elements.nodeName (nodeSequence+1)) model
      intro kind
      rw [length_refreshed]
      cases kind with
      | property => rw [cardOf,List.length_map,hproperties,FactorCard.rows,hproperties₁]
      | metadata => rw [cardOf,List.length_map,hmetadata,FactorCard.rows,hmetadata₁]
    refine ⟨(refresh_card (cardOf_listed hf)).1,?_⟩
    rw [listedOutlines_append,Elements.outlines_append,h]
    exact congrArg (fun o => outlines container₁ ++ [o]) (alike_iff.mpr halike)

theorem appendNodes_follows {ms : List Model} (hm : ∀ m ∈ ms, ∀ (nodeSequence : ℕ) {container : List Listed}
      {container₁ : List Element}, listedOutlines container = outlines container₁ →
      Follows (appendNode v m container) (Elements.appendNode v.names m nodeSequence container₁))
    (nodeSequence : ℕ) (h : listedOutlines container = outlines container₁) :
    Follows (appendNodes v ms container) (Elements.appendNodes v.names ms nodeSequence container₁) := by
  induction ms generalizing nodeSequence container container₁ with
  | nil => exact ⟨rfl,h⟩
  | cons m ms ih =>
    obtain ⟨hthrown,houtlines⟩ := hm m List.mem_cons_self nodeSequence h
    rw [appendNodes,Elements.appendNodes]
    simp only [hthrown]
    cases ht : (Elements.appendNode v.names m nodeSequence container₁).thrown with
    | some e => exact ⟨hthrown,houtlines⟩
    | none => exact ih (fun k hk => hm k (List.mem_cons_of_mem m hk)) _ houtlines

theorem appendNode_follows (m : Model) (nodeSequence : ℕ) (h : listedOutlines container = outlines container₁) :
    Follows (appendNode v m container) (Elements.appendNode v.names m nodeSequence container₁) := by
  induction m using Model.induction generalizing nodeSequence container container₁ with
  | factor m => exact addFactor_follows m nodeSequence h
  | group operator children ih =>
    have hchildren : Follows (if children.isEmpty then addFactor v {} [] else appendNodes v children [])
        (if children.isEmpty then Elements.addFactor v.names {} (nodeSequence+1) []
          else Elements.appendNodes v.names children (nodeSequence+1) []) := by
      split_ifs
      · exact addFactor_follows {} _ rfl
      · exact appendNodes_follows (fun m hm n _ _ h => ih m hm n h) _ rfl
    rw [appendNode,Elements.appendNode]
    refine ⟨hchildren.1,?_⟩
    rw [listedOutlines_append,Elements.outlines_append,h]
    exact congrArg (fun os => outlines container₁ ++ [.group os]) hchildren.2

theorem load_agrees {p : Page} {e : Editor} (h : p.discovery.names = e.discovery) (ms : List Model) :
    Agrees (p.load ms) ((Elements.resetRoot e).append ms) := by
  have hempty : listedOutlines [] = outlines [] := rfl
  have hfollows : Follows (appendNodes p.discovery ms []) (Elements.appendNodes p.discovery.names ms 0 []) :=
    appendNodes_follows (fun m _ n _ _ h => appendNode_follows m n h) 0 hempty
  rw [h] at hfollows
  exact ⟨h,hfollows.2⟩

theorem changeAt_agrees {f : List Listed → Option (List Listed)} {g : List Element → Option (ℕ × List Element)}
    {path : List ℕ} {root root' : List Listed} {root₁ : List Element}
    (hfg : ∀ {container container₁ container'}, listedOutlines container = outlines container₁ →
      f container = some container' → ∃ r, g container₁ = some r ∧ listedOutlines container' = outlines r.2)
    (h : listedOutlines root = outlines root₁) (hc : changeAt f path root = some root') :
    ∃ r, Elements.changeAt g path root₁ = some r ∧ listedOutlines root' = outlines r.2 := by
  induction path generalizing root root' root₁ with
  | nil => exact hfg h hc
  | cons i path ih =>
    rw [changeAt] at hc
    cases hi : root[i]? with
    | none =>
      rw [hi] at hc
      cases hc
    | some node =>
      obtain ⟨element,helement,houtline⟩ := outline_getElem? h hi
      rw [hi] at hc
      cases node with
      | factor card => cases hc
      | group children =>
        cases element with
        | factor card => simp only [listedOutline,outline,reduceCtorEq] at houtline
        | group nodeId children₁ =>
          obtain ⟨children',hchildren,rfl⟩ := Option.map_eq_some_iff.mp hc
          obtain ⟨r,hr,heq⟩ := ih (Outline.group.inj houtline) hchildren
          refine ⟨(r.1,root₁.set i (.group nodeId r.2)),?_,?_⟩
          · rw [Elements.changeAt,helement]
            simp only [hr,Option.map_some]
          · exact outlines_set_agree h (congrArg Outline.group heq)

theorem changeCard_agrees {i nodeSequence : ℕ} {f : Card → Option Card} {g : FactorCard → Option FactorCard}
    (hfg : ∀ {c c₁ c'}, Alike c c₁ → f c = some c' → ∃ c₁', g c₁ = some c₁' ∧ Alike c' c₁')
    (h : listedOutlines container = outlines container₁) (hc : changeCard i f container = some container') :
    ∃ r, (Elements.changeCard i g container₁).map (nodeSequence,·) = some r ∧
      listedOutlines container' = outlines r.2 := by
  rw [changeCard] at hc
  cases hi : container[i]? with
  | none =>
    rw [hi] at hc
    cases hc
  | some node =>
    obtain ⟨element,helement,houtline⟩ := outline_getElem? h hi
    rw [hi] at hc
    cases node with
    | group children => cases hc
    | factor card =>
      cases element with
      | group nodeId children₁ => simp only [listedOutline,outline,reduceCtorEq] at houtline
      | factor card₁ =>
        obtain ⟨card',hcard',rfl⟩ := Option.map_eq_some_iff.mp hc
        obtain ⟨card₁',hcard₁',halike⟩ := hfg (alike_iff.mp houtline) hcard'
        refine ⟨(nodeSequence,container₁.set i (.factor card₁')),?_,outlines_set_agree h (alike_iff.mpr halike)⟩
        rw [Elements.changeCard,helement]
        simp only [hcard₁',Option.map_some]

theorem addConstraint_alike {c : Card} {c₁ : FactorCard} (kind : Kind) (h : Alike c c₁) :
    Alike (addConstraint v kind c) (c₁.addConstraint kind) := by
  intro kind'
  have hlength := h kind'
  cases kind <;> cases kind' <;>
    simpa [addConstraint,FactorCard.addConstraint,FactorCard.setRows,FactorCard.rows] using hlength

theorem removeRow_alike {c : Card} {c₁ : FactorCard} (kind : Kind) (k : ℕ) (h : Alike c c₁) :
    Alike (removeRow kind k c) (c₁.removeRow kind k) := by
  intro kind'
  have hlength := h kind'
  cases kind <;> cases kind' <;> simp only [FactorCard.rows] at hlength <;>
    simp [removeRow,FactorCard.removeRow,FactorCard.setRows,FactorCard.rows,List.length_eraseIdx,hlength]

theorem removeNode_agrees {i nodeSequence : ℕ} (h : listedOutlines container = outlines container₁)
    (hc : removeNode i container = some container') :
    ∃ r, (Elements.removeNode i container₁).map (nodeSequence,·) = some r ∧
      listedOutlines container' = outlines r.2 := by
  rw [listedOutlines_eq_map,outlines_eq_map] at h
  have hlength : container.length = container₁.length := by simpa using congrArg List.length h
  rw [removeNode] at hc
  split_ifs at hc with hi
  cases hc
  refine ⟨(nodeSequence,container₁.eraseIdx i),?_,?_⟩
  · rw [Elements.removeNode,if_pos (hlength ▸ hi),Option.map_some]
  · rw [listedOutlines_eq_map,outlines_eq_map,← List.eraseIdx_map,← List.eraseIdx_map,h]

theorem insertBefore_agrees {i nodeSequence : ℕ} (h : listedOutlines container = outlines container₁)
    (hc : insertBefore i container = some container') :
    ∃ r, (Elements.insertBefore i container₁).map (nodeSequence,·) = some r ∧
      listedOutlines container' = outlines r.2 := by
  rw [insertBefore] at hc
  cases hi : container[i]? with
  | none =>
    rw [hi] at hc
    cases hc
  | some node =>
    obtain ⟨element,helement,houtline⟩ := outline_getElem? h hi
    rw [hi] at hc
    simp only at hc
    split_ifs at hc with hpos
    cases hc
    refine ⟨(nodeSequence,(container₁.eraseIdx i).insertIdx (i-1) element),?_,?_⟩
    · rw [Elements.insertBefore,helement]
      simp only [if_pos hpos,Option.map_some]
    · rw [listedOutlines_eq_map,outlines_eq_map] at h ⊢
      rw [List.map_insertIdx,List.map_insertIdx,← List.eraseIdx_map,← List.eraseIdx_map,h,houtline]

theorem listedOutlines_set {i : ℕ} {old node : Listed} (hi : container[i]? = some old)
    (hn : listedOutline node = listedOutline old) :
    listedOutlines (container.set i node) = listedOutlines container := by
  obtain ⟨hlt,hget⟩ := List.getElem?_eq_some_iff.mp hi
  have hlt' : i < (container.map listedOutline).length := by simpa using hlt
  have hself : (container.map listedOutline)[i] = listedOutline old := by simp [hget]
  rw [listedOutlines_eq_map,listedOutlines_eq_map,List.map_set,hn,← hself,List.set_getElem_self]

theorem changeAt_outlines {f : List Listed → Option (List Listed)} {path : List ℕ} {root root' : List Listed}
    (hf : ∀ {container container'}, f container = some container' →
      listedOutlines container' = listedOutlines container)
    (hc : changeAt f path root = some root') : listedOutlines root' = listedOutlines root := by
  induction path generalizing root root' with
  | nil => exact hf hc
  | cons i path ih =>
    rw [changeAt] at hc
    cases hi : root[i]? with
    | none =>
      rw [hi] at hc
      cases hc
    | some node =>
      rw [hi] at hc
      cases node with
      | factor card => cases hc
      | group children =>
        obtain ⟨children',hchildren,rfl⟩ := Option.map_eq_some_iff.mp hc
        exact listedOutlines_set hi (congrArg Outline.group (ih hchildren))

theorem changeCard_outlines {i : ℕ} {f : Card → Option Card}
    (hf : ∀ {c c'}, f c = some c' → ∀ kind, (c'.rows kind).length = (c.rows kind).length)
    (hc : changeCard i f container = some container') : listedOutlines container' = listedOutlines container := by
  rw [changeCard] at hc
  cases hi : container[i]? with
  | none =>
    rw [hi] at hc
    cases hc
  | some node =>
    rw [hi] at hc
    cases node with
    | group children => cases hc
    | factor card =>
      obtain ⟨card',hcard',rfl⟩ := Option.map_eq_some_iff.mp hc
      refine listedOutlines_set hi ?_
      rw [listedOutline,listedOutline,hf hcard' .property,hf hcard' .metadata]

theorem length_typeName (kind : Kind) (k : ℕ) (t : Text) (c : Card) (kind' : Kind) :
    ((typeName v kind k t c).rows kind').length = (c.rows kind').length := by
  rw [typeName,rows_setRows]
  split_ifs with hk
  · rw [List.length_modify,hk]
  · rfl

theorem outlines_refreshNodes {nodes : List Listed}
    (h : ∀ n ∈ nodes, listedOutline (refreshNode v n).1 = listedOutline n) :
    listedOutlines (refreshNodes v nodes).1 = listedOutlines nodes := by
  induction nodes with
  | nil => rfl
  | cons n nodes ih =>
    have hn := h n List.mem_cons_self
    have hns := ih fun m hm => h m (List.mem_cons_of_mem n hm)
    rw [refreshNodes]
    cases (refreshNode v n).2 with
    | some e => simp only [listedOutlines,hn]
    | none => simp only [listedOutlines,hn,hns]

theorem outline_refreshNode (n : Listed) : listedOutline (refreshNode v n).1 = listedOutline n := by
  induction n using Listed.induction with
  | factor card => rw [refreshNode,listedOutline,listedOutline,length_refreshed,length_refreshed]
  | group children ih =>
    rw [refreshNode,listedOutline,listedOutline]
    exact congrArg Outline.group (outlines_refreshNodes ih)

section Steps
variable {p q : Page} {e : Editor} {path : List ℕ} {f : List Listed → Option (List Listed)}

theorem Agrees.change {g : List Element → Option (ℕ × List Element)} (h : Agrees p e)
    (hfg : ∀ {container container₁ container'}, listedOutlines container = outlines container₁ →
      f container = some container' → ∃ r, g container₁ = some r ∧ listedOutlines container' = outlines r.2)
    (hs : p.change path f = some q) : ∃ e', e.change path g = some e' ∧ Agrees q e' := by
  obtain ⟨root,hroot,rfl⟩ := Option.map_eq_some_iff.mp hs
  obtain ⟨r,hr,heq⟩ := changeAt_agrees hfg h.root hroot
  exact ⟨{ e with nodeSequence := r.1, expressionRoot := r.2 },by rw [Editor.change,hr]; rfl,h.discovery,heq⟩

theorem Agrees.append (h : Agrees p e) (m : Model)
    (hs : (p.change path fun container => some (appendNode p.discovery m container).1) = some q) :
    ∃ e', e.appendAt path m = some e' ∧ Agrees q e' := by
  refine h.change (fun houtlines hf => ?_) hs
  cases hf
  have hfollows := appendNode_follows (v := p.discovery) m e.nodeSequence houtlines
  rw [h.discovery] at hfollows
  exact ⟨_,rfl,hfollows.2⟩

theorem Agrees.step {a : Action} {b : Elements.Action} (h : Agrees p e) (hab : a.element = some b)
    (hs : Options.step p a = some q) : ∃ e', Elements.step e b = some e' ∧ Agrees q e' := by
  cases a with
  | addFactor path =>
    cases hab
    exact h.append (.factor {}) hs
  | addGroup path operator =>
    cases hab
    exact h.append (.group operator []) hs
  | addConstraint path i kind =>
    cases hab
    refine h.change (changeCard_agrees fun halike hc => ?_) hs
    cases hc
    exact ⟨_,rfl,addConstraint_alike kind halike⟩
  | removeRow path i kind k =>
    cases hab
    refine h.change (changeCard_agrees fun {c c₁ c'} halike hc => ?_) hs
    split_ifs at hc with hk
    cases hc
    exact ⟨c₁.removeRow kind k,if_pos (halike kind ▸ hk),removeRow_alike kind k halike⟩
  | removeNode path i =>
    cases hab
    exact h.change removeNode_agrees hs
  | moveUp path i =>
    cases hab
    exact h.change insertBefore_agrees hs
  | moveDown path i =>
    cases hab
    exact h.change insertBefore_agrees hs
  | typeIdentifier path i text => cases hab
  | typeName path i kind k text => cases hab
  | loadJson text =>
    cases hab
    cases hs
    refine ⟨_,rfl,?_⟩
    rw [loadJson,Elements.loadJson]
    cases loadedDetails text with
    | none => exact h
    | some details => exact load_agrees h.discovery _
  | loadPreset name =>
    cases hab
    cases hs
    exact ⟨_,rfl,load_agrees h.discovery _⟩
  | loadDiscovery d =>
    cases hab
    cases hs
    exact ⟨_,rfl,rfl,(outlines_refreshNodes fun n _ => outline_refreshNode n).trans h.root⟩

theorem Agrees.typed {a : Action} (h : Agrees p e) (ha : a.element = none) (hs : Options.step p a = some q) :
    Agrees q e := by
  have hchange : ∀ {path : List ℕ} {i : ℕ} {f : Card → Option Card}, p.change path (changeCard i f) = some q →
      (∀ {c c'}, f c = some c' → ∀ kind, (c'.rows kind).length = (c.rows kind).length) → Agrees q e := by
    intro path i f hs hf
    obtain ⟨root,hroot,rfl⟩ := Option.map_eq_some_iff.mp hs
    exact ⟨h.discovery,(changeAt_outlines (changeCard_outlines hf) hroot).trans h.root⟩
  cases a with
  | typeIdentifier path i text =>
    refine hchange hs fun hc kind => ?_
    cases hc
    exact length_refreshed _ kind
  | typeName path i kind k text =>
    refine hchange hs fun hc kind' => ?_
    split_ifs at hc
    cases hc
    exact length_typeName kind k text _ kind'
  | _ => cases ha

theorem opening_agrees : Agrees opening Elements.opening := load_agrees rfl _

theorem run_agrees {as : List Action} (h : Agrees p e) (hr : run Options.step p as = some q) :
    ∃ e', run Elements.step e (as.filterMap Action.element) = some e' ∧ Agrees q e' := by
  induction as generalizing p e with
  | nil =>
    cases hr
    exact ⟨e,rfl,h⟩
  | cons a as ih =>
    rw [run_cons] at hr
    obtain ⟨p',hs,hr⟩ := Option.bind_eq_some_iff.mp hr
    cases ha : a.element with
    | none =>
      rw [List.filterMap_cons_none ha]
      exact ih (h.typed ha hs) hr
    | some b =>
      obtain ⟨e',hb,h'⟩ := h.step ha hs
      obtain ⟨e'',hr',h''⟩ := ih h' hr
      refine ⟨e'',?_,h''⟩
      rw [List.filterMap_cons_some ha,run_cons,hb]
      exact hr'

/-- Every run of the page is, without what is typed, a run of the editor that leaves the same tree. -/
theorem page_runs_editor {as : List Action} (hr : run Options.step opening as = some p) :
    ∃ e, run Elements.step Elements.opening (as.filterMap Action.element) = some e ∧ Agrees p e :=
  run_agrees opening_agrees hr

theorem page_runs_editor_typed : ∃ p e,
    run Options.step opening [.typeIdentifier [] 0 (js "otp"),.addFactor []] = some p ∧
    run Elements.step Elements.opening [.addFactor []] = some e ∧ Agrees p e := by
  have hr : run Options.step opening [.typeIdentifier [] 0 (js "otp"),.addFactor []] = some _ := rfl
  obtain ⟨e,he,h⟩ := page_runs_editor hr
  exact ⟨_,e,hr,he,h⟩

end Steps

end Tree

end Oidc4acLab.Builder.Options
