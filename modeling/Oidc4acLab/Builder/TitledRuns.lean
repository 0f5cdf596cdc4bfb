import Oidc4acLab.Builder.Titles

/-! # Titles over whole runs

Whatever headers show, the page changes its tree as the editor without headers does. The
titles and the buttons are right in every state as long as no load leaves an empty group:
of the nodes that a failed load has appended, exactly the groups without a child were never
numbered.
-/
namespace Oidc4acLab.Builder.Titles
open Text Transition Elements

theorem bares_eq_map (nodes : List Titled) : bares nodes = nodes.map bare := by
  induction nodes with
  | nil => rfl
  | cons node nodes ih => rw [bares,ih,List.map_cons]

@[simp] theorem bares_append (xs ys : List Titled) : bares (xs ++ ys) = bares xs ++ bares ys := by
  simp only [bares_eq_map,List.map_append]

@[simp] theorem length_bares (nodes : List Titled) : (bares nodes).length = nodes.length := by
  rw [bares_eq_map,List.length_map]

theorem bares_getElem? (nodes : List Titled) (i : ℕ) : (bares nodes)[i]? = nodes[i]?.map bare := by
  rw [bares_eq_map,List.getElem?_map]

theorem bares_set (nodes : List Titled) (i : ℕ) (node : Titled) :
    bares (nodes.set i node) = (bares nodes).set i (bare node) := by
  rw [bares_eq_map,bares_eq_map,List.map_set]

theorem containerAt_bares (path : List ℕ) (root : List Titled) :
    containerAt path (bares root) = (childrenAt path root).map bares := by
  induction path generalizing root with
  | nil => rfl
  | cons i path ih =>
    rw [containerAt,childrenAt,bares_getElem?]
    rcases root[i]? with _ | (⟨header,card⟩ | ⟨header,nodeId,children⟩)
    · rfl
    · rfl
    · exact ih children

def putAt (cs : List Element) : List ℕ → List Element → List Element
  | [], _ => cs
  | i :: path, container =>
    match container[i]? with
    | some (.group nodeId children) => container.set i (.group nodeId (putAt cs path children))
    | _ => container

theorem changeAt_eq (f : List Element → Option (ℕ × List Element)) (path : List ℕ) (root : List Element) :
    changeAt f path root =
      (containerAt path root).bind fun cs => (f cs).map fun r => (r.1,putAt r.2 path root) := by
  induction path generalizing root with
  | nil =>
    rw [changeAt,containerAt,Option.bind_some]
    cases f root <;> rfl
  | cons i path ih =>
    rw [changeAt,containerAt]
    rcases hi : root[i]? with _ | (card | ⟨nodeId,children⟩)
    · rfl
    · rfl
    · simp only [ih,putAt,hi]
      cases containerAt path children with
      | none => rfl
      | some cs =>
        rw [Option.bind_some,Option.bind_some,Option.map_map]
        rfl

theorem bares_modifyAt {path : List ℕ} {root cs : List Titled} (f : List Titled → List Titled)
    (h : childrenAt path root = some cs) : bares (modifyAt f path root) = putAt (bares (f cs)) path (bares root) := by
  induction path generalizing root with
  | nil =>
    cases h
    rfl
  | cons i path ih =>
    rw [childrenAt] at h
    rw [modifyAt,putAt,bares_getElem?]
    rcases hi : root[i]? with _ | (⟨header,card⟩ | ⟨header,nodeId,children⟩)
    · rw [hi] at h
      cases h
    · rw [hi] at h
      cases h
    · rw [hi] at h
      simp only [Option.map_some,bare]
      rw [bares_set,bare,ih h]

theorem putAt_putAt (cs c' : List Element) (path : List ℕ) (root : List Element) :
    putAt c' path (putAt cs path root) = putAt c' path root := by
  induction path generalizing root with
  | nil => rfl
  | cons i path ih =>
    rcases hi : root[i]? with _ | (card | ⟨nodeId,children⟩)
    · simp only [putAt,hi]
    · simp only [putAt,hi]
    · have hlt := (List.getElem?_eq_some_iff.mp hi).1
      simp only [putAt,hi,List.getElem?_set_self hlt,ih,List.set_set]

theorem containerAt_putAt {path : List ℕ} {root cs : List Element} (h : containerAt path root = some cs)
    (c' : List Element) : containerAt path (putAt c' path root) = some c' := by
  induction path generalizing root with
  | nil => rfl
  | cons i path ih =>
    rcases hi : root[i]? with _ | (card | ⟨nodeId,children⟩)
    · rw [containerAt,hi] at h
      cases h
    · rw [containerAt,hi] at h
      cases h
    · have hlt := (List.getElem?_eq_some_iff.mp hi).1
      rw [containerAt,hi] at h
      simp only [putAt,hi,containerAt,List.getElem?_set_self hlt]
      exact ih h

theorem putAt_group {path : List ℕ} {root cs : List Element} (h : containerAt path root = some cs)
    (nodeId : Text) (children : List Element) :
    putAt children (path ++ [cs.length]) (putAt (cs ++ [.group nodeId []]) path root) =
      putAt (cs ++ [.group nodeId children]) path root := by
  induction path generalizing root with
  | nil => simp [putAt]
  | cons i path ih =>
    rcases hi : root[i]? with _ | (card | ⟨id,inner⟩)
    · rw [containerAt,hi] at h
      cases h
    · rw [containerAt,hi] at h
      cases h
    · have hlt := (List.getElem?_eq_some_iff.mp hi).1
      rw [containerAt,hi] at h
      simp only [List.cons_append,putAt,hi,List.getElem?_set_self hlt,ih h,List.set_set]

theorem containerAt_group {path : List ℕ} {root cs : List Element} (h : containerAt path root = some cs)
    (nodeId : Text) (children : List Element) :
    containerAt (path ++ [cs.length]) (putAt (cs ++ [.group nodeId children]) path root) = some children := by
  induction path generalizing root with
  | nil => simp [putAt,containerAt]
  | cons i path ih =>
    rcases hi : root[i]? with _ | (card | ⟨id,inner⟩)
    · rw [containerAt,hi] at h
      cases h
    · rw [containerAt,hi] at h
      cases h
    · have hlt := (List.getElem?_eq_some_iff.mp hi).1
      rw [containerAt,hi] at h
      simp only [List.cons_append,putAt,hi,containerAt,List.getElem?_set_self hlt]
      exact ih h

/-- The append does to the tree what the one without headers does, and throws what it throws. -/
structure Simulates (path : List ℕ) (s : Shown) (r : Shown × Option Thrown) (r' : Appended) : Prop where
  thrown : r.2 = r'.thrown
  editor : r.1.editor = ⟨s.discovery,r'.nodeSequence,putAt r'.container path (bares s.expressionRoot)⟩

theorem childrenAt_of_containerAt {path : List ℕ} {root : List Titled} {cs : List Element}
    (h : containerAt path (bares root) = some cs) : ∃ c', childrenAt path root = some c' ∧ bares c' = cs := by
  rw [containerAt_bares] at h
  exact Option.map_eq_some_iff.mp h

theorem putAt_self {path : List ℕ} {root cs : List Element} (h : containerAt path root = some cs) :
    putAt cs path root = root := by
  induction path generalizing root with
  | nil =>
    cases h
    rfl
  | cons i path ih =>
    rcases hi : root[i]? with _ | (card | ⟨nodeId,children⟩)
    · rw [containerAt,hi] at h
      cases h
    · rw [containerAt,hi] at h
      cases h
    · rw [containerAt,hi] at h
      simp only [putAt,hi,ih h]
      refine List.ext_getElem? fun j => ?_
      by_cases hj : i = j
      · rw [← hj,List.getElem?_set_self (List.getElem?_eq_some_iff.mp hi).1,hi]
      · rw [List.getElem?_set_ne hj]

theorem addFactor_simulates (model : FactorModel) {path : List ℕ} {s : Shown} {cs : List Element}
    (h : containerAt path (bares s.expressionRoot) = some cs) :
    Simulates path s (addFactor model path s) (Elements.addFactor s.discovery model s.nodeSequence cs) := by
  obtain ⟨c',hc',rfl⟩ := childrenAt_of_containerAt h
  rw [addFactor,Elements.addFactor]
  cases factorControls s.discovery model with
  | ok f =>
    refine ⟨rfl,?_⟩
    simp only [Shown.editor,bares_renumber,bares_modifyAt _ hc',bares_append,bares,bare]
  | error e =>
    refine ⟨rfl,?_⟩
    simp only [Shown.editor,putAt_self h]

theorem openGroup_editor {path : List ℕ} {s : Shown} {cs : List Element}
    (h : containerAt path (bares s.expressionRoot) = some cs) :
    (openGroup path s).1 = path ++ [cs.length] ∧ (openGroup path s).2.editor =
      ⟨s.discovery,s.nodeSequence+1,
        putAt (cs ++ [.group (nodeName (s.nodeSequence+1)) []]) path (bares s.expressionRoot)⟩ := by
  obtain ⟨c',hc',rfl⟩ := childrenAt_of_containerAt h
  refine ⟨by simp [openGroup,hc'],?_⟩
  simp only [openGroup,Shown.editor,bares_modifyAt _ hc',bares_append,bares,bare]

theorem appendNodes_simulates (ms : List Model)
    (hm : ∀ m ∈ ms, ∀ (path : List ℕ) (s : Shown) (cs : List Element),
      containerAt path (bares s.expressionRoot) = some cs →
        Simulates path s (appendNode m path s) (Elements.appendNode s.discovery m s.nodeSequence cs))
    {path : List ℕ} {s : Shown} {cs : List Element} (h : containerAt path (bares s.expressionRoot) = some cs) :
    Simulates path s (appendNodes ms path s) (Elements.appendNodes s.discovery ms s.nodeSequence cs) := by
  induction ms generalizing s cs with
  | nil =>
    refine ⟨rfl,?_⟩
    simp only [appendNodes,Elements.appendNodes,Shown.editor,putAt_self h]
  | cons m ms ih =>
    obtain ⟨hthrown,heditor⟩ := hm m List.mem_cons_self path s cs h
    rw [appendNodes,Elements.appendNodes]
    cases ht : (Elements.appendNode s.discovery m s.nodeSequence cs).thrown with
    | some e =>
      rw [ht] at hthrown
      simp only [hthrown]
      exact ⟨ht.symm,heditor⟩
    | none =>
      rw [ht] at hthrown
      simp only [hthrown]
      obtain ⟨hd,hn,hroot⟩ := Editor.mk.inj heditor
      have hnext : containerAt path (bares (appendNode m path s).1.expressionRoot) =
          some (Elements.appendNode s.discovery m s.nodeSequence cs).container := by
        rw [hroot]
        exact containerAt_putAt h _
      have hrest := ih (fun k hk => hm k (List.mem_cons_of_mem m hk)) hnext
      rw [hd,hn] at hrest
      refine ⟨hrest.thrown,hrest.editor.trans ?_⟩
      rw [hd,hroot,putAt_putAt]

theorem appendNode_simulates (m : Model) (path : List ℕ) (s : Shown) (cs : List Element)
    (h : containerAt path (bares s.expressionRoot) = some cs) :
    Simulates path s (appendNode m path s) (Elements.appendNode s.discovery m s.nodeSequence cs) := by
  induction m using Model.induction generalizing path s cs with
  | factor m => exact addFactor_simulates m h
  | group operator children ih =>
    obtain ⟨hpath,heditor⟩ := openGroup_editor h
    obtain ⟨hd,hn,hroot⟩ := Editor.mk.inj heditor
    have hinner : containerAt (openGroup path s).1 (bares (openGroup path s).2.expressionRoot) = some [] := by
      rw [hpath,hroot]
      exact containerAt_group h _ _
    have hchildren : Simulates (openGroup path s).1 (openGroup path s).2
        (if children.isEmpty then addFactor {} (openGroup path s).1 (openGroup path s).2
          else appendNodes children (openGroup path s).1 (openGroup path s).2)
        (if children.isEmpty then Elements.addFactor s.discovery {} (s.nodeSequence+1) []
          else Elements.appendNodes s.discovery children (s.nodeSequence+1) []) := by
      rw [← hd,← hn]
      split_ifs
      · exact addFactor_simulates {} hinner
      · exact appendNodes_simulates _ ih hinner
    rw [appendNode,Elements.appendNode]
    simp only
    generalize (if children.isEmpty then addFactor {} (openGroup path s).1 (openGroup path s).2
      else appendNodes children (openGroup path s).1 (openGroup path s).2) = r at hchildren ⊢
    generalize (if children.isEmpty then Elements.addFactor s.discovery {} (s.nodeSequence+1) []
      else Elements.appendNodes s.discovery children (s.nodeSequence+1) []) = r' at hchildren ⊢
    obtain ⟨hthrown,hchildren⟩ := hchildren
    rw [hd,hroot,hpath,putAt_group h] at hchildren
    rw [← hthrown]
    cases r.2 with
    | some e => exact ⟨rfl,hchildren⟩
    | none =>
      refine ⟨rfl,?_⟩
      rw [← hchildren]
      simp only [Shown.editor,bares_renumber]

mutual

def complete : Element → Bool
  | .factor _ => true
  | .group _ children => !children.isEmpty && completes children

def completes : List Element → Bool
  | [] => true
  | node :: nodes => complete node && completes nodes

end

theorem completes_append (xs ys : List Element) : completes (xs ++ ys) = (completes xs && completes ys) := by
  induction xs with
  | nil => rfl
  | cons x xs ih => rw [List.cons_append,completes,completes,ih,Bool.and_assoc]

def AddsAlways (append : ℕ → List Element → Appended) : Prop := ∀ nodeSequence container,
  append nodeSequence container = ⟨(append nodeSequence []).nodeSequence,
    container ++ (append nodeSequence []).container,(append nodeSequence []).thrown⟩

theorem addFactor_addsAlways (d : Discovery) (model : FactorModel) : AddsAlways (Elements.addFactor d model) := by
  intro nodeSequence container
  rw [Elements.addFactor,Elements.addFactor]
  cases factorControls d model with
  | ok f => rfl
  | error e => simp only [List.append_nil]

theorem appendNodes_addsAlways {d : Discovery} (ms : List Model)
    (hm : ∀ m ∈ ms, AddsAlways (Elements.appendNode d m)) : AddsAlways (Elements.appendNodes d ms) := by
  induction ms with
  | nil =>
    intro nodeSequence container
    simp only [Elements.appendNodes,List.append_nil]
  | cons m ms ih =>
    have ih := ih fun k hk => hm k (List.mem_cons_of_mem m hk)
    intro nodeSequence container
    rw [Elements.appendNodes,Elements.appendNodes,hm m List.mem_cons_self nodeSequence container]
    simp only
    cases ht : (Elements.appendNode d m nodeSequence []).thrown with
    | some e =>
      simp only
      rw [ht]
    | none =>
      simp only
      rw [ih _ (container ++ _),ih _ (Elements.appendNode d m nodeSequence []).container]
      simp only [List.append_assoc]

theorem appendNode_addsAlways (d : Discovery) (m : Model) : AddsAlways (Elements.appendNode d m) := by
  cases m with
  | factor m => exact addFactor_addsAlways d m
  | group operator children =>
    intro nodeSequence container
    simp only [Elements.appendNode,List.nil_append]

theorem appendNodes_cons {d : Discovery} {m : Model} (ms : List Model) {nodeSequence : ℕ}
    (h : (Elements.appendNode d m nodeSequence []).thrown = none) :
    (Elements.appendNodes d (m :: ms) nodeSequence []).container =
        (Elements.appendNode d m nodeSequence []).container ++
          (Elements.appendNodes d ms (Elements.appendNode d m nodeSequence []).nodeSequence []).container ∧
      (Elements.appendNodes d (m :: ms) nodeSequence []).thrown =
        (Elements.appendNodes d ms (Elements.appendNode d m nodeSequence []).nodeSequence []).thrown := by
  have hms := appendNodes_addsAlways ms fun m _ => appendNode_addsAlways d m
  rw [Elements.appendNodes,h]
  simp only
  rw [hms]
  exact ⟨rfl,rfl⟩

theorem appendNodes_complete {d : Discovery} {ms : List Model}
    (hm : ∀ m ∈ ms, ∀ nodeSequence, (Elements.appendNode d m nodeSequence []).thrown = none →
      (Elements.appendNode d m nodeSequence []).container ≠ [] ∧
        completes (Elements.appendNode d m nodeSequence []).container = true)
    {nodeSequence : ℕ} (h : (Elements.appendNodes d ms nodeSequence []).thrown = none) :
    (ms ≠ [] → (Elements.appendNodes d ms nodeSequence []).container ≠ []) ∧
      completes (Elements.appendNodes d ms nodeSequence []).container = true := by
  induction ms generalizing nodeSequence with
  | nil => exact ⟨fun hne => absurd rfl hne,rfl⟩
  | cons m ms ih =>
    cases ht : (Elements.appendNode d m nodeSequence []).thrown with
    | some e =>
      rw [Elements.appendNodes,ht] at h
      cases ht.symm.trans h
    | none =>
      obtain ⟨hcontainer,hthrown⟩ := appendNodes_cons ms ht
      obtain ⟨hne,hfirst⟩ := hm m List.mem_cons_self nodeSequence ht
      have hrest := (ih (fun k hk => hm k (List.mem_cons_of_mem m hk)) (hthrown.symm.trans h)).2
      rw [hcontainer]
      refine ⟨fun _ => List.append_ne_nil_of_left_ne_nil hne _,?_⟩
      rw [completes_append,hfirst,hrest,Bool.and_self]

theorem appendNode_complete {d : Discovery} {m : Model} {nodeSequence : ℕ}
    (h : (Elements.appendNode d m nodeSequence []).thrown = none) :
    (Elements.appendNode d m nodeSequence []).container ≠ [] ∧
      completes (Elements.appendNode d m nodeSequence []).container = true := by
  induction m using Model.induction generalizing nodeSequence with
  | factor m =>
    rw [Elements.appendNode,Elements.addFactor] at h ⊢
    cases hf : factorControls d m with
    | ok f => exact ⟨List.cons_ne_nil _ _,rfl⟩
    | error e =>
      rw [hf] at h
      cases h
  | group operator children ih =>
    rw [Elements.appendNode] at h ⊢
    refine ⟨List.cons_ne_nil _ _,?_⟩
    have hinner : ∀ cs : List Element, cs ≠ [] → completes cs = true →
        completes ([] ++ [.group (nodeName (nodeSequence+1)) cs]) = true := by
      intro cs hne hc
      have hsome : cs.isEmpty = false := by
        rw [List.isEmpty_eq_false_iff]
        exact hne
      rw [List.nil_append,completes,complete,hsome,hc]
      rfl
    by_cases he : children.isEmpty = true
    · rw [if_pos he]
      exact hinner _ (List.cons_ne_nil _ _) rfl
    · rw [if_neg he] at h ⊢
      obtain ⟨hne,hc⟩ := appendNodes_complete (fun m hm _ => ih m hm) h
      exact hinner _ (hne fun hnil => he (hnil ▸ rfl)) hc

theorem childrenAt_modifyAt {path : List ℕ} {root cs : List Titled} (h : childrenAt path root = some cs)
    (f : List Titled → List Titled) : childrenAt path (modifyAt f path root) = some (f cs) := by
  induction path generalizing root with
  | nil =>
    cases h
    rfl
  | cons i path ih =>
    rcases hi : root[i]? with _ | (⟨header,card⟩ | ⟨header,nodeId,children⟩)
    · rw [childrenAt,hi] at h
      cases h
    · rw [childrenAt,hi] at h
      cases h
    · have hlt := (List.getElem?_eq_some_iff.mp hi).1
      rw [childrenAt,hi] at h
      simp only [modifyAt,hi,childrenAt,List.getElem?_set_self hlt]
      exact ih h

theorem word_ne_nil (node : Titled) : node.word ≠ [] := by
  cases node with
  | factor header card =>
    show js "Factor" ≠ []
    decide
  | group header nodeId children =>
    show js "Group" ≠ []
    decide

theorem not_positioned {root container : List Titled} {path : List ℕ} {i : ℕ} {node : Titled}
    (hc : childrenAt path root = some container) (hi : container[i]? = some node) (ht : node.header.title = []) :
    ¬ Positioned root := by
  intro h
  rw [h path container i node hc hi] at ht
  exact List.append_ne_nil_of_left_ne_nil (word_ne_nil node) _ ht

theorem openGroup_not_positioned {path : List ℕ} {s : Shown} {cs : List Element}
    (h : containerAt path (bares s.expressionRoot) = some cs) : ¬ Positioned (openGroup path s).2.expressionRoot := by
  obtain ⟨c',hc',-⟩ := childrenAt_of_containerAt h
  have hgroup := childrenAt_modifyAt hc' (· ++ [.group .template (nodeName (s.nodeSequence+1)) []])
  exact not_positioned hgroup List.getElem?_concat_length rfl

/-- What an append that throws leaves: nothing new, or nodes that are numbered unless a group is empty. -/
structure Stopped (s : Shown) (added : List Element) (r : Shown × Option Thrown) : Prop where
  unchanged : added = [] → r.1.expressionRoot = s.expressionRoot
  numbered : added ≠ [] → (Positioned r.1.expressionRoot ↔ completes added = true)

theorem addFactor_headers (model : FactorModel) (path : List ℕ) (s : Shown) :
    ((addFactor model path s).2 = none → Positioned (addFactor model path s).1.expressionRoot) ∧
      ((addFactor model path s).2 ≠ none →
        Stopped s (Elements.addFactor s.discovery model s.nodeSequence []).container (addFactor model path s)) := by
  rw [addFactor,Elements.addFactor]
  cases factorControls s.discovery model with
  | ok f => exact ⟨fun _ => positioned_renumber _,fun h => absurd rfl h⟩
  | error e =>
    refine ⟨fun h => ?_,fun _ => ⟨fun _ => rfl,fun h => absurd rfl h⟩⟩
    cases h

/-- What an append does to the headers: it numbers the tree unless it throws. -/
def Numbers (d : Discovery) (append : Shown → Shown × Option Thrown) (append' : ℕ → Appended) (s : Shown) : Prop :=
  s.discovery = d →
    ((append s).2 = none → Positioned (append s).1.expressionRoot) ∧
      ((append s).2 ≠ none → Stopped s (append' s.nodeSequence).container (append s))

theorem appendNodes_headers {d : Discovery} (ms : List Model) {path : List ℕ}
    (hm : ∀ m ∈ ms, ∀ (s : Shown) (cs : List Element), containerAt path (bares s.expressionRoot) = some cs →
      Numbers d (appendNode m path) (fun n => Elements.appendNode d m n []) s)
    {s : Shown} {cs : List Element} (h : containerAt path (bares s.expressionRoot) = some cs)
    (hs : Positioned s.expressionRoot ∨ ms ≠ []) :
    Numbers d (appendNodes ms path) (fun n => Elements.appendNodes d ms n []) s := by
  induction ms generalizing s cs with
  | nil =>
    intro hd
    refine ⟨fun _ => ?_,fun hne => absurd rfl hne⟩
    rcases hs with hs | hs
    · exact hs
    · exact absurd rfl hs
  | cons m ms ih =>
    intro hd
    subst hd
    obtain ⟨hok,hstop⟩ := hm m List.mem_cons_self s cs h rfl
    obtain ⟨hthrown,heditor⟩ := appendNode_simulates m path s cs h
    obtain ⟨hd,hn,hroot⟩ := Editor.mk.inj heditor
    have hadds := appendNode_addsAlways s.discovery m s.nodeSequence cs
    have hthrown' : (appendNode m path s).2 = (Elements.appendNode s.discovery m s.nodeSequence []).thrown := by
      rw [hthrown,hadds]
    have hsequence : (appendNode m path s).1.nodeSequence =
        (Elements.appendNode s.discovery m s.nodeSequence []).nodeSequence := by
      rw [hn,hadds]
    cases ht : (appendNode m path s).2 with
    | some e =>
      have ht' := hthrown'.symm.trans ht
      have hself : appendNodes (m :: ms) path s = appendNode m path s := by
        rw [appendNodes]
        simp only [ht]
        rw [← ht]
      have hself' : Elements.appendNodes s.discovery (m :: ms) s.nodeSequence [] =
          Elements.appendNode s.discovery m s.nodeSequence [] := by
        rw [Elements.appendNodes]
        simp only [ht']
      rw [hself]
      simp only [hself']
      exact ⟨hok,hstop⟩
    | none =>
      have ht' := hthrown'.symm.trans ht
      have hself : appendNodes (m :: ms) path s = appendNodes ms path (appendNode m path s).1 := by
        rw [appendNodes]
        simp only [ht]
      have hfirst := hok ht
      have hnext : containerAt path (bares (appendNode m path s).1.expressionRoot) =
          some (Elements.appendNode s.discovery m s.nodeSequence cs).container := by
        rw [hroot]
        exact containerAt_putAt h _
      have hrest := ih (fun k hk => hm k (List.mem_cons_of_mem m hk)) hnext (Or.inl hfirst) hd
      obtain ⟨hne,hcomplete⟩ := appendNode_complete ht'
      obtain ⟨hcontainer,-⟩ := appendNodes_cons ms ht'
      rw [hself]
      refine ⟨hrest.1,fun hthrows => ?_⟩
      obtain ⟨hunchanged,hnumbered⟩ := hrest.2 hthrows
      simp only [hsequence] at hunchanged hnumbered
      simp only [hcontainer]
      refine ⟨fun hnil => absurd (List.append_eq_nil_iff.mp hnil).1 hne,fun _ => ?_⟩
      rw [completes_append,hcomplete,Bool.true_and]
      by_cases hmore : (Elements.appendNodes s.discovery ms
          (Elements.appendNode s.discovery m s.nodeSequence []).nodeSequence []).container = []
      · rw [hunchanged hmore,hmore]
        exact iff_of_true hfirst rfl
      · exact hnumbered hmore

theorem appendNode_headers (d : Discovery) (m : Model) (path : List ℕ) (s : Shown) (cs : List Element)
    (h : containerAt path (bares s.expressionRoot) = some cs) :
    Numbers d (appendNode m path) (fun n => Elements.appendNode d m n []) s := by
  induction m using Model.induction generalizing path s cs with
  | factor m =>
    rintro rfl
    exact addFactor_headers m path s
  | group operator children ih =>
    rintro rfl
    obtain ⟨hpath,heditor⟩ := openGroup_editor h
    obtain ⟨hd,hn,hroot⟩ := Editor.mk.inj heditor
    have hinner : containerAt (openGroup path s).1 (bares (openGroup path s).2.expressionRoot) = some [] := by
      rw [hpath,hroot]
      exact containerAt_group h _ _
    rw [appendNode]
    simp only [Elements.appendNode,List.nil_append]
    by_cases he : children.isEmpty = true
    · -- a group without children gets a factor of its own, which cannot throw
      obtain ⟨f,hf⟩ := factorControls_default (openGroup path s).2.discovery
      have hok : (addFactor {} (openGroup path s).1 (openGroup path s).2).2 = none := by
        rw [addFactor,hf]
      simp only [he,if_true,hok]
      exact ⟨fun _ => positioned_renumber _,fun hne => absurd rfl hne⟩
    · have hne : children ≠ [] := fun hnil => he (hnil ▸ rfl)
      have hchildren :=
        appendNodes_headers _ (fun m hm s' c' => ih m hm (openGroup path s).1 s' c') hinner (Or.inr hne) hd
      simp only [he,Bool.false_eq_true,if_false]
      cases ht : (appendNodes children (openGroup path s).1 (openGroup path s).2).2 with
      | none => exact ⟨fun _ => positioned_renumber _,fun hsome => absurd rfl hsome⟩
      | some e =>
        have hthrows : (appendNodes children (openGroup path s).1 (openGroup path s).2).2 ≠ none := by
          rw [ht]
          exact Option.some_ne_none e
        obtain ⟨hunchanged,hnumbered⟩ := hchildren.2 hthrows
        simp only [hn] at hunchanged hnumbered
        refine ⟨fun hnone => absurd hnone (Option.some_ne_none e),fun _ =>
          ⟨fun hnil => absurd hnil (List.cons_ne_nil _ _),fun _ => ?_⟩⟩
        rw [completes,complete,completes,Bool.and_true]
        by_cases hempty : (Elements.appendNodes s.discovery children (s.nodeSequence+1) []).container = []
        · rw [hunchanged hempty,hempty]
          exact iff_of_false (openGroup_not_positioned h) Bool.false_ne_true
        · have hsome : (Elements.appendNodes s.discovery children (s.nodeSequence+1) []).container.isEmpty = false :=
            List.isEmpty_eq_false_iff.mpr hempty
          rw [hsome,Bool.not_false,Bool.true_and]
          exact hnumbered hempty

theorem resetRoot_container (s : Shown) : containerAt [] (bares (resetRoot s).expressionRoot) = some [] := rfl

theorem appended_root (s : Shown) (ms : List Model) :
    (appendNodes ms [] (resetRoot s)).1.editor = (Elements.resetRoot s.editor).append ms ∧
      ((appendNodes ms [] (resetRoot s)).2 = none → Positioned (appendNodes ms [] (resetRoot s)).1.expressionRoot) ∧
      (Positioned (appendNodes ms [] (resetRoot s)).1.expressionRoot ↔
        completes (bares (appendNodes ms [] (resetRoot s)).1.expressionRoot) = true) := by
  have hsimulates := appendNodes_simulates ms (fun m _ path s cs => appendNode_simulates m path s cs)
    (resetRoot_container s)
  have hempty : Positioned (resetRoot s).expressionRoot := positioned_iff.mpr rfl
  have hheaders := appendNodes_headers ms (fun m _ s' cs => appendNode_headers s.discovery m [] s' cs)
    (resetRoot_container s) (Or.inl hempty) rfl
  obtain ⟨hthrown,heditor⟩ := hsimulates
  obtain ⟨-,-,hroot⟩ := Editor.mk.inj heditor
  refine ⟨heditor,hheaders.1,?_⟩
  rw [hroot]
  show _ ↔ completes (Elements.appendNodes s.discovery ms 0 []).container = true
  cases ht : (appendNodes ms [] (resetRoot s)).2 with
  | none =>
    have hcomplete := appendNodes_complete (fun m _ n h => appendNode_complete h) (hthrown.symm.trans ht)
    exact iff_of_true (hheaders.1 ht) hcomplete.2
  | some e =>
    have hthrows : (appendNodes ms [] (resetRoot s)).2 ≠ none := by
      rw [ht]
      exact Option.some_ne_none e
    obtain ⟨hunchanged,hnumbered⟩ := hheaders.2 hthrows
    by_cases hnil : (Elements.appendNodes s.discovery ms 0 []).container = []
    · rw [hunchanged hnil,hnil]
      exact iff_of_true hempty rfl
    · exact hnumbered hnil

theorem loadJson_editor (s : Shown) (text : Text) : (loadJson s text).editor = Elements.loadJson s.editor text := by
  rw [loadJson,Elements.loadJson]
  cases loadedDetails text with
  | none => rfl
  | some details =>
    have h := (appended_root s (loadedModels details)).1
    simp only
    cases (appendNodes (loadedModels details) [] (resetRoot s)).2 with
    | some e => exact h
    | none =>
      refine Eq.trans ?_ h
      simp only [Shown.editor,bares_renumber]

/-- The text replaces the tree, and what it leaves has a group without children. -/
def LeavesEmptyGroup (e : Editor) (text : Text) : Prop :=
  (loadedDetails text).isSome = true ∧ completes (Elements.loadJson e text).expressionRoot = false

instance (e : Editor) (text : Text) : Decidable (LeavesEmptyGroup e text) := by
  unfold LeavesEmptyGroup
  infer_instance

theorem loadJson_positioned {s : Shown} (h : Positioned s.expressionRoot) (text : Text) :
    Positioned (loadJson s text).expressionRoot ↔ ¬ LeavesEmptyGroup s.editor text := by
  rw [LeavesEmptyGroup,← loadJson_editor,loadJson]
  cases hd : loadedDetails text with
  | none => simpa using h
  | some details =>
    simp only [Option.isSome_some,true_and,Bool.not_eq_false]
    obtain ⟨-,hok,hroot⟩ := appended_root s (loadedModels details)
    cases ht : (appendNodes (loadedModels details) [] (resetRoot s)).2 with
    | some e => exact hroot
    | none =>
      simp only [Shown.editor,bares_renumber]
      exact iff_of_true (positioned_renumber _) (hroot.mp (hok ht))

def RowModel.plain (model : RowModel) : Bool :=
  model.name.any (fun name => trim (TextInput.assign name).value != js "constructor") && model.min.isNone &&
    model.max.isNone

def FactorModel.plain (model : FactorModel) : Bool :=
  (model.identifier.all fun j => j.toText.isSome) && (model.maxAge.all fun j => j.toText.isSome) &&
    model.properties.all RowModel.plain && model.metadata.all RowModel.plain

theorem textOr_ok {v : Option Json} (h : (v.all fun j => j.toText.isSome) = true) (fallback : Text) :
    ∃ t, textOr v fallback = .ok t := by
  rw [textOr.eq_def]
  rcases v with _ | j
  · exact ⟨_,rfl⟩
  · obtain ⟨t,ht⟩ := Option.isSome_iff_exists.mp h
    cases j <;> simp [ht]

theorem addConstraint_ok {model : RowModel} (h : RowModel.plain model = true) (d : Discovery) (kind : Kind)
    (identifier : Text) : ∃ row, Builder.addConstraint d kind identifier model = .ok row := by
  simp only [RowModel.plain,Bool.and_eq_true,Option.isNone_iff_eq_none,Option.any_eq_true,bne_iff_ne] at h
  obtain ⟨⟨⟨name,hname,hne⟩,hmin⟩,hmax⟩ := h
  have hrefresh : Builder.refreshConstraintSuggestions d kind identifier (TextInput.assign name).value = .ok () := by
    rw [Builder.refreshConstraintSuggestions,if_neg fun h => hne h.1]
  rw [Builder.addConstraint,hname,hmin,hmax]
  simp only [Option.some_or,Option.getD_some,textOr]
  exact ⟨_,by simp only [bind,Except.bind,hrefresh]; rfl⟩

theorem factorControls_ok {model : FactorModel} (h : FactorModel.plain model = true) (d : Discovery) :
    ∃ f, factorControls d model = .ok f := by
  simp only [FactorModel.plain,Bool.and_eq_true] at h
  obtain ⟨⟨⟨hid,hage⟩,hp⟩,hm⟩ := h
  have hall : ∀ (kind : Kind) (identifier : Text) {rows : List RowModel}, rows.all RowModel.plain = true →
      ∃ rs, rows.mapM (Builder.addConstraint d kind identifier) = .ok rs := by
    intro kind identifier rows hrows
    induction rows with
    | nil => exact ⟨[],rfl⟩
    | cons row rows ih =>
      rw [List.all_cons,Bool.and_eq_true] at hrows
      obtain ⟨r,hr⟩ := addConstraint_ok hrows.1 d kind identifier
      obtain ⟨rs,hrs⟩ := ih hrows.2
      refine ⟨r :: rs,?_⟩
      rw [List.mapM_cons,hr,hrs]
      rfl
  obtain ⟨identifier,hidentifier⟩ := textOr_ok hid (defaultIdentifier d)
  obtain ⟨maxAge,hmaxAge⟩ := textOr_ok hage []
  obtain ⟨properties,hproperties⟩ := hall .property (TextInput.assign identifier).value hp
  obtain ⟨metadata,hmetadata⟩ := hall .metadata (TextInput.assign identifier).value hm
  simp only [factorControls,hidentifier,hmaxAge,bind,Except.bind,hproperties,hmetadata]
  exact ⟨_,rfl⟩

mutual

def plain : Model → Bool
  | .factor m => FactorModel.plain m
  | .group _ children => plains children

def plains : List Model → Bool
  | [] => true
  | m :: ms => plain m && plains ms

end

theorem appendNodes_plain {d : Discovery} {ms : List Model}
    (hm : ∀ m ∈ ms, plain m = true → ∀ nodeSequence container,
      (Elements.appendNode d m nodeSequence container).thrown = none)
    (h : plains ms = true) (nodeSequence : ℕ) (container : List Element) :
    (Elements.appendNodes d ms nodeSequence container).thrown = none := by
  induction ms generalizing nodeSequence container with
  | nil => rfl
  | cons m ms ih =>
    rw [plains,Bool.and_eq_true] at h
    rw [Elements.appendNodes,hm m List.mem_cons_self h.1]
    exact ih (fun k hk => hm k (List.mem_cons_of_mem m hk)) h.2 _ _

theorem appendNode_plain (d : Discovery) (m : Model) (h : plain m = true) (nodeSequence : ℕ)
    (container : List Element) : (Elements.appendNode d m nodeSequence container).thrown = none := by
  induction m using Model.induction generalizing nodeSequence container with
  | factor m =>
    obtain ⟨f,hf⟩ := factorControls_ok h d
    rw [Elements.appendNode,Elements.addFactor,hf]
  | group operator children ih =>
    rw [Elements.appendNode]
    by_cases he : children.isEmpty = true
    · obtain ⟨f,hf⟩ := factorControls_default d
      simp only [he,if_true,Elements.addFactor,hf]
    · simp only [he,Bool.false_eq_true,if_false]
      exact appendNodes_plain ih h _ _

theorem presets_plain : ∀ p ∈ presets, plains p.2 = true := by
  decide +kernel

theorem loadPreset_editor (s : Shown) (name : Text) : (loadPreset s name).editor = Elements.loadPreset s.editor name :=
  (appended_root s _).1

theorem loadPreset_positioned (s : Shown) (name : Text) : Positioned (loadPreset s name).expressionRoot := by
  refine (appended_root s _).2.1 ?_
  have hplain : plains ((presets.lookup name).getD []) = true := by
    cases hl : presets.lookup name with
    | none => rfl
    | some ms => exact presets_plain (name,ms) (Collections.mem_of_lookup hl)
  have hsimulates := appendNodes_simulates ((presets.lookup name).getD [])
    (fun m _ path s cs => appendNode_simulates m path s cs) (resetRoot_container s)
  rw [hsimulates.thrown]
  exact appendNodes_plain (fun m _ => appendNode_plain _ m) hplain _ _

/-- Two lists of siblings of the same kinds show the same headers. -/
structure SameHeads (container container' : List Titled) : Prop where
  length : container'.length = container.length
  heads : ∀ (j : ℕ) (node' : Titled), container'[j]? = some node' →
    ∃ node : Titled, container[j]? = some node ∧ node'.header = node.header ∧ node'.word = node.word

theorem sameHeads_refl (container : List Titled) : SameHeads container container :=
  ⟨rfl,fun _ node h => ⟨node,h,rfl,rfl⟩⟩

theorem sameHeads_set {container : List Titled} {i : ℕ} {node node' : Titled} (hi : container[i]? = some node)
    (hheader : node'.header = node.header) (hword : node'.word = node.word) :
    SameHeads container (container.set i node') := by
  refine ⟨List.length_set,fun j n hj => ?_⟩
  by_cases hij : i = j
  · subst hij
    rw [List.getElem?_set_self (List.getElem?_eq_some_iff.mp hi).1] at hj
    cases hj
    exact ⟨node,hi,hheader,hword⟩
  · rw [List.getElem?_set_ne hij] at hj
    exact ⟨n,hj,rfl,rfl⟩

theorem childrenAt_setCard {path : List ℕ} {root cs : List Titled} {i : ℕ} {header : Header} {card : FactorCard}
    (hc : childrenAt path root = some cs) (hi : cs[i]? = some (.factor header card)) (card' : FactorCard)
    {p : List ℕ} {container' : List Titled}
    (h : childrenAt p (modifyAt (·.set i (.factor header card')) path root) = some container') :
    ∃ container, childrenAt p root = some container ∧ SameHeads container container' := by
  induction path generalizing root p with
  | nil =>
    cases hc
    cases p with
    | nil =>
      cases h
      exact ⟨cs,rfl,sameHeads_set hi rfl rfl⟩
    | cons j p =>
      have hne : i ≠ j := by
        rintro rfl
        rw [modifyAt,childrenAt,List.getElem?_set_self (List.getElem?_eq_some_iff.mp hi).1] at h
        cases h
      rw [modifyAt,childrenAt,List.getElem?_set_ne hne] at h
      exact ⟨container',h,sameHeads_refl _⟩
  | cons k path ih =>
    rcases hk : root[k]? with _ | (⟨header',card''⟩ | ⟨header',nodeId,children⟩)
    · rw [childrenAt,hk] at hc
      cases hc
    · rw [childrenAt,hk] at hc
      cases hc
    · have hlt := (List.getElem?_eq_some_iff.mp hk).1
      rw [childrenAt,hk] at hc
      simp only [modifyAt,hk] at h
      cases p with
      | nil =>
        cases h
        exact ⟨root,rfl,sameHeads_set hk rfl rfl⟩
      | cons j p =>
        by_cases hkj : k = j
        · subst hkj
          rw [childrenAt,List.getElem?_set_self hlt] at h
          rw [childrenAt,hk]
          exact ih hc h
        · rw [childrenAt,List.getElem?_set_ne hkj] at h
          rw [childrenAt]
          exact ⟨container',h,sameHeads_refl _⟩

theorem changeCard_positioned {s s' : Shown} {path : List ℕ} {i : ℕ} {f : FactorCard → Option FactorCard}
    (hs : s.changeCard path i f = some s') (h : Positioned s.expressionRoot) : Positioned s'.expressionRoot := by
  rw [Shown.changeCard] at hs
  rcases hn : s.nodeAt path i with _ | (⟨header,card⟩ | ⟨header,nodeId,children⟩)
  · rw [hn] at hs
    cases hs
  · rw [hn] at hs
    obtain ⟨card',-,rfl⟩ := Option.map_eq_some_iff.mp hs
    obtain ⟨cs,hc,hi⟩ := Option.bind_eq_some_iff.mp hn
    intro p container' j node' hc' hj
    obtain ⟨container,hcontainer,hlength,hheads⟩ := childrenAt_setCard hc hi card' hc'
    obtain ⟨node,hnode,hheader,hword⟩ := hheads j node' hj
    rw [hheader,hword,hlength]
    exact h p container j node hcontainer hnode
  · rw [hn] at hs
    cases hs

theorem appendNode_default {m : Model} (hm : plain m = true) {path : List ℕ} {s : Shown} {cs : List Titled}
    (hc : childrenAt path s.expressionRoot = some cs) :
    Positioned (appendNode m path s).1.expressionRoot ∧ (appendNode m path s).1.editor =
      ⟨s.discovery,(Elements.appendNode s.discovery m s.nodeSequence (bares cs)).nodeSequence,
        putAt (Elements.appendNode s.discovery m s.nodeSequence (bares cs)).container path (bares s.expressionRoot)⟩ := by
  have hat : containerAt path (bares s.expressionRoot) = some (bares cs) := by
    rw [containerAt_bares,hc]
    rfl
  obtain ⟨hthrown,heditor⟩ := appendNode_simulates m path s (bares cs) hat
  refine ⟨(appendNode_headers s.discovery m path s (bares cs) hat rfl).1 ?_,heditor⟩
  rw [hthrown]
  exact appendNode_plain _ m hm _ _

/-- The actions that number the whole tree at their end, whatever it shows before. -/
def Renumbers : Action → Prop
  | .addFactor _ | .addGroup _ _ | .removeNode _ _ | .moveUp _ _ | .moveDown _ _ | .loadPreset _ => True
  | _ => False

theorem step_renumbers {s s' : Shown} {a : Action} (ha : Renumbers a) (hs : step s a = some s') :
    Positioned s'.expressionRoot := by
  cases a with
  | addFactor path =>
    obtain ⟨cs,hc,rfl⟩ := Option.map_eq_some_iff.mp hs
    exact (appendNode_default rfl hc).1
  | addGroup path operator =>
    obtain ⟨cs,hc,rfl⟩ := Option.map_eq_some_iff.mp hs
    exact (appendNode_default rfl hc).1
  | removeNode path i =>
    obtain ⟨node,-,rfl⟩ := Option.map_eq_some_iff.mp hs
    exact positioned_renumber _
  | moveUp path i =>
    obtain ⟨node,-,hs⟩ := Option.bind_eq_some_iff.mp hs
    split at hs
    · cases hs
    · cases hs
      exact positioned_renumber _
  | moveDown path i =>
    obtain ⟨node,-,hs⟩ := Option.bind_eq_some_iff.mp hs
    split at hs
    · cases hs
    · cases hs
      exact positioned_renumber _
  | loadPreset name =>
    cases hs
    exact loadPreset_positioned s name
  | addConstraint | removeRow | loadJson | loadDiscovery => exact ha.elim

/-- What a load leaves has no group without children. -/
def LeavesNoEmptyGroup (e : Editor) : Action → Prop
  | .loadJson text => ¬ LeavesEmptyGroup e text
  | _ => True

theorem step_positioned_iff {s s' : Shown} {a : Action} (h : Positioned s.expressionRoot) (hs : step s a = some s') :
    Positioned s'.expressionRoot ↔ LeavesNoEmptyGroup s.editor a := by
  cases a with
  | loadJson text =>
    cases hs
    exact loadJson_positioned h text
  | addConstraint path i kind => exact iff_of_true (changeCard_positioned hs h) trivial
  | removeRow path i kind k => exact iff_of_true (changeCard_positioned hs h) trivial
  | loadDiscovery d =>
    cases hs
    exact iff_of_true h trivial
  | addFactor path => exact iff_of_true (step_renumbers (a := .addFactor path) trivial hs) trivial
  | addGroup path operator => exact iff_of_true (step_renumbers (a := .addGroup path operator) trivial hs) trivial
  | removeNode path i => exact iff_of_true (step_renumbers (a := .removeNode path i) trivial hs) trivial
  | moveUp path i => exact iff_of_true (step_renumbers (a := .moveUp path i) trivial hs) trivial
  | moveDown path i => exact iff_of_true (step_renumbers (a := .moveDown path i) trivial hs) trivial
  | loadPreset name => exact iff_of_true (step_renumbers (a := .loadPreset name) trivial hs) trivial

/-- The titles and the buttons are right in every state of a run exactly if no load of the run leaves a
group without children. -/
theorem titles_positioned_iff (actions : List Action) :
    (∀ n s, run step opening (actions.take n) = some s → Positioned s.expressionRoot) ↔
      Along step (fun s => LeavesNoEmptyGroup s.editor) opening actions := by
  refine along_iff_reached (I := fun _ => True) (P := fun s : Shown => Positioned s.expressionRoot) ?_ ?_ trivial
    (loadPreset_positioned _ _) actions
  · intro s a s' _ h hs
    exact ⟨trivial,step_positioned_iff h hs⟩
  · intro s a hs
    cases a with
    | loadJson text => cases hs
    | _ => trivial

theorem change_eq (s : Shown) (path : List ℕ) (f : List Element → Option (ℕ × List Element)) :
    s.editor.change path f = (childrenAt path s.expressionRoot).bind fun cs => (f (bares cs)).map fun r =>
      ⟨s.discovery,r.1,putAt r.2 path (bares s.expressionRoot)⟩ := by
  rw [Editor.change,changeAt_eq]
  simp only [Shown.editor,containerAt_bares]
  cases childrenAt path s.expressionRoot with
  | none => rfl
  | some cs =>
    simp only [Option.map_some,Option.bind_some,Option.map_map]
    rfl

theorem changeCard_editor (s : Shown) (path : List ℕ) (i : ℕ) (f : FactorCard → Option FactorCard) :
    (s.changeCard path i f).map Shown.editor =
      s.editor.change path fun container => (Elements.changeCard i f container).map (s.nodeSequence,·) := by
  rw [change_eq,Shown.changeCard,Shown.nodeAt]
  cases hc : childrenAt path s.expressionRoot with
  | none => rfl
  | some cs =>
    simp only [Option.bind_some,Elements.changeCard,bares_getElem?]
    rcases cs[i]? with _ | (⟨header,card⟩ | ⟨header,nodeId,children⟩)
    · rfl
    · simp only [Option.map_some,bare,Option.map_map]
      refine congrArg (Option.map · (f card)) (funext fun card' => ?_)
      simp only [Function.comp_apply,Shown.editor,bares_modifyAt _ hc,bares_set,bare]
    · rfl

theorem renumbered_editor {s : Shown} {path : List ℕ} {cs : List Titled}
    (hc : childrenAt path s.expressionRoot = some cs) (f : List Titled → List Titled) :
    (s.renumbered f path).editor =
      ⟨s.discovery,s.nodeSequence,putAt (bares (f cs)) path (bares s.expressionRoot)⟩ := by
  simp only [Shown.renumbered,Shown.editor,bares_renumber,bares_modifyAt f hc]

theorem bares_moveBefore {cs : List Titled} {i : ℕ} (hpos : 0 < i) (hlt : i < cs.length) :
    Elements.insertBefore i (bares cs) = some (bares (moveBefore i cs)) := by
  have hi : cs[i]? = some cs[i] := List.getElem?_eq_getElem hlt
  rw [Elements.insertBefore,moveBefore,bares_getElem?,hi,Option.map_some]
  simp only [hpos,if_true,bares_eq_map,List.map_insertIdx,List.eraseIdx_map]

/-- In a page whose headers are right exactly the buttons of possible moves are enabled, and each does
what it does without headers. -/
theorem step_editor {s : Shown} (h : Positioned s.expressionRoot) (a : Action) :
    (step s a).map Shown.editor = Elements.step s.editor a := by
  cases a with
  | addFactor path =>
    rw [step,Elements.step,Editor.appendAt,change_eq,Option.map_map]
    cases hc : childrenAt path s.expressionRoot with
    | none => rfl
    | some cs => exact congrArg some (appendNode_default rfl hc).2
  | addGroup path operator =>
    rw [step,Elements.step,Editor.appendAt,change_eq,Option.map_map]
    cases hc : childrenAt path s.expressionRoot with
    | none => rfl
    | some cs => exact congrArg some (appendNode_default rfl hc).2
  | addConstraint path i kind => exact changeCard_editor s path i _
  | removeRow path i kind k => exact changeCard_editor s path i _
  | removeNode path i =>
    rw [step,Elements.step,change_eq,Shown.nodeAt]
    cases hc : childrenAt path s.expressionRoot with
    | none => rfl
    | some cs =>
      simp only [Option.bind_some,Elements.removeNode,length_bares]
      cases hi : cs[i]? with
      | none =>
        rw [if_neg (Nat.not_lt.mpr (List.getElem?_eq_none_iff.mp hi))]
        rfl
      | some node =>
        rw [if_pos (List.getElem?_eq_some_iff.mp hi).1]
        simp only [Option.map_some,renumbered_editor hc,bares_eq_map,List.eraseIdx_map]
        rfl
  | moveUp path i =>
    rw [step,Elements.step,change_eq,Shown.nodeAt]
    cases hc : childrenAt path s.expressionRoot with
    | none => rfl
    | some cs =>
      simp only [Option.bind_some]
      cases hi : cs[i]? with
      | none => simp only [Elements.insertBefore,bares_getElem?,hi]; rfl
      | some node =>
        have hlt := (List.getElem?_eq_some_iff.mp hi).1
        rw [Option.bind_some,h path cs i node hc hi,headerOf]
        by_cases hzero : i = 0
        · simp only [hzero,decide_true,if_true,Elements.insertBefore,Nat.lt_irrefl,if_false]
          cases (bares cs)[0]? <;> rfl
        · simp only [hzero,decide_false,Bool.false_eq_true,if_false,bares_moveBefore (Nat.pos_of_ne_zero hzero) hlt,
            Option.map_some,renumbered_editor hc]
          rfl
  | moveDown path i =>
    rw [step,Elements.step,change_eq,Shown.nodeAt]
    cases hc : childrenAt path s.expressionRoot with
    | none => rfl
    | some cs =>
      simp only [Option.bind_some]
      cases hi : cs[i]? with
      | none =>
        have hle := List.getElem?_eq_none_iff.mp hi
        have hnext : cs[i+1]? = none := List.getElem?_eq_none_iff.mpr (Nat.le_succ_of_le hle)
        simp only [Elements.insertBefore,bares_getElem?,hnext]
        rfl
      | some node =>
        have hlt := (List.getElem?_eq_some_iff.mp hi).1
        rw [Option.bind_some,h path cs i node hc hi,headerOf]
        by_cases hlast : i = cs.length-1
        · have hnext : cs[i+1]? = none := List.getElem?_eq_none_iff.mpr (by omega)
          simp only [decide_eq_true hlast,if_true,Elements.insertBefore,bares_getElem?,hnext]
          rfl
        · have hnext : i+1 < cs.length := by omega
          simp only [hlast,decide_false,Bool.false_eq_true,if_false,bares_moveBefore (Nat.succ_pos i) hnext,
            Option.map_some,renumbered_editor hc]
          rfl
  | loadJson text => exact congrArg some (loadJson_editor s text)
  | loadPreset name => exact congrArg some (loadPreset_editor s name)
  | loadDiscovery d => rfl

theorem opening_editor : opening.editor = Elements.opening := loadPreset_editor _ _

/-- A run without loads that leave a group empty does to the tree what it does without headers. -/
theorem run_editor {s : Shown} (h : Positioned s.expressionRoot) {actions : List Action}
    (ha : Along step (fun s => LeavesNoEmptyGroup s.editor) s actions) :
    (run step s actions).map Shown.editor = run Elements.step s.editor actions := by
  induction actions generalizing s with
  | nil => rfl
  | cons a actions ih =>
    rw [run_cons,run_cons,← step_editor h]
    cases hs : step s a with
    | none => rfl
    | some s' => exact ih ((step_positioned_iff h hs).mpr ha.1) (ha.2 s' hs)

theorem thrown_editor (s : Shown) (a : Action) : thrown s a = Elements.thrown s.editor a := by
  have happend : ∀ (m : Model) (path : List ℕ),
      ((childrenAt path s.expressionRoot).bind fun _ => (appendNode m path s).2) =
        (containerAt path (bares s.expressionRoot)).bind fun container =>
          (Elements.appendNode s.discovery m s.nodeSequence container).thrown := by
    intro m path
    rw [containerAt_bares]
    cases hc : childrenAt path s.expressionRoot with
    | none => rfl
    | some cs =>
      have hat : containerAt path (bares s.expressionRoot) = some (bares cs) := by
        rw [containerAt_bares,hc]
        rfl
      exact (appendNode_simulates m path s (bares cs) hat).thrown
  have hreset := resetRoot_container s
  cases a with
  | addFactor path => exact happend (.factor {}) path
  | addGroup path operator => exact happend (.group operator []) path
  | loadJson text =>
    have hloaded : (fun m => (appendNode m [] (resetRoot s)).2) = fun m =>
        (Elements.appendNode s.discovery m 0 []).thrown :=
      funext fun m => (appendNode_simulates m [] (resetRoot s) [] hreset).thrown
    exact congrArg (loadThrown · text) hloaded
  | loadPreset name =>
    exact (appendNodes_simulates _ (fun m _ path s cs => appendNode_simulates m path s cs) hreset).thrown
  | _ => rfl

/-- In a run without loads that leave a group empty the page is at every time in the state of the editor
without headers, and every append throws the same in both. -/
theorem page_follows_editor {actions : List Action}
    (h : Along step (fun s => LeavesNoEmptyGroup s.editor) opening actions) :
    (run step opening actions).map Shown.editor = run Elements.step Elements.opening actions ∧
    ∀ n s e a, run step opening (actions.take n) = some s →
      run Elements.step Elements.opening (actions.take n) = some e → actions[n]? = some a →
      thrown s a = Elements.thrown e a := by
  have hrun : ∀ {as : List Action}, Along step (fun s => LeavesNoEmptyGroup s.editor) opening as →
      (run step opening as).map Shown.editor = run Elements.step Elements.opening as := by
    intro as has
    rw [← opening_editor]
    exact run_editor (loadPreset_positioned _ _) has
  refine ⟨hrun h,fun n s e a hs he _ => ?_⟩
  rw [← List.take_append_drop n actions] at h
  have hsame := hrun h.left
  rw [hs,he] at hsame
  cases hsame
  exact thrown_editor s a

theorem page_follows_editor_moved :
    ((run step opening [.addFactor [],.moveUp [] 1]).map Shown.editor =
      run Elements.step Elements.opening [.addFactor [],.moveUp [] 1]) ∧
    ∀ n s e a, run step opening (([.addFactor [],.moveUp [] 1] : List Action).take n) = some s →
      run Elements.step Elements.opening (([.addFactor [],.moveUp [] 1] : List Action).take n) = some e →
      ([.addFactor [],.moveUp [] 1] : List Action)[n]? = some a → thrown s a = Elements.thrown e a :=
  page_follows_editor ⟨trivial,fun _ _ => ⟨trivial,fun _ _ => trivial⟩⟩

/-- The only factor of a group has a row that the suggestions cannot be refreshed for. -/
example : LeavesEmptyGroup Elements.opening
    (js "\x7b\"userinfo\":\x7b\"amr_details\":\x7b\"one_of\":[\x7b\"amr_identifier\":\x7b\"value\":\"otp\"\x7d,\"amr_properties\":\x7b\"constructor\":null\x7d\x7d]\x7d\x7d\x7d") := by
  decide +kernel

end Oidc4acLab.Builder.Titles
