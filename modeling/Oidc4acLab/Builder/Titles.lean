import Oidc4acLab.Builder.Suggestions

/-! # Titles and move buttons

Each node shows a title with its position and has two buttons that move it among its siblings.
All of these are written by `renumber`, which every change of the tree calls at its end. A load
that throws on its way never comes to that end. The state is the tree of elements together
with what their headers show.
-/
namespace Oidc4acLab.Builder.Titles
open Text Transition Elements

/-- What a header shows, and whether its two buttons are disabled. -/
structure Header where
  title : Text
  moveUpDisabled : Bool
  moveDownDisabled : Bool
  deriving DecidableEq

def Header.template : Header := ⟨[],false,false⟩

inductive Titled
  | factor (header : Header) (card : FactorCard)
  | group (header : Header) (nodeId : Text) (children : List Titled)

def Titled.header : Titled → Header
  | .factor header _ => header
  | .group header _ _ => header

def Titled.word : Titled → Text
  | .factor _ _ => js "Factor"
  | .group _ _ _ => js "Group"

mutual

def bare : Titled → Element
  | .factor _ card => .factor card
  | .group _ nodeId children => .group nodeId (bares children)

def bares : List Titled → List Element
  | [] => []
  | node :: nodes => bare node :: bares nodes

end

/-- The position of a child, where `outer` is the one of its group and empty in the root. -/
def childPosition (outer : Text) (index : ℕ) : Text :=
  if outer = [] then digits (index+1) else outer ++ (js "." ++ digits (index+1))

def headerOf (word position : Text) (index count : ℕ) : Header :=
  ⟨word ++ (js " " ++ position),decide (index = 0),decide (index = count-1)⟩

mutual

def renumberNode (outer : Text) (index count : ℕ) : Titled → Titled
  | .factor _ card => .factor (headerOf (js "Factor") (childPosition outer index) index count) card
  | .group _ nodeId children =>
    .group (headerOf (js "Group") (childPosition outer index) index count) nodeId
      (renumberNodes (childPosition outer index) 0 children.length children)

/-- The loop over the children, where the first one has this index. -/
def renumberNodes (outer : Text) (index count : ℕ) : List Titled → List Titled
  | [] => []
  | node :: nodes => renumberNode outer index count node :: renumberNodes outer (index+1) count nodes

end

def renumber (expressionRoot : List Titled) : List Titled := renumberNodes [] 0 expressionRoot.length expressionRoot

/-- The children of the root, or of the group to which the positions lead. -/
def childrenAt : List ℕ → List Titled → Option (List Titled)
  | [], container => some container
  | i :: path, container =>
    match container[i]? with
    | some (.group _ _ children) => childrenAt path children
    | _ => none

def modifyAt (f : List Titled → List Titled) : List ℕ → List Titled → List Titled
  | [], container => f container
  | i :: path, container =>
    match container[i]? with
    | some (.group header nodeId children) => container.set i (.group header nodeId (modifyAt f path children))
    | _ => container

/-- The positions of the groups around a node and its own, counted from one. -/
def positionText (path : List ℕ) : Text := join (js ".") (path.map fun i => digits (i+1))

/-- Every title tells the kind and the position of its node, and the buttons that would move a first
node up or a last node down are disabled, and no others. -/
def Positioned (expressionRoot : List Titled) : Prop :=
  ∀ path container i node, childrenAt path expressionRoot = some container → container[i]? = some node →
    node.header = headerOf node.word (positionText (path ++ [i])) i container.length

@[simp] theorem length_renumberNodes (outer : Text) (index count : ℕ) (nodes : List Titled) :
    (renumberNodes outer index count nodes).length = nodes.length := by
  induction nodes generalizing index with
  | nil => rfl
  | cons node nodes ih => rw [renumberNodes,List.length_cons,ih,List.length_cons]

theorem renumberNodes_getElem? (outer : Text) (index count : ℕ) (nodes : List Titled) (i : ℕ) :
    (renumberNodes outer index count nodes)[i]? = nodes[i]?.map (renumberNode outer (index+i) count) := by
  induction nodes generalizing index i with
  | nil => rfl
  | cons node nodes ih =>
    cases i with
    | zero => rfl
    | succ i =>
      rw [renumberNodes,List.getElem?_cons_succ,ih,List.getElem?_cons_succ]
      congr 2
      omega

@[simp] theorem header_renumberNode (outer : Text) (index count : ℕ) (node : Titled) :
    (renumberNode outer index count node).header = headerOf node.word (childPosition outer index) index count := by
  cases node <;> rfl

@[elab_as_elim]
theorem Titled.induction {motive : Titled → Prop} (factor : ∀ header card, motive (.factor header card))
    (group : ∀ header nodeId children, (∀ node ∈ children, motive node) → motive (.group header nodeId children))
    (node : Titled) : motive node := by
  refine @Titled.rec motive (fun nodes => ∀ node ∈ nodes, motive node) factor group ?_ ?_ node
  · simp
  · intro node nodes hnode hnodes n hn
    rcases List.mem_cons.mp hn with rfl | hn
    · exact hnode
    · exact hnodes n hn

theorem renumberNodes_twice {nodes : List Titled}
    (h : ∀ node ∈ nodes, ∀ outer index count,
      renumberNode outer index count (renumberNode outer index count node) = renumberNode outer index count node)
    (outer : Text) (index count : ℕ) :
    renumberNodes outer index count (renumberNodes outer index count nodes) = renumberNodes outer index count nodes := by
  induction nodes generalizing index with
  | nil => rfl
  | cons node nodes ih =>
    simp only [renumberNodes]
    rw [h node List.mem_cons_self,ih fun n hn => h n (List.mem_cons_of_mem node hn)]

theorem renumberNode_twice (node : Titled) (outer : Text) (index count : ℕ) :
    renumberNode outer index count (renumberNode outer index count node) = renumberNode outer index count node := by
  induction node using Titled.induction generalizing outer index count with
  | factor header card => rfl
  | group header nodeId children ih =>
    simp only [renumberNode,length_renumberNodes]
    rw [renumberNodes_twice ih]

theorem renumber_renumber (root : List Titled) : renumber (renumber root) = renumber root := by
  rw [renumber,renumber,length_renumberNodes]
  exact renumberNodes_twice (fun node _ => renumberNode_twice node) [] 0 root.length

theorem bares_renumberNodes_of {nodes : List Titled}
    (h : ∀ node ∈ nodes, ∀ outer index count, bare (renumberNode outer index count node) = bare node)
    (outer : Text) (index count : ℕ) : bares (renumberNodes outer index count nodes) = bares nodes := by
  induction nodes generalizing index with
  | nil => rfl
  | cons node nodes ih =>
    rw [renumberNodes,bares,bares,h node List.mem_cons_self,ih fun n hn => h n (List.mem_cons_of_mem node hn)]

theorem bare_renumberNode (node : Titled) (outer : Text) (index count : ℕ) :
    bare (renumberNode outer index count node) = bare node := by
  induction node using Titled.induction generalizing outer index count with
  | factor header card => rfl
  | group header nodeId children ih => rw [renumberNode,bare,bare,bares_renumberNodes_of ih]

@[simp] theorem bares_renumber (root : List Titled) : bares (renumber root) = bares root :=
  bares_renumberNodes_of (fun node _ => bare_renumberNode node) [] 0 root.length

theorem positionText_nil : positionText [] = [] := rfl

theorem positionText_ne_nil (path : List ℕ) (i : ℕ) : positionText (i :: path) ≠ [] := by
  intro h
  cases path with
  | nil =>
    rw [positionText,List.map_singleton,join_singleton] at h
    exact digits_ne_nil _ h
  | cons j path =>
    rw [positionText,List.map_cons,List.map_cons,join_cons_cons] at h
    exact digits_ne_nil _ (List.append_eq_nil_iff.mp h).1

theorem positionText_snoc (path : List ℕ) (i : ℕ) :
    positionText (path ++ [i]) = childPosition (positionText path) i := by
  induction path with
  | nil =>
    rw [positionText_nil,childPosition,if_pos rfl]
    exact join_singleton _ _
  | cons j path ih =>
    rw [childPosition,if_neg (positionText_ne_nil path j)]
    cases path with
    | nil =>
      rw [positionText,positionText,List.singleton_append,List.map_cons,List.map_singleton,join_cons_cons,
        join_singleton,List.map_singleton,join_singleton]
    | cons k path =>
      have htail : ∀ path', positionText (j :: k :: path') =
          digits (j+1) ++ (js "." ++ positionText (k :: path')) := by
        intro path'
        rw [positionText,List.map_cons,List.map_cons,join_cons_cons]
        rfl
      rw [List.cons_append,List.cons_append,htail,htail,← List.cons_append,ih,childPosition,
        if_neg (positionText_ne_nil path k)]
      simp only [List.append_assoc]

def Titled.children : Titled → List Titled
  | .factor _ _ => []
  | .group _ _ children => children

/-- The nodes below a container that stands at a path show their positions. -/
def PositionedFrom (base : List ℕ) (container : List Titled) : Prop :=
  ∀ path cs i node, childrenAt path container = some cs → cs[i]? = some node →
    node.header = headerOf node.word (positionText (base ++ path ++ [i])) i cs.length

theorem childrenAt_cons {container : List Titled} {node : Titled} {i : ℕ} (h : container[i]? = some node)
    {path : List ℕ} {cs : List Titled} (hc : childrenAt path node.children = some cs) (hi : cs ≠ []) :
    childrenAt (i :: path) container = some cs := by
  rw [childrenAt,h]
  cases node with
  | factor header card =>
    cases path with
    | nil =>
      cases hc
      exact absurd rfl hi
    | cons j path => cases hc
  | group header nodeId children => exact hc

theorem renumberNode_eq_self {node : Titled} (base : List ℕ) {i count : ℕ}
    (hheader : node.header = headerOf node.word (positionText (base ++ [i])) i count)
    (hchildren : PositionedFrom (base ++ [i]) node.children) :
    renumberNode (positionText base) i count node = node := by
  induction node using Titled.induction generalizing base i count with
  | factor header card =>
    rw [renumberNode,← positionText_snoc]
    exact congrArg (Titled.factor · card) hheader.symm
  | group header nodeId children ih =>
    have hnodes : renumberNodes (positionText (base ++ [i])) 0 children.length children = children := by
      refine List.ext_getElem? fun j => ?_
      rw [renumberNodes_getElem?,Nat.zero_add]
      cases hj : children[j]? with
      | none => rfl
      | some child =>
        have hchild : child.header = headerOf child.word (positionText (base ++ [i] ++ [j])) j children.length := by
          have h := hchildren [] children j child rfl hj
          rwa [List.append_nil] at h
        refine congrArg some (ih child (List.mem_of_getElem? hj) _ hchild ?_)
        intro path cs k n hc hk
        have hne : cs ≠ [] := by
          rintro rfl
          cases hk
        have h := hchildren (j :: path) cs k n (childrenAt_cons hj hc hne) hk
        rwa [List.append_cons (base ++ [i]) j path] at h
    rw [renumberNode,← positionText_snoc,hnodes]
    exact congrArg (Titled.group · nodeId children) hheader.symm

theorem positionedFrom_of_renumberNodes (base : List ℕ) {path : List ℕ} {container cs : List Titled} {i : ℕ}
    {node : Titled}
    (h : renumberNodes (positionText base) 0 container.length container = container)
    (hc : childrenAt path container = some cs) (hi : cs[i]? = some node) :
    node.header = headerOf node.word (positionText (base ++ path ++ [i])) i cs.length := by
  induction path generalizing base container with
  | nil =>
    cases hc
    have hat := renumberNodes_getElem? (positionText base) 0 cs.length cs i
    rw [h,hi,Nat.zero_add,Option.map_some,Option.some_inj] at hat
    rw [List.append_nil,positionText_snoc]
    conv_lhs => rw [hat]
    exact header_renumberNode _ _ _ _
  | cons j path ih =>
    rw [childrenAt] at hc
    rcases hj : container[j]? with _ | (⟨header,card⟩ | ⟨header,nodeId,children⟩)
    · rw [hj] at hc
      cases hc
    · rw [hj] at hc
      cases hc
    · rw [hj] at hc
      have hat := renumberNodes_getElem? (positionText base) 0 container.length container j
      rw [h,hj,Nat.zero_add,Option.map_some,Option.some_inj,renumberNode,← positionText_snoc] at hat
      have hbelow := (Titled.group.inj hat).2.2
      rw [List.append_cons base j path]
      exact ih _ hbelow.symm hc

theorem positioned_iff {root : List Titled} : Positioned root ↔ renumber root = root := by
  constructor
  · intro h
    refine List.ext_getElem? fun i => ?_
    rw [renumber,renumberNodes_getElem?,Nat.zero_add]
    cases hi : root[i]? with
    | none => rfl
    | some node =>
      refine congrArg some (renumberNode_eq_self [] (h [] root i node rfl hi) ?_)
      intro path cs k n hc hk
      have hne : cs ≠ [] := by
        rintro rfl
        cases hk
      exact h (i :: path) cs k n (childrenAt_cons hi hc hne) hk
  · intro h path cs i node hc hi
    exact positionedFrom_of_renumberNodes [] h hc hi

theorem positioned_renumber (root : List Titled) : Positioned (renumber root) :=
  positioned_iff.mpr (renumber_renumber root)

/-- The state of the script with the tree that it shows. -/
structure Shown where
  discovery : Discovery
  nodeSequence : ℕ
  expressionRoot : List Titled

/-- The editor without what the headers show. -/
def Shown.editor (s : Shown) : Editor := ⟨s.discovery,s.nodeSequence,bares s.expressionRoot⟩

/-- Appends the factor at the path and numbers the whole tree, unless filling it in throws. -/
def addFactor (model : FactorModel) (path : List ℕ) (s : Shown) : Shown × Option Thrown :=
  match factorControls s.discovery model with
  | .ok _ =>
    let factor := Titled.factor .template (factorCard (nodeName (s.nodeSequence+1)) model)
    ({ s with nodeSequence := s.nodeSequence+1,
              expressionRoot := renumber (modifyAt (· ++ [factor]) path s.expressionRoot) },none)
  | .error e => ({ s with nodeSequence := s.nodeSequence+1 },some e)

def openGroup (path : List ℕ) (s : Shown) : List ℕ × Shown :=
  let group := Titled.group .template (nodeName (s.nodeSequence+1)) []
  (path ++ [((childrenAt path s.expressionRoot).getD []).length],
    { s with nodeSequence := s.nodeSequence+1,
             expressionRoot := modifyAt (· ++ [group]) path s.expressionRoot })

mutual

/-- `addGroup` appends the group before its children, and numbers the tree after them. -/
def appendNode : Model → List ℕ → Shown → Shown × Option Thrown
  | .factor m, path, s => addFactor m path s
  | .group _ children, path, s =>
    let (inner,s) := openGroup path s
    let r := if children.isEmpty then addFactor {} inner s else appendNodes children inner s
    match r.2 with
    | none => ({ r.1 with expressionRoot := renumber r.1.expressionRoot },none)
    | some e => (r.1,some e)

def appendNodes : List Model → List ℕ → Shown → Shown × Option Thrown
  | [], _, s => (s,none)
  | m :: ms, path, s =>
    let r := appendNode m path s
    match r.2 with
    | none => appendNodes ms path r.1
    | some e => (r.1,some e)

end

def resetRoot (s : Shown) : Shown := { s with nodeSequence := 0, expressionRoot := [] }

def loadJson (s : Shown) (text : Text) : Shown :=
  match loadedDetails text with
  | none => s
  | some details =>
    let r := appendNodes (loadedModels details) [] (resetRoot s)
    match r.2 with
    | none => { r.1 with expressionRoot := renumber r.1.expressionRoot }
    | some _ => r.1

def loadPreset (s : Shown) (name : Text) : Shown :=
  (appendNodes ((presets.lookup name).getD []) [] (resetRoot s)).1

def moveBefore (i : ℕ) (container : List Titled) : List Titled :=
  match container[i]? with
  | some node => if 0 < i then (container.eraseIdx i).insertIdx (i-1) node else container
  | none => container

def Shown.renumbered (s : Shown) (f : List Titled → List Titled) (path : List ℕ) : Shown :=
  { s with expressionRoot := renumber (modifyAt f path s.expressionRoot) }

def Shown.nodeAt (s : Shown) (path : List ℕ) (i : ℕ) : Option Titled :=
  (childrenAt path s.expressionRoot).bind fun container => container[i]?

def Shown.changeCard (s : Shown) (path : List ℕ) (i : ℕ) (f : FactorCard → Option FactorCard) : Option Shown :=
  match s.nodeAt path i with
  | some (.factor header card) => (f card).map fun card' =>
    { s with expressionRoot := modifyAt (·.set i (.factor header card')) path s.expressionRoot }
  | _ => none

/-- There is no step where the button does not exist or is disabled. -/
def step (s : Shown) : Action → Option Shown
  | .addFactor path => (childrenAt path s.expressionRoot).map fun _ => (appendNode (.factor {}) path s).1
  | .addGroup path operator =>
    (childrenAt path s.expressionRoot).map fun _ => (appendNode (.group operator []) path s).1
  | .addConstraint path i kind => s.changeCard path i fun card => some (card.addConstraint kind)
  | .removeRow path i kind k => s.changeCard path i fun card =>
    if k < (card.rows kind).length then some (card.removeRow kind k) else none
  | .removeNode path i => (s.nodeAt path i).map fun _ => s.renumbered (·.eraseIdx i) path
  | .moveUp path i => (s.nodeAt path i).bind fun node =>
    if node.header.moveUpDisabled then none else some (s.renumbered (moveBefore i) path)
  | .moveDown path i => (s.nodeAt path i).bind fun node =>
    if node.header.moveDownDisabled then none else some (s.renumbered (moveBefore (i+1)) path)
  | .loadJson text => some (loadJson s text)
  | .loadPreset name => some (loadPreset s name)
  | .loadDiscovery d => some { s with discovery := d }

/-- What is thrown where an action appends nodes. -/
def thrown (s : Shown) : Action → Option Thrown
  | .addFactor path => (childrenAt path s.expressionRoot).bind fun _ => (appendNode (.factor {}) path s).2
  | .addGroup path operator =>
    (childrenAt path s.expressionRoot).bind fun _ => (appendNode (.group operator []) path s).2
  | .loadJson text => loadThrown (fun m => (appendNode m [] (resetRoot s)).2) text
  | .loadPreset name => (appendNodes ((presets.lookup name).getD []) [] (resetRoot s)).2
  | _ => none

/-- The page after the script has run, with the first preset. -/
def opening : Shown := loadPreset ⟨noDiscovery,0,[]⟩ (js "essential-password")

end Oidc4acLab.Builder.Titles
