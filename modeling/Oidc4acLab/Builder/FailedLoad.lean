import Oidc4acLab.Builder.Structure

/-! # Loads that end in the alert

`loadJson` clears the tree before it turns `amr_details` into nodes. What throws after that
leaves the nodes that were appended until then; the other controls keep their state.
-/
namespace Oidc4acLab.Builder
open Text Fallible

/-- What appending a model leaves in the container when it throws: nothing of a factor, and of a
group the children that were complete and what the next child left. -/
inductive Begun (d : Discovery) : Model → List Node → Prop
  | factor {m : FactorModel} {e : Thrown} : factorControls d m = .error e → Begun d (.factor m) []
  | group {operator : Operator} {before after : List Model} {m : Model} {done rest : List Node} :
      List.Forall₂ (fun m n => addedNode d m = .ok n) before done → Begun d m rest →
      Begun d (.group operator (before ++ m :: after)) [.group operator (done ++ rest)]

/-- What appending several models leaves when one of them throws. -/
def Interrupted (d : Discovery) (ms : List Model) (ns : List Node) : Prop :=
  ∃ before m after done rest, ms = before ++ m :: after ∧
    List.Forall₂ (fun m n => addedNode d m = .ok n) before done ∧ Begun d m rest ∧
    ns = done ++ rest

/-- The tree that a failed load of `details` leaves. -/
def Remains (d : Discovery) (details : Json) (tree : List Node) : Prop :=
  if isExpression details then
    match expressionModel details with
    | .ok m => Begun d m tree
    | .error _ => tree = []
  else tree = []

theorem interrupted_cons {d : Discovery} {m : Model} {ms : List Model} {ns : List Node} :
    Interrupted d (m :: ms) ns ↔
      Begun d m ns ∨ ∃ n ns', addedNode d m = .ok n ∧ Interrupted d ms ns' ∧ ns = n :: ns' := by
  constructor
  · rintro ⟨before,k,after,done,rest,hms,hdone,hrest,rfl⟩
    cases hdone with
    | nil =>
      cases hms
      exact Or.inl hrest
    | @cons _ n before' done' hn hdone =>
      cases hms
      exact Or.inr ⟨n,done' ++ rest,hn,⟨before',k,after,done',rest,rfl,hdone,hrest,rfl⟩,rfl⟩
  · rintro (h | ⟨n,_,hn,⟨before,k,after,done,rest,rfl,hdone,hrest,rfl⟩,rfl⟩)
    · exact ⟨[],m,ms,[],ns,rfl,.nil,h,rfl⟩
    · exact ⟨m :: before,k,after,n :: done,rest,rfl,.cons hn hdone,hrest,rfl⟩

theorem factorControls_default (d : Discovery) : ∃ f, factorControls d {} = .ok f := ⟨_,rfl⟩

theorem begun_group {d : Discovery} {operator : Operator} {children : List Model} {tree : List Node} :
    Begun d (.group operator children) tree ↔
      ∃ ns, Interrupted d children ns ∧ tree = [.group operator ns] := by
  constructor
  · rintro (_ | ⟨hdone,hrest⟩)
    exact ⟨_,⟨_,_,_,_,_,rfl,hdone,hrest,rfl⟩,rfl⟩
  · rintro ⟨_,⟨before,m,after,done,rest,rfl,hdone,hrest,rfl⟩,rfl⟩
    exact .group hdone hrest

theorem appendNodes_failed {d : Discovery} {ms : List Model}
    (h : ∀ m ∈ ms, ∀ container container', (∃ e, appendNode d m container = (container',some e)) ↔
      ∃ ns, Begun d m ns ∧ container' = container ++ ns) (container container' : List Node) :
    (∃ e, appendNodes d ms container = (container',some e)) ↔
      ∃ ns, Interrupted d ms ns ∧ container' = container ++ ns := by
  induction ms generalizing container with
  | nil => simp [appendNodes,Interrupted]
  | cons m ms ih =>
    have hfailed := h m List.mem_cons_self container container'
    have hadded := appendNode_eq d m container
    simp only [appendNodes,interrupted_cons]
    rcases happ : appendNode d m container with ⟨c,_ | e⟩
    · rw [happ] at hfailed hadded
      obtain ⟨n,hn,rfl⟩ := (hadded c).mp rfl
      have hnot : ∀ ns, ¬ (Begun d m ns ∧ container' = container ++ ns) := by
        intro ns hns
        obtain ⟨e,he⟩ := hfailed.mpr ⟨ns,hns⟩
        cases he
      refine (ih (fun k hk => h k (List.mem_cons_of_mem m hk)) _).trans ?_
      constructor
      · rintro ⟨ns,hns,rfl⟩
        exact ⟨n :: ns,Or.inr ⟨n,ns,hn,hns,rfl⟩,by simp⟩
      · rintro ⟨ns,hns | ⟨n',ns',hn',hns,rfl⟩,hc⟩
        · exact absurd ⟨hns,hc⟩ (hnot ns)
        · cases hn.symm.trans hn'
          exact ⟨ns',hns,by simp [hc]⟩
    · rw [happ] at hfailed hadded
      have hnot : ∀ n, addedNode d m ≠ .ok n := by
        intro n hn
        have hnone := (hadded _).mpr ⟨n,hn,rfl⟩
        cases hnone
      have hcons : ∀ ns, (Begun d m ns ∨ ∃ n ns', addedNode d m = .ok n ∧ Interrupted d ms ns' ∧
          ns = n :: ns') ↔ Begun d m ns := by
        intro ns
        refine or_iff_left ?_
        rintro ⟨n,-,hn,-⟩
        exact hnot n hn
      simp only [hcons]
      exact hfailed

theorem appendNode_failed (d : Discovery) (m : Model) (container container' : List Node) :
    (∃ e, appendNode d m container = (container',some e)) ↔
      ∃ ns, Begun d m ns ∧ container' = container ++ ns := by
  induction m using Model.induction generalizing container container' with
  | factor m =>
    rw [appendNode,addFactor]
    cases hm : factorControls d m with
    | ok f =>
      simp only [Prod.mk.injEq,reduceCtorEq,and_false,exists_false,false_iff]
      rintro ⟨ns,⟨he⟩,-⟩
      cases hm.symm.trans he
    | error e =>
      constructor
      · rintro ⟨_,he⟩
        cases he
        exact ⟨[],.factor hm,by simp⟩
      · rintro ⟨ns,⟨-⟩,rfl⟩
        exact ⟨e,by simp⟩
  | group operator children ih =>
    simp only [appendNode,begun_group]
    cases children with
    | nil =>
      obtain ⟨f,hf⟩ := factorControls_default d
      simp [addFactor,hf,Interrupted]
    | cons k ks =>
      have hchildren := appendNodes_failed ih [] 
      simp only [List.isEmpty_cons,Bool.false_eq_true,if_false]
      rcases happ : appendNodes d (k :: ks) [] with ⟨ns,_ | e⟩
      · simp only [Prod.mk.injEq,reduceCtorEq,and_false,exists_false,false_iff]
        rintro ⟨_,⟨ns',hns,-⟩,-⟩
        obtain ⟨e,he⟩ := (hchildren ns').mpr ⟨ns',hns,rfl⟩
        rw [happ] at he
        cases he
      · have hleft : ∀ ns', Interrupted d (k :: ks) ns' ↔ ns' = ns := by
          intro ns'
          have hns' := hchildren ns'
          rw [happ] at hns'
          constructor
          · intro hi
            obtain ⟨_,he⟩ := hns'.mpr ⟨ns',hi,rfl⟩
            cases he
            rfl
          · rintro rfl
            obtain ⟨_,hi,rfl⟩ := hns'.mp ⟨e,rfl⟩
            exact hi
        simp [hleft,eq_comm]

theorem expressionNodes_failed {d : Discovery} {details : Json} {nodes : List Node} {e : Thrown}
    (h : expressionNodes d details = (nodes,some e)) (tree : List Node) :
    Remains d details tree ↔ tree = nodes := by
  rw [expressionNodes] at h
  rw [Remains]
  split_ifs at h ⊢ with hx
  · cases hm : expressionModel details with
    | error t =>
      rw [hm] at h
      cases h
      rfl
    | ok m =>
      rw [hm] at h
      constructor
      · intro hb
        obtain ⟨t,ht⟩ := (appendNode_failed d m [] tree).mpr ⟨tree,hb,rfl⟩
        cases ht.symm.trans h
        rfl
      · rintro rfl
        obtain ⟨_,hb,rfl⟩ := (appendNode_failed d m [] tree).mp ⟨e,h⟩
        exact hb
  · cases h

theorem root_eq_iff (p : Page) (nodes : List Node) :
    ({ resetRoot p with expressionRoot := nodes } : Page) = p ↔ p.expressionRoot = nodes := by
  constructor
  · intro h
    rw [← h]
  · rintro rfl
    rfl

theorem loadDetails_failed {d : Discovery} {p p' : Page} {details : Json} {e : Thrown}
    (h : loadDetails d p details = (p',some e)) : p' = p ↔ Remains d details p.expressionRoot := by
  by_cases ho : details.isObject = true
  · simp only [loadDetails,ho,if_true] at h
    rcases hr : expressionNodes d details with ⟨nodes,_ | t⟩
    · rw [hr] at h
      cases h
    · rw [hr] at h
      cases h
      rw [expressionNodes_failed hr]
      exact root_eq_iff p nodes
  · have hx : isExpression details = false := by
      cases details <;> first | rfl | exact absurd rfl ho
    have hp : p' = { resetRoot p with expressionRoot := [] } := by
      cases details <;> first | exact absurd rfl ho | (cases h; try rfl)
    rw [hp,root_eq_iff,Remains,hx]
    rfl

theorem loadJson_unrequested {d : Discovery} {p : Page} (h : loadedDetails p.claimsJson = none) :
    (loadJson d p).1 = p := by
  rw [loadJson]
  rw [loadedDetails] at h
  cases hparse : Json.parse p.claimsJson with
  | none => rfl
  | some claims =>
    rw [hparse] at h
    cases hls : locations claims with
    | nil => cases claims <;> simp [hls]
    | cons l ls =>
      have hnone : requestedDetails claims l = none := by simpa [hls] using h
      cases claims <;> simp [hls,hnone]

/-- A text that names details loads them, and checks the deliveries where that does not throw. -/
theorem loadJson_requested {d : Discovery} {p : Page} {details : Json}
    (hd : loadedDetails p.claimsJson = some details) :
    ∃ ls, loadJson d p = match (loadDetails d p details).2 with
      | some e => ((loadDetails d p details).1,some e)
      | none => (checkDeliveries (loadDetails d p details).1 ls,none) := by
  obtain ⟨claims,hparse,hd⟩ := Option.bind_eq_some_iff.mp hd
  obtain ⟨l,hl,hd⟩ := Option.bind_eq_some_iff.mp hd
  obtain ⟨ls,hls⟩ : ∃ ls, locations claims = l :: ls := by
    cases hls : locations claims with
    | nil => simp [hls] at hl
    | cons k ls =>
      rw [hls] at hl
      cases hl
      exact ⟨ls,rfl⟩
  refine ⟨l :: ls,?_⟩
  rw [loadJson,hparse]
  cases claims with
  | null => simp [requestedDetails,Json.member?] at hd
  | _ =>
    rcases hload : loadDetails d p details with ⟨q,_ | e⟩
    · simp only [hls,hd,hload]
    · simp only [hls,hd,hload]

theorem loadDetails_of_loadJson {d : Discovery} {p p' : Page} {details : Json} {e : Thrown}
    (hd : loadedDetails p.claimsJson = some details) (h : loadJson d p = (p',some e)) :
    loadDetails d p details = (p',some e) := by
  obtain ⟨ls,hload⟩ := loadJson_requested (d := d) hd
  rw [hload] at h
  rcases hr : loadDetails d p details with ⟨q,_ | t⟩
  · rw [hr] at h
    cases h
  · rw [hr] at h
    exact h

/-- A load that ends in the alert leaves the page as it was exactly when it names no details, or
when the tree was already what the load leaves of them. -/
theorem failed_load_untouched_iff (d : Discovery) (p p' : Page) (e : Thrown)
    (h : loadJson d p = (p',some e)) :
    p' = p ↔ loadedDetails p.claimsJson = none ∨
      ∃ details, loadedDetails p.claimsJson = some details ∧ Remains d details p.expressionRoot := by
  cases hd : loadedDetails p.claimsJson with
  | none =>
    have hsame := loadJson_unrequested (d := d) hd
    rw [h] at hsame
    exact iff_of_true hsame (Or.inl rfl)
  | some details =>
    rw [loadDetails_failed (loadDetails_of_loadJson hd h)]
    simp

/-- A page whose tree has one factor. -/
def passwordPage (text : Text) : Page :=
  { editorPage text with
    expressionRoot := [.factor ⟨.assign (js "pwd"),true,true,.assign [],[],[]⟩] }

/-- `{"id_token":{"amr_details":1}}` -/
def detailsOne : Text := js "\x7b\"id_token\":\x7b\"amr_details\":1\x7d\x7d"

/-- The alert appears and the tree is empty. -/
theorem failed_load_clears_tree :
    ∃ p' e, loadJson noDiscovery (passwordPage detailsOne) = (p',some e) ∧
      p' ≠ passwordPage detailsOne := by
  have hparse : Json.parse (passwordPage detailsOne).claimsJson =
      some (.obj [(js "id_token",.obj [(js "amr_details",.num (Number.ofNat 1))])]) := by
    decide +kernel
  refine ⟨resetRoot (passwordPage detailsOne),.error (js "amr_details must be null or an object."),
    ?_,?_⟩
  · rw [loadJson,hparse]
    rfl
  · intro h
    have hroot := congrArg Page.expressionRoot h
    cases hroot

theorem failed_load_untouched_syntax :
    ∃ p' e, loadJson noDiscovery (passwordPage (js "[")) = (p',some e) ∧
      p' = passwordPage (js "[") := by
  have hparse : Json.parse (passwordPage (js "[")).claimsJson = none := by decide +kernel
  have hload : loadJson noDiscovery (passwordPage (js "[")) =
      (passwordPage (js "["),some .syntaxError) := by
    rw [loadJson,hparse]
  have hnone : loadedDetails (passwordPage (js "[")).claimsJson = none := by
    rw [loadedDetails,hparse,Option.bind_eq_bind,Option.bind_none]
  exact ⟨_,_,hload,(failed_load_untouched_iff noDiscovery _ _ _ hload).mpr (Or.inl hnone)⟩

end Oidc4acLab.Builder
