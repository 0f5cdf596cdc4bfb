import Oidc4acLab.Fallible.Success
import Oidc4acLab.Json.Paths
import Oidc4acLab.Python.Json

/-! # The realms of the benchmark

`make-fixtures.py` derives two realms from the laboratory's: a plain one without OIDC4AC and
the same under another name with OIDC4AC switched off. A realm is any JSON value, and what
Python raises on one of another shape is an error.
-/
namespace Oidc4acLab.Realm
open Text Python Oidc4acLab.Tree Fallible

inductive Raised
  | keyError
  | typeError
  | attributeError
deriving DecidableEq

def text (s : String) : Value := .leaf (.str (js s))

/-- `value == s` -/
def isText (s : String) : Value → Bool
  | .leaf (.str t) => t == js s
  | _ => false

def benchmarkRedirects : List Value :=
  [text "http://localhost:5005/*",text "http://localhost:5006/*",text "http://localhost:5007/*"]

def execution (priority : ℤ) (authenticator flow : Option String) (requirement : String) : Value :=
  .obj ([(js "authenticatorFlow",.leaf (.bool flow.isSome)),(js "requirement",text requirement),
    (js "priority",.leaf (.int priority)),(js "userSetupAllowed",.leaf (.bool false))] ++
    match flow.filter (· ≠ "") with
    | some flow => [(js "flowAlias",text flow)]
    | none => [(js "authenticator",(authenticator.map text).getD (.leaf .none))])

def browserFlow (title description : String) (topLevel : Bool) (executions : List Value) : Value :=
  .obj [(js "alias",text title),(js "description",text description),(js "providerId",text "basic-flow"),
    (js "topLevel",.leaf (.bool topLevel)),(js "builtIn",.leaf (.bool false)),
    (js "authenticationExecutions",.arr executions)]

def browserFlows : Value :=
  .arr [browserFlow "benchmark browser" "Laboratory browser flow without the OIDC4AC planner." true
      [execution 10 (some "auth-cookie") none "ALTERNATIVE",
        execution 20 none (some "benchmark browser forms") "ALTERNATIVE"],
    browserFlow "benchmark browser forms" "Username form followed by a password form." false
      [execution 10 (some "auth-username-form") none "REQUIRED",
        execution 20 (some "auth-password-form") none "REQUIRED"]]

/-- `key.startswith("oidc4ac.")` -/
def ofExtension (name : Text) : Bool := (js "oidc4ac.").isPrefixOf name

def plainClient : Value → Except Raised Value
  | .obj members =>
    match members.lookup (js "clientId") with
    | none => .error .keyError
    | some id =>
      if isText "oidc4ac-test-client" id then
        match (members.lookup (js "redirectUris")).getD (.arr []) with
        | .arr uris => .ok (.obj (store members (js "redirectUris",.arr (uris ++ benchmarkRedirects))))
        | _ => .error .typeError
      else .ok (.obj members)
  | _ => .error .typeError

/-- The loop over `result.get("clients", [])`. -/
def plainClients (members : List (Text × Value)) : Except Raised (List (Text × Value)) :=
  match members.lookup (js "clients") with
  | none | some (.obj []) | some (.leaf (.str [])) => .ok members
  | some (.arr clients) => (clients.mapM plainClient).map fun clients => store members (js "clients",.arr clients)
  | some _ => .error .typeError

def plain : Value → Except Raised Value
  | .obj members => do
    let members := members.filter fun m => m.1 != js "authenticatorConfig"
    let members := store members (js "authenticationFlows",browserFlows)
    let members := store members (js "browserFlow",text "benchmark browser")
    match (members.lookup (js "attributes")).getD (.obj []) with
    | .obj attributes =>
      let members := store members (js "attributes",.obj (attributes.filter fun m => !ofExtension m.1))
      let members ← plainClients members
      return .obj members
    | _ => .error .attributeError
  -- a list has a method `pop` that takes no default
  | .arr _ => .error .typeError
  | _ => .error .attributeError

def withoutIds (value : Value) : Value := without (js "id") value

/-- The two realms that `main` writes. -/
def fixtures (realm : Value) : Except Raised (Value × Value) := do
  let plainRealm ← plain realm
  match withoutIds plainRealm with
  | .obj members =>
    let members := store members (js "realm",text "oidc4ac-off")
    match members.lookup (js "attributes") with
    | some (.obj attributes) =>
      return (plainRealm,.obj (store members (js "attributes",
        .obj (store attributes (js "oidc4ac.enabled",text "false")))))
    | some _ => .error .typeError
    | none => .error .keyError
  | _ => .error .typeError

def clientsStep : Step := .member (js "clients")

def urisStep : Step := .member (js "redirectUris")

def attributesStep : Step := .member (js "attributes")

def OfTest (client : Value) : Prop := follow [.member (js "clientId")] client = some (text "oidc4ac-test-client")

/-- The paths of a realm at which the plain realm is another one. -/
inductive Replaced (realm : Value) : Path → Prop
  | config : Replaced realm [.member (js "authenticatorConfig")]
  | flows : Replaced realm [.member (js "authenticationFlows")]
  | flow : Replaced realm [.member (js "browserFlow")]
  | extension {name : Text} (h : ofExtension name = true) : Replaced realm [attributesStep,.member name]
  | redirects {i : ℕ} {client : Value} (hc : follow [clientsStep,.item i] realm = some client) (h : OfTest client) :
    Replaced realm [clientsStep,.item i,urisStep]

theorem isText_iff {s : String} {v : Value} : isText s v = true ↔ v = text s := by
  cases v with
  | leaf a =>
    cases a <;> simp [isText,text]
  | arr items => simp [isText,text]
  | obj members => simp [isText,text]

section Clients
variable {client client' : Value} {members members' : List (Text × Value)}

/-- What the loop does to one client: the test client's redirect URIs grow, and all else stays. -/
theorem plainClient_spec (h : plainClient client = .ok client') :
    Within (fun c => OfTest client ∧ c = [urisStep]) client client' ∧ (OfTest client →
      ∃ uris, (follow [urisStep] client).getD (.arr []) = .arr uris ∧
        follow [urisStep] client' = some (.arr (uris ++ benchmarkRedirects))) := by
  cases client with
  | leaf a => cases h
  | arr items => cases h
  | obj members =>
    rw [plainClient] at h
    cases hid : members.lookup (js "clientId") with
    | none =>
      rw [hid] at h
      cases h
    | some id =>
      simp only [hid] at h
      split_ifs at h with htest
      · have hof : OfTest (.obj members) := by rw [OfTest,follow_name,hid,isText_iff.mp htest]
        rw [urisStep,follow_name]
        cases hu : (members.lookup (js "redirectUris")).getD (.arr []) with
        | leaf a =>
          rw [hu] at h
          cases h
        | obj d =>
          rw [hu] at h
          cases h
        | arr uris =>
          rw [hu] at h
          cases h
          refine ⟨(within_put members _ _).mono fun c hc => ⟨hof,hc⟩,fun _ => ⟨uris,rfl,?_⟩⟩
          rw [follow_member,lookup_store_self]
          rfl
      · cases h
        refine ⟨Within.refl _ _,fun hof => ?_⟩
        rw [OfTest,follow_name,hid] at hof
        exact absurd (isText_iff.mpr (Option.some.inj hof)) htest

/-- What the loop does to a realm. -/
structure Grown (members members' : List (Text × Value)) : Prop where
  within : Within (fun p => ∃ i client, follow [clientsStep,.item i] (.obj members) = some client ∧ OfTest client ∧
    p = [clientsStep,.item i,urisStep]) (.obj members) (.obj members')
  redirects : ∀ (i : ℕ) (client : Value), follow [clientsStep,.item i] (.obj members) = some client → OfTest client →
    ∃ uris, (follow [urisStep] client).getD (.arr []) = .arr uris ∧
      follow [clientsStep,.item i,urisStep] (.obj members') = some (.arr (uris ++ benchmarkRedirects))
  others : ∀ name, name ≠ js "clients" → members'.lookup name = members.lookup name

theorem Grown.refl (hno : ∀ items, members.lookup (js "clients") ≠ some (.arr items)) : Grown members members := by
  refine ⟨Within.refl _ _,fun i client hc => ?_,fun _ _ => rfl⟩
  rw [clientsStep,follow_member] at hc
  cases hl : members.lookup (js "clients") with
  | none =>
    rw [hl] at hc
    cases hc
  | some v =>
    cases v with
    | arr items => exact absurd hl (hno items)
    | leaf a =>
      rw [hl] at hc
      cases hc
    | obj d =>
      rw [hl] at hc
      cases hc

theorem grown_store {clients clients' : List Value} (hl : members.lookup (js "clients") = some (.arr clients))
    (hall : List.Forall₂ (fun x y => plainClient x = .ok y) clients clients') :
    Grown members (store members (js "clients",.arr clients')) := by
  have hat : ∀ (i : ℕ) (x y : Value), clients[i]? = some x → clients'[i]? = some y → plainClient x = .ok y := by
    intro i x y hx hy
    obtain ⟨hi,rfl⟩ := List.getElem?_eq_some_iff.mp hx
    obtain ⟨hi',rfl⟩ := List.getElem?_eq_some_iff.mp hy
    exact hall.get hi hi'
  have hfollow (i : ℕ) : follow [clientsStep,.item i] (.obj members) = clients[i]? := by
    rw [clientsStep,follow_member,hl,Option.bind_some,follow_item]
    cases clients[i]? <;> rfl
  constructor
  case within =>
    have hitems : Within (fun p => ∃ i c, (∃ x, clients[i]? = some x ∧ OfTest x ∧ c = [urisStep]) ∧ p = .item i :: c)
        (.arr clients) (.arr clients') :=
      within_items hall.length_eq.symm fun i x y hx hy =>
        (plainClient_spec (hat i x y hx hy)).1.mono fun c hc => ⟨x,hx,hc.1,hc.2⟩
    apply (within_member hl hitems).mono
    rintro p ⟨-,⟨i,-,⟨x,hx,hof,rfl⟩,rfl⟩,rfl⟩
    exact ⟨i,x,(hfollow i).trans hx,hof,rfl⟩
  case redirects =>
    intro i client hc hof
    rw [hfollow] at hc
    obtain ⟨client',hc'⟩ : ∃ y, clients'[i]? = some y := by
      obtain ⟨hi,-⟩ := List.getElem?_eq_some_iff.mp hc
      exact ⟨_,List.getElem?_eq_getElem (hall.length_eq ▸ hi)⟩
    obtain ⟨uris,huris,hnew⟩ := (plainClient_spec (hat i client client' hc hc')).2 hof
    refine ⟨uris,huris,?_⟩
    rw [clientsStep,follow_member,lookup_store_self,Option.bind_some,follow_item,hc',Option.bind_some]
    exact hnew
  case others =>
    intro name hname
    rw [lookup_store_ne hname]

theorem plainClients_spec (h : plainClients members = .ok members') : Grown members members' := by
  rw [plainClients] at h
  cases hl : members.lookup (js "clients") with
  | none =>
    rw [hl] at h
    cases h
    exact Grown.refl fun items hi => by cases hl.symm.trans hi
  | some v =>
    cases v with
    | arr clients =>
      rw [hl] at h
      obtain ⟨clients',hclients,rfl⟩ := map_eq_ok.mp h
      exact grown_store hl (mapM_eq_ok.mp hclients)
    | obj d =>
      have hkept : members' = members := by
        rw [hl] at h
        cases d with
        | nil =>
          cases h
          rfl
        | cons m d => cases h
      rw [hkept]
      exact Grown.refl fun items hi => by cases hl.symm.trans hi
    | leaf a =>
      have hkept : members' = members := by
        rw [hl] at h
        cases a with
        | str t =>
          cases t with
          | nil =>
            cases h
            rfl
          | cons c t => cases h
        | none => cases h
        | bool b => cases h
        | int z => cases h
        | float x => cases h
      rw [hkept]
      exact Grown.refl fun items hi => by cases hl.symm.trans hi

end Clients

/-- What the plain realm has of the laboratory's. -/
structure Derived (realm p : Value) : Prop where
  kept : Within (Replaced realm) realm p
  config : follow [.member (js "authenticatorConfig")] p = none
  flows : follow [.member (js "authenticationFlows")] p = some browserFlows
  flow : follow [.member (js "browserFlow")] p = some (text "benchmark browser")
  extension : ∀ name, ofExtension name = true → follow [attributesStep,.member name] p = none
  redirects : ∀ (i : ℕ) (client : Value), follow [clientsStep,.item i] realm = some client → OfTest client →
    ∃ uris, (follow [urisStep] client).getD (.arr []) = .arr uris ∧
      follow [clientsStep,.item i,urisStep] p = some (.arr (uris ++ benchmarkRedirects))

def reflowed (members : List (Text × Value)) : List (Text × Value) :=
  store (store (members.filter fun m => m.1 != js "authenticatorConfig") (js "authenticationFlows",browserFlows))
    (js "browserFlow",text "benchmark browser")

theorem within_reflowed (members : List (Text × Value)) (realm : Value) :
    Within (Replaced realm) (.obj members) (.obj (reflowed members)) := by
  have hconfig : Within (Replaced realm) (.obj members)
      (.obj (members.filter fun m => m.1 != js "authenticatorConfig")) := by
    apply (within_filter (fun name => name != js "authenticatorConfig") ⟨_,bne_self_eq_false _⟩ members).mono
    rintro p ⟨n,hn,rfl⟩
    rw [bne_eq_false_iff_eq.mp hn]
    exact .config
  have hflows : Within (Replaced realm) _ _ := (within_put (members.filter fun m => m.1 != js "authenticatorConfig")
    (js "authenticationFlows") browserFlows).mono fun p hp => hp ▸ .flows
  exact (hconfig.trans hflows).trans ((within_put _ (js "browserFlow") (text "benchmark browser")).mono
    fun p hp => hp ▸ Replaced.flow)

theorem lookup_reflowed {members : List (Text × Value)} {name : Text} (h₁ : name ≠ js "authenticatorConfig")
    (h₂ : name ≠ js "authenticationFlows") (h₃ : name ≠ js "browserFlow") :
    (reflowed members).lookup name = members.lookup name := by
  rw [reflowed,lookup_store_ne h₃,lookup_store_ne h₂,
    Collections.lookup_filter (fun name => name != js "authenticatorConfig"),if_pos (bne_iff_ne.mpr h₁)]

theorem plain_obj (members : List (Text × Value)) :
    plain (.obj members) = match ((reflowed members).lookup (js "attributes")).getD (.obj []) with
      | .obj attributes => (plainClients (store (reflowed members) (js "attributes",
          .obj (attributes.filter fun m => !ofExtension m.1)))).map .obj
      | _ => .error .attributeError := rfl

theorem within_attributes {members attributes : List (Text × Value)} (realm : Value)
    (h : (members.lookup (js "attributes")).getD (.obj []) = .obj attributes) :
    Within (Replaced realm) (.obj members)
      (.obj (store members (js "attributes",.obj (attributes.filter fun m => !ofExtension m.1)))) := by
  have hdot : (!ofExtension (js "oidc4ac.")) = false := by decide
  have hfilter := within_filter (fun name => !ofExtension name) ⟨_,hdot⟩ attributes
  have hstore : Within (fun p => ∃ c, (∃ n, (!ofExtension n) = false ∧ c = [.member n]) ∧ p = attributesStep :: c)
      (.obj members) (.obj (store members (js "attributes",.obj (attributes.filter fun m => !ofExtension m.1)))) := by
    apply within_store
    intro p hp
    cases hl : members.lookup (js "attributes") with
    | some v =>
      rw [hl] at h
      cases h
      exact hfilter p hp
    | none =>
      rw [hl] at h
      cases h
      cases p with
      | nil => exact absurd (hp _ ⟨_,hdot,rfl⟩) (not_nil_apart _)
      | cons s p => cases s <;> rfl
  apply hstore.mono
  rintro p ⟨-,⟨n,hn,rfl⟩,rfl⟩
  exact .extension (by simpa using hn)

theorem plain_spec {realm p : Value} (h : plain realm = .ok p) : Derived realm p := by
  cases realm with
  | leaf a => cases h
  | arr items => cases h
  | obj members =>
    rw [plain_obj] at h
    cases hattr : ((reflowed members).lookup (js "attributes")).getD (.obj []) with
    | leaf a =>
      rw [hattr] at h
      cases h
    | arr items =>
      rw [hattr] at h
      cases h
    | obj attributes =>
      rw [hattr] at h
      obtain ⟨final,hfinal,rfl⟩ := map_eq_ok.mp h
      have hgrown := plainClients_spec hfinal
      have hclients : ∀ i, follow [clientsStep,.item i] (.obj (store (reflowed members) (js "attributes",
          .obj (attributes.filter fun m => !ofExtension m.1)))) = follow [clientsStep,.item i] (.obj members) := by
        intro i
        rw [clientsStep,follow_member,follow_member,lookup_store_ne (by decide),
          lookup_reflowed (by decide) (by decide) (by decide)]
      constructor
      case kept =>
        have hwithin : Within (Replaced (.obj members)) _ (.obj final) := hgrown.within.mono fun p hp => by
          obtain ⟨i,client,hc,hof,rfl⟩ := hp
          exact .redirects ((hclients i).symm.trans hc) hof
        exact ((within_reflowed members _).trans (within_attributes _ hattr)).trans hwithin
      case config =>
        rw [follow_name,hgrown.others _ (by decide),lookup_store_ne (by decide),reflowed,
          lookup_store_ne (by decide),lookup_store_ne (by decide),
          Collections.lookup_filter (fun name => name != js "authenticatorConfig"),if_neg]
        simp
      case flows =>
        rw [follow_name,hgrown.others _ (by decide),lookup_store_ne (by decide),reflowed,
          lookup_store_ne (by decide),lookup_store_self]
      case flow =>
        rw [follow_name,hgrown.others _ (by decide),lookup_store_ne (by decide),reflowed,lookup_store_self]
      case extension =>
        intro name hname
        rw [attributesStep,follow_member,hgrown.others _ (by decide),lookup_store_self,Option.bind_some,follow_name,
          Collections.lookup_filter (fun name => !ofExtension name),if_neg]
        simp [hname]
      case redirects =>
        intro i client hc hof
        exact hgrown.redirects i client ((hclients i).trans hc) hof

/-- The paths at which the switched-off realm has values of its own. -/
def changedPaths : List Path := [[.member (js "realm")],[attributesStep,.member (js "oidc4ac.enabled")]]

/-- The switched-off realm is the plain one without ids, but for its name and its switch. -/
structure SwitchedOff (p d : Value) : Prop where
  same : ∀ q, (∀ c ∈ changedPaths, Apart q c) →
    follow q d = if .member (js "id") ∈ q then none else (follow q p).map withoutIds
  name : follow [.member (js "realm")] d = some (text "oidc4ac-off")
  switch : follow [attributesStep,.member (js "oidc4ac.enabled")] d = some (text "false")

theorem fixtures_spec {realm p d : Value} (h : fixtures realm = .ok (p,d)) : Derived realm p ∧ SwitchedOff p d := by
  rw [fixtures] at h
  obtain ⟨plainRealm,hplain,h⟩ := bind_eq_ok.mp h
  cases hw : withoutIds plainRealm with
  | leaf a =>
    rw [hw] at h
    cases h
  | arr items =>
    rw [hw] at h
    cases h
  | obj members =>
    rw [hw] at h
    cases hl : (store members (js "realm",text "oidc4ac-off")).lookup (js "attributes") with
    | none =>
      simp only [hl] at h
      cases h
    | some v =>
      cases v with
      | leaf a =>
        simp only [hl] at h
        cases h
      | arr items =>
        simp only [hl] at h
        cases h
      | obj attributes =>
        simp only [hl] at h
        cases h
        refine ⟨plain_spec hplain,?_,?_,?_⟩
        · intro q hq
          have hname := (within_put members (js "realm") (text "oidc4ac-off")).mono (D := (· ∈ changedPaths))
            fun c hc => hc ▸ List.mem_cons_self
          have hoff : Within (· ∈ changedPaths) _ _ := (within_member hl (within_put attributes (js "oidc4ac.enabled")
            (text "false"))).mono fun c ⟨e,he,hc⟩ => by rw [hc,he]; exact List.mem_cons_of_mem _ List.mem_cons_self
          rw [(hname.trans hoff) q hq,← hw,withoutIds,follow_without]
          rfl
        · rw [follow_name,lookup_store_ne (by decide),lookup_store_self]
        · rw [attributesStep,follow_member,lookup_store_self,Option.bind_some,follow_name,lookup_store_self]

/-- A realm with the client of the benchmark. -/
def small : Value :=
  .obj [(js "id",text "lab"),(js "realm",text "oidc4ac"),
    (js "attributes",.obj [(js "oidc4ac.enabled",text "true"),(js "frontendUrl",text "")]),
    (js "clients",.arr [.obj [(js "id",text "1"),(js "clientId",text "oidc4ac-test-client")]])]

theorem fixtures_spec_small : ∃ p d, fixtures small = .ok (p,d) ∧ Derived small p ∧ SwitchedOff p d :=
  ⟨_,_,rfl,fixtures_spec rfl⟩

end Oidc4acLab.Realm
