import Oidc4acLab.Json.Filters

/-! # The realm of the hosted demo

`prepare-demo-realm.sh` derives the realm of the public demo from the laboratory's by one
jq program. The realm differs at the mail relay, at the addresses of two clients and by one
more user, and nowhere else.
-/
namespace Oidc4acLab.Realm
open Text Document Oidc4acLab.Tree Jq Fallible

structure Settings where
  clientUrl : Option Text
  reviewerUsername : Option Text
  reviewerPassword : Option Text

inductive Refused
  | unset
  | jq (f : Fault)
deriving DecidableEq

/-- `${NAME:?…}` -/
def required : Option Text → Except Refused Text
  | some (c :: t) => .ok (c :: t)
  | _ => .error .unset

theorem required_eq_ok {v : Option Text} {t : Text} (h : required v = .ok t) : v = some t ∧ t ≠ [] := by
  cases v with
  | none => cases h
  | some s =>
    cases s with
    | nil => cases h
    | cons c s =>
      cases h
      exact ⟨rfl,List.cons_ne_nil c s⟩

/-- `${URL%/}` -/
def trimmed (url : Text) : Text := if url.getLast? = some 47 then url.dropLast else url

def str (t : Text) : Node := .leaf (.str t)

def smtpServer : List (List Text × Node) :=
  [([js "smtpServer",js "host"],str (js "127.0.0.1")),([js "smtpServer",js "port"],str (js "2525"))]

def testClient (clientUrl : Text) : List (List Text × Node) :=
  [([js "redirectUris"],.arr [str (clientUrl ++ js "/*")]),([js "webOrigins"],.arr [str clientUrl]),
    ([js "rootUrl"],str clientUrl),([js "baseUrl"],str clientUrl),
    ([js "attributes",js "post.logout.redirect.uris"],str (clientUrl ++ js "/*"))]

def consentClient (clientUrl : Text) : List (List Text × Node) :=
  [([js "redirectUris"],.arr [str (clientUrl ++ js "/*")]),([js "webOrigins"],.arr [str clientUrl])]

def reviewer (username password : Text) : Node :=
  .obj [(js "username",str username),(js "enabled",.leaf (.bool true)),
    (js "credentials",.arr [.obj [(js "type",str (js "password")),(js "value",str password),
      (js "temporary",.leaf (.bool false))]]),
    (js "clientRoles",.obj [(js "realm-management",.arr [str (js "view-realm"),
      str (js "view-identity-providers"),str (js "view-clients")])])]

def isStr (t : Text) : Node → Bool
  | .leaf (.str s) => s == t
  | _ => false

/-- `select(.clientId == id) |= …` of one client. -/
def selected (id : String) (l : List (List Text × Node)) (client : Node) : Except Fault Node := do
  let clientId ← index (js "clientId") client
  if isStr (js id) clientId then assign l client else .ok client

def program (clientUrl username password : Text) (realm : Node) : Except Fault Node := do
  let realm ← assign smtpServer realm
  let realm ← update (js "clients") (each (selected "oidc4ac-test-client" (testClient clientUrl))) realm
  let realm ← update (js "clients") (each (selected "oidc4ac-consent-test-client" (consentClient clientUrl))) realm
  update (js "users") (add [reviewer username password]) realm

def prepare (s : Settings) (realm : Node) : Except Refused Node := do
  let clientUrl ← required s.clientUrl
  let username ← required s.reviewerUsername
  let password ← required s.reviewerPassword
  (program (trimmed clientUrl) username password realm).mapError .jq

def clientsMember : Step := .member (js "clients")

def HasId (id : String) (t : Node) (i : ℕ) : Prop :=
  follow [clientsMember,.item i,.member (js "clientId")] t = some (str (js id))

def NamedId (id : String) (t : Node) (k : Text) : Prop :=
  ∃ members x, follow [clientsMember] t = some (.obj members) ∧ (k,x) ∈ members ∧
    follow [.member (js "clientId")] x = some (str (js id))

section Clients
variable {id : String} {l : List (List Text × Node)} {t u x y : Node} {i : ℕ}

theorem isStr_iff {s : Text} {v : Node} : isStr s v = true ↔ v = str s := by
  cases v with
  | leaf a => cases a <;> simp [isStr,str]
  | arr items => simp [isStr,str]
  | obj members => simp [isStr,str]

theorem index_str_iff {name : Text} {c : Node} (h : index name t = .ok c) (s : Text) :
    follow [.member name] t = some (str s) ↔ c = str s := by
  rw [index_eq h]
  cases follow [.member name] t with
  | none => simp [null,str]
  | some v => simp

theorem within_selected (h : selected id l x = .ok y) :
    Within (fun c => follow [.member (js "clientId")] x = some (str (js id)) ∧ ∃ a ∈ l, c = names a.1) x y := by
  obtain ⟨c,hc,h⟩ := bind_eq_ok.mp h
  split_ifs at h with hid
  · have hx := (index_str_iff hc (js id)).mpr (isStr_iff.mp hid)
    exact (within_assign h).mono fun c hc => ⟨hx,hc⟩
  · cases h
    exact Within.refl _ _

theorem follow_selected (hl : l.Pairwise fun a b => Apart (names a.1) (names b.1)) (h : selected id l x = .ok y)
    (hid : follow [.member (js "clientId")] x = some (str (js id))) : ∀ a ∈ l, follow (names a.1) y = some a.2 := by
  obtain ⟨c,hc,h⟩ := bind_eq_ok.mp h
  rw [if_pos (isStr_iff.mpr ((index_str_iff hc (js id)).mp hid))] at h
  exact follow_assign hl h

/-- The paths at which the clients of one id are given values. -/
inductive Assigned (id : String) (l : List (List Text × Node)) (t : Node) : Path → Prop
  | item {i : ℕ} {a : List Text × Node} (h : HasId id t i) (ha : a ∈ l) :
    Assigned id l t (clientsMember :: .item i :: names a.1)
  | member {k : Text} {a : List Text × Node} (h : NamedId id t k) (ha : a ∈ l) :
    Assigned id l t (clientsMember :: .member k :: names a.1)

theorem update_clients (hl : l.Pairwise fun a b => Apart (names a.1) (names b.1))
    (h : update (js "clients") (each (selected id l)) t = .ok u) : Within (Assigned id l t) t u ∧
      ∀ i, HasId id t i → ∀ a ∈ l, follow (clientsMember :: .item i :: names a.1) u = some a.2 := by
  obtain ⟨c,hc,h⟩ := bind_eq_ok.mp h
  obtain ⟨c',hc',h⟩ := bind_eq_ok.mp h
  have hnull (D : Path → Prop) : c = null → ∃ p, D p := by
    rintro rfl
    cases hc'
  constructor
  · apply (within_setKey hc (within_each (fun x y => within_selected) hc') (hnull _) h).mono
    rintro p ⟨-,⟨i,x,-,hx,⟨hid,a,ha,rfl⟩,rfl⟩ | ⟨members,m,-,hm,hmem,⟨hid,a,ha,rfl⟩,rfl⟩,rfl⟩
    · refine .item ?_ ha
      rw [HasId,clientsMember,follow_index hc (List.cons_ne_nil _ _),← List.singleton_append,follow_append,hx]
      exact hid
    · exact .member ⟨members,m.2,follow_of_index (hm ▸ hc) (by simp [null]),hmem,hid⟩ ha
  · intro i hi a ha
    rw [HasId,clientsMember,follow_index hc (List.cons_ne_nil _ _),← List.singleton_append,follow_append] at hi
    obtain ⟨x,hx,hid⟩ := Option.bind_eq_some_iff.mp hi
    obtain ⟨y,hy,hat⟩ := follow_each hc' hx
    rw [clientsMember,follow_setKey h,hat]
    exact follow_selected hl hy hid a ha

theorem NamedId.of_update {id' : String} {k : Text} (hl : ∀ a ∈ l, Apart [.member (js "clientId")] (names a.1))
    (h : update (js "clients") (each (selected id' l)) t = .ok u) (hk : NamedId id u k) : NamedId id t k := by
  obtain ⟨c,hc,h⟩ := bind_eq_ok.mp h
  obtain ⟨c',hc',h⟩ := bind_eq_ok.mp h
  obtain ⟨members',x',hclients,hx',hid⟩ := hk
  rw [clientsMember,follow_setKey h] at hclients
  cases hclients
  cases c with
  | leaf a => cases hc'
  | arr items =>
    obtain ⟨_,-,heq⟩ := map_eq_ok.mp hc'
    cases heq
  | obj members =>
    obtain ⟨⟨k',x⟩,hmem,rfl,hx⟩ := exists_of_mem_right (each_members hc') hx'
    refine ⟨members,x,follow_of_index hc (by simp [null]),hmem,?_⟩
    rw [← hid]
    refine (within_selected hx _ ?_).symm
    rintro p ⟨-,a,ha,rfl⟩
    exact hl a ha

end Clients

def usersOf (realm : Node) : List Node :=
  match follow [.member (js "users")] realm with
  | some (.arr users) => users
  | _ => []

/-- The paths at which the realm of the demo has other values. -/
inductive Changed (clientUrl : Text) (realm : Node) : Path → Prop
  | smtp {a : List Text × Node} (ha : a ∈ smtpServer) : Changed clientUrl realm (names a.1)
  | test {p : Path} (h : Assigned "oidc4ac-test-client" (testClient clientUrl) realm p) : Changed clientUrl realm p
  | consent {p : Path} (h : Assigned "oidc4ac-consent-test-client" (consentClient clientUrl) realm p) :
    Changed clientUrl realm p
  | user : Changed clientUrl realm [.member (js "users"),.item (usersOf realm).length]

structure Hosted (clientUrl username password : Text) (realm r : Node) : Prop where
  kept : Within (Changed clientUrl realm) realm r
  smtp : ∀ a ∈ smtpServer, follow (names a.1) r = some a.2
  test : ∀ i, HasId "oidc4ac-test-client" realm i →
    ∀ a ∈ testClient clientUrl, follow (clientsMember :: .item i :: names a.1) r = some a.2
  consent : ∀ i, HasId "oidc4ac-consent-test-client" realm i →
    ∀ a ∈ consentClient clientUrl, follow (clientsMember :: .item i :: names a.1) r = some a.2
  users : usersOf r = usersOf realm ++ [reviewer username password]

theorem Assigned.apart {id : String} {l : List (List Text × Node)} {t : Node} {p : Path} (h : Assigned id l t p)
    {name : Text} (hne : name ≠ js "clients") (q : Path) : Apart (.member name :: q) p := by
  have hstep : Step.member name ≠ clientsMember := fun heq => hne (Step.member.inj heq)
  cases h with
  | item h ha => exact apart_of_ne hstep q _
  | member h ha => exact apart_of_ne hstep q _

theorem Assigned.of_kept {id : String} {l : List (List Text × Node)} {t u : Node} {p : Path}
    (hkept : ∀ i, HasId id u i ↔ HasId id t i) (hnamed : ∀ k, NamedId id u k → NamedId id t k)
    (h : Assigned id l u p) : Assigned id l t p := by
  cases h with
  | item h ha => exact .item ((hkept _).mp h) ha
  | member h ha => exact .member (hnamed _ h) ha

theorem fields_apart (clientUrl : Text) :
    ((testClient clientUrl).Pairwise fun a b => Apart (names a.1) (names b.1)) ∧
    (consentClient clientUrl).Pairwise fun a b => Apart (names a.1) (names b.1) := by
  have htest : ((testClient []).map fun a => names a.1).Pairwise Apart := by decide
  have hconsent : ((consentClient []).map fun a => names a.1).Pairwise Apart := by decide
  constructor
  · have h : ((testClient clientUrl).map fun a => names a.1).Pairwise Apart := htest
    exact List.pairwise_map.mp h
  · have h : ((consentClient clientUrl).map fun a => names a.1).Pairwise Apart := hconsent
    exact List.pairwise_map.mp h

theorem id_apart (clientUrl : Text) :
    (∀ a ∈ testClient clientUrl, Apart [.member (js "clientId")] (names a.1)) ∧
    ∀ a ∈ consentClient clientUrl, Apart [.member (js "clientId")] (names a.1) := by
  have htest : ∀ p ∈ (testClient []).map Prod.fst, Apart [.member (js "clientId")] (names p) := by decide
  have hconsent : ∀ p ∈ (consentClient []).map Prod.fst, Apart [.member (js "clientId")] (names p) := by decide
  constructor
  · intro a ha
    have h : a.1 ∈ (testClient clientUrl).map Prod.fst := List.mem_map_of_mem ha
    exact htest a.1 h
  · intro a ha
    have h : a.1 ∈ (consentClient clientUrl).map Prod.fst := List.mem_map_of_mem ha
    exact hconsent a.1 h

theorem smtp_first : ∀ a ∈ smtpServer, ∃ q, names a.1 = .member (js "smtpServer") :: q := by
  intro a ha
  rcases List.mem_pair.mp ha with rfl | rfl
  · exact ⟨_,rfl⟩
  · exact ⟨_,rfl⟩

theorem id_kept {id' : String} {l : List (List Text × Node)} {t u : Node} (h : Within (Assigned id' l t) t u)
    (hl : ∀ a ∈ l, Apart [.member (js "clientId")] (names a.1)) (id : String) (i : ℕ) :
    HasId id u i ↔ HasId id t i := by
  have hsame := h [clientsMember,.item i,.member (js "clientId")] fun c hc => by
    cases hc with
    | @item j a hj ha =>
      refine (apart_cons _ _ _).mpr ?_
      by_cases hij : i = j
      · subst hij
        exact (apart_cons _ _ _).mpr (hl a ha)
      · exact apart_of_ne (fun heq => hij (Step.item.inj heq)) _ _
    | member hj ha => exact (apart_cons _ _ _).mpr (apart_of_ne (fun heq => Step.noConfusion heq) _ _)
  rw [HasId,hsame,HasId]

theorem ids_apart {id id' : String} {l : List (List Text × Node)} {t : Node} {i : ℕ} {p : Path}
    (hne : js id ≠ js id') (hi : HasId id t i) (hp : Assigned id' l t p) (q : Path) :
    Apart (clientsMember :: .item i :: q) p := by
  cases hp with
  | @item j a hj ha =>
    refine (apart_cons _ _ _).mpr (apart_of_ne (fun heq => ?_) _ _)
    have hij : i = j := Step.item.inj heq
    subst hij
    have hsame := hi.symm.trans hj
    rw [str,str] at hsame
    exact hne (Atom.str.inj (Tree.leaf.inj (Option.some.inj hsame)))
  | member hj ha => exact (apart_cons _ _ _).mpr (apart_of_ne (fun heq => Step.noConfusion heq) _ _)

theorem program_spec {clientUrl username password : Text} {realm r : Node}
    (h : program clientUrl username password realm = .ok r) : Hosted clientUrl username password realm r := by
  obtain ⟨t₁,h₁,h⟩ := bind_eq_ok.mp h
  obtain ⟨t₂,h₂,h⟩ := bind_eq_ok.mp h
  obtain ⟨t₃,h₃,h⟩ := bind_eq_ok.mp h
  have hsmtp : Within (fun p => ∃ a ∈ smtpServer, p = names a.1) realm t₁ := within_assign h₁
  obtain ⟨htest,htests⟩ := update_clients (fields_apart clientUrl).1 h₂
  obtain ⟨hconsent,hconsents⟩ := update_clients (fields_apart clientUrl).2 h₃
  obtain ⟨c,hc,h⟩ := bind_eq_ok.mp h
  obtain ⟨c',hadd,h⟩ := bind_eq_ok.mp h
  obtain ⟨old,hold,rfl,hone⟩ := add_spec hadd
  have husers := within_setKey hc hone (fun _ => ⟨_,rfl⟩) h
  have hlast {p : Path} {name : Text} (hp : ∃ c : Path, c = [.item old.length] ∧ p = .member (js "users") :: c)
      (hne : name ≠ js "users") (q : Path) : Apart (.member name :: q) p := by
    obtain ⟨c,-,rfl⟩ := hp
    exact apart_of_ne (fun heq => hne (Step.member.inj heq)) q c
  -- the ids of the clients and the users stay until the last step
  have hfirst : ∀ q, follow (clientsMember :: q) t₁ = follow (clientsMember :: q) realm := fun q =>
    hsmtp _ fun p ⟨a,ha,hp⟩ => by
      obtain ⟨q',hq'⟩ := smtp_first a ha
      rw [hp,hq']
      exact apart_of_ne (by decide) _ _
  have hid₁ (id : String) (i : ℕ) : HasId id t₁ i ↔ HasId id realm i := by
    rw [HasId,hfirst,HasId]
  have hid₂ (id : String) (i : ℕ) : HasId id t₂ i ↔ HasId id realm i :=
    (id_kept htest (id_apart clientUrl).1 id i).trans (hid₁ id i)
  have hnamed (id : String) (k : Text) (hk : NamedId id t₁ k) : NamedId id realm k := by
    rwa [NamedId,hfirst,← NamedId] at hk
  have hold' : usersOf realm = old := by
    have hkept : follow [.member (js "users")] t₃ = follow [.member (js "users")] realm := by
      have hne : js "users" ≠ js "clients" := by decide
      rw [hconsent _ fun p hp => hp.apart hne [],htest _ fun p hp => hp.apart hne []]
      apply hsmtp
      rintro p ⟨a,ha,rfl⟩
      obtain ⟨q,hq⟩ := smtp_first a ha
      rw [hq]
      exact apart_of_ne (by decide) _ _
    rw [usersOf,← hkept]
    rw [index_eq hc] at hold
    cases hu : follow [.member (js "users")] t₃ with
    | none =>
      rw [hu] at hold
      rcases hold with ⟨-,rfl⟩ | hold
      · rfl
      · cases hold
    | some v =>
      rw [hu] at hold
      rcases hold with ⟨hv,rfl⟩ | hv
      · cases hv
        rfl
      · cases hv
        rfl
  constructor
  case kept =>
    refine (((hsmtp.mono ?_).trans (htest.mono ?_)).trans (hconsent.mono ?_)).trans (husers.mono ?_)
    · rintro p ⟨a,ha,rfl⟩
      exact .smtp ha
    · exact fun p hp => .test (hp.of_kept (hid₁ _) (hnamed _))
    · exact fun p hp => .consent (hp.of_kept (hid₂ _) fun k hk => hnamed _ k (hk.of_update (id_apart clientUrl).1 h₂))
    · rintro p ⟨-,rfl,rfl⟩
      rw [← hold']
      exact .user
  case smtp =>
    intro a ha
    have hval := follow_assign (by decide) h₁ a ha
    obtain ⟨q,hq⟩ := smtp_first a ha
    have hne : js "smtpServer" ≠ js "clients" := by decide
    rw [hq] at hval ⊢
    rw [husers _ fun p hp => hlast hp (by decide) q,hconsent _ fun p hp => hp.apart hne q,
      htest _ fun p hp => hp.apart hne q]
    exact hval
  case test =>
    intro i hi a ha
    rw [husers (clientsMember :: .item i :: names a.1) fun p hp => hlast hp (by decide) _,
      hconsent _ fun p hp => ids_apart (by decide) ((hid₂ _ i).mpr hi) hp (names a.1)]
    exact htests i ((hid₁ _ i).mpr hi) a ha
  case consent =>
    intro i hi a ha
    rw [husers (clientsMember :: .item i :: names a.1) fun p hp => hlast hp (by decide) _]
    exact hconsents i ((hid₂ _ i).mpr hi) a ha
  case users =>
    rw [usersOf,follow_setKey h,hold']
    rfl

/-- The realm that the script writes, if it writes one. -/
theorem prepare_spec {s : Settings} {realm r : Node} (h : prepare s realm = .ok r) :
    ∃ url username password, s.clientUrl = some url ∧ s.reviewerUsername = some username ∧
      s.reviewerPassword = some password ∧ url ≠ [] ∧ username ≠ [] ∧ password ≠ [] ∧
      Hosted (trimmed url) username password realm r := by
  obtain ⟨url,hurl,h⟩ := bind_eq_ok.mp h
  obtain ⟨username,husername,h⟩ := bind_eq_ok.mp h
  obtain ⟨password,hpassword,h⟩ := bind_eq_ok.mp h
  obtain ⟨hurl,hurl'⟩ := required_eq_ok hurl
  obtain ⟨husername,husername'⟩ := required_eq_ok husername
  obtain ⟨hpassword,hpassword'⟩ := required_eq_ok hpassword
  exact ⟨url,username,password,hurl,husername,hpassword,hurl',husername',hpassword',
    program_spec (mapError_eq_ok.mp h)⟩

/-- A realm with both clients. -/
def both : Node :=
  .obj [(js "clients",.arr [.obj [(js "clientId",str (js "oidc4ac-test-client"))],
    .obj [(js "clientId",str (js "oidc4ac-consent-test-client")),(js "webOrigins",.arr [])]])]

def demo : Settings :=
  { clientUrl := some (js "https://demo/"), reviewerUsername := some (js "r"), reviewerPassword := some (js "p") }

theorem prepare_spec_both : ∃ r, prepare demo both = .ok r ∧ ∃ url username password,
    demo.clientUrl = some url ∧ demo.reviewerUsername = some username ∧ demo.reviewerPassword = some password ∧
    url ≠ [] ∧ username ≠ [] ∧ password ≠ [] ∧ Hosted (trimmed url) username password both r :=
  ⟨_,rfl,prepare_spec rfl⟩

end Oidc4acLab.Realm
