import Oidc4acLab.Result.Page

/-! # What is read from the pages

A section of the result page gives the object that the client showed in it, and the error
page gives its error. The texts may contain whatever the templates contain.
-/
namespace Oidc4acLab.Result
open Str Html Search Python Workbench Jwt Json Fallible

def headings : List Str :=
  [literal "Submitted Claim Request Object",literal "Feature discovery",literal "Verified ID Token",
    literal "Verified Access Token (claims only)",literal "Access-token-bound UserInfo"]

theorem map_cards (claims discovery idToken accessToken userinfo : Str) :
    (cards claims discovery idToken accessToken userinfo).map Prod.fst = headings := rfl

theorem headings_apart : headings.Pairwise fun x y => Clear (opening y) (opening x) := by
  decide +kernel

theorem headings_clear : ∀ x ∈ headings, Clear (literal "<section class=\"error-page\">") (opening x) := by
  decide +kernel

section Sections
variable {claims discovery idToken accessToken userinfo : Str}

theorem cards_apart : (cards claims discovery idToken accessToken userinfo).Pairwise
    fun c d => Clear (opening d.1) (opening c.1) := by
  have h := headings_apart
  rwa [← map_cards claims discovery idToken accessToken userinfo,List.pairwise_map] at h

theorem error_cards {interpreter : Interpreter} (reader : Reader interpreter) (stylesheet : Str)
    (allowRefresh : Bool) (source resultId : Str) :
    error reader (resultHtml stylesheet (cards claims discovery idToken accessToken userinfo) allowRefresh source
      resultId) = .ok none := by
  refine error_result reader ?_ stylesheet allowRefresh source resultId
  intro c hc
  refine headings_clear c.1 ?_
  rw [← map_cards claims discovery idToken accessToken userinfo]
  exact List.mem_map_of_mem hc

end Sections

theorem of_renderResult {server : Server} {stylesheet : Str} {discovery claims idToken userinfo payload : Object}
    {accessToken : Option Str} {allowRefresh : Bool} {source resultId page : Str}
    (hpayload : decodedAccessToken server.py accessToken = .ok payload)
    (h : renderResult server stylesheet discovery claims idToken userinfo accessToken allowRefresh source
      resultId = .ok page) :
    ∃ c d i a u, prettyJson server (.obj claims) = .ok c ∧ prettyJson server (.obj discovery) = .ok d ∧
      prettyJson server (.obj idToken) = .ok i ∧ prettyJson server (.obj payload) = .ok a ∧
      prettyJson server (.obj userinfo) = .ok u ∧
      page = resultHtml stylesheet (cards c d i a u) allowRefresh source resultId := by
  rw [renderResult] at h
  obtain ⟨c,hc,h⟩ := bind_eq_ok.mp h
  obtain ⟨d,hd,h⟩ := bind_eq_ok.mp h
  obtain ⟨i,hi,h⟩ := bind_eq_ok.mp h
  obtain ⟨shown,hshown,h⟩ := bind_eq_ok.mp h
  obtain ⟨a,ha,h⟩ := bind_eq_ok.mp h
  obtain ⟨u,hu,h⟩ := bind_eq_ok.mp h
  have hsame : payload = shown := Except.ok.inj (hpayload.symm.trans (mapError_eq_ok.mp hshown))
  rw [← hsame] at ha
  exact ⟨c,d,i,a,u,mapError_eq_ok.mp hc,mapError_eq_ok.mp hd,mapError_eq_ok.mp hi,mapError_eq_ok.mp ha,
    mapError_eq_ok.mp hu,(pure_eq_ok.mp h).symm⟩

section Objects
variable {server : Server} (reader : Reader server.py)

theorem loads_prettyJson {v : Value} {content : Str} (h : prettyJson server v = .ok content) (hv : v.Distinct) :
    loads reader.py (units content) = .ok v := by
  obtain ⟨t,ht,rfl⟩ := map_eq_ok.mp h
  rw [units_ofUnits]
  exact loads_dumpsAt (mapError_eq_ok.mp ht) hv reader.deep reader.long

theorem jsonSection_eq {sections : List (Str × Str)}
    (hapart : sections.Pairwise fun c d => Clear (opening d.1) (opening c.1)) {heading content : Str} {v : Value}
    (hmem : (heading,content) ∈ sections) (h : prettyJson server v = .ok content) (hv : v.Distinct)
    (stylesheet : Str) (allowRefresh : Bool) (source resultId : Str) :
    jsonSection reader heading (resultHtml stylesheet sections allowRefresh source resultId) = .ok v := by
  obtain ⟨a,b,rfl⟩ := List.append_of_mem hmem
  have ha : ∀ c ∈ a, Clear (opening heading) (opening c.1) := by
    intro c hc
    exact (List.pairwise_append.mp hapart).2.2 c hc (heading,content) List.mem_cons_self
  have hlimit : 2 ≤ reader.py.digits := Nat.le_trans (by decide) reader.numbers
  rw [jsonSection,seek_section stylesheet a b ha]
  simp only [unescape_escape hlimit,loads_prettyJson reader h hv]

theorem distinct_loadPayload {py : Interpreter} {encoded : Str} {v : Value} (h : loadPayload py encoded = .ok v) :
    v.Distinct := by
  rw [loadPayload] at h
  split at h
  · cases h
  · obtain ⟨d,-,-,rfl⟩ := loads_eq_ok h
    exact Tree.distinct_collapse _

theorem distinct_decoded {py : Interpreter} {token : Option Str} {payload : Object}
    (h : decodedAccessToken py token = .ok payload) : (Tree.obj payload).Distinct := by
  have hnil : (Tree.obj ([] : Object)).Distinct := by simp
  rcases token with _ | t
  · cases h
    exact hnil
  by_cases hcount : t.count 46 = 2
  · have hlength := Collections.length_splitOn 46 t
    rw [hcount] at hlength
    obtain ⟨a,p,s,hsplit⟩ := List.length_eq_three.mp hlength
    rw [decoded_parts py hsplit] at h
    split at h
    · next decoded hload =>
      cases h
      exact distinct_loadPayload hload
    · cases h
      exact hnil
    · cases h
    · cases h
      exact hnil
  · rw [decodedAccessToken,if_pos hcount] at h
    cases h
    exact hnil

/-- The suite reads from the five sections of the result page the objects that the client showed there, and no
error; from the error page it reads the error without the blanks around it. -/
theorem pages_read :
    (∀ (stylesheet : Str) (claims discovery idToken userinfo payload : Object) (accessToken : Option Str)
        (allowRefresh : Bool) (source resultId page : Str),
      (Tree.obj claims).Distinct → (Tree.obj discovery).Distinct → (Tree.obj idToken).Distinct →
      (Tree.obj userinfo).Distinct → decodedAccessToken server.py accessToken = .ok payload →
      renderResult server stylesheet discovery claims idToken userinfo accessToken allowRefresh source resultId =
        .ok page →
      jsonSection reader (literal "Submitted Claim Request Object") page = .ok (.obj claims) ∧
      jsonSection reader (literal "Feature discovery") page = .ok (.obj discovery) ∧
      jsonSection reader (literal "Verified ID Token") page = .ok (.obj idToken) ∧
      jsonSection reader (literal "Verified Access Token (claims only)") page = .ok (.obj payload) ∧
      jsonSection reader (literal "Access-token-bound UserInfo") page = .ok (.obj userinfo) ∧
      error reader page = .ok none) ∧
    ∀ stylesheet e description : Str, error reader (errorHtml stylesheet e description) = .ok (some (strip e)) := by
  constructor
  · intro stylesheet claims discovery idToken userinfo payload accessToken allowRefresh source resultId page
      hclaims hdiscovery hidToken huserinfo hpayload h
    obtain ⟨c,d,i,a,u,hc,hd,hi,ha,hu,hpage⟩ := of_renderResult hpayload h
    rw [hpage]
    have hread : ∀ {heading content : Str} {v : Value}, (heading,content) ∈ cards c d i a u →
        prettyJson server v = .ok content → v.Distinct →
        jsonSection reader heading (resultHtml stylesheet (cards c d i a u) allowRefresh source resultId) =
          .ok v := by
      intro heading content v hmem hv hdistinct
      exact jsonSection_eq reader cards_apart hmem hv hdistinct stylesheet allowRefresh source resultId
    refine ⟨hread ?_ hc hclaims,hread ?_ hd hdiscovery,hread ?_ hi hidToken,
      hread ?_ ha (distinct_decoded hpayload),hread ?_ hu huserinfo,
      error_cards reader stylesheet allowRefresh source resultId⟩
    · exact .head _
    · exact .tail _ (.head _)
    · exact .tail _ (.tail _ (.head _))
    · exact .tail _ (.tail _ (.tail _ (.head _)))
    · exact .tail _ (.tail _ (.tail _ (.tail _ (.head _))))
  · exact fun stylesheet e description => error_errorHtml reader stylesheet e description

end Objects

def refs : CharRefs where
  html5 s :=
    if s = literal "amp;" then some [38]
    else if s = literal "lt;" then some [60]
    else if s = literal "gt;" then some [62]
    else none
  invalidCharrefs _ := none
  invalidCodepoints _ := false
  amp := rfl
  lt := rfl
  gt := rfl
  valid _ _ := ⟨rfl,rfl⟩

theorem usual_deep : Interpreter.usual.indented ≤ Interpreter.usual.decoding := by decide

theorem usual_numbers : 640 ≤ Interpreter.usual.digits := by decide

/-- A suite with the limits of the server. -/
def suite : Reader lab.py where
  py := .usual
  refs := refs
  repr := id
  error _ := []
  deep := usual_deep
  long := Nat.le_refl Interpreter.usual.digits
  numbers := usual_numbers

/-- A request for the value `</pre>&lt;`. -/
def markup : Object := [(js "a",.leaf (.str (js "</pre>&lt;")))]

theorem markup_read : ∃ page,
    renderResult lab [] [] markup [] [] none false [] [] = .ok page ∧
    jsonSection suite (literal "Submitted Claim Request Object") page = .ok (.obj markup) ∧
    error suite (errorHtml [] (literal " a&b ") []) = .ok (some (literal "a&b")) := by
  obtain ⟨page,hpage⟩ : ∃ page, renderResult lab [] [] markup [] [] none false [] [] = .ok page := ⟨_,rfl⟩
  have hnil : (Tree.obj ([] : Object)).Distinct := by simp
  have hmarkup : (Tree.obj markup).Distinct := by
    rw [markup]
    simp
  obtain ⟨hresult,herror⟩ := pages_read suite
  refine ⟨page,hpage,?_,herror _ _ _⟩
  exact (hresult [] markup [] [] [] [] none false [] [] page hmarkup hnil hnil hnil rfl hpage).1

end Oidc4acLab.Result
