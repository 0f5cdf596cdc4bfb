import Oidc4acLab.Client.Model
import Oidc4acLab.Result.Reading
import Oidc4acLab.Workbench.Errors

/-! # When a result page is answered

The client's handlers know of a page only whether its objects can be shown. With the limits of
an interpreter that is what `render_result` makes of them: it returns a page whose text can be
encoded exactly where each of the five objects is dumped and its text can be encoded.
-/
namespace Oidc4acLab.Result
open Str Html Python Workbench Jwt Fallible

@[simp] theorem encodable_append_iff {a b : Str} : Encodable (a ++ b) ↔ Encodable a ∧ Encodable b :=
  List.forall_mem_append

@[simp] theorem encodable_literal (s : String) : Encodable (literal s) := by
  rw [literal,Str.Encodable,List.forall_mem_map]
  intro c _
  have hvalid : c.toNat < 0xD800 ∨ 0xDFFF < c.toNat ∧ c.toNat < 0x110000 := c.valid
  have hval : (Fin.ofNat 0x110000 c.toNat).val = c.toNat := Nat.mod_eq_of_lt (by omega)
  simp only [isSurrogate,hval,Bool.and_eq_false_iff,decide_eq_false_iff_not]
  omega

theorem encodable_escapePoint (p : CodePoint) : Encodable (escapePoint p) ↔ isSurrogate p = false := by
  rw [escapePoint]
  split_ifs with h h h h h
  · exact iff_of_true (encodable_literal _) (h ▸ by decide)
  · exact iff_of_true (encodable_literal _) (h ▸ by decide)
  · exact iff_of_true (encodable_literal _) (h ▸ by decide)
  · exact iff_of_true (encodable_literal _) (h ▸ by decide)
  · exact iff_of_true (encodable_literal _) (h ▸ by decide)
  · exact List.forall_mem_singleton

@[simp] theorem encodable_escape (s : Str) : Encodable (escape s) ↔ Encodable s := by
  induction s with
  | nil => rfl
  | cons p s ih =>
    have hsplit : escape (p :: s) = escapePoint p ++ escape s := List.flatMap_cons
    rw [hsplit,encodable_append_iff,encodable_escapePoint,ih]
    exact (List.forall_mem_cons (p := fun q => isSurrogate q = false)).symm

theorem encodable_resultHtml {stylesheet claims discovery idToken accessToken userinfo source resultId : Str}
    {allowRefresh : Bool} (hstylesheet : Encodable stylesheet) (hsource : Encodable source)
    (hresult : Encodable resultId) :
    Encodable (resultHtml stylesheet (cards claims discovery idToken accessToken userinfo) allowRefresh source
      resultId) ↔
      Encodable claims ∧ Encodable discovery ∧ Encodable idToken ∧ Encodable accessToken ∧ Encodable userinfo := by
  have hform : Encodable (if allowRefresh then refreshForm resultId else []) := by
    split_ifs
    · simp [refreshForm,hresult]
    · exact List.forall_mem_nil _
  simp [resultHtml,baseHtml,baseBefore,resultBefore,resultAfter,cards,card,opening,hform,hstylesheet,hsource]

theorem shown_resultHtml {stylesheet : Str} {sections : List (Str × Str)} {allowRefresh : Bool}
    {source resultId : Str} : literal "Verified authentication context" <:+:
      resultHtml stylesheet sections allowRefresh source resultId := by
  have hline : literal "Verified authentication context" <:+:
      literal "</p><h1>Verified authentication context</h1><p class=\"muted\">The test client shows only decoded, " := by
    rw [literal_eq rfl,literal_eq rfl]
    decide +kernel
  have hbefore : literal "Verified authentication context" <:+: resultBefore source := by
    rw [resultBefore]
    exact ((hline.trans (List.prefix_append _ _).isInfix).trans (List.suffix_append _ _).isInfix).trans
      (List.suffix_append _ _).isInfix
  rw [resultHtml,baseHtml]
  exact ((hbefore.trans (List.prefix_append _ _).isInfix).trans (List.prefix_append _ _).isInfix).trans
    (List.suffix_append _ _).isInfix

def encoded : Except Exception Str → Bool
  | .ok text => decide (Encodable text)
  | .error _ => false

theorem encoded_iff {r : Except Exception Str} : encoded r = true ↔ ∃ text, r = .ok text ∧ Encodable text := by
  cases r with
  | ok text => simp [encoded]
  | error e => simp [encoded]

theorem payload_of_renderResult {server : Server} {stylesheet : Str}
    {discovery claims idToken userinfo : Object} {accessToken : Option Str} {allowRefresh : Bool}
    {source resultId page : Str} (h : renderResult server stylesheet discovery claims idToken userinfo accessToken
      allowRefresh source resultId = .ok page) :
    ∃ payload, decodedAccessToken server.py accessToken = .ok payload := by
  rw [renderResult] at h
  obtain ⟨_,_,h⟩ := bind_eq_ok.mp h
  obtain ⟨_,_,h⟩ := bind_eq_ok.mp h
  obtain ⟨_,_,h⟩ := bind_eq_ok.mp h
  obtain ⟨payload,hpayload,_⟩ := bind_eq_ok.mp h
  exact ⟨payload,mapError_eq_ok.mp hpayload⟩

/-- The client with what its templates take from elsewhere. -/
structure Site where
  server : Server
  opens : 0 < server.py.indented
  stylesheet : Str
  encodable : Encodable stylesheet

namespace Site

/-- The objects of the handlers at a site. -/
def Object (_ : Site) : Type := Workbench.Object

variable (site : Site)

theorem encoded_empty : encoded (prettyJson site.server (.obj [])) = true := by
  have hdumps : prettyJson site.server (.obj []) = .ok (ofUnits [123,125]) := by
    rw [prettyJson,← Nat.succ_pred_eq_of_pos site.opens]
    rfl
  rw [hdumps,encoded]
  decide

def tokenShown (token : Option String) : Bool :=
  match decodedAccessToken site.server.py (token.map literal) with
  | .ok payload => encoded (prettyJson site.server (.obj payload))
  | .error _ => false

instance : Client.JsonObject site.Object where
  emptyCollection := ([] : Workbench.Object)
  shown object := encoded (prettyJson site.server (.obj object))
  tokenShown := site.tokenShown
  shown_empty := site.encoded_empty
  tokenShown_none := site.encoded_empty

theorem tokenShown_iff {token : Option String} : site.tokenShown token = true ↔ ∃ payload,
    decodedAccessToken site.server.py (token.map literal) = .ok payload ∧
      encoded (prettyJson site.server (.obj payload)) = true := by
  rw [tokenShown]
  cases decodedAccessToken site.server.py (token.map literal) with
  | ok payload => simp
  | error e => simp

/-- `render_result` with what a handler gives it. -/
def renderResult (page : Client.ResultPage site.Object) : Except Raised Str :=
  Result.renderResult site.server site.stylesheet page.discovery page.claims page.idToken.payload page.userinfo
    (page.accessToken.map literal) page.allowRefresh (literal page.source) (literal page.resultId)

variable {site} {page : Client.ResultPage site.Object} {text : Str}

theorem of_renderResult (h : site.renderResult page = .ok text) : ∃ payload c d i a u,
    decodedAccessToken site.server.py (page.accessToken.map literal) = .ok payload ∧
    prettyJson site.server (.obj page.claims) = .ok c ∧ prettyJson site.server (.obj page.discovery) = .ok d ∧
    prettyJson site.server (.obj page.idToken.payload) = .ok i ∧ prettyJson site.server (.obj payload) = .ok a ∧
    prettyJson site.server (.obj page.userinfo) = .ok u ∧
    text = resultHtml site.stylesheet (cards c d i a u) page.allowRefresh (literal page.source)
      (literal page.resultId) := by
  obtain ⟨payload,hpayload⟩ := payload_of_renderResult h
  obtain ⟨c,d,i,a,u,hrest⟩ := Result.of_renderResult hpayload h
  exact ⟨payload,c,d,i,a,u,hpayload,hrest⟩

/-- `render_result` answers where the handlers say so. -/
theorem rendered_iff (page : Client.ResultPage site.Object) :
    (∃ text, site.renderResult page = .ok text ∧ Encodable text) ↔ page.rendered = true := by
  have hshown : page.rendered = true ↔
      encoded (prettyJson site.server (.obj page.claims)) = true ∧
      encoded (prettyJson site.server (.obj page.discovery)) = true ∧
      encoded (prettyJson site.server (.obj page.idToken.payload)) = true ∧
      (∃ payload, decodedAccessToken site.server.py (page.accessToken.map literal) = .ok payload ∧
        encoded (prettyJson site.server (.obj payload)) = true) ∧
      encoded (prettyJson site.server (.obj page.userinfo)) = true := by
    rw [← tokenShown_iff]
    exact Client.ResultPage.rendered_iff
  have hsource := encodable_literal page.source
  have hresult := encodable_literal page.resultId
  rw [hshown]
  simp only [encoded_iff]
  constructor
  · rintro ⟨text,htext,h⟩
    obtain ⟨payload,c,d,i,a,u,hpayload,hc,hd,hi,ha,hu,rfl⟩ := of_renderResult htext
    obtain ⟨hc',hd',hi',ha',hu'⟩ := (encodable_resultHtml site.encodable hsource hresult).mp h
    exact ⟨⟨c,hc,hc'⟩,⟨d,hd,hd'⟩,⟨i,hi,hi'⟩,⟨payload,hpayload,a,ha,ha'⟩,u,hu,hu'⟩
  · rintro ⟨⟨c,hc,hc'⟩,⟨d,hd,hd'⟩,⟨i,hi,hi'⟩,⟨payload,hpayload,a,ha,ha'⟩,u,hu,hu'⟩
    refine ⟨resultHtml site.stylesheet (cards c d i a u) page.allowRefresh (literal page.source)
      (literal page.resultId),?_,(encodable_resultHtml site.encodable hsource hresult).mpr ⟨hc',hd',hi',ha',hu'⟩⟩
    simp only [renderResult,Result.renderResult,hc,hd,hi,hpayload,ha,hu,Except.mapError,bind,Except.bind]
    rfl

end Site

end Oidc4acLab.Result
