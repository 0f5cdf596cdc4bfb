import Oidc4acLab.Jwt.Payload
import Oidc4acLab.Text.CharRefs
import Oidc4acLab.Text.Search

/-! # The result page and its reader

The test client shows the objects of an authorization as escaped JSON texts, or the error
of one, and the end-to-end suite reads them back from the page.
-/
namespace Oidc4acLab.Result
open Text Str Html Search Python Scanner Workbench Jwt

/-- `base.html` up to its block `content`. -/
def baseBefore (stylesheet title : Str) : Str :=
  literal "<!doctype html>\n<html lang=\"en\">\n  <head>\n    <meta charset=\"utf-8\">\n" ++
  (literal "    <meta name=\"viewport\" content=\"width=device-width, initial-scale=1\">\n    <title>" ++
  (title ++ (literal "</title>\n    <link rel=\"stylesheet\" href=\"" ++ (escape stylesheet ++
  (literal "\">\n  </head>\n  <body>\n    <main class=\"page-shell\">\n      <header class=\"site-header\">\n" ++
  (literal "        <a class=\"brand\" href=\"/\">OIDC4AC <span>native lab</span></a>\n" ++
  (literal "        <nav class=\"site-nav\" aria-label=\"Lab tools\">\n" ++
  (literal "          <a href=\"/\">Request workbench</a>\n          <a href=\"/tools\">Factor tools</a>\n" ++
  literal "        </nav>\n      </header>\n      "))))))))

/-- `base.html` with its two blocks. -/
def baseHtml (stylesheet title content : Str) : Str :=
  baseBefore stylesheet title ++ (content ++ literal "\n    </main>\n  </body>\n</html>")

/-- `<h2>heading</h2><pre>` -/
def opening (heading : Str) : Str := literal "<h2>" ++ (heading ++ literal "</h2><pre>")

/-- A card of the result page. -/
def card (heading content : Str) : Str :=
  literal "  <section class=\"card\">" ++ (opening heading ++ (escape content ++
  (literal "</pre>" ++ literal "</section>\n")))

def cards (claims discovery idToken accessToken userinfo : Str) : List (Str × Str) :=
  [(literal "Submitted Claim Request Object",claims),(literal "Feature discovery",discovery),
    (literal "Verified ID Token",idToken),(literal "Verified Access Token (claims only)",accessToken),
    (literal "Access-token-bound UserInfo",userinfo)]

def refreshForm (resultId : Str) : Str :=
  literal "<form method=\"post\" action=\"/refresh\"><input type=\"hidden\" name=\"result_id\" value=\"" ++
  (escape resultId ++
  literal "\"><button class=\"primary\" type=\"submit\">Refresh tokens and re-check snapshot</button></form>")

def resultBefore (source : Str) : Str :=
  literal "\n<section class=\"result-heading\"><p class=\"eyebrow\">" ++ (escape source ++
  (literal "</p><h1>Verified authentication context</h1><p class=\"muted\">The test client shows only decoded, " ++
  (literal "verified response objects. It deliberately does not print bearer or refresh tokens.</p></section>\n" ++
  (literal "<div class=\"notice\">For a refresh test, overlapping authentication details should describe the same " ++
  literal "immutable event snapshot as the authorization-code response.</div>\n<div class=\"result-grid\">\n"))))

def resultAfter (allowRefresh : Bool) (resultId : Str) : Str :=
  literal "</div>\n<div class=\"button-row result-actions\">" ++
  ((if allowRefresh then refreshForm resultId else []) ++
  literal "<a class=\"button secondary\" href=\"/\">Compose another request</a></div>\n")

def resultHtml (stylesheet : Str) (sections : List (Str × Str)) (allowRefresh : Bool) (source resultId : Str) :
    Str :=
  baseHtml stylesheet (literal "OIDC4AC result")
    (resultBefore source ++ ((sections.flatMap fun c => card c.1 c.2) ++ resultAfter allowRefresh resultId))

def errorHtml (stylesheet error description : Str) : Str :=
  baseHtml stylesheet (literal "OIDC4AC request result")
    (literal "\n" ++ (literal "<section class=\"error-page\">" ++
    (literal "<p class=\"eyebrow\">Authorization result</p>" ++ (literal "<h1>" ++ (escape error ++
    (literal "</h1>" ++ (literal "<p>" ++ (escape description ++
    literal "</p><a class=\"button primary\" href=\"/\">Return to request workbench</a></section>\n"))))))))

inductive Raised
  | pretty (e : Exception)
  | payload (e : Jwt.Raised)

/-- `discovery` is what `discovery_metadata` returns. -/
def renderResult (server : Server) (stylesheet : Str) (discovery claims idToken userinfo : Object)
    (accessToken : Option Str) (allowRefresh : Bool) (source resultId : Str) : Except Raised Str := do
  let claims ← (prettyJson server (.obj claims)).mapError .pretty
  let discovery ← (prettyJson server (.obj discovery)).mapError .pretty
  let idToken ← (prettyJson server (.obj idToken)).mapError .pretty
  let payload ← (decodedAccessToken server.py accessToken).mapError .payload
  let accessToken ← (prettyJson server (.obj payload)).mapError .pretty
  let userinfo ← (prettyJson server (.obj userinfo)).mapError .pretty
  return resultHtml stylesheet (cards claims discovery idToken accessToken userinfo) allowRefresh source resultId

/-- The interpreter of the suite with its tables of references, which loads what the server dumps, and the texts
of its messages. -/
structure Reader (server : Interpreter) where
  py : Interpreter
  refs : CharRefs
  repr : Str → Str
  error : Str → Str
  deep : server.indented ≤ py.decoding
  long : server.digits ≤ py.digits
  numbers : 640 ≤ py.digits

inductive Failure
  | checkFailure (message : Str)
  | valueError
  | recursionError

variable {server : Interpreter} (reader : Reader server)

def jsonSection (heading text : Str) : Except Failure Value :=
  match seek (expect (opening heading) (capture (literal "</pre>"))) text with
  | none =>
    .error (.checkFailure (literal "Result page does not contain the " ++ (reader.repr heading ++
      literal " JSON section.")))
  | some group =>
    match unescape reader.refs reader.py.digits group with
    | .error _ => .error .valueError
    | .ok s =>
      match loads reader.py (units s) with
      | .ok v => .ok v
      | .error .malformed =>
        .error (.checkFailure (heading ++ (literal " was not valid JSON: " ++ reader.error s)))
      | .error .digits => .error .valueError
      | .error .recursion => .error .recursionError

/-- `error()`, none where the page shows no error. -/
def error (text : Str) : Except Refusal (Option Str) :=
  match seek (expect (literal "<section class=\"error-page\">")
      (seek (expect (literal "<h1>") (capture (literal "</h1>"))))) text with
  | none => .ok none
  | some group => (unescape reader.refs reader.py.digits group).map fun s => some (strip s)

def marks : List Str := [literal "<h2>",literal "<section class=\"error-page\">"]

section Marks
variable {m w : Str} (hm : m ∈ marks) (hw : m <+: w)
include hm hw

theorem clear_literal {s : String} {cs : List Char} (hs : s = String.ofList cs)
    (h : ∀ m ∈ marks, Clear m (cs.map fun c => Fin.ofNat 0x110000 c.toNat)) : Clear w (literal s) := by
  rw [literal_eq hs]
  exact (h m hm).longer hw

theorem clear_escape (s : Str) : Clear w (escape s) := by
  have hhead : ∀ m ∈ marks, m.head? = some 60 := by decide +kernel
  obtain ⟨t,ht⟩ : ∃ t, m = 60 :: t := ⟨m.tail,(List.cons_head?_tail (hhead m hm)).symm⟩
  rw [ht] at hw
  exact (clear_of_not_mem (not_mem_escape s) t).longer hw

theorem clear_card {c : Str × Str} (hc : Clear w (opening c.1)) : Clear w (card c.1 c.2) := by
  have hstart : Clear w (literal "  <section class=\"card\">") := clear_literal hm hw rfl (by decide +kernel)
  have hclose : Clear w (literal "</pre>") := clear_literal hm hw rfl (by decide +kernel)
  have hend : Clear w (literal "</section>\n") := clear_literal hm hw rfl (by decide +kernel)
  exact hstart.append (hc.append ((clear_escape hm hw c.2).append (hclose.append hend)))

theorem clear_cards {cs : List (Str × Str)} (h : ∀ c ∈ cs, Clear w (opening c.1)) :
    Clear w (cs.flatMap fun c => card c.1 c.2) := by
  induction cs with
  | nil => exact clear_nil w
  | cons c cs ih =>
    rw [List.flatMap_cons]
    exact (clear_card hm hw (h c List.mem_cons_self)).append (ih fun d hd => h d (List.mem_cons_of_mem c hd))

theorem clear_baseBefore (stylesheet : Str) {title : Str} (htitle : Clear w title) :
    Clear w (baseBefore stylesheet title) := by
  refine Clear.append ?_ (Clear.append ?_ (htitle.append (Clear.append ?_ ((clear_escape hm hw stylesheet).append
    (Clear.append ?_ (Clear.append ?_ (Clear.append ?_ (Clear.append ?_ ?_))))))))
  all_goals exact clear_literal hm hw rfl (by decide +kernel)

theorem clear_resultBefore (source : Str) : Clear w (resultBefore source) := by
  refine Clear.append ?_ ((clear_escape hm hw source).append
    (Clear.append ?_ (Clear.append ?_ (Clear.append ?_ ?_))))
  all_goals exact clear_literal hm hw rfl (by decide +kernel)

theorem clear_resultAfter (allowRefresh : Bool) (resultId : Str) :
    Clear w (resultAfter allowRefresh resultId) := by
  have hform : Clear w (if allowRefresh then refreshForm resultId else []) := by
    split_ifs
    · refine Clear.append ?_ ((clear_escape hm hw resultId).append ?_)
      · exact clear_literal hm hw rfl (by decide +kernel)
      · exact clear_literal hm hw rfl (by decide +kernel)
    · exact clear_nil w
  refine Clear.append ?_ (hform.append ?_)
  · exact clear_literal hm hw rfl (by decide +kernel)
  · exact clear_literal hm hw rfl (by decide +kernel)

end Marks

/-- The card of a heading is found when no card before it opens with a beginning of the same heading. -/
theorem seek_section (stylesheet : Str) (a b : List (Str × Str)) {heading content : Str}
    (ha : ∀ c ∈ a, Clear (opening heading) (opening c.1)) (allowRefresh : Bool) (source resultId : Str) :
    seek (expect (opening heading) (capture (literal "</pre>")))
      (resultHtml stylesheet (a ++ (heading,content) :: b) allowRefresh source resultId) =
        some (escape content) := by
  have hm : literal "<h2>" ∈ marks := List.mem_cons_self
  have hw : literal "<h2>" <+: opening heading := List.prefix_append _ _
  have htitle : Clear (opening heading) (literal "OIDC4AC result") := clear_literal hm hw rfl (by decide +kernel)
  have hstart : Clear (opening heading) (literal "  <section class=\"card\">") :=
    clear_literal hm hw rfl (by decide +kernel)
  have hclose : Clear (literal "</pre>") (escape content) := clear_of_not_mem (not_mem_escape content) _
  rw [resultHtml,baseHtml,List.flatMap_append,List.flatMap_cons,card]
  simp only [List.append_assoc]
  rw [seek_clear (clear_baseBefore hm hw stylesheet htitle),seek_clear (clear_resultBefore hm hw source),
    seek_clear (clear_cards hm hw ha),seek_clear hstart]
  refine seek_here ?_
  rw [expect_append]
  exact capture_append hclose _

section Errors

theorem error_mark : literal "<section class=\"error-page\">" ∈ marks := List.mem_cons_of_mem _ List.mem_cons_self

theorem error_result {sections : List (Str × Str)}
    (h : ∀ c ∈ sections, Clear (literal "<section class=\"error-page\">") (opening c.1)) (stylesheet : Str)
    (allowRefresh : Bool) (source resultId : Str) :
    error reader (resultHtml stylesheet sections allowRefresh source resultId) = .ok none := by
  have hm := error_mark
  have hw := List.prefix_refl (literal "<section class=\"error-page\">")
  have htitle : Clear (literal "<section class=\"error-page\">") (literal "OIDC4AC result") :=
    clear_literal hm hw rfl (by decide +kernel)
  have hend : Clear (literal "<section class=\"error-page\">") (literal "\n    </main>\n  </body>\n</html>") :=
    clear_literal hm hw rfl (by decide +kernel)
  have hcontent : Clear (literal "<section class=\"error-page\">")
      (resultBefore source ++ ((sections.flatMap fun c => card c.1 c.2) ++ resultAfter allowRefresh resultId)) :=
    (clear_resultBefore hm hw source).append
      ((clear_cards hm hw h).append (clear_resultAfter hm hw allowRefresh resultId))
  have hpage := (clear_baseBefore hm hw stylesheet htitle).append (hcontent.append hend)
  rw [error,resultHtml,baseHtml,seek_none hpage (by decide +kernel)]

theorem error_errorHtml (stylesheet e description : Str) :
    error reader (errorHtml stylesheet e description) = .ok (some (strip e)) := by
  have hm := error_mark
  have hw := List.prefix_refl (literal "<section class=\"error-page\">")
  have htitle : Clear (literal "<section class=\"error-page\">") (literal "OIDC4AC request result") :=
    clear_literal hm hw rfl (by decide +kernel)
  have hline : Clear (literal "<section class=\"error-page\">") (literal "\n") :=
    clear_literal hm hw rfl (by decide +kernel)
  have hlabel : Clear (literal "<h1>") (literal "<p class=\"eyebrow\">Authorization result</p>") := by
    rw [literal_eq rfl]
    decide +kernel
  have hclose : Clear (literal "</h1>") (escape e) := clear_of_not_mem (not_mem_escape e) _
  have hgroup : seek (expect (literal "<section class=\"error-page\">")
      (seek (expect (literal "<h1>") (capture (literal "</h1>"))))) (errorHtml stylesheet e description) =
        some (escape e) := by
    rw [errorHtml,baseHtml]
    simp only [List.append_assoc]
    rw [seek_clear (clear_baseBefore hm hw stylesheet htitle),seek_clear hline]
    refine seek_here ?_
    rw [expect_append,seek_clear hlabel]
    refine seek_here ?_
    rw [expect_append]
    exact capture_append hclose _
  have hlimit : 2 ≤ reader.py.digits := Nat.le_trans (by decide) reader.numbers
  rw [error,hgroup]
  simp only [unescape_escape hlimit]
  rfl

end Errors

end Oidc4acLab.Result
