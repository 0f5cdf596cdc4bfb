import Mathlib.Data.List.DropRight
import Oidc4acLab.Python.Encoding
import Oidc4acLab.Workbench.Meaning

/-! # Requests that are not answered

A text that passes a limit of loading raises what `parse_claims` does not catch, and an
object that is loaded may be nested too deep to be dumped or hold a string that no page
can be encoded with. All other texts are answered: with the preview or the redirect, or
with the page that shows the text again.
-/
namespace Oidc4acLab.Workbench
open Json Python Document Scanner Str

def rejected (raw message : Str) : Response := .workbench 400 raw (some message)

/-- `parse_claims` gives an object or raises `ClaimsValidationError`, and both requests are answered. -/
structure Answers (server : Server) (raw : Str) : Prop where
  parsed : (∃ claims, parseClaims server (some raw) = .ok claims) ∨
    ∃ m, parseClaims server (some raw) = .error (.claimsValidation m)
  preview : (∃ text, preview server (some raw) = .ok (.preview text)) ∨
    ∃ m, preview server (some raw) = .ok (rejected raw m)
  login : ∀ form nonce contextId, form.claimsJson = some raw → form.omitClaims = false →
    (∃ r, login server form nonce contextId = .ok (.redirect r)) ∨
      ∃ m, login server form nonce contextId = .ok (rejected raw m)

def AtomPaired : Atom → Prop
  | .str t => Paired t
  | _ => True

/-- What is kept of a text is nested within the limits of dumping and has no lone surrogate. -/
structure Shown (py : Interpreter) (d : Tree Atom) : Prop where
  indented : d.collapse.Nested py.indented
  encoding : d.collapse.Nested py.encoding
  paired : d.collapse.Every AtomPaired fun names => ∀ name ∈ names, Paired name

/-- The text is blank or too long, or it passes no limit of loading and is shown if it is an object. -/
def Answerable (server : Server) (raw : Str) : Prop :=
  strip raw = [] ∨ Encodable raw ∧ (64000 < utf8Length raw ∨
    ¬ (scalars server.py.digits server.py.digits_pos).PassesLimit server.py.decoding (units raw) ∧
      ∀ members, Whole Extended (units raw) (.obj members) → Shown server.py (.obj members))

theorem valuePaired_loaded {d : Tree Atom} :
    ValuePaired (loaded d) ↔ d.collapse.Every AtomPaired fun names => ∀ name ∈ names, Paired name := by
  have hscalar : (fun a => ScalarPaired (scalar a)) = AtomPaired := by
    funext a
    cases a with
    | num l =>
      by_cases hint : l.IsInteger
      · rw [scalar_integer hint]
        rfl
      · rw [scalar_double hint]
        rfl
    | null | bool | str | nan | infinity => rfl
  rw [ValuePaired,loaded,Tree.collapse_map,Tree.every_map,hscalar]

theorem encodable_append {a b : Str} (ha : Encodable a) (hb : Encodable b) : Encodable (a ++ b) :=
  List.forall_mem_append.mpr ⟨ha,hb⟩

theorem encodable_number (n : ℕ) : Encodable (number n) := by
  rw [number,Str.Encodable,List.forall_mem_map]
  intro c hc
  have hdigit := Nat.isDigit_of_mem_toDigits (by decide) (by decide) hc
  simp only [Char.isDigit,Bool.and_eq_true,decide_eq_true_eq] at hdigit
  have hle : c.toNat ≤ 57 := hdigit.2
  have hval : (Fin.ofNat 0x110000 c.toNat).val = c.toNat := Nat.mod_eq_of_lt (by omega)
  simp only [isSurrogate,hval,Bool.and_eq_false_iff,decide_eq_false_iff_not]
  omega

theorem encodable_of_blank {s : Str} (h : strip s = []) : Encodable s := by
  have hspace : ∀ p ∈ s, isSpace p = true := by
    rw [strip,List.rdropWhile_eq_nil_iff] at h
    rw [← List.dropWhile_eq_nil_iff]
    by_contra hne
    have hhead := List.head_dropWhile_not isSpace hne
    rw [h _ (List.head_mem hne)] at hhead
    cases hhead
  intro p hp
  have hp' := hspace p hp
  simp only [isSpace,Bool.or_eq_true,Bool.and_eq_true,decide_eq_true_eq,List.contains_iff_mem,List.mem_cons,
    List.not_mem_nil,or_false] at hp'
  simp only [isSurrogate,Bool.and_eq_false_iff,decide_eq_false_iff_not]
  omega

theorem homeResponse_rejected (server : Server) {raw message : Str} (hraw : Encodable raw)
    (hmessage : Encodable message) :
    homeResponse server (some raw) (some message) 400 = .ok (rejected raw message) := by
  have hpage : Encodable raw ∧ ∀ m ∈ some message, Encodable m := by
    refine ⟨hraw,?_⟩
    rintro m ⟨⟩
    exact hmessage
  exact if_pos hpage

section Parsing
variable {server : Server} {raw : Str}

variable (server) in
theorem parseClaims_refused (h : strip raw = [] ∨ Encodable raw ∧ 64000 < utf8Length raw) :
    ∃ m, Encodable m ∧ parseClaims server (some raw) = .error (.claimsValidation m) := by
  rcases h with hblank | ⟨hraw,hlong⟩
  · exact ⟨_,by decide +kernel,if_pos hblank⟩
  · simp only [parseClaims]
    split_ifs with hblank
    · exact ⟨_,by decide +kernel,rfl⟩
    · exact ⟨_,by decide +kernel,rfl⟩

theorem parseClaims_loads (hblank : strip raw ≠ []) (hraw : Encodable raw) (hlong : ¬ 64000 < utf8Length raw) :
    parseClaims server (some raw) =
      match (loads server.py (units raw)).mapError raised with
      | .error .jsonDecode =>
        .error (.claimsValidation (literal "The Claim Request Object is not valid JSON (line " ++
          (number (server.errorPosition raw).1 ++ (literal ", column " ++
            (number (server.errorPosition raw).2 ++ literal ").")))))
      | .error e => .error e
      | .ok (.obj claims) => .ok claims
      | .ok _ => .error (.claimsValidation (literal "The Claim Request Object must be a top-level JSON object.")) := by
  exact (if_neg hblank).trans ((if_neg (not_not.mpr hraw)).trans (if_neg hlong))

variable (server) in
/-- A text that is read is loaded as an object or refused with a message, unless it passes a limit. -/
theorem parseClaims_cases (hblank : strip raw ≠ []) (hraw : Encodable raw) (hlong : ¬ 64000 < utf8Length raw) :
    Exceeds (loads server.py (units raw)) ∧
        (parseClaims server (some raw) = .error .valueError ∨ parseClaims server (some raw) = .error .recursionError) ∨
      (∃ m, Encodable m ∧ parseClaims server (some raw) = .error (.claimsValidation m)) ∧
        (¬ Exceeds (loads server.py (units raw)) ∧ ∀ claims, loads server.py (units raw) ≠ .ok (.obj claims)) ∨
      ∃ claims, loads server.py (units raw) = .ok (.obj claims) ∧ parseClaims server (some raw) = .ok claims := by
  rw [parseClaims_loads hblank hraw hlong]
  cases hl : loads server.py (units raw) with
  | error e =>
    cases e with
    | malformed =>
      have hmessage : ∀ l c, Encodable (literal "The Claim Request Object is not valid JSON (line " ++
          (number l ++ (literal ", column " ++ (number c ++ literal ").")))) := fun l c =>
        encodable_append (by decide +kernel) (encodable_append (encodable_number l)
          (encodable_append (by decide +kernel) (encodable_append (encodable_number c) (by decide +kernel))))
      exact Or.inr (Or.inl ⟨⟨_,hmessage _ _,rfl⟩,not_exceeds_malformed,fun claims h => nomatch h⟩)
    | digits => exact Or.inl ⟨⟨_,rfl,by decide⟩,Or.inl rfl⟩
    | recursion => exact Or.inl ⟨⟨_,rfl,by decide⟩,Or.inr rfl⟩
  | ok v =>
    cases v with
    | obj claims => exact Or.inr (Or.inr ⟨claims,rfl,rfl⟩)
    | leaf a =>
      exact Or.inr (Or.inl ⟨⟨_,by decide +kernel,rfl⟩,not_exceeds_ok _,fun claims h => nomatch h⟩)
    | arr items =>
      exact Or.inr (Or.inl ⟨⟨_,by decide +kernel,rfl⟩,not_exceeds_ok _,fun claims h => nomatch h⟩)

end Parsing

section Accepted
variable {server : Server} {raw : Str} {claims : Object}

theorem dumps_loaded (style : Style) {n : ℕ} {v : Value} {t : Text} (h : loads server.py t = .ok v) :
    (∃ text, dumpsAt style server.py.digits n 0 v = .ok text) ↔ v.Nested n := by
  obtain ⟨d,hd,hwithin,rfl⟩ := loads_eq_ok h
  constructor
  · rintro ⟨text,htext⟩
    exact (dumpsAt_sound htext).2.1
  · intro hn
    exact dumpsAt_ok style 0 hn (loaded_fits hd hwithin.2)

/-- The preview is shown exactly if the claims can be dumped with indentation and encoded. -/
theorem preview_accepted (hloads : loads server.py (units raw) = .ok (.obj claims))
    (hparse : parseClaims server (some raw) = .ok claims) :
    ((∃ text, preview server (some raw) = .ok (.preview text)) ↔
      Tree.Nested server.py.indented (.obj claims) ∧ ValuePaired (.obj claims)) ∧
      ∀ m, preview server (some raw) ≠ .ok (rejected raw m) := by
  have hshow : preview server (some raw) =
      prettyJson server (.obj claims) >>= fun text => respond (.preview text) := by
    rw [preview,hparse]
  cases hd : dumpsAt .pretty server.py.digits server.py.indented 0 (.obj claims) with
  | error e =>
    have hnested : ¬ Tree.Nested server.py.indented (.obj claims) := by
      rw [← dumps_loaded .pretty hloads,hd]
      rintro ⟨text,⟨⟩⟩
    rw [hshow,prettyJson,hd]
    refine ⟨iff_of_false ?_ fun h => hnested h.1,fun m h => ?_⟩
    · rintro ⟨text,⟨⟩⟩
    · cases h
  | ok text =>
    have hnested : Tree.Nested server.py.indented (.obj claims) := (dumps_loaded .pretty hloads).mp ⟨text,hd⟩
    have hpaired : Paired text ↔ ValuePaired (.obj claims) := paired_dumpsAt rfl hd
    have hpage : preview server (some raw) =
        if Encodable (ofUnits text) then .ok (.preview (ofUnits text)) else .error .unicodeEncode := by
      rw [hshow,prettyJson,hd]
      rfl
    rw [hpage,← hpaired,Paired]
    split_ifs with htext
    · refine ⟨iff_of_true ⟨_,rfl⟩ ⟨hnested,htext⟩,?_⟩
      rintro m ⟨⟩
    · refine ⟨iff_of_false ?_ fun h => htext h.2,?_⟩
      · rintro ⟨text,⟨⟩⟩
      · rintro m ⟨⟩

theorem login_accepted (hloads : loads server.py (units raw) = .ok (.obj claims))
    (hparse : parseClaims server (some raw) = .ok claims) {form : LoginForm} (hraw : form.claimsJson = some raw)
    (homit : form.omitClaims = false) (nonce contextId : Str) :
    ((∃ r, login server form nonce contextId = .ok (.redirect r)) ↔
      Tree.Nested server.py.encoding (.obj claims)) ∧
      ∀ m, login server form nonce contextId ≠ .ok (rejected raw m) := by
  have hshow : login server form nonce contextId = authorize server form nonce contextId claims := by
    rw [login,homit,if_neg Bool.false_ne_true,hraw,hparse]
  have hparameter : claimsParameter server form claims =
      ((dumps server.py (.obj claims)).mapError raised).map some := by
    rw [claimsParameter,homit,if_neg Bool.false_ne_true]
  rw [hshow,authorize,hparameter,← dumps_loaded .compact hloads,dumps]
  cases hd : dumpsAt .compact server.py.digits server.py.encoding 0 (.obj claims) with
  | error e =>
    refine ⟨iff_of_false ?_ ?_,?_⟩
    · rintro ⟨r,⟨⟩⟩
    · rintro ⟨text,⟨⟩⟩
    · rintro m ⟨⟩
  | ok text =>
    refine ⟨iff_of_true ⟨_,rfl⟩ ⟨text,rfl⟩,?_⟩
    rintro m ⟨⟩

end Accepted

/-- A text that is refused with a message is answered with the page that shows it again. -/
theorem answers_of_refused {server : Server} {raw m : Str} (hraw : Encodable raw) (hm : Encodable m)
    (h : parseClaims server (some raw) = .error (.claimsValidation m)) : Answers server raw := by
  have hpage := homeResponse_rejected server hraw hm
  refine ⟨Or.inr ⟨m,h⟩,Or.inr ⟨m,?_⟩,?_⟩
  · rw [preview,h]
    exact hpage
  · intro form nonce contextId hform homit
    refine Or.inr ⟨m,?_⟩
    rw [login,homit,if_neg Bool.false_ne_true,hform,h]
    exact hpage

theorem answers_of_accepted {server : Server} {raw : Str} {claims : Object}
    (hloads : loads server.py (units raw) = .ok (.obj claims))
    (hparse : parseClaims server (some raw) = .ok claims) : Answers server raw ↔
      Tree.Nested server.py.indented (.obj claims) ∧ Tree.Nested server.py.encoding (.obj claims) ∧
        ValuePaired (.obj claims) := by
  have hpreview := preview_accepted hloads hparse
  let form : LoginForm := ⟨some raw,false,false,false⟩
  have hlogin := login_accepted hloads hparse (show form.claimsJson = some raw from rfl) rfl
  constructor
  · intro h
    have hshown := hpreview.1.mp (h.preview.resolve_right fun ⟨m,hm⟩ => hpreview.2 m hm)
    have hsent := (hlogin [] []).1.mp ((h.login form [] [] rfl rfl).resolve_right fun ⟨m,hm⟩ => (hlogin [] []).2 m hm)
    exact ⟨hshown.1,hsent,hshown.2⟩
  · rintro ⟨hindented,hencoding,hpaired⟩
    refine ⟨Or.inl ⟨claims,hparse⟩,Or.inl (hpreview.1.mpr ⟨hindented,hpaired⟩),?_⟩
    intro form nonce contextId hform homit
    exact Or.inl ((login_accepted hloads hparse hform homit nonce contextId).1.mpr hencoding)

theorem shown_iff {server : Server} {raw : Str} {claims : Object}
    (hloads : loads server.py (units raw) = .ok (.obj claims)) :
    (∀ members, Whole Extended (units raw) (.obj members) → Shown server.py (.obj members)) ↔
      Tree.Nested server.py.indented (.obj claims) ∧ Tree.Nested server.py.encoding (.obj claims) ∧
        ValuePaired (.obj claims) := by
  obtain ⟨d,hd,-,heq⟩ := loads_eq_ok hloads
  obtain ⟨members,rfl⟩ : ∃ members, d = .obj members := by
    cases d with
    | obj members => exact ⟨members,rfl⟩
    | leaf a =>
      rw [loaded,Tree.map_leaf,Tree.collapse_leaf] at heq
      cases heq
    | arr items =>
      rw [loaded,Tree.map_arr,Tree.collapse_arr] at heq
      cases heq
  rw [heq,nested_loaded,nested_loaded,valuePaired_loaded]
  constructor
  · intro h
    have hshown := h members hd
    exact ⟨hshown.indented,hshown.encoding,hshown.paired⟩
  · rintro ⟨hindented,hencoding,hpaired⟩ members' hd'
    rw [whole_unique hd' hd]
    exact ⟨hindented,hencoding,hpaired⟩

/-- A text is answered by both requests exactly if it is answerable. -/
theorem answers_iff (server : Server) (raw : Str) : Answers server raw ↔ Answerable server raw := by
  by_cases hblank : strip raw = []
  · obtain ⟨m,hm,hparse⟩ := parseClaims_refused server (Or.inl hblank)
    exact iff_of_true (answers_of_refused (encodable_of_blank hblank) hm hparse) (Or.inl hblank)
  by_cases hraw : Encodable raw
  · by_cases hlong : 64000 < utf8Length raw
    · obtain ⟨m,hm,hparse⟩ := parseClaims_refused server (Or.inr ⟨hraw,hlong⟩)
      exact iff_of_true (answers_of_refused hraw hm hparse) (Or.inr ⟨hraw,Or.inl hlong⟩)
    rw [Answerable,or_iff_right hblank,and_iff_right hraw,or_iff_right hlong,← exceeds_loads]
    rcases parseClaims_cases server hblank hraw hlong with
      ⟨hexceeds,hparse⟩ | ⟨⟨m,hm,hparse⟩,hwithin,hnone⟩ | ⟨claims,hloads,hparse⟩
    · refine iff_of_false (fun h => ?_) fun h => h.1 hexceeds
      rcases h.parsed with ⟨claims,hok⟩ | ⟨m,herror⟩
      · rcases hparse with hparse | hparse <;> rw [hparse] at hok <;> cases hok
      · rcases hparse with hparse | hparse <;> rw [hparse] at herror <;> cases herror
    · refine iff_of_true (answers_of_refused hraw hm hparse) ⟨hwithin,fun members hmembers => ?_⟩
      -- the text would have been loaded as an object
      have hread := loads_reads server.py hmembers
      have hobj : ∃ claims, loaded (.obj members) = .obj claims :=
        ⟨_,by rw [loaded,Tree.map_obj,Tree.collapse_obj]⟩
      obtain ⟨claims,hclaims⟩ := hobj
      by_cases hfits : (scalars server.py.digits server.py.digits_pos).Within server.py.decoding (.obj members)
      · exact absurd ((hread.1 hfits).trans (congrArg _ hclaims)) (hnone claims)
      · exact absurd (hread.2 hfits) hwithin
    · rw [answers_of_accepted hloads hparse,← shown_iff hloads,hloads]
      exact (and_iff_right (not_exceeds_ok _)).symm
  · have hparse : parseClaims server (some raw) = .error .unicodeEncode := by
      rw [parseClaims,if_neg hblank,if_pos hraw]
    refine iff_of_false (fun h => ?_) fun h => ?_
    · rcases h.parsed with ⟨claims,hok⟩ | ⟨m,herror⟩
      · rw [hparse] at hok
        cases hok
      · rw [hparse] at herror
        cases herror
    · rcases h with h | h
      · exact hblank h
      · exact hraw h.1

/-- The text of an object with a string that is one escaped surrogate. -/
def loneSurrogate : Text := memberA [34,92,117,100,56,48,48,34]

/-- It is accepted, and no page is answered. -/
theorem lone_surrogate_not_answered : preview lab (some (ofUnits loneSurrogate)) = .error .unicodeEncode ∧
    ¬ Answers lab (ofUnits loneSurrogate) := by
  have hpreview : preview lab (some (ofUnits loneSurrogate)) = .error .unicodeEncode := by
    have hescapes : (match preview lab (some (ofUnits loneSurrogate)) with
        | .error e => some e
        | .ok _ => none) = some .unicodeEncode := by
      decide +kernel
    cases h : preview lab (some (ofUnits loneSurrogate)) with
    | error e =>
      rw [h] at hescapes
      rw [Option.some.inj hescapes]
    | ok page =>
      rw [h] at hescapes
      cases hescapes
  refine ⟨hpreview,fun h => ?_⟩
  rcases h.preview with ⟨text,hok⟩ | ⟨m,hok⟩
  · rw [hpreview] at hok
    cases hok
  · rw [hpreview] at hok
    cases hok

end Oidc4acLab.Workbench
