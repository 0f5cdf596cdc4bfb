import Oidc4acLab.Discovery.Metadata
import Oidc4acLab.Python.Encoding

/-! # The discovery endpoint of the test client

`/discovery` answers with the suggestions of the issuer's document, or with an error object
when the request fails. A document that is no object, and one that passes a limit of the
interpreter, raises what the handler does not catch.
-/
namespace Oidc4acLab.Discovery
open Python Oidc4acLab.Tree Json Scanner Fallible Oidc4acLab.Document

inductive Raised
  | requestException
  | valueError
  | recursionError
  | attributeError
  deriving DecidableEq

/-- The exception for a refusal; `Response.json` turns a `JSONDecodeError` into a `RequestException`. -/
def raised : Refusal → Raised
  | .malformed => .requestException
  | .digits => .valueError
  | .recursion => .recursionError

/-- The interpreter of the client, which dumps six arrays and objects inside one another. -/
structure Client where
  py : Interpreter
  room : 6 ≤ py.encoding

/-- What comes of the request to the issuer: a failure or an error status, or the text of the body. -/
inductive Fetched
  | failed
  | body (text : Text)

variable (client : Client)

def issuerDiscoveryDocument : Fetched → Except Raised Value
  | .failed => .error .requestException
  | .body text => (loads client.py text).mapError raised

/-- A value that is no dictionary has no `get`. -/
def builderDiscoveryMetadata (fetched : Fetched) : Except Raised Value :=
  issuerDiscoveryDocument client fetched >>= fun v => match v with
    | .obj document => .ok (normalized document)
    | _ => .error .attributeError

/-- A status and the JSON value of the body. -/
structure Answer where
  status : ℕ
  content : Value

/-- The members are written sorted by name, which is the same value for a reader. -/
def jsonify (status : ℕ) (v : Value) : Except Raised Answer :=
  ((dumps client.py v).mapError raised).map fun _ => ⟨status,v⟩

def unavailable : Value := .obj [(js "error",.leaf (.str (js "The issuer discovery document is unavailable.")))]

/-- The handler of `/discovery`. -/
def discovery (fetched : Fetched) : Except Raised Answer :=
  match builderDiscoveryMetadata client fetched >>= jsonify client 200 with
  | .error .requestException => jsonify client 502 unavailable
  | r => r

/-- The name is a string element of the array under `supported`. -/
def IsElement (document : Document) (supported name : Text) : Prop :=
  ∃ items, document.lookup supported = some (.arr items) ∧ .leaf (.str name) ∈ items

/-- The keys are the string elements, and each is mapped to a list of values. -/
structure Suggests (document : Document) (supported : Text) (entries : Document) : Prop where
  nodup : (entries.map Prod.fst).Nodup
  names : ∀ name, name ∈ entries.map Prod.fst ↔ IsElement document supported name
  values : ∀ e ∈ entries, ∃ values, e.2 = .obj [(js "values",.arr values)]

structure Shaped (document : Document) (names : List Text) (entries : Document) : Prop where
  increasing : names.Pairwise fun a b => Str.ofUnits a < Str.ofUnits b
  keys : ∀ name, name ∈ names ↔ name ∈ entries.map Prod.fst
  nodup : (entries.map Prod.fst).Nodup
  identifiers : ∀ name, name ∈ entries.map Prod.fst ↔ IsElement document (js "amr_identifiers_supported") name
  methods : ∀ e ∈ entries, ∃ metadata properties,
    e.2 = .obj [(js "metadata",.obj metadata),(js "properties",.obj properties)] ∧
      Suggests document (e.1 ++ js "_metadata_supported") metadata ∧
      Suggests document (e.1 ++ js "_properties_supported") properties

def WellShaped (document : Document) (v : Value) : Prop :=
  ∃ names entries, v = .obj [(js "identifiers",.arr (names.map fun name => .leaf (.str name))),
    (js "methods",.obj entries)] ∧ Shaped document names entries

def Served (fetched : Fetched) (v : Value) : Prop := ∃ t d, fetched = .body t ∧ Whole Extended t d ∧ loaded d = v

/-- The handler answers with the error object or with suggestions of the right shape. -/
def Answers (fetched : Fetched) : Prop :=
  discovery client fetched = .ok ⟨502,unavailable⟩ ∨ ∃ document v, Served fetched (.obj document) ∧
    discovery client fetched = .ok ⟨200,v⟩ ∧ WellShaped document v

/-- No value that is suggested is nested too deep to be dumped among the suggestions. -/
def Shallow (document : Document) : Prop :=
  ∀ identifier ∈ identifiers document, ∀ kind, ∀ name ∈ advertised document kind identifier,
    ∀ v ∈ listAt document (valuesSupported name), v.Nested (client.py.encoding-6)

/-- The text passes no limit, and if it is JSON, it is an object without values that are nested too deep. -/
def Answerable : Fetched → Prop
  | .failed => True
  | .body t => ¬ (scalars client.py.digits client.py.digits_pos).PassesLimit client.py.decoding t ∧
      ∀ d, Whole Extended t d → ∃ document, loaded d = .obj document ∧ Shallow client document

theorem mem_strings {items : List Value} {t : Text} : t ∈ strings items ↔ .leaf (.str t) ∈ items := by
  rw [strings,List.mem_filterMap]
  constructor
  · rintro ⟨item,hitem,heq⟩
    cases item with
    | leaf s =>
      cases s with
      | str u =>
        cases heq
        exact hitem
      | none | bool | int | float => cases heq
    | arr | obj => cases heq
  · exact fun h => ⟨_,h,rfl⟩

theorem mem_strings_listAt {document : Document} {supported name : Text} :
    name ∈ strings (listAt document supported) ↔ IsElement document supported name := by
  rw [mem_strings,listAt,IsElement]
  rcases hv : document.lookup supported with _ | (s | items | ms)
  · simp
  · simp
  · simp
  · simp

theorem sorted_increasing {names : List Text} (h : names.Nodup) :
    (sorted names).Pairwise fun a b => Str.ofUnits a < Str.ofUnits b := by
  have hle : (sorted names).Pairwise fun a b => decide (Str.ofUnits a ≤ Str.ofUnits b) = true := by
    refine List.pairwise_mergeSort ?_ ?_ names
    · intro a b c hab hbc
      rw [decide_eq_true_eq] at hab hbc ⊢
      exact le_trans hab hbc
    · intro a b
      rw [Bool.or_eq_true,decide_eq_true_eq,decide_eq_true_eq]
      exact le_total _ _
  have hne : (sorted names).Nodup := (List.mergeSort_perm names _).nodup_iff.mpr h
  refine (hle.and hne).imp ?_
  rintro a b ⟨hab,hne⟩
  rw [decide_eq_true_eq] at hab
  refine lt_of_le_of_ne hab fun heq => hne ?_
  rw [← Str.units_ofUnits a,heq,Str.units_ofUnits]

section Suggestions
variable (document : Document)

theorem suggests (kind : Kind) (identifier : Text) :
    Suggests document (identifier ++ kind.supported) (suggestions document kind identifier) where
  nodup := nodup_storeAll _
  names name := by
    rw [suggestions,mem_names_storeAll,List.map_map,← mem_strings_listAt]
    simp [advertised]
  values e he := ⟨_,(mem_storeAll_map.mp he).2⟩

theorem normalized_shaped : WellShaped document (normalized document) := by
  refine ⟨sorted ((methods document).map Prod.fst),methods document,rfl,?_⟩
  have hnodup : ((methods document).map Prod.fst).Nodup := nodup_storeAll _
  refine ⟨sorted_increasing hnodup,?_,hnodup,?_,?_⟩
  · exact fun name => (List.mergeSort_perm _ _).mem_iff
  · intro name
    rw [methods,mem_names_storeAll,List.map_map,← mem_strings_listAt]
    simp [identifiers]
  · intro e he
    exact ⟨_,_,(mem_storeAll_map.mp he).2,suggests document .metadata e.1,suggests document .properties e.1⟩

theorem nested_normalized {n : ℕ} : (normalized document).Nested (n+6) ↔
    ∀ identifier ∈ identifiers document, ∀ kind, ∀ name ∈ advertised document kind identifier,
      ∀ v ∈ listAt document (valuesSupported name), v.Nested n := by
  have hsuggestion : ∀ name, (suggestion document name).Nested (n+2) ↔
      ∀ v ∈ listAt document (valuesSupported name), v.Nested n := by
    intro name
    rw [suggestion,nested_succ_obj,List.forall_mem_singleton,nested_succ_arr]
  have hsuggestions : ∀ kind identifier, Nested (n+3) (.obj (suggestions document kind identifier)) ↔
      ∀ name ∈ advertised document kind identifier, ∀ v ∈ listAt document (valuesSupported name), v.Nested n := by
    intro kind identifier
    rw [nested_succ_obj]
    constructor
    · intro h name hname
      exact (hsuggestion name).mp (h (name,suggestion document name) (mem_storeAll_map.mpr ⟨hname,rfl⟩))
    · intro h e he
      obtain ⟨hname,hvalue⟩ := mem_storeAll_map.mp he
      rw [hvalue]
      exact (hsuggestion e.1).mpr (h e.1 hname)
  have hmethod : ∀ identifier, (method document identifier).Nested (n+4) ↔
      ∀ kind, Nested (n+3) (.obj (suggestions document kind identifier)) := by
    intro identifier
    rw [method,nested_succ_obj,List.forall_mem_cons,List.forall_mem_singleton]
    constructor
    · rintro ⟨hmetadata,hproperties⟩ (_ | _)
      · exact hproperties
      · exact hmetadata
    · exact fun h => ⟨h .metadata,h .properties⟩
  have hnames : ∀ names : List Text, Nested (n+5) (.arr (names.map fun name => .leaf (.str name)) : Value) :=
    fun names => .arr (List.forall_mem_map.mpr fun name _ => .leaf _ _)
  rw [normalized,nested_succ_obj,List.forall_mem_cons,List.forall_mem_singleton,and_iff_right (hnames _),
    nested_succ_obj]
  constructor
  · intro h identifier hidentifier kind
    have hmember := h (identifier,method document identifier) (mem_storeAll_map.mpr ⟨hidentifier,rfl⟩)
    exact (hsuggestions kind identifier).mp ((hmethod identifier).mp hmember kind)
  · intro h e he
    obtain ⟨hidentifier,hvalue⟩ := mem_storeAll_map.mp he
    rw [hvalue]
    exact (hmethod e.1).mpr fun kind => (hsuggestions kind e.1).mpr (h e.1 hidentifier kind)

variable {document}

theorem every_normalized {P : Scalar → Prop} (hP : ∀ t, P (.str t))
    (h : Every P (fun _ => True) (.obj document)) : (normalized document).Every P fun _ => True := by
  have hlist : ∀ name, ∀ v ∈ listAt document name, v.Every P fun _ => True := by
    intro name v hv
    rw [listAt] at hv
    split at hv
    · next items hlookup =>
      have hmember := (every_obj.mp h).2 (name,.arr items) (Collections.mem_of_lookup hlookup)
      exact every_arr.mp hmember v hv
    · cases hv
  have hsuggestions : ∀ kind identifier, Every P (fun _ => True) (.obj (suggestions document kind identifier)) := by
    intro kind identifier
    refine .obj trivial fun e he => ?_
    rw [(mem_storeAll_map.mp he).2]
    exact .obj trivial (List.forall_mem_singleton.mpr (.arr (hlist _)))
  refine .obj trivial (List.forall_mem_cons.mpr ⟨?_,List.forall_mem_singleton.mpr ?_⟩)
  · exact .arr (List.forall_mem_map.mpr fun name _ => .leaf (hP name))
  · refine .obj trivial fun e he => ?_
    rw [(mem_storeAll_map.mp he).2]
    exact .obj trivial (List.forall_mem_cons.mpr
      ⟨hsuggestions .metadata e.1,List.forall_mem_singleton.mpr (hsuggestions .properties e.1)⟩)

end Suggestions

section Handler
variable {client}

theorem jsonify_eq_ok {status : ℕ} {v : Value} {a : Answer}
    (hv : v.Every (fun s => Fits client.py.digits (atom s)) fun _ => True) :
    jsonify client status v = .ok a ↔ v.Nested client.py.encoding ∧ a = ⟨status,v⟩ := by
  rw [jsonify,map_eq_ok]
  constructor
  · rintro ⟨text,htext,rfl⟩
    exact ⟨(dumpsAt_sound (mapError_eq_ok.mp htext)).2.1,rfl⟩
  · rintro ⟨hn,rfl⟩
    obtain ⟨text,htext⟩ := dumpsAt_ok .compact 0 hn hv
    exact ⟨text,mapError_eq_ok.mpr htext,rfl⟩

theorem jsonify_refused {status : ℕ} {v : Value} {e : Raised} (h : jsonify client status v = .error e) :
    e ≠ .requestException := by
  rw [jsonify] at h
  cases hd : dumps client.py v with
  | ok text =>
    rw [hd] at h
    cases h
  | error r =>
    rw [hd] at h
    cases h
    have hr := dumpsAt_refused hd
    cases r with
    | malformed => exact absurd rfl hr
    | digits | recursion => exact fun heq => nomatch heq

variable (client)

theorem jsonify_unavailable : jsonify client 502 unavailable = .ok ⟨502,unavailable⟩ := by
  refine (jsonify_eq_ok (.obj trivial (List.forall_mem_singleton.mpr (.leaf trivial)))).mpr ⟨?_,rfl⟩
  refine Nested.mono (n := 1) (.obj (List.forall_mem_singleton.mpr (.leaf _ _))) ?_
  exact Nat.le_trans (by decide) client.room

variable {client}

theorem answers_of_failed {fetched : Fetched}
    (h : issuerDiscoveryDocument client fetched = .error .requestException) : Answers client fetched := by
  refine Or.inl ?_
  rw [discovery,builderDiscoveryMetadata,h]
  exact jsonify_unavailable client

theorem not_answers_of_raised {fetched : Fetched} {e : Raised} (he : e ≠ .requestException)
    (h : builderDiscoveryMetadata client fetched >>= jsonify client 200 = .error e) :
    discovery client fetched = .error e ∧ ¬ Answers client fetched := by
  have hraised : discovery client fetched = .error e := by
    rw [discovery,h]
    cases e with
    | requestException => exact absurd rfl he
    | valueError | recursionError | attributeError => rfl
  refine ⟨hraised,?_⟩
  rintro (hok | ⟨document,v,-,hok,-⟩)
  · rw [hraised] at hok
    cases hok
  · rw [hraised] at hok
    cases hok

theorem answers_of_object {t : Text} {document : Document} (h : loads client.py t = .ok (.obj document)) :
    Answers client (.body t) ↔ Shallow client document := by
  obtain ⟨d,hd,hwithin,heq⟩ := loads_eq_ok h
  have hdocument : Every (fun s => Fits client.py.digits (atom s)) (fun _ => True) (.obj document) := by
    rw [heq]
    exact loaded_fits hd hwithin.2
  have hfits := every_normalized (fun _ => trivial) hdocument
  have hnested : (normalized document).Nested client.py.encoding ↔ Shallow client document := by
    obtain ⟨n,hn⟩ := Nat.exists_eq_add_of_le' client.room
    rw [Shallow,hn,Nat.add_sub_cancel]
    exact nested_normalized document
  have hbuilder : builderDiscoveryMetadata client (.body t) >>= jsonify client 200 =
      jsonify client 200 (normalized document) := by
    rw [builderDiscoveryMetadata,issuerDiscoveryDocument,h]
    rfl
  rw [← hnested]
  cases hj : jsonify client 200 (normalized document) with
  | ok a =>
    obtain ⟨hn,rfl⟩ := (jsonify_eq_ok hfits).mp hj
    refine iff_of_true (Or.inr ⟨document,_,⟨t,d,rfl,hd,heq.symm⟩,?_,normalized_shaped document⟩) hn
    rw [discovery,hbuilder,hj]
  | error e =>
    rw [hj] at hbuilder
    refine iff_of_false (not_answers_of_raised (jsonify_refused hj) hbuilder).2 fun hn => ?_
    have hok : jsonify client 200 (normalized document) = .ok ⟨200,normalized document⟩ :=
      (jsonify_eq_ok hfits).mpr ⟨hn,rfl⟩
    rw [hj] at hok
    cases hok

/-- A value that is no object has no `get`. -/
theorem not_answers_of_other {t : Text} {v : Value} (h : loads client.py t = .ok v) (hv : ∀ document, v ≠ .obj document) :
    discovery client (.body t) = .error .attributeError ∧ ¬ Answers client (.body t) := by
  refine not_answers_of_raised (by decide) ?_
  rw [builderDiscoveryMetadata,issuerDiscoveryDocument,h]
  cases v with
  | obj document => exact absurd rfl (hv document)
  | leaf | arr => rfl

theorem not_answers_of_exceeds {t : Text} (h : Exceeds (loads client.py t)) : ¬ Answers client (.body t) := by
  obtain ⟨r,hr,hne⟩ := h
  have hraised : raised r ≠ .requestException := by
    cases r with
    | malformed => exact absurd rfl hne
    | digits | recursion => exact fun heq => nomatch heq
  refine (not_answers_of_raised hraised ?_).2
  rw [builderDiscoveryMetadata,issuerDiscoveryDocument,hr]
  rfl

end Handler

/-- The endpoint answers with the error object or with well shaped suggestions exactly if the body
passes no limit and is an object where it is JSON. -/
theorem discovery_answers_iff (fetched : Fetched) : Answers client fetched ↔ Answerable client fetched := by
  cases fetched with
  | failed => exact iff_of_true (answers_of_failed rfl) trivial
  | body t =>
    rw [Answerable,← exceeds_loads]
    cases hl : loads client.py t with
    | error r =>
      by_cases hr : r = .malformed
      · subst hr
        refine iff_of_true (answers_of_failed (by rw [issuerDiscoveryDocument,hl]; rfl))
          ⟨not_exceeds_malformed,fun d hd => ?_⟩
        -- a text of the grammar is loaded or passes a limit
        have hread := loads_reads client.py hd
        by_cases hwithin : (scalars client.py.digits client.py.digits_pos).Within client.py.decoding d
        · cases hl.symm.trans (hread.1 hwithin)
        · exact absurd (hl ▸ hread.2 hwithin) not_exceeds_malformed
      · have hexceeds : Exceeds (.error r : Except Refusal Value) := ⟨r,rfl,hr⟩
        exact iff_of_false (not_answers_of_exceeds (hl ▸ hexceeds)) fun h => h.1 hexceeds
    | ok v =>
      obtain ⟨d,hd,-,rfl⟩ := loads_eq_ok hl
      have honly : (∀ d', Whole Extended t d' → ∃ document, loaded d' = .obj document ∧ Shallow client document) ↔
          ∃ document, loaded d = .obj document ∧ Shallow client document := by
        constructor
        · exact fun h => h d hd
        · rintro h d' hd'
          rwa [whole_unique hd' hd]
      rw [honly,and_iff_right (not_exceeds_ok _)]
      by_cases hobj : ∃ document, loaded d = .obj document
      · obtain ⟨document,hdocument⟩ := hobj
        rw [answers_of_object (hl.trans (congrArg _ hdocument)),hdocument]
        constructor
        · exact fun h => ⟨document,rfl,h⟩
        · rintro ⟨_,heq,h⟩
          cases heq
          exact h
      · refine iff_of_false (not_answers_of_other hl fun document heq => hobj ⟨document,heq⟩).2 ?_
        rintro ⟨document,heq,-⟩
        exact hobj ⟨document,heq⟩

/-- A client with the limits of the interpreter in use. -/
def lab : Client where
  py := .usual
  room := by decide

/-- An issuer that serves an empty array. -/
theorem array_not_answered : discovery lab (.body [91,93]) = .error .attributeError ∧
    ¬ Answers lab (.body [91,93]) := by
  have hl : loads lab.py [91,93] = .ok (.arr []) := rfl
  exact not_answers_of_other hl fun document heq => nomatch heq

end Oidc4acLab.Discovery
