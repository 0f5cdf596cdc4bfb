import Oidc4acLab.MessageSizes.Measure
import Oidc4acLab.Python.Encoding

/-! # What the reported sizes add up to

The array of an event is written as its executions between two brackets, with a comma after
each but the last. The reported sizes are kept in a dictionary, so they add up to the size of
the array exactly where no two executions have one identifier. The HTTP suite refuses the
other events, the browser suite maps them.
-/
namespace Oidc4acLab.MessageSizes
open Text Str Python Scanner Collections Workbench Fallible Dictionary

/-- `len(text.encode("utf-8"))` for the code units of a text. -/
def byteLength (t : Text) : ℕ := utf8Length (ofUnits t)

theorem utf8Length_append (s s' : Str) : utf8Length (s ++ s') = utf8Length s+utf8Length s' := by
  simp [utf8Length]

theorem byteLength_append_cons {c : UInt16} (hc : c.toNat < 128) (a b : Text) :
    byteLength (a ++ c :: b) = byteLength a+(byteLength b+1) := by
  have hplain : Json.isLead c = false ∧ Json.isTrail c = false := by
    have hlow : (0xD800:UInt16).toNat = 0xD800 ∧ (0xDC00:UInt16).toNat = 0xDC00 := ⟨rfl,rfl⟩
    simp only [Json.isLead,Json.isTrail,Bool.and_eq_false_iff,decide_eq_false_iff_not,UInt16.le_iff_toNat_le,hlow.1,
      hlow.2]
    omega
  have hone : utf8Length [ofUnit c] = 1 := by
    have hval : (ofUnit c).val < 0x80 := hc
    simp [utf8Length,hval]
  rw [byteLength,ofUnits_append_cons hplain.1 hplain.2,utf8Length_append,← List.singleton_append (x := ofUnit c),
    utf8Length_append,hone,byteLength,byteLength,Nat.add_comm 1]

theorem byteLength_cons {c : UInt16} (hc : c.toNat < 128) (t : Text) : byteLength (c :: t) = byteLength t+1 := by
  have h := byteLength_append_cons hc [] t
  rw [List.nil_append] at h
  rw [h]
  exact Nat.zero_add _

theorem byteLength_join {ts : List Text} (hne : ts ≠ []) :
    byteLength (join [44] ts)+1 = (ts.map fun t => byteLength t+1).sum := by
  induction ts with
  | nil => exact absurd rfl hne
  | cons t ts ih =>
    cases ts with
    | nil => rw [join_singleton,List.map_singleton,List.sum_singleton]
    | cons t' ts =>
      rw [join_cons_cons,List.singleton_append,byteLength_append_cons (by decide),List.map_cons,List.sum_cons,← ih (List.cons_ne_nil t' ts)]
      omega

theorem byteLength_array {ts : List Text} (hne : ts ≠ []) (level : ℕ) :
    byteLength (enclosed .compact level 91 93 ts) = (ts.map fun t => byteLength t+1).sum+1 := by
  have htext : enclosed .compact level 91 93 ts = 91 :: (join [44] ts ++ [93]) := by
    rw [enclosed,if_neg hne]
    simp [Style.newline,Style.compact]
  have hnil : byteLength [] = 0 := rfl
  rw [htext,byteLength_cons (by decide),byteLength_append_cons (by decide),hnil,← byteLength_join hne]

section Sizes
variable {py : Interpreter}

theorem compactBytes_eq_ok {v : Value} {n : ℕ} :
    compactBytes py v = .ok n ↔ ∃ t, dumps py v = .ok t ∧ byteLength t = n := by
  rw [compactBytes,map_eq_ok]
  simp only [mapError_eq_ok]
  rfl

theorem compactBytes_array {items : List Value} (hne : items ≠ []) {n : ℕ}
    (h : compactBytes py (.arr items) = .ok n) {ns : List ℕ}
    (hns : List.Forall₂ (fun v k => compactBytes py v = .ok k) items ns) : n = (ns.map (·+1)).sum+1 := by
  obtain ⟨t,ht,rfl⟩ := compactBytes_eq_ok.mp h
  rw [dumps] at ht
  cases hroom : py.encoding with
  | zero =>
    rw [hroom] at ht
    cases ht
  | succ room =>
    rw [hroom] at ht
    obtain ⟨ts,hts,heq⟩ := bind_eq_ok.mp ht
    cases heq
    have hsizes : ns = ts.map byteLength := by
      have hall := mapM_eq_ok.mp hts
      clear hts h ht hne
      induction hall generalizing ns with
      | nil =>
        cases hns
        rfl
      | @cons v u items ts hv _ ih =>
        obtain ⟨k,ks,hk,hks,rfl⟩ := List.forall₂_cons_left_iff.mp hns
        have hdumped : dumps py v = .ok u := dumpsAt_of_line rfl (by omega) hv
        obtain ⟨u',hu',rfl⟩ := compactBytes_eq_ok.mp hk
        cases hdumped.symm.trans hu'
        rw [List.map_cons,ih hks]
    have hts' : ts ≠ [] := by
      rintro rfl
      exact hne (List.forall₂_nil_right_iff.mp (mapM_eq_ok.mp hts))
    rw [byteLength_array hts',hsizes,List.map_map]
    rfl

end Sizes

/-- `detail.get("amr_identifier")` -/
def identifier (detail : Value) : Value :=
  match detail with
  | .obj ms => get ms "amr_identifier"
  | _ => .leaf .none

theorem execution_eq_ok {detail : Value} {m : Execution} :
    execution detail = .ok m ↔ detail = .obj m.2 ∧ identifier detail = .leaf (.str m.1) := by
  constructor
  · intro h
    cases detail with
    | leaf | arr => cases h
    | obj ms =>
      rw [execution] at h
      split at h
      · next t ht =>
        cases h
        exact ⟨rfl,ht⟩
      · cases h
  · rintro ⟨rfl,hid⟩
    have hget : get m.2 "amr_identifier" = .leaf (.str m.1) := hid
    rw [execution,hget]

def checked (repr : Str → Str) (detail : Value) : Except Failure Execution := do
  let m ← execution detail
  retained repr m
  return m

section Checks
variable {repr : Str → Str}

theorem checked_eq_ok {detail : Value} {m : Execution} :
    checked repr detail = .ok m ↔ execution detail = .ok m ∧ retained repr m = .ok () := by
  constructor
  · intro h
    obtain ⟨m,hm,h⟩ := bind_eq_ok.mp h
    obtain ⟨⟨⟩,hr,h⟩ := bind_eq_ok.mp h
    cases h
    exact ⟨hm,hr⟩
  · rintro ⟨hm,hr⟩
    exact bind_eq_ok.mpr ⟨m,hm,bind_eq_ok.mpr ⟨(),hr,rfl⟩⟩

theorem check_eq_ok {condition : Bool} {message : Str} {u : Unit} :
    check condition message = .ok u ↔ condition = true := by
  cases condition with
  | true => simp [check]
  | false => simp [check]

theorem checked_identifiers {details : List Value} {ms : List Execution}
    (h : List.Forall₂ (fun detail m => checked repr detail = .ok m) details ms) :
    details.map identifier = ms.map fun m => .leaf (.str m.1) := by
  induction h with
  | nil => rfl
  | cons hm _ ih =>
    obtain ⟨hexecution,-⟩ := checked_eq_ok.mp hm
    rw [List.map_cons,List.map_cons,ih,(execution_eq_ok.mp hexecution).2]

/-- No identifier is repeated where no value under `amr_identifier` is. -/
theorem unrepeated_executions {details : List Value} {ms : List Execution}
    (h : List.Forall₂ (fun detail m => checked repr detail = .ok m) details ms) :
    Unrepeated ms ↔ (details.map identifier).Nodup := by
  rw [checked_identifiers h,List.Nodup,List.pairwise_map]
  refine List.Pairwise.iff fun m m' => ?_
  rw [beq_eq_false_iff_ne,ne_eq,ne_eq,Tree.leaf.injEq,Scalar.str.injEq]

namespace Browser

theorem mapDetail_eq_ok {mapped mapped' : Dictionary Text Object} {detail : Value} :
    mapDetail repr mapped detail = .ok mapped' ↔ ∃ m, checked repr detail = .ok m ∧ mapped.put m = mapped' := by
  constructor
  · intro h
    obtain ⟨m,hm,h⟩ := bind_eq_ok.mp h
    obtain ⟨⟨⟩,hr,h⟩ := bind_eq_ok.mp h
    exact ⟨m,checked_eq_ok.mpr ⟨hm,hr⟩,pure_eq_ok.mp h⟩
  · rintro ⟨m,hm,rfl⟩
    obtain ⟨hm,hr⟩ := checked_eq_ok.mp hm
    exact bind_eq_ok.mpr ⟨m,hm,bind_eq_ok.mpr ⟨(),hr,rfl⟩⟩

theorem detailMap_eq_ok {token : Value} {mapped : Dictionary Text Object} :
    detailMap repr token = .ok mapped ↔ ∃ details, amrDetails token = .ok details ∧
      ∃ ms, details.mapM (checked repr) = .ok ms ∧ collect ms = mapped := by
  have hround : ∀ mapped detail mapped', mapDetail repr mapped detail = .ok mapped' ↔
      ∃ m, checked repr detail = .ok m ∧ put mapped m = mapped' := fun _ _ _ => mapDetail_eq_ok
  rw [detailMap,bind_eq_ok]
  exact exists_congr fun details => and_congr_right fun _ => foldlM_eq_ok hround

end Browser

namespace Http

theorem mapDetail_eq_ok {mapped mapped' : Dictionary Text Object} {detail : Value} :
    mapDetail repr mapped detail = .ok mapped' ↔
      ∃ m, checked repr detail = .ok m ∧ ¬ Holds mapped m.1 ∧ mapped.put m = mapped' := by
  have hnew : ∀ m : Execution, (!mapped.any fun e => e.1 == m.1) = true ↔ ¬ Holds mapped m.1 := by
    intro m
    rw [Bool.not_eq_true',← Bool.not_eq_true,List.any_eq_true]
    rfl
  constructor
  · intro h
    obtain ⟨m,hm,h⟩ := bind_eq_ok.mp h
    obtain ⟨_,hduplicate,h⟩ := bind_eq_ok.mp h
    obtain ⟨⟨⟩,hr,h⟩ := bind_eq_ok.mp h
    exact ⟨m,checked_eq_ok.mpr ⟨hm,hr⟩,(hnew m).mp (check_eq_ok.mp hduplicate),pure_eq_ok.mp h⟩
  · rintro ⟨m,hm,hholds,rfl⟩
    obtain ⟨hm,hr⟩ := checked_eq_ok.mp hm
    refine bind_eq_ok.mpr ⟨m,hm,bind_eq_ok.mpr ⟨(),?_,bind_eq_ok.mpr ⟨(),hr,rfl⟩⟩⟩
    exact check_eq_ok.mpr ((hnew m).mpr hholds)

theorem foldlM_mapDetail {details : List Value} {mapped mapped' : Dictionary Text Object} :
    details.foldlM (mapDetail repr) mapped = .ok mapped' ↔ ∃ ms, details.mapM (checked repr) = .ok ms ∧
      ms.foldl put mapped = mapped' ∧ Unrepeated ms ∧ ∀ m ∈ ms, ¬ Holds mapped m.1 := by
  induction details generalizing mapped with
  | nil => simp [Unrepeated]
  | cons detail details ih =>
    rw [List.foldlM_cons,List.mapM_cons,bind_eq_ok]
    constructor
    · rintro ⟨c,hc,h⟩
      obtain ⟨m,hm,hholds,rfl⟩ := mapDetail_eq_ok.mp hc
      obtain ⟨ms,hms,hfold,hunrepeated,hfresh⟩ := ih.mp h
      simp only [holds_put,not_or] at hfresh
      refine ⟨m :: ms,bind_eq_ok.mpr ⟨m,hm,bind_eq_ok.mpr ⟨ms,hms,rfl⟩⟩,hfold,?_,?_⟩
      · exact List.pairwise_cons.mpr ⟨fun m' hm' => Bool.not_eq_true _ ▸ (hfresh m' hm').2,hunrepeated⟩
      · exact List.forall_mem_cons.mpr ⟨hholds,fun m' hm' => (hfresh m' hm').1⟩
    · rintro ⟨ms',hms',hfold,hunrepeated,hfresh⟩
      obtain ⟨m,hm,h⟩ := bind_eq_ok.mp hms'
      obtain ⟨ms,hms,h⟩ := bind_eq_ok.mp h
      cases pure_eq_ok.mp h
      obtain ⟨hfirst,hrest⟩ := List.pairwise_cons.mp hunrepeated
      obtain ⟨hholds,hfresh⟩ := List.forall_mem_cons.mp hfresh
      refine ⟨_,mapDetail_eq_ok.mpr ⟨m,hm,hholds,rfl⟩,ih.mpr ⟨ms,hms,hfold,hrest,?_⟩⟩
      intro m' hm'
      rw [holds_put,not_or,hfirst m' hm']
      exact ⟨hfresh m' hm',Bool.false_ne_true⟩

theorem detailMap_eq_ok {token : Value} {mapped : Dictionary Text Object} :
    detailMap repr token = .ok mapped ↔ Browser.detailMap repr token = .ok mapped ∧
      ∀ details, amrDetails token = .ok details → (details.map identifier).Nodup := by
  rw [Browser.detailMap_eq_ok,detailMap,bind_eq_ok]
  constructor
  · rintro ⟨details,hdetails,h⟩
    obtain ⟨ms,hms,hfold,hunrepeated,-⟩ := foldlM_mapDetail.mp h
    refine ⟨⟨details,hdetails,ms,hms,hfold⟩,?_⟩
    rintro details' hdetails'
    cases hdetails.symm.trans hdetails'
    exact (unrepeated_executions (mapM_eq_ok.mp hms)).mp hunrepeated
  · rintro ⟨⟨details,hdetails,ms,hms,hfold⟩,hnodup⟩
    have hunrepeated := (unrepeated_executions (mapM_eq_ok.mp hms)).mpr (hnodup details hdetails)
    refine ⟨details,hdetails,foldlM_mapDetail.mpr ⟨ms,hms,hfold,hunrepeated,?_⟩⟩
    rintro m - ⟨e,he,-⟩
    cases he

end Http
end Checks

section Measured
variable {py : Interpreter} {repr : Str → Str} {exchange : Option Object → Except Failure (Str × List UInt8)}

theorem entryBytes_ok {detail : Value} {m : Execution} {s : Key × ℕ} (hm : execution detail = .ok m)
    (h : entryBytes py detail = .ok s) : s.1 = ⟨.str m.1⟩ ∧ compactBytes py detail = .ok s.2 := by
  obtain ⟨rfl,hid⟩ := execution_eq_ok.mp hm
  have hlookup : m.2.lookup (js "amr_identifier") = some (.leaf (.str m.1)) := by
    rw [identifier,get] at hid
    cases hl : m.2.lookup (js "amr_identifier") with
    | none =>
      rw [hl] at hid
      cases hid
    | some v =>
      rw [hl,Option.getD_some] at hid
      rw [hid]
  rw [entryBytes,hlookup] at h
  obtain ⟨n,hn,rfl⟩ := map_eq_ok.mp h
  exact ⟨rfl,hn⟩

theorem sizes_ok {details : List Value} {ms : List Execution} {sizes : List (Key × ℕ)}
    (hms : List.Forall₂ (fun detail m => checked repr detail = .ok m) details ms)
    (hsizes : List.Forall₂ (fun detail s => entryBytes py detail = .ok s) details sizes) :
    sizes.map Prod.fst = (ms.map fun m => ⟨.str m.1⟩) ∧
      List.Forall₂ (fun detail n => compactBytes py detail = .ok n) details (sizes.map Prod.snd) := by
  induction hms generalizing sizes with
  | nil =>
    cases hsizes
    exact ⟨rfl,.nil⟩
  | cons hm _ ih =>
    obtain ⟨s,rest,hs,hrest,rfl⟩ := List.forall₂_cons_left_iff.mp hsizes
    obtain ⟨hkeys,hbytes⟩ := ih hrest
    obtain ⟨hkey,hbyte⟩ := entryBytes_ok (checked_eq_ok.mp hm).1 hs
    exact ⟨by rw [List.map_cons,List.map_cons,hkeys,hkey],.cons hbyte hbytes⟩

theorem unrepeated_sizes {details : List Value} {ms : List Execution} {sizes : List (Key × ℕ)}
    (hms : List.Forall₂ (fun detail m => checked repr detail = .ok m) details ms)
    (hkeys : sizes.map Prod.fst = ms.map fun m => ⟨.str m.1⟩) :
    Unrepeated sizes ↔ (details.map identifier).Nodup := by
  rw [← unrepeated_executions hms]
  refine unrepeated_congr (f := fun t => (⟨.str t⟩ : Key)) ?_ hkeys
  intro t t'
  rw [Bool.eq_iff_iff,key_beq,beq_iff_eq]
  exact Compared.str.injEq t t' ▸ Iff.rfl

def payloadOf (py : Interpreter) (idToken : Str) : Except Failure Value := do
  let bytes ← payloadBytes idToken
  (loadsBytes py bytes).mapError raised

/-- An ID Token tells of an event with these executions. -/
def Carries (py : Interpreter) (idToken : Str) (details : List Value) : Prop :=
  ∃ payload, payloadOf py idToken = .ok (.obj payload) ∧ payload.lookup (js "amr_details") = some (.arr details)

theorem measure_ok {requestClaims : Option Object} {expected : Finset Str} {r : Measured}
    (h : measure py repr exchange requestClaims expected = .ok r) (hexpected : expected ≠ ∅) {idToken : Str}
    {userinfoBody : List UInt8} (hexchange : exchange requestClaims = .ok (idToken,userinfoBody))
    {details : List Value} (hdetails : Carries py idToken details) (hne : details ≠ []) :
    ∃ ms sizes, details.mapM (checked repr) = .ok ms ∧ details.mapM (entryBytes py) = .ok sizes ∧
      compactBytes py (.arr details) = .ok r.amrDetailsBytes ∧ r.executionEntryBytes = collect sizes := by
  obtain ⟨payload,hpayload,hlookup⟩ := hdetails
  obtain ⟨bytes,hbytes,hloads⟩ := bind_eq_ok.mp hpayload
  obtain ⟨exchanged,hexchanged,h⟩ := bind_eq_ok.mp h
  cases hexchange.symm.trans hexchanged
  obtain ⟨bytes',hbytes',h⟩ := bind_eq_ok.mp h
  cases hbytes.symm.trans hbytes'
  obtain ⟨v,hv,h⟩ := bind_eq_ok.mp h
  cases hloads.symm.trans hv
  obtain ⟨_,-,h⟩ := bind_eq_ok.mp h
  obtain ⟨executed,hexecuted,h⟩ := bind_eq_ok.mp h
  obtain ⟨_,-,h⟩ := bind_eq_ok.mp h
  obtain ⟨ms,hms,h⟩ := bind_eq_ok.mp h
  cases hms
  obtain ⟨_,-,h⟩ := bind_eq_ok.mp h
  obtain ⟨_,-,h⟩ := bind_eq_ok.mp h
  obtain ⟨query,-,h⟩ := bind_eq_ok.mp h
  obtain ⟨n,hn,h⟩ := bind_eq_ok.mp h
  obtain ⟨encoded,-,h⟩ := bind_eq_ok.mp h
  obtain ⟨entries,hentries,h⟩ := bind_eq_ok.mp h
  obtain ⟨sizes,hsizes,h⟩ := bind_eq_ok.mp h
  cases h
  rw [hlookup,Option.getD_some] at hn hentries
  cases hentries
  have htruthy : truthy (.arr details) = true := by
    cases details with
    | nil => exact absurd rfl hne
    | cons d ds => rfl
  rw [detailsBytes,if_pos htruthy] at hn
  rw [executions,if_neg hexpected] at hexecuted
  obtain ⟨mapped,hmapped,-⟩ := map_eq_ok.mp hexecuted
  obtain ⟨details',hdetails',ms,hms,-⟩ := Browser.detailMap_eq_ok.mp hmapped
  have hsame : amrDetails (.obj payload) = .ok details := by
    have hget : get payload "amr_details" = .arr details := by
      rw [get,hlookup,Option.getD_some]
    exact bind_eq_ok.mpr ⟨payload,rfl,by rw [hget]⟩
  cases hsame.symm.trans hdetails'
  exact ⟨ms,sizes,hms,hsizes,hn,rfl⟩

/-- The reported sizes of the executions with brackets and commas make up the size of the array. -/
def AddsUp (r : Measured) : Prop :=
  r.amrDetailsBytes = (r.executionEntryBytes.map Prod.snd).sum+r.executionEntryBytes.length+1

/-- Sizes add up, and each execution is counted, exactly in an event without repeated methods. -/
theorem adds_up_iff {requestClaims : Option Object} {expected : Finset Str} {r : Measured}
    (h : measure py repr exchange requestClaims expected = .ok r) (hexpected : expected ≠ ∅) {idToken : Str}
    {userinfoBody : List UInt8} (hexchange : exchange requestClaims = .ok (idToken,userinfoBody))
    {details : List Value} (hdetails : Carries py idToken details) (hne : details ≠ []) :
    (AddsUp r ↔ (details.map identifier).Nodup) ∧
      (r.executionEntryBytes.length = details.length ↔ (details.map identifier).Nodup) := by
  obtain ⟨ms,sizes,hms,hsizes,hbytes,hentries⟩ := measure_ok h hexpected hexchange hdetails hne
  have hms := mapM_eq_ok.mp hms
  obtain ⟨hkeys,hns⟩ := sizes_ok hms (mapM_eq_ok.mp hsizes)
  have htotal : r.amrDetailsBytes = weight (·+1) sizes+1 := by
    rw [compactBytes_array hne hbytes hns,List.map_map]
    rfl
  have hcount : details.length = weight (fun _ => 1) sizes := by
    rw [weight_one,(mapM_eq_ok.mp hsizes).length_eq]
  rw [AddsUp,htotal,← weight_add_one,Nat.add_right_cancel_iff,hcount,← weight_one r.executionEntryBytes,hentries,
    (weight_collect (fun _ => Nat.one_pos) sizes).2,← unrepeated_sizes hms hkeys,eq_comm,
    (weight_collect (fun n => Nat.succ_pos n) sizes).2]
  exact ⟨Iff.rfl,Iff.rfl⟩

end Measured

def tokenOf (header : Str) (bytes : List UInt8) (signature : Str) : Str :=
  header ++ 46 :: (Jwt.ascii (Base64.encode bytes) ++ 46 :: signature)

section Tokens
variable {header signature : Str} (hh : 46 ∉ header) (hs : 46 ∉ signature)
include hh hs

theorem payloadBytes_tokenOf (bytes : List UInt8) : payloadBytes (tokenOf header bytes signature) = .ok bytes := by
  have hsplit : (tokenOf header bytes signature).splitOn 46 = [header,Jwt.ascii (Base64.encode bytes),signature] :=
    splitOn_join hh (Jwt.not_mem_encoded bytes) hs
  rw [payloadBytes,hsplit]
  simp only [List.getElem?_cons_succ,List.getElem?_cons_zero,decodeSegment,Jwt.decode_encoded]

theorem carries_dumped {py : Interpreter} (hroom : py.encoding ≤ py.decoding) {ms : Object} {t : Text}
    (hdumped : dumps py (.obj ms) = .ok t) (hdistinct : (Tree.obj ms).Distinct) {details : List Value}
    (hdetails : ms.lookup (js "amr_details") = some (.arr details)) :
    Carries py (tokenOf header (asciiBytes t) signature) details := by
  have hloads : loadsBytes py (asciiBytes t) = .ok (.obj ms) := by
    rw [loadsBytes,decodeBytes_ascii (ascii_dumpsAt hdumped)]
    exact loads_dumpsAt hdumped hdistinct hroom le_rfl
  refine ⟨ms,bind_eq_ok.mpr ⟨_,payloadBytes_tokenOf hh hs _,?_⟩,hdetails⟩
  rw [hloads]
  rfl

end Tokens

/-- A method that was executed at a time. -/
def executedAt (method time : String) : Value :=
  .obj [(js "amr_identifier",.leaf (.str (js method))),
    (js "amr_metadata",.obj [(js "time",.leaf (.str (js time)))])]

def event (details : List Value) : Object := [(js "amr_details",.arr details)]

theorem distinct_event {details : List Value} (h : ∀ d ∈ details, ∃ method time, d = executedAt method time) :
    (Tree.obj (event details)).Distinct := by
  have hnames : [js "amr_identifier",js "amr_metadata"].Nodup := by decide
  have hexecution : ∀ method time, (executedAt method time).Distinct := by
    intro method time
    rw [executedAt,Tree.Distinct,Tree.every_obj]
    refine ⟨hnames,List.forall_mem_cons.mpr ⟨.leaf trivial,List.forall_mem_singleton.mpr ?_⟩⟩
    exact Tree.every_obj.mpr ⟨List.nodup_singleton _,List.forall_mem_singleton.mpr (.leaf trivial)⟩
  rw [event,Tree.Distinct,Tree.every_obj,List.forall_mem_singleton]
  refine ⟨List.nodup_singleton _,Tree.every_arr.mpr ?_⟩
  intro d hd
  obtain ⟨method,time,rfl⟩ := h d hd
  exact hexecution method time

/-- An event in one line. -/
def sent (details : List Value) : Text :=
  match dumps .usual (.obj (event details)) with
  | .ok t => t
  | .error _ => []

def token (details : List Value) : Str := tokenOf [] (asciiBytes (sent details)) []

/-- The server answers each request with one event. -/
def answered (details : List Value) (_ : Option Object) : Except Failure (Str × List UInt8) :=
  .ok (token details,asciiBytes (sent details))

/-- `repr` of a string without quotes. -/
def quoted (s : Str) : Str := 39 :: (s ++ [39])

theorem carries_token {details : List Value} (h : ∀ d ∈ details, ∃ method time, d = executedAt method time)
    (hdumped : dumps .usual (.obj (event details)) = .ok (sent details)) : Carries .usual (token details) details :=
  carries_dumped List.not_mem_nil List.not_mem_nil le_rfl hdumped (distinct_event h) rfl

def reported (x : Except Failure Measured) : Option (ℕ × List ℕ) :=
  x.toOption.map fun r => (r.amrDetailsBytes,r.executionEntryBytes.map Prod.snd)

/-- The sizes of two methods add up. -/
theorem two_methods_add_up : ∃ r,
    measure .usual quoted (answered [executedAt "pwd" "1",executedAt "otp" "2"]) none {literal "pwd",literal "otp"} =
      .ok r ∧ AddsUp r := by
  have hmeasured : reported (measure .usual quoted (answered [executedAt "pwd" "1",executedAt "otp" "2"]) none
      {literal "pwd",literal "otp"}) = some (107,[52,52]) := by decide +kernel
  obtain ⟨r,hr,-⟩ := Option.map_eq_some_iff.mp hmeasured
  have hr := ok_of_toOption hr
  have hcarries : Carries .usual (token [executedAt "pwd" "1",executedAt "otp" "2"])
      [executedAt "pwd" "1",executedAt "otp" "2"] := by
    refine carries_token ?_ (by decide +kernel)
    simp
  have hdifferent : ([executedAt "pwd" "1",executedAt "otp" "2"].map identifier).Nodup := by
    have hidentifiers : [executedAt "pwd" "1",executedAt "otp" "2"].map identifier =
      [js "pwd",js "otp"].map fun t => .leaf (.str t) := rfl
    rw [hidentifiers]
    refine List.Nodup.map ?_ (by decide)
    intro t t' h
    cases h
    rfl
  exact ⟨r,hr,(adds_up_iff hr (Finset.insert_ne_empty _ _) rfl hcarries (List.cons_ne_nil _ _)).1.mpr hdifferent⟩

/-- Of two executions of one method the first is not counted. -/
theorem repeated_method_uncounted : ∃ r,
    measure .usual quoted (answered [executedAt "pwd" "1",executedAt "pwd" "2"]) none {literal "pwd"} = .ok r ∧
      Carries .usual (token [executedAt "pwd" "1",executedAt "pwd" "2"]) [executedAt "pwd" "1",executedAt "pwd" "2"] ∧
      ¬ AddsUp r ∧ r.executionEntryBytes.length = 1 := by
  have hmeasured : reported (measure .usual quoted (answered [executedAt "pwd" "1",executedAt "pwd" "2"]) none
      {literal "pwd"}) = some (107,[52]) := by decide +kernel
  obtain ⟨r,hr,hsizes⟩ := Option.map_eq_some_iff.mp hmeasured
  rw [Prod.mk.injEq] at hsizes
  have hlength : r.executionEntryBytes.length = 1 := by
    have h := congrArg List.length hsizes.2
    rwa [List.length_map] at h
  refine ⟨r,ok_of_toOption hr,carries_token (by simp) (by decide +kernel),?_,hlength⟩
  rw [AddsUp,hsizes.1,hsizes.2,hlength]
  decide

end Oidc4acLab.MessageSizes
