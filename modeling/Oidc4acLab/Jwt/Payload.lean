import Oidc4acLab.Collections.Splitting
import Oidc4acLab.Text.Base64
import Oidc4acLab.Workbench.Meaning

/-! # The payload of a compact JWT

The test client shows the claims of an access token and the end-to-end suite reads the
payload of a JARM response. Both take the middle one of three parts, pad it and load the
JSON text it encodes. The client has nothing to show for what the suite refuses.
-/
namespace Oidc4acLab.Jwt
open Text Python Scanner Document Str Json Collections Workbench

/-- What is raised beside the `ValueError` that both decoders catch. -/
inductive Raised
  | recursionError
  | indexError
  | checkFailure (message : Str)
  deriving DecidableEq

/-- `base64.urlsafe_b64decode`, which takes ASCII characters only. -/
def urlsafeB64decode (payload : Str) : Option (List UInt8) :=
  if payload.all fun p => p.val < 128 then Base64.decode (payload.map fun p => UInt8.ofNat p.val) else none

/-- `.decode("utf-8")` -/
def decodeUtf8 (bytes : List UInt8) : Option Str := (String.fromUTF8? ⟨bytes.toArray⟩).map literal

/-- `payload + "=" * (-len(payload) % 4)` -/
def padPayload (payload : Str) : Str := payload ++ List.replicate (Base64.padding payload.length) 61

variable (py : Interpreter)

/-- `json.loads(base64.urlsafe_b64decode(payload).decode("utf-8"))`, where a text that is malformed or has
an integer beyond the limit is a `ValueError`. -/
def loadPayload (payload : Str) : Except Refusal Value :=
  match (urlsafeB64decode payload).bind decodeUtf8 with
  | none => .error .malformed
  | some s => loads py (units s)

/-- The token is none where it is no string. -/
def decodedAccessToken (token : Option Str) : Except Raised Object :=
  match token with
  | none => .ok []
  | some token =>
    if token.count 46 ≠ 2 then .ok []
    else
      match (splitMax 46 2 token)[1]? with
      | none => .error .indexError
      | some payload =>
        match loadPayload py (padPayload payload) with
        | .ok (.obj decoded) => .ok decoded
        | .ok _ => .ok []
        | .error .recursion => .error .recursionError
        | .error _ => .ok []

/-- `error` is the text of the `ValueError` for a payload. -/
def decodeUnverifiedJwtPayload (error : Str → Str) (encoded : Str) : Except Raised Object :=
  match encoded.splitOn 46 with
  | [_,payload,_] =>
    match loadPayload py (padPayload payload) with
    | .ok (.obj decoded) => .ok decoded
    | .ok _ => .error (.checkFailure (literal "The JARM response payload was not a JSON object."))
    | .error .recursion => .error .recursionError
    | .error _ =>
      .error (.checkFailure (literal "The JARM response payload was not valid JSON: " ++ error payload))
  | _ => .error (.checkFailure (literal "The JARM response was not a compact JWT."))

theorem not_compact (error : Str → Str) {t : Str} (h : t.count 46 ≠ 2) :
    decodeUnverifiedJwtPayload py error t =
      .error (.checkFailure (literal "The JARM response was not a compact JWT.")) := by
  have hlength := length_splitOn 46 t
  rw [decodeUnverifiedJwtPayload]
  split
  · next hsplit =>
    rw [hsplit] at hlength
    exact absurd (Nat.succ.inj hlength).symm h
  · rfl

theorem decoded_parts {t h p s : Str} (hsplit : t.splitOn 46 = [h,p,s]) : decodedAccessToken py (some t) =
    match loadPayload py (padPayload p) with
    | .ok (.obj decoded) => .ok decoded
    | .ok _ => .ok []
    | .error .recursion => .error .recursionError
    | .error _ => .ok [] := by
  have hlength := length_splitOn 46 t
  rw [hsplit] at hlength
  have hcount : t.count 46 = 2 := (Nat.succ.inj hlength).symm
  have hmax : (splitMax 46 2 t)[1]? = some p := by
    rw [splitMax_eq_splitOn (Nat.le_of_eq hcount),hsplit]
    rfl
  simp only [decodedAccessToken,hcount,hmax,ne_eq,not_true_eq_false,if_false]

/-- The client reads what the suite reads, and nothing where a check of the suite fails. -/
theorem decodedAccessToken_eq (error : Str → Str) (t : Str) : decodedAccessToken py (some t) =
    match decodeUnverifiedJwtPayload py error t with
    | .error (.checkFailure _) => .ok []
    | r => r := by
  by_cases hcount : t.count 46 = 2
  · have hlength := length_splitOn 46 t
    rw [hcount] at hlength
    obtain ⟨h,p,s,hsplit⟩ := List.length_eq_three.mp hlength
    simp only [decoded_parts py hsplit,decodeUnverifiedJwtPayload,hsplit]
    rcases loadPayload py (padPayload p) with e | v
    · cases e <;> rfl
    · cases v <;> rfl
  · rw [not_compact py error hcount,decodedAccessToken,if_pos hcount]

def ascii (bytes : List UInt8) : Str := bytes.map fun b => Fin.ofNat 0x110000 b.toNat

def encodedPayload (text : String) : Str := ascii (Base64.encode text.toByteArray.data.toList)

/-- A header, the payload of a text and a signature. -/
def compact (header : Str) (text : String) (signature : Str) : Str :=
  header ++ 46 :: (encodedPayload text ++ 46 :: signature)

theorem val_ascii (b : UInt8) : (Fin.ofNat 0x110000 b.toNat : CodePoint).val = b.toNat := by
  have hb : b.toNat < 256 := b.toNat_lt
  rw [Fin.val_ofNat]
  omega

theorem urlsafeB64decode_ascii {bytes : List UInt8} (h : ∀ b ∈ bytes, b < 128) :
    urlsafeB64decode (ascii bytes) = Base64.decode bytes := by
  have hall : (ascii bytes).all (fun p => p.val < 128) = true := by
    rw [List.all_eq_true,ascii,List.forall_mem_map]
    intro b hb
    rw [val_ascii]
    exact decide_eq_true (UInt8.lt_iff_toNat_lt.mp (h b hb))
  have hbytes : (ascii bytes).map (fun p => UInt8.ofNat p.val) = bytes := by
    rw [ascii,List.map_map]
    refine List.map_id'' ?_ bytes
    intro b
    rw [Function.comp_apply,val_ascii,UInt8.ofNat_toNat]
  rw [urlsafeB64decode,if_pos hall,hbytes]

theorem padPayload_ascii (bytes : List UInt8) : padPayload (ascii bytes) = ascii (Base64.padded bytes) := by
  rw [padPayload,Base64.padded,ascii,ascii,List.map_append,List.map_replicate,List.length_map]
  rfl

theorem decode_encoded (bytes : List UInt8) :
    urlsafeB64decode (padPayload (ascii (Base64.encode bytes))) = some bytes := by
  have hascii : ∀ b ∈ Base64.padded (Base64.encode bytes), b < 128 := by
    intro b hb
    rcases List.mem_append.mp hb with hb | hb
    · exact (Base64.of_mem_encode hb).1
    · rw [List.eq_of_mem_replicate hb]
      decide
  rw [padPayload_ascii,urlsafeB64decode_ascii hascii,Base64.decode_padded_encode]

theorem not_mem_encoded (bytes : List UInt8) : 46 ∉ ascii (Base64.encode bytes) := by
  intro h
  obtain ⟨b,hb,heq⟩ := List.mem_map.mp h
  have hval : b.toNat = 46 := (val_ascii b).symm.trans (congrArg Fin.val heq)
  exact (Base64.of_mem_encode hb).2 (UInt8.toNat_inj.mp hval)

theorem decodeUtf8_toByteArray (text : String) : decodeUtf8 text.toByteArray.data.toList = some (literal text) := by
  rw [decodeUtf8,Array.toArray_toList,String.fromUTF8?,dif_pos text.isValidUTF8]
  rfl

theorem loadPayload_encoded (text : String) :
    loadPayload py (padPayload (encodedPayload text)) = loads py (units (literal text)) := by
  rw [loadPayload,encodedPayload,decode_encoded,Option.bind_some,decodeUtf8_toByteArray]

theorem decoded_compact {header signature : Str} (hh : 46 ∉ header) (hs : 46 ∉ signature) (text : String) :
    decodedAccessToken py (some (compact header text signature)) =
      match loads py (units (literal text)) with
      | .ok (.obj decoded) => .ok decoded
      | .ok _ => .ok []
      | .error .recursion => .error .recursionError
      | .error _ => .ok [] := by
  have hsplit : (compact header text signature).splitOn 46 = [header,encodedPayload text,signature] :=
    splitOn_join hh (not_mem_encoded _) hs
  rw [decoded_parts py hsplit,loadPayload_encoded]

/-- A text of ASCII characters. -/
def asciiText (t : Text) : String := String.ofList (t.map fun c => Char.ofNat c.toNat)

theorem units_asciiText {t : Text} (h : ∀ c ∈ t, c < 128) : units (literal (asciiText t)) = t := by
  have hpoint : ∀ c ∈ t, pointUnits (Fin.ofNat 0x110000 (Char.ofNat c.toNat).toNat) = [c] := by
    intro c hc
    have hlt : c.toNat < 128 := UInt16.lt_iff_toNat_lt.mp (h c hc)
    have hvalid : c.toNat.isValidChar := Or.inl (by omega)
    have hval : (Fin.ofNat 0x110000 c.toNat : CodePoint).val = c.toNat := by
      rw [Fin.val_ofNat]
      omega
    have hchar : (Char.ofNat c.toNat).toNat = c.toNat := by
      rw [Char.ofNat,dif_pos hvalid]
      rfl
    rw [hchar,pointUnits,hval,if_pos (by omega),UInt16.ofNat_toNat]
  rw [asciiText,literal,String.toList_ofList,units,List.map_map,List.flatMap_map]
  exact (List.flatMap_congr hpoint).trans (List.flatMap_singleton' t)

/-- The text is JSON and stands for the object. -/
structure Serialises (text : String) (d : Tree Atom) (o : Object) : Prop where
  whole : Whole Extended (units (literal text)) d
  loaded : loaded d = .obj o

/-- The client decodes an object from each of its serialisations within the limits, and it decodes what the
suite decodes: both the same, or nothing where the suite fails a check. -/
theorem decoders_agree (error : Str → Str) :
    (∀ header signature text d o, 46 ∉ header → 46 ∉ signature → Serialises text d o → d.Nested py.decoding →
      d.Every (Fits py.digits) (fun _ => True) →
        decodedAccessToken py (some (compact header text signature)) = .ok o) ∧
    ∀ t, (∀ decoded, decodeUnverifiedJwtPayload py error t = .ok decoded →
        decodedAccessToken py (some t) = .ok decoded) ∧
      ∀ message, decodeUnverifiedJwtPayload py error t = .error (.checkFailure message) →
        decodedAccessToken py (some t) = .ok [] := by
  constructor
  · intro header signature text d o hh hs hd hnested hfits
    rw [decoded_compact py hh hs,(loads_reads py hd.whole).1 ⟨hnested,hfits⟩,hd.loaded]
  · intro t
    constructor
    · intro decoded h
      rw [decodedAccessToken_eq py error,h]
    · intro message h
      rw [decodedAccessToken_eq py error,h]

/-- The sample is decoded from what is dumped of it. -/
theorem sample_decoded : decodedAccessToken lab.py (some (compact [] (asciiText sampleText) [])) = .ok sample := by
  obtain ⟨-,hnested,hfits⟩ := dumpsAt_sound dumps_sample
  have hserialises : Serialises (asciiText sampleText) ((Tree.obj sample).map atom) sample := by
    refine ⟨?_,loaded_map_atom distinct_sample⟩
    rw [units_asciiText (by decide)]
    exact whole_dumpsAt dumps_sample
  exact (decoders_agree lab.py id).1 [] [] _ _ _ (by simp) (by simp) hserialises
    (Tree.nested_map.mpr (hnested.mono (by decide))) (Tree.every_map.mpr hfits)

def refusal {A : Type} (x : Except Refusal A) : Option Refusal :=
  match x with
  | .ok _ => none
  | .error e => some e

theorem refusal_eq_some {A : Type} {x : Except Refusal A} {e : Refusal} : refusal x = some e ↔ x = .error e := by
  cases x with
  | ok a => simp [refusal]
  | error e' => simp [refusal]

/-- An integer of 4301 digits. -/
def ones : Text := List.replicate 4301 49

/-- An object with that integer is decoded as no claims at all. -/
theorem long_integer_lost :
    Serialises (asciiText (memberA ones)) (.obj [([97],.leaf (.num ⟨false,ones,[],none⟩))])
      [([97],.leaf (.int (digitsValue ones)))] ∧
    decodedAccessToken lab.py (some (compact [] (asciiText (memberA ones)) [])) = .ok [] := by
  have hones : ∀ c ∈ ones, c = 49 := fun c hc => List.eq_of_mem_replicate hc
  have hascii : ∀ c ∈ memberA ones, c < 128 := by
    intro c hc
    rw [memberA,List.mem_append,List.mem_append] at hc
    rcases hc with hc | hc | hc
    · revert c
      decide
    · rw [hones c hc]
      decide
    · rw [List.mem_singleton.mp hc]
      decide
  have hextended : Extended ones (.num ⟨false,ones,[],none⟩) := by
    have hhead : ones.head? = some 49 := List.head?_replicate
    have hdigits : ∀ c ∈ ones, isDigit c = true := by
      intro c hc
      rw [hones c hc]
      rfl
    refine .standard (.num ⟨⟨List.cons_ne_nil _ _,hdigits,?_,by simp⟩,[],.absent,?_⟩)
    · intro h
      rw [hhead] at h
      cases h
    · simp [signText,Number.printFraction]
  have hrefused : loads lab.py (memberA ones) = .error .digits := by
    have hdigits : refusal (loads lab.py (memberA ones)) = some .digits := by decide +kernel
    exact refusal_eq_some.mp hdigits
  constructor
  · refine ⟨?_,rfl⟩
    rw [units_asciiText hascii]
    exact whole_memberA hextended
  · rw [decoded_compact lab.py (by simp) (by simp),units_asciiText hascii,hrefused]

end Oidc4acLab.Jwt
