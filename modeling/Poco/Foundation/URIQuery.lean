import Poco.Foundation.URIRoundTrip

/-! # The query parameters of a `URI`

`setQueryParameters` writes a list of names and values into the query, `getQueryParameters` reads
one out of it.  A plus sign that is read as a space is replaced before the text is decoded, and
`encode` leaves no plus sign in a parameter, so that both ways of reading give the same. -/

namespace Poco.Foundation
namespace URI

open Poco.Lib

/-! ### The model -/

def RESERVED_QUERY_PARAM : Bytes := bytes "?#/:;+@&="

/-- `addQueryParameter`. -/
def addQueryParameter (u : URI) (param val : Bytes) : URI :=
  { u with
    _query := u._query ++ (if u._query ≠ [] then ['&'.toUInt8] else []) ++ encode param RESERVED_QUERY_PARAM ++
      ['='.toUInt8] ++ encode val RESERVED_QUERY_PARAM }

/-- `setQueryParameters`. -/
def setQueryParameters (u : URI) (params : List (Bytes × Bytes)) : URI :=
  params.foldl (fun u p => u.addQueryParameter p.1 p.2) { u with _query := [] }

/-- The characters that end a name. -/
def endsName (c : UInt8) : Bool := c = '='.toUInt8 || c = '&'.toUInt8

/-- The characters that end a value. -/
def endsValue (c : UInt8) : Bool := c = '&'.toUInt8

/-- The text of a name or value as `getQueryParameters` collects it. -/
def plainText (plusIsSpace : Bool) (text : Bytes) : Bytes :=
  text.map fun c => if plusIsSpace && c = '+'.toUInt8 then ' '.toUInt8 else c

/-- The value behind a name in `getQueryParameters`, and the rest of the query. -/
def parseValue (plusIsSpace : Bool) (it : Bytes) : Bytes × Bytes :=
  if it.head? = some '='.toUInt8 then
    (plainText plusIsSpace (it.tail.takeWhile fun c => !endsValue c), it.tail.dropWhile fun c => !endsValue c)
  else ([], it)

/-- The separator behind a parameter is skipped. -/
def skipSeparator (it : Bytes) : Bytes := if it.head? = some '&'.toUInt8 then it.tail else it

theorem length_skipSeparator_le (it : Bytes) : (skipSeparator it).length ≤ it.length := by
  rw [skipSeparator]
  split
  · rw [List.length_tail]
    omega
  · exact le_rfl

theorem length_parseValue_le (plusIsSpace : Bool) (it : Bytes) :
    (parseValue plusIsSpace it).2.length ≤ it.length := by
  rw [parseValue]
  split
  · have hdrop := (List.dropWhile_sublist (fun c => !endsValue c) (l := it.tail)).length_le
    rw [List.length_tail] at hdrop
    exact hdrop.trans (Nat.sub_le _ _)
  · exact le_rfl

/-- Each turn of the loop of `getQueryParameters` takes at least one character. -/
theorem length_rest_lt (plusIsSpace : Bool) (c : UInt8) (it : Bytes) :
    (skipSeparator (parseValue plusIsSpace ((c :: it).dropWhile fun c => !endsName c)).2).length <
      (c :: it).length := by
  by_cases hc : endsName c = true
  · have hdrop : ((c :: it).dropWhile fun c => !endsName c) = c :: it := by
      rw [List.dropWhile_cons_of_neg (by simp [hc])]
    rw [hdrop]
    rcases (by simpa [endsName] using hc : c = '='.toUInt8 ∨ c = '&'.toUInt8) with rfl | rfl
    · have hvalue : (parseValue plusIsSpace ('='.toUInt8 :: it)).2 = it.dropWhile fun c => !endsValue c := by
        simp [parseValue]
      rw [hvalue]
      have hdrop := (List.dropWhile_sublist (fun c => !endsValue c) (l := it)).length_le
      exact Nat.lt_succ_of_le ((length_skipSeparator_le _).trans hdrop)
    · have hvalue : (parseValue plusIsSpace ('&'.toUInt8 :: it)).2 = '&'.toUInt8 :: it := by
        have hne : ¬ '&'.toUInt8 = '='.toUInt8 := by decide
        simp [parseValue, hne]
      have hskip : skipSeparator ('&'.toUInt8 :: it) = it := by simp [skipSeparator]
      rw [hvalue, hskip]
      exact Nat.lt_succ_self _
  · have hdrop : ((c :: it).dropWhile fun c => !endsName c) = it.dropWhile fun c => !endsName c := by
      rw [List.dropWhile_cons_of_pos (by simp [hc])]
    rw [hdrop]
    have hlen := (List.dropWhile_sublist (fun c => !endsName c) (l := it)).length_le
    exact Nat.lt_succ_of_le
      ((length_skipSeparator_le _).trans ((length_parseValue_le plusIsSpace _).trans hlen))

/-- The loop of `getQueryParameters`. -/
def queryParameters (plusIsSpace : Bool) : Bytes → Except URISyntaxException (List (Bytes × Bytes))
  | [] => .ok []
  | c :: it => do
      let name := plainText plusIsSpace ((c :: it).takeWhile fun c => !endsName c)
      let value := parseValue plusIsSpace ((c :: it).dropWhile fun c => !endsName c)
      let decodedName ← decode name
      let decodedValue ← decode value.1
      return (decodedName, decodedValue) :: (← queryParameters plusIsSpace (skipSeparator value.2))
termination_by it => it.length
decreasing_by exact length_rest_lt plusIsSpace c it

/-- `getQueryParameters`. -/
def getQueryParameters (u : URI) (plusIsSpace : Bool) : Except URISyntaxException (List (Bytes × Bytes)) :=
  queryParameters plusIsSpace u._query

/-! ### The text of a parameter -/

/-- The text that `addQueryParameter` writes for a name and a value. -/
def parameterText (p : Bytes × Bytes) : Bytes :=
  encode p.1 RESERVED_QUERY_PARAM ++ '='.toUInt8 :: encode p.2 RESERVED_QUERY_PARAM

/-- No separator and no plus sign is left in an encoded name or value. -/
theorem mem_encode_queryParam {text : Bytes} {x : UInt8} (hx : x ∈ encode text RESERVED_QUERY_PARAM) :
    endsName x = false ∧ x ≠ '+'.toUInt8 := by
  obtain ⟨c, -, hx⟩ := List.mem_flatMap.mp hx
  have hbyte : ∀ c : UInt8,
      (encodeChar RESERVED_QUERY_PARAM c).all (fun x => !endsName x && x != '+'.toUInt8) = true := by
    intro c
    apply forall_byte (P := fun c =>
      (encodeChar RESERVED_QUERY_PARAM c).all (fun x => !endsName x && x != '+'.toUInt8) = true)
    decide +kernel
  have := List.all_eq_true.mp (hbyte c) x hx
  rw [Bool.and_eq_true, Bool.not_eq_true', bne_iff_ne] at this
  exact this

theorem endsValue_of_endsName {c : UInt8} (h : endsName c = false) : endsValue c = false := by
  simp only [endsName, Bool.or_eq_false_iff] at h
  exact h.2

theorem plainText_encode (plusIsSpace : Bool) (text : Bytes) :
    plainText plusIsSpace (encode text RESERVED_QUERY_PARAM) = encode text RESERVED_QUERY_PARAM := by
  have hsame : ∀ c ∈ encode text RESERVED_QUERY_PARAM,
      (if plusIsSpace && c = '+'.toUInt8 then ' '.toUInt8 else c) = c := by
    intro c hc
    simp [(mem_encode_queryParam hc).2]
  rw [plainText, List.map_congr_left hsame, List.map_id']

/-- **Whatever is reserved, decoding undoes encoding.** -/
theorem decode_encode_reserved (text reserved : Bytes) : decode (encode text reserved) = .ok text :=
  decodeLoop_encode_any _ reserved text

/-! ### Reading the parameters back -/

/-- What stands behind a parameter: nothing, or a separator and further parameters. -/
def queryTail (params : List (Bytes × Bytes)) : Bytes :=
  params.flatMap fun p => '&'.toUInt8 :: parameterText p

theorem setQueryParameters_query (u : URI) (p : Bytes × Bytes) (params : List (Bytes × Bytes)) :
    (u.setQueryParameters (p :: params))._query = parameterText p ++ queryTail params := by
  have hfold : ∀ (params : List (Bytes × Bytes)) (u : URI), u._query ≠ [] →
      (params.foldl (fun u p => u.addQueryParameter p.1 p.2) u)._query = u._query ++ queryTail params := by
    intro params
    induction params with
    | nil => intro u _; simp [queryTail]
    | cons p params ih =>
        intro u hu
        rw [List.foldl_cons, ih _ (by simp [addQueryParameter])]
        simp [addQueryParameter, hu, queryTail, parameterText]
  rw [setQueryParameters, List.foldl_cons, hfold params _ (by simp [addQueryParameter])]
  simp [addQueryParameter, parameterText]

theorem noHead_queryTail (params : List (Bytes × Bytes)) : NoHead (fun c => !endsValue c) (queryTail params) := by
  cases params with
  | nil => exact noHead_nil _
  | cons p params => exact noHead_cons (by decide)

theorem skipSeparator_queryTail (p : Bytes × Bytes) (params : List (Bytes × Bytes)) :
    skipSeparator (queryTail (p :: params)) = parameterText p ++ queryTail params := by
  simp [skipSeparator, queryTail]

theorem queryParameters_parameterText (plusIsSpace : Bool) (p : Bytes × Bytes) (params : List (Bytes × Bytes)) :
    queryParameters plusIsSpace (parameterText p ++ queryTail params) =
      (queryParameters plusIsSpace (skipSeparator (queryTail params))).map (p :: ·) := by
  obtain ⟨name, value⟩ := p
  set encodedName := encode name RESERVED_QUERY_PARAM with hname
  set encodedValue := encode value RESERVED_QUERY_PARAM with hvalue
  have htext : parameterText (name, value) ++ queryTail params =
      encodedName ++ '='.toUInt8 :: (encodedValue ++ queryTail params) := by
    simp [parameterText, hname, hvalue]
  have hnameChars : ∀ c ∈ encodedName, (!endsName c) = true := fun c hc => by
    simp [(mem_encode_queryParam hc).1]
  have hvalueChars : ∀ c ∈ encodedValue, (!endsValue c) = true := fun c hc => by
    simp [endsValue_of_endsName (mem_encode_queryParam hc).1]
  have hhead : NoHead (fun c => !endsName c) ('='.toUInt8 :: (encodedValue ++ queryTail params)) :=
    noHead_cons (by decide)
  have htake := takeWhile_append_of_noHead hnameChars hhead
  have hdrop := dropWhile_append_of_noHead hnameChars hhead
  have hparse : parseValue plusIsSpace ('='.toUInt8 :: (encodedValue ++ queryTail params)) =
      (encodedValue, queryTail params) := by
    rw [parseValue, List.head?_cons, if_pos rfl, List.tail_cons,
      takeWhile_append_of_noHead hvalueChars (noHead_queryTail params),
      dropWhile_append_of_noHead hvalueChars (noHead_queryTail params), plainText_encode]
  rw [htext]
  obtain ⟨c, it, hcons⟩ : ∃ c it, encodedName ++ '='.toUInt8 :: (encodedValue ++ queryTail params) = c :: it :=
    List.exists_cons_of_ne_nil (by simp)
  rw [hcons, queryParameters, ← hcons, htake, hdrop, hparse, plainText_encode, decode_encode_reserved,
    decode_encode_reserved]
  rfl

theorem queryParameters_queryTail (plusIsSpace : Bool) (p : Bytes × Bytes) (params : List (Bytes × Bytes)) :
    queryParameters plusIsSpace (parameterText p ++ queryTail params) = .ok (p :: params) := by
  induction params generalizing p with
  | nil =>
      have hempty : skipSeparator (queryTail []) = [] := rfl
      rw [queryParameters_parameterText, hempty, queryParameters]
      rfl
  | cons q params ih =>
      rw [queryParameters_parameterText, skipSeparator_queryTail, ih q]
      rfl

/-- **Main result.** The parameters that are set are read back, and every text is decoded to what was
encoded. -/
theorem getQueryParameters_set (u : URI) (params : List (Bytes × Bytes)) (plusIsSpace : Bool) (text reserved : Bytes) :
    (u.setQueryParameters params).getQueryParameters plusIsSpace = .ok params ∧
      decode (encode text reserved) = .ok text := by
  refine ⟨?_, decode_encode_reserved text reserved⟩
  cases params with
  | nil =>
      rw [getQueryParameters, setQueryParameters, List.foldl_nil, queryParameters]
  | cons p params =>
      rw [getQueryParameters, setQueryParameters_query, queryParameters_queryTail]

end URI

end Poco.Foundation
