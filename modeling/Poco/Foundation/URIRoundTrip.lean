import Mathlib.Data.List.TakeWhile
import Poco.Lib.Bytes
import Poco.Foundation.URI

/-! # URIs from texts

What `toString` writes for a URI that was parsed from some text is parsed to an equal URI, up to
the slash that `toString` puts between an authority and a query (`parse_toString`).  `Shape` says
what is known about the parts of a parsed URI, and `Regular` excludes the URIs for which the text
is read in another way. -/

namespace Poco.Foundation

namespace URI

open Poco.Lib

/-! ### Bytes -/

theorem toLower_spec (c : UInt8) :
    ((bytes "/?#:@.%[]").all fun x => decide (toLower c = x) == decide (c = x)) = true ∧
      toLower (toLower c) = toLower c := by
  apply forall_byte (P := fun c =>
    ((bytes "/?#:@.%[]").all fun x => decide (toLower c = x) == decide (c = x)) = true ∧
      toLower (toLower c) = toLower c)
  decide +kernel

/-- Lower case does not touch the characters with a meaning. -/
theorem toLower_eq_iff (c : UInt8) :
    ∀ x ∈ bytes "/?#:@.%[]", (decide (toLower c = x)) = decide (c = x) := by
  intro x hx
  exact eq_of_beq (List.all_eq_true.mp (toLower_spec c).1 x hx)

theorem toLower_toLower (c : UInt8) : toLower (toLower c) = toLower c := (toLower_spec c).2

theorem endsScheme_toLower (c : UInt8) : endsScheme (toLower c) = endsScheme c := by
  have h := toLower_eq_iff c
  simp only [endsScheme, endsAuthority, endsPath]
  rw [h ':'.toUInt8 (by decide), h '/'.toUInt8 (by decide), h '?'.toUInt8 (by decide),
    h '#'.toUInt8 (by decide)]

theorem endsAuthority_toLower (c : UInt8) : endsAuthority (toLower c) = endsAuthority c := by
  have h := toLower_eq_iff c
  simp only [endsAuthority, endsPath]
  rw [h '/'.toUInt8 (by decide), h '?'.toUInt8 (by decide), h '#'.toUInt8 (by decide)]

theorem map_toLower_map_toLower (s : Bytes) : (s.map toLower).map toLower = s.map toLower := by
  simp [toLower_toLower]

/-! ### `encode` and `decode` -/

theorem encodeChar_spec (c : UInt8) :
    ((encodeChar RESERVED_PATH c = [c] ∧ c ≠ '%'.toUInt8 ∧ endsPath c = false) ∨
      encodeChar RESERVED_PATH c = ['%'.toUInt8, hexDigit (c / 16), hexDigit (c % 16)] ∧
        endsScheme c = endsPath c) ∧
    (hexValue (hexDigit (c / 16)) = some (c / 16) ∧ hexValue (hexDigit (c % 16)) = some (c % 16) ∧
      c / 16 * 16 + c % 16 = c ∧ endsScheme (hexDigit (c / 16)) = false ∧
      endsScheme (hexDigit (c % 16)) = false) ∧
    ((encodeChar RESERVED_PATH c).all (fun x => !endsScheme x) = true ∨
      encodeChar RESERVED_PATH c = [c] ∧ (c = ':'.toUInt8 ∨ c = '/'.toUInt8)) := by
  revert c
  apply forall_byte
  decide +kernel

theorem encodeChar_cases (c : UInt8) :
    (encodeChar RESERVED_PATH c = [c] ∧ c ≠ '%'.toUInt8 ∧ endsPath c = false) ∨
      encodeChar RESERVED_PATH c = ['%'.toUInt8, hexDigit (c / 16), hexDigit (c % 16)] ∧
        endsScheme c = endsPath c :=
  (encodeChar_spec c).1

theorem hexDigit_spec (c : UInt8) :
    hexValue (hexDigit (c / 16)) = some (c / 16) ∧ hexValue (hexDigit (c % 16)) = some (c % 16) ∧
      c / 16 * 16 + c % 16 = c ∧ endsScheme (hexDigit (c / 16)) = false ∧
      endsScheme (hexDigit (c % 16)) = false :=
  (encodeChar_spec c).2.1

example : encodeChar RESERVED_PATH ' '.toUInt8 = bytes "%20" := by decide

/-- Whatever is reserved, a byte stands for itself, and is not the percent sign, or it is encoded. -/
theorem encodeChar_or (reserved : Bytes) (c : UInt8) :
    encodeChar reserved c = [c] ∧ c ≠ '%'.toUInt8 ∨
      encodeChar reserved c = ['%'.toUInt8, hexDigit (c / 16), hexDigit (c % 16)] := by
  rw [encodeChar]
  split_ifs with hunreserved hencoded
  · refine Or.inl ⟨rfl, ?_⟩
    rintro rfl
    exact absurd hunreserved (by decide)
  · exact Or.inr rfl
  · refine Or.inl ⟨rfl, ?_⟩
    rintro rfl
    have hillegal : '%'.toUInt8 ∈ ILLEGAL := by decide
    simp [hillegal] at hencoded

theorem decodeLoop_encode_any (str reserved text : Bytes) : decodeLoop str (encode text reserved) = .ok text := by
  induction text with
  | nil => rfl
  | cons c text ih =>
      have hcons : encode (c :: text) reserved = encodeChar reserved c ++ encode text reserved := rfl
      rcases encodeChar_or reserved c with ⟨henc, hc⟩ | henc
      · rw [hcons, henc, List.singleton_append]
        unfold decodeLoop
        rw [if_neg hc, ih]
        rfl
      · obtain ⟨hhi, hlo, hbyte, -⟩ := hexDigit_spec c
        simp only [hcons, henc, List.cons_append, List.nil_append, decodeLoop, if_true, hhi, hlo, ih, hbyte]
        rfl

theorem decodeLoop_encode (str path : Bytes) : decodeLoop str (encode path RESERVED_PATH) = .ok path :=
  decodeLoop_encode_any str RESERVED_PATH path

theorem decode_encode (path : Bytes) : decode (encode path RESERVED_PATH) = .ok path :=
  decodeLoop_encode _ path

/-- An encoded path has no delimiter that would end it. -/
theorem endsPath_encode (path : Bytes) : ∀ c ∈ encode path RESERVED_PATH, endsPath c = false := by
  intro x hx
  obtain ⟨c, -, hx⟩ := List.mem_flatMap.mp hx
  have hends {x : UInt8} (h : endsScheme x = false) : endsPath x = false := by
    simp only [endsScheme, endsAuthority, Bool.or_eq_false_iff] at h
    exact h.2.2
  rcases encodeChar_cases c with ⟨henc, -, hc⟩ | ⟨henc, -⟩
  · rw [henc, List.mem_singleton] at hx
    rw [hx]
    exact hc
  · obtain ⟨-, -, -, hhi, hlo⟩ := hexDigit_spec c
    rw [henc] at hx
    simp only [List.mem_cons, List.not_mem_nil, or_false] at hx
    rcases hx with rfl | rfl | rfl
    · rfl
    · exact hends hhi
    · exact hends hlo

/-! ### Numbers -/

theorem digit_toUInt8 {x : Char} (h : x.isDigit = true) :
    isDigit x.toUInt8 = true ∧ x.toUInt8.toNat = x.toNat := by
  have hdigit : 48 ≤ x.toNat ∧ x.toNat ≤ 57 := Char.isDigit_iff_toNat.mp h
  have hall : ∀ k < 10, isDigit (Char.ofNat (48 + k)).toUInt8 = true ∧
      (Char.ofNat (48 + k)).toUInt8.toNat = (Char.ofNat (48 + k)).toNat := by decide
  have hx := hall (x.toNat - 48) (by omega)
  rwa [Nat.add_sub_cancel' hdigit.1, Char.ofNat_toNat] at hx

theorem mem_formatNumber {n : ℕ} {c : UInt8} (h : c ∈ formatNumber n) : isDigit c = true := by
  obtain ⟨x, hx, rfl⟩ := List.mem_map.mp h
  exact (digit_toUInt8 (Nat.isDigit_of_mem_toDigits (by decide) (by decide) hx)).1

theorem formatNumber_ne_nil (n : ℕ) : formatNumber n ≠ [] := by
  simp [formatNumber, Nat.toDigits_ne_nil]

theorem ofDigits_formatNumber (n : ℕ) : ofDigits (formatNumber n) = n := by
  have hfold (digits : List Char) (h : ∀ x ∈ digits, x.isDigit = true) (m : ℕ) :
      (digits.map Char.toUInt8).foldl (fun n c => 10 * n + (c.toNat - 48)) m =
        Nat.ofDigitChars 10 digits m := by
    induction digits generalizing m with
    | nil => rfl
    | cons x digits ih =>
        have hbyte := (digit_toUInt8 (h x List.mem_cons_self)).2
        rw [List.map_cons, List.foldl_cons, ih (fun y hy => h y (List.mem_cons_of_mem _ hy)),
          Nat.ofDigitChars_cons, hbyte]
        rfl
  rw [ofDigits, formatNumber, hfold _ (fun x hx => Nat.isDigit_of_mem_toDigits (by decide) (by decide) hx),
    Nat.ofDigitChars_ten_toDigits]

theorem tryParse_formatNumber {n : ℕ} (hn : n < 65536) : tryParse (formatNumber n) = some (n : ℤ) := by
  have hhead {p : UInt8 → Bool} (hp : ∀ c, isDigit c = true → p c = false) : NoHead p (formatNumber n) :=
    fun c hc => hp c (mem_formatNumber (List.mem_of_mem_head? hc))
  have hne (x : UInt8) (hx : isDigit x = false) : (formatNumber n).head? ≠ some x := by
    intro h
    rw [mem_formatNumber (List.mem_of_mem_head? h)] at hx
    cases hx
  have hspace : (formatNumber n).dropWhile isSpace = formatNumber n := by
    refine (hhead ?_).dropWhile
    apply forall_byte
    decide +kernel
  have hdigits : (formatNumber n).takeWhile isDigit = formatNumber n :=
    List.takeWhile_eq_self_iff.mpr fun c => mem_formatNumber
  have hrest : (formatNumber n).dropWhile isDigit = [] :=
    List.dropWhile_eq_nil_iff.mpr fun c => mem_formatNumber
  have hfrom : from_chars (formatNumber n) = some ((n : ℤ), []) := by
    simp only [from_chars, if_neg (hne '-'.toUInt8 (by decide)), hdigits, formatNumber_ne_nil, hrest,
      ofDigits_formatNumber, if_false]
    rw [if_neg (by omega)]
  simp only [tryParse, hspace, if_neg (hne '+'.toUInt8 (by decide)), formatNumber_ne_nil, hfrom, if_false,
    if_true]

/-! ### The parts of a parsed URI -/

/-- What is known about the parts of a URI that was parsed. -/
structure Shape (u : URI) : Prop where
  scheme : ∀ c ∈ u._scheme, endsScheme c = false ∧ toLower c = c
  scheme_head : u._scheme.head? ≠ some '.'.toUInt8
  userInfo : ∀ c ∈ u._userInfo, endsAuthority c = false ∧ c ≠ '@'.toUInt8
  host : ∀ c ∈ u._host, endsAuthority c = false ∧ c ≠ '@'.toUInt8
  host_colon : ':'.toUInt8 ∈ u._host → ']'.toUInt8 ∉ u._host
  host_lower : u._host.head? ≠ some '%'.toUInt8 → u._host.map toLower = u._host
  port : u._port < 65536
  path : u.getAuthority ≠ [] → u._path = [] ∨ u._path.head? = some '/'.toUInt8
  query : '#'.toUInt8 ∉ u._query

theorem not_mem_takeWhile_ne (x : UInt8) (s : Bytes) : x ∉ s.takeWhile (· ≠ x) := by
  intro h
  simpa using List.mem_takeWhile_imp h

theorem parseQueryEtc_ok {u : URI} (hquery : u._query = []) (it : Bytes) :
    ∃ query fragment, parseQueryEtc u it = { u with _query := query, _fragment := fragment } ∧
      '#'.toUInt8 ∉ query := by
  have hnot := not_mem_takeWhile_ne '#'.toUInt8 it.tail
  by_cases hq : it.head? = some '?'.toUInt8
  · simp only [parseQueryEtc, if_pos hq, parseQuery]
    split
    · exact ⟨_, _, rfl, hnot⟩
    · exact ⟨_, _, rfl, hnot⟩
  · simp only [parseQueryEtc, if_neg hq]
    split
    · exact ⟨[], _, by rw [parseFragment, ← hquery], by simp⟩
    · exact ⟨[], _, by rw [← hquery], by simp⟩

/-- A path that begins with a slash begins with it when it is decoded. -/
theorem decode_slash {it path : Bytes} (h : decode ('/'.toUInt8 :: it) = .ok path) :
    path.head? = some '/'.toUInt8 := by
  rw [decode] at h
  unfold decodeLoop at h
  rw [if_neg (by decide)] at h
  cases hloop : decodeLoop ('/'.toUInt8 :: it) it with
  | error e =>
      rw [hloop] at h
      cases h
  | ok rest =>
      rw [hloop] at h
      obtain rfl : '/'.toUInt8 :: rest = path := Except.ok.inj h
      rfl

theorem parsePathEtc_ok {u v : URI} {it : Bytes} (h : parsePathEtc u it = .ok v) (hpath : u._path = [])
    (hquery : u._query = []) :
    ∃ path query fragment,
      v = { u with _path := path, _query := query, _fragment := fragment } ∧ '#'.toUInt8 ∉ query ∧
        ((∀ c ∈ it.head?, endsAuthority c = true) → path = [] ∨ path.head? = some '/'.toUInt8) := by
  unfold parsePathEtc at h
  split at h
  · obtain rfl : u = v := Except.ok.inj h
    exact ⟨u._path, u._query, u._fragment, rfl, by simp [hquery], fun _ => Or.inl hpath⟩
  · next c it' =>
      split at h
      · obtain ⟨query, fragment, hv, hnot⟩ := parseQueryEtc_ok hquery (c :: it')
        refine ⟨[], query, fragment, ?_, hnot, fun _ => Or.inl rfl⟩
        rw [← Except.ok.inj h, hv, ← hpath]
      · next hends =>
          cases hdecode : decode ((c :: it').takeWhile fun c => !endsPath c) with
          | error e =>
              simp only [parsePath, hdecode] at h
              cases h
          | ok path =>
              simp only [parsePath, hdecode, bind, Except.bind, pure, Except.pure, hpath,
                List.nil_append] at h
              have hquery' : ({ u with _path := path } : URI)._query = [] := hquery
              obtain ⟨query, fragment, hv, hnot⟩ :=
                parseQueryEtc_ok hquery' ((c :: it').dropWhile fun c => !endsPath c)
              refine ⟨path, query, fragment, ?_, hnot, fun hhead => Or.inr ?_⟩
              · rw [← Except.ok.inj h, hv]
              · have hslash : c = '/'.toUInt8 := by
                  have hc := hhead c (by simp)
                  simpa [endsAuthority, hends] using hc
                rw [hslash, List.takeWhile_cons_of_pos (by decide)] at hdecode
                exact decode_slash hdecode

theorem parseHost_ok {part host it : Bytes} (h : parseHost part = .ok (host, it)) :
    (∀ c ∈ host, c ∈ part) ∧ (':'.toUInt8 ∈ host → ']'.toUInt8 ∉ host) := by
  rw [parseHost] at h
  split at h
  · split at h
    · cases h
    · obtain ⟨rfl, -⟩ := Prod.mk.inj (Except.ok.inj h)
      refine ⟨fun c hc => ?_, fun _ => not_mem_takeWhile_ne _ _⟩
      exact List.mem_of_mem_tail ((List.takeWhile_sublist _).mem hc)
  · obtain ⟨rfl, -⟩ := Prod.mk.inj (Except.ok.inj h)
    exact ⟨fun c hc => (List.takeWhile_sublist _).mem hc, fun hc => absurd hc (not_mem_takeWhile_ne _ _)⟩

theorem parsePort_ok {it : Bytes} {port : ℕ} (h : parsePort it = .ok port) : port < 65536 := by
  rw [parsePort] at h
  split at h
  · split at h
    · split at h
      · obtain rfl := Except.ok.inj h
        omega
      · cases h
    · cases h
  · obtain rfl := Except.ok.inj h
    decide

/-- Lower case does not make a character with a meaning. -/
theorem mem_lowerHost {host : Bytes} {x : UInt8} (hx : x ∈ bytes "/?#:@.%[]") :
    x ∈ lowerHost host ↔ x ∈ host := by
  have hiff (c : UInt8) : toLower c = x ↔ c = x := by
    simpa only [decide_eq_decide] using toLower_eq_iff c x hx
  rw [lowerHost]
  split
  · simp [hiff]
  · rfl

theorem lowerHost_spec {host : Bytes} (h : ∀ c ∈ host, endsAuthority c = false) :
    (∀ c ∈ lowerHost host, endsAuthority c = false) ∧
      ((lowerHost host).head? ≠ some '%'.toUInt8 → (lowerHost host).map toLower = lowerHost host) := by
  rw [lowerHost]
  split
  · refine ⟨?_, fun _ => map_toLower_map_toLower host⟩
    intro c hc
    obtain ⟨x, hx, rfl⟩ := List.mem_map.mp hc
    rw [endsAuthority_toLower]
    exact h x hx
  · next hnot =>
      refine ⟨h, fun hhead => ?_⟩
      by_cases hnil : host = []
      · simp [hnil]
      · exact absurd ⟨hnil, hhead⟩ hnot

theorem parseHostAndPort_ok {u v : URI} {part : Bytes} (h : parseHostAndPort u part = .ok v)
    (hu : u._host = []) (hport : u._port = 0)
    (hpart : ∀ c ∈ part, endsAuthority c = false ∧ c ≠ '@'.toUInt8) :
    ∃ host port, v = { u with _host := host, _port := port } ∧
      (∀ c ∈ host, endsAuthority c = false ∧ c ≠ '@'.toUInt8) ∧
      (':'.toUInt8 ∈ host → ']'.toUInt8 ∉ host) ∧
      (host.head? ≠ some '%'.toUInt8 → host.map toLower = host) ∧ port < 65536 := by
  rw [parseHostAndPort] at h
  split at h
  · obtain rfl := Except.ok.inj h
    exact ⟨u._host, u._port, rfl, by simp [hu], by simp [hu], by simp [hu], by omega⟩
  · cases hhost : parseHost part with
    | error e =>
        rw [hhost] at h
        cases h
    | ok p =>
        obtain ⟨host, it⟩ := p
        cases hp : parsePort it with
        | error e =>
            simp only [hhost, hp, bind, Except.bind] at h
            cases h
        | ok port =>
            simp only [hhost, hp, bind, Except.bind, pure, Except.pure] at h
            obtain ⟨hmem, hcolon⟩ := parseHost_ok hhost
            obtain ⟨hends, hlower⟩ := lowerHost_spec fun c hc => (hpart c (hmem c hc)).1
            refine ⟨lowerHost host, port, (Except.ok.inj h).symm, ?_, ?_, hlower, parsePort_ok hp⟩
            · intro c hc
              refine ⟨hends c hc, ?_⟩
              rintro rfl
              rw [mem_lowerHost (by decide)] at hc
              exact (hpart _ (hmem _ hc)).2 rfl
            · rw [mem_lowerHost (by decide), mem_lowerHost (by decide)]
              exact hcolon

theorem authorityLoop_ok {userInfo part it userInfo' part' it' : Bytes}
    (h : authorityLoop userInfo part it = (userInfo', part', it'))
    (huser : ∀ c ∈ userInfo, endsAuthority c = false ∧ c ≠ '@'.toUInt8)
    (hpart : ∀ c ∈ part, endsAuthority c = false ∧ c ≠ '@'.toUInt8) :
    (∀ c ∈ userInfo', endsAuthority c = false ∧ c ≠ '@'.toUInt8) ∧
      (∀ c ∈ part', endsAuthority c = false ∧ c ≠ '@'.toUInt8) ∧
      ∀ c ∈ it'.head?, endsAuthority c = true := by
  induction it generalizing userInfo part with
  | nil =>
      obtain ⟨rfl, rfl, rfl⟩ : userInfo = userInfo' ∧ part = part' ∧ [] = it' := by
        simpa [authorityLoop] using h
      exact ⟨huser, hpart, by simp⟩
  | cons c it ih =>
      rw [authorityLoop] at h
      split at h
      · next hc =>
          obtain ⟨rfl, rfl, rfl⟩ : userInfo = userInfo' ∧ part = part' ∧ c :: it = it' := by
            simpa using h
          exact ⟨huser, hpart, by simpa using hc⟩
      · next hc =>
          split at h
          · exact ih h hpart (by simp)
          · next hat =>
              refine ih h huser ?_
              intro x hx
              rcases List.mem_append.mp hx with hx | hx
              · exact hpart x hx
              · rw [List.mem_singleton.mp hx]
                exact ⟨by simpa using hc, hat⟩

theorem parseHierarchy_ok {u v : URI} {it : Bytes} (h : parseHierarchy u it = .ok v)
    (hu : u = { _scheme := u._scheme }) :
    v._scheme = u._scheme ∧ (∀ c ∈ v._userInfo, endsAuthority c = false ∧ c ≠ '@'.toUInt8) ∧
      (∀ c ∈ v._host, endsAuthority c = false ∧ c ≠ '@'.toUInt8) ∧
      (':'.toUInt8 ∈ v._host → ']'.toUInt8 ∉ v._host) ∧
      (v._host.head? ≠ some '%'.toUInt8 → v._host.map toLower = v._host) ∧ v._port < 65536 ∧
      (v.getAuthority ≠ [] → v._path = [] ∨ v._path.head? = some '/'.toUInt8) ∧
      '#'.toUInt8 ∉ v._query := by
  have hempty : u._userInfo = [] ∧ u._host = [] ∧ u._port = 0 ∧ u._path = [] ∧ u._query = [] := by
    rw [hu]
    exact ⟨rfl, rfl, rfl, rfl, rfl⟩
  obtain ⟨huser, hhost, hport, hpath, hquery⟩ := hempty
  rw [parseHierarchy] at h
  split at h
  · -- with an authority
    obtain ⟨userInfo, part, rest, hloop⟩ : ∃ userInfo part rest,
        authorityLoop [] [] (it.drop 2) = (userInfo, part, rest) := ⟨_, _, _, rfl⟩
    obtain ⟨huserInfo, hpart, hrest⟩ := authorityLoop_ok hloop (by simp) (by simp)
    cases hhp : parseHostAndPort u part with
    | error e =>
        simp only [parseAuthority, hloop, hhp, bind, Except.bind] at h
        cases h
    | ok w =>
        simp only [parseAuthority, hloop, hhp, bind, Except.bind, pure, Except.pure] at h
        obtain ⟨host, port, rfl, hhost', hcolon, hlower, hport'⟩ :=
          parseHostAndPort_ok hhp hhost hport hpart
        obtain ⟨path, query, fragment, rfl, hnot, hslash⟩ := parsePathEtc_ok h hpath hquery
        exact ⟨rfl, huserInfo, hhost', hcolon, hlower, hport', fun _ => hslash hrest, hnot⟩
  · -- without an authority
    obtain ⟨path, query, fragment, rfl, hnot, -⟩ := parsePathEtc_ok h hpath hquery
    have hauth : ({ u with _path := path, _query := query, _fragment := fragment } : URI).getAuthority = [] := by
      simp [getAuthority, huser, hhost, hport]
    refine ⟨rfl, by simp [huser], by simp [hhost], by simp [hhost], by simp [hhost], by simp [hport],
      fun hne => absurd hauth hne, hnot⟩

theorem shape_of_parsePathEtc {u : URI} {it : Bytes} (h : parsePathEtc {} it = .ok u) : Shape u := by
  obtain ⟨path, query, fragment, rfl, hnot, -⟩ := parsePathEtc_ok h rfl rfl
  exact ⟨by simp, by simp, by simp, by simp, by simp, by simp, by simp, fun hne => absurd rfl hne, hnot⟩

theorem shape_of_parse {uri : Bytes} {u : URI} (h : parse uri = .ok u) : Shape u := by
  unfold parse at h
  split at h
  · obtain rfl := Except.ok.inj h
    exact ⟨by simp, by simp, by simp, by simp, by simp, by simp, by simp, fun hne => absurd rfl hne, by simp⟩
  · next c rest =>
      split at h
      · next hc =>
          split at h
          · exact shape_of_parsePathEtc h
          · next x it hdrop =>
              split at h
              · split at h
                · cases h
                · obtain ⟨hscheme, huserInfo, hhost, hcolon, hlower, hport, hpath, hquery⟩ :=
                    parseHierarchy_ok h rfl
                  refine ⟨?_, ?_, huserInfo, hhost, hcolon, hlower, hport, hpath, hquery⟩
                  · intro y hy
                    rw [hscheme] at hy
                    obtain ⟨z, hz, rfl⟩ := List.mem_map.mp hy
                    rw [endsScheme_toLower, toLower_toLower]
                    exact ⟨by simpa using List.mem_takeWhile_imp hz, rfl⟩
                  · rw [hscheme]
                    intro hhead
                    obtain ⟨y, hy, hdot⟩ : ∃ y, y ∈ ((c :: rest).takeWhile fun c => !endsScheme c).head? ∧
                        toLower y = '.'.toUInt8 := by
                      simpa using hhead
                    have hiff := toLower_eq_iff y '.'.toUInt8 (by decide)
                    rw [decide_eq_decide] at hiff
                    rw [hiff.mp hdot, List.takeWhile_cons] at hy
                    split at hy
                    · exact hc.2.1 (by simpa using hy)
                    · cases hy
              · exact shape_of_parsePathEtc h
      · exact shape_of_parsePathEtc h

/-! ### Reading the text -/

theorem noHead_queryText (v : URI) : NoHead (fun c => !endsPath c) v.queryText := by
  intro c hc
  rw [queryText] at hc
  split_ifs at hc <;> simp at hc <;> subst hc <;> rfl

theorem parseQueryEtc_text {u v : URI} (hquery : u._query = []) (hfragment : u._fragment = [])
    (hv : '#'.toUInt8 ∉ v._query) :
    parseQueryEtc u v.queryText = { u with _query := v._query, _fragment := v._fragment } := by
  have hfront : ∀ c ∈ v._query, (decide (c ≠ '#'.toUInt8)) = true := by
    intro c hc
    rw [decide_eq_true_eq]
    rintro rfl
    exact hv hc
  by_cases hf : v._fragment = []
  · by_cases hq : v._query = []
    · have htext : v.queryText = [] := by simp [queryText, hf, hq]
      obtain ⟨scheme, userInfo, host, port, path, query, fragment⟩ := u
      simp only at hquery hfragment
      subst hquery hfragment
      rw [htext, hf, hq]
      rfl
    · have htext : v.queryText = '?'.toUInt8 :: v._query := by simp [queryText, hf, hq]
      have hall : v._query.takeWhile (· ≠ '#'.toUInt8) = v._query := List.takeWhile_eq_self_iff.mpr hfront
      have hnone : v._query.dropWhile (· ≠ '#'.toUInt8) = [] := List.dropWhile_eq_nil_iff.mpr hfront
      simp only [htext, parseQueryEtc, List.head?_cons, if_true, List.tail_cons, parseQuery, hall, hnone,
        List.head?_nil, reduceCtorEq, if_false, hf]
      rw [hfragment]
  · have hhash : NoHead (fun c => decide (c ≠ '#'.toUInt8)) ('#'.toUInt8 :: v._fragment) :=
      noHead_cons (by decide)
    by_cases hq : v._query = []
    · have htext : v.queryText = '#'.toUInt8 :: v._fragment := by simp [queryText, hf, hq]
      rw [htext, parseQueryEtc, List.head?_cons, if_neg (by decide), hq, ← hquery]
      rfl
    · have htext : v.queryText = '?'.toUInt8 :: (v._query ++ '#'.toUInt8 :: v._fragment) := by
        simp [queryText, hf, hq]
      simp only [htext, parseQueryEtc, List.head?_cons, if_true, List.tail_cons, parseQuery,
        takeWhile_append_of_noHead hfront hhash, dropWhile_append_of_noHead hfront hhash]
      rfl

theorem parsePathEtc_text {u v : URI} (hpath : u._path = []) (hquery : u._query = [])
    (hfragment : u._fragment = []) (hv : '#'.toUInt8 ∉ v._query) (path : Bytes) :
    parsePathEtc u (encode path RESERVED_PATH ++ v.queryText) =
      .ok { u with _path := path, _query := v._query, _fragment := v._fragment } := by
  have hends := endsPath_encode path
  have hhead := noHead_queryText v
  cases henc : encode path RESERVED_PATH with
  | nil =>
      obtain rfl : path = [] := by
        have hdecode := decode_encode path
        rw [henc] at hdecode
        exact (Except.ok.inj hdecode).symm
      have hetc := parseQueryEtc_text hquery hfragment hv
      cases hq : v.queryText with
      | nil =>
          rw [hq] at hetc
          rw [List.nil_append, parsePathEtc, ← hpath, ← hetc]
          rfl
      | cons c rest =>
          have hc : endsPath c = true := by
            rw [hq] at hhead
            simpa using hhead c (by simp)
          rw [hq] at hetc
          unfold parsePathEtc
          rw [List.nil_append]
          simp only [hc, if_true, hetc]
          rw [← hpath]
  | cons c rest =>
      rw [henc] at hends
      have hc : endsPath c = false := hends c List.mem_cons_self
      have hfront : ∀ c' ∈ c :: rest, (!endsPath c') = true := by simpa using hends
      have hdecode := decode_encode path
      rw [henc] at hdecode
      have hpath' : parsePath u (c :: rest ++ v.queryText) = .ok ({ u with _path := path }, v.queryText) := by
        simp only [parsePath, takeWhile_append_of_noHead hfront hhead,
          dropWhile_append_of_noHead hfront hhead, hdecode, hpath, List.nil_append]
        rfl
      have hetc : parseQueryEtc { u with _path := path } v.queryText =
          { u with _path := path, _query := v._query, _fragment := v._fragment } :=
        parseQueryEtc_text hquery hfragment hv
      unfold parsePathEtc
      simp only [List.cons_append] at hpath' ⊢
      simp only [hc, Bool.false_eq_true, if_false, hpath', bind, Except.bind, pure, Except.pure, hetc]

/-- The host in `getAuthority`. -/
def hostText (u : URI) : Bytes :=
  if ':'.toUInt8 ∈ u._host then '['.toUInt8 :: u._host ++ [']'.toUInt8] else u._host

/-- The port in `getAuthority`. -/
def portText (u : URI) : Bytes :=
  if u._port ≠ 0 ∧ !u.isWellKnownPort then ':'.toUInt8 :: formatNumber u._port else []

/-- The port that is written. -/
def writtenPort (u : URI) : ℕ := if u._port ≠ 0 ∧ !u.isWellKnownPort then u._port else 0

theorem parsePort_portText {u : URI} (h : u._port < 65536) : parsePort u.portText = .ok u.writtenPort := by
  rw [portText, writtenPort]
  split
  · next hport =>
      have hpos : ((u._port : ℤ) > 0 ∧ (u._port : ℤ) < 65536) := by omega
      rw [parsePort, if_pos ⟨rfl, formatNumber_ne_nil _⟩, List.tail_cons, tryParse_formatNumber h]
      simp only [if_pos hpos, Int.toNat_natCast]
  · rfl

theorem noHead_portText (u : URI) : NoHead (fun c => decide (c ≠ ':'.toUInt8)) u.portText := by
  rw [portText]
  split
  · exact noHead_cons (by decide)
  · exact noHead_nil _

theorem parseHost_hostText {u : URI} (hs : Shape u)
    (hbracket : ':'.toUInt8 ∉ u._host → u._host.head? ≠ some '['.toUInt8) :
    parseHost (u.hostText ++ u.portText) = .ok (u._host, u.portText) := by
  rw [hostText, parseHost]
  split
  · next hcolon =>
      have hfront : ∀ c ∈ u._host, (decide (c ≠ ']'.toUInt8)) = true := by
        intro c hc
        rw [decide_eq_true_eq]
        rintro rfl
        exact hs.host_colon hcolon hc
      have hclose : NoHead (fun c => decide (c ≠ ']'.toUInt8)) (']'.toUInt8 :: u.portText) :=
        noHead_cons (by decide)
      rw [if_pos (by simp)]
      simp only [List.cons_append, List.append_assoc, List.nil_append, List.tail_cons,
        takeWhile_append_of_noHead hfront hclose, dropWhile_append_of_noHead hfront hclose]
  · next hcolon =>
      have hfront : ∀ c ∈ u._host, (decide (c ≠ ':'.toUInt8)) = true := by
        intro c hc
        rw [decide_eq_true_eq]
        rintro rfl
        exact hcolon hc
      have hhead : (u._host ++ u.portText).head? ≠ some '['.toUInt8 := by
        cases hhost : u._host with
        | nil =>
            rw [portText]
            split
            · show some ':'.toUInt8 ≠ some '['.toUInt8
              decide
            · decide
        | cons c host =>
            rw [hhost] at hbracket
            simpa using hbracket (by rwa [hhost] at hcolon)
      rw [if_neg hhead, takeWhile_append_of_noHead hfront (noHead_portText u),
        dropWhile_append_of_noHead hfront (noHead_portText u)]

theorem lowerHost_of_shape {u : URI} (hs : Shape u) : lowerHost u._host = u._host := by
  rw [lowerHost]
  split
  · next h => exact hs.host_lower h.2
  · rfl

theorem parseHostAndPort_text {u w : URI} (hs : Shape u)
    (hbracket : ':'.toUInt8 ∉ u._host → u._host.head? ≠ some '['.toUInt8) (hhost : w._host = [])
    (hport : w._port = 0) :
    parseHostAndPort w (u.hostText ++ u.portText) =
      .ok { w with _host := u._host, _port := u.writtenPort } := by
  rw [parseHostAndPort]
  split
  · next hnil =>
      obtain ⟨hh, hp⟩ := List.append_eq_nil_iff.mp hnil
      have hh' : u._host = w._host := by
        rw [hhost]
        rw [hostText] at hh
        split at hh
        · cases hh
        · exact hh
      have hp' : u.writtenPort = w._port := by
        rw [hport, writtenPort]
        rw [portText] at hp
        split at hp
        · cases hp
        · next hnot => rw [if_neg hnot]
      rw [hh', hp']
  · simp only [parseHost_hostText hs hbracket, parsePort_portText hs.port, bind, Except.bind, pure,
      Except.pure, lowerHost_of_shape hs]

theorem authorityLoop_append {text : Bytes} (h : ∀ c ∈ text, endsAuthority c = false ∧ c ≠ '@'.toUInt8)
    (userInfo part rest : Bytes) :
    authorityLoop userInfo part (text ++ rest) = authorityLoop userInfo (part ++ text) rest := by
  induction text generalizing part with
  | nil => simp
  | cons c text ih =>
      obtain ⟨hc, hat⟩ := h c List.mem_cons_self
      rw [List.cons_append, authorityLoop, if_neg (by simp [hc]), if_neg hat,
        ih (fun x hx => h x (List.mem_cons_of_mem _ hx)), List.append_assoc, List.singleton_append]

theorem authorityLoop_rest {rest : Bytes} (h : ∀ c ∈ rest.head?, endsAuthority c = true)
    (userInfo part : Bytes) : authorityLoop userInfo part rest = (userInfo, part, rest) := by
  cases rest with
  | nil => rfl
  | cons c rest => rw [authorityLoop, if_pos (h c (by simp))]

/-- The characters of a host and a port are no delimiters of an authority. -/
theorem mem_hostText_portText {u : URI} (hs : Shape u) {c : UInt8} (hc : c ∈ u.hostText ++ u.portText) :
    endsAuthority c = false ∧ c ≠ '@'.toUInt8 := by
  have hdigit (x : UInt8) (hx : isDigit x = true) : endsAuthority x = false ∧ x ≠ '@'.toUInt8 := by
    revert hx
    apply forall_byte (P := fun x => isDigit x = true → endsAuthority x = false ∧ x ≠ '@'.toUInt8)
    decide +kernel
  rcases List.mem_append.mp hc with hc | hc
  · rw [hostText] at hc
    split at hc
    · simp only [List.cons_append, List.mem_cons, List.mem_append, List.not_mem_nil, or_false] at hc
      rcases hc with rfl | hc | rfl
      · decide
      · exact hs.host c hc
      · decide
    · exact hs.host c hc
  · rw [portText] at hc
    split at hc
    · rcases List.mem_cons.mp hc with rfl | hc
      · decide
      · exact hdigit c (mem_formatNumber hc)
    · cases hc

theorem parseAuthority_text {u w : URI} (hs : Shape u)
    (hbracket : ':'.toUInt8 ∉ u._host → u._host.head? ≠ some '['.toUInt8) (hhost : w._host = [])
    (hport : w._port = 0) {rest : Bytes} (hrest : ∀ c ∈ rest.head?, endsAuthority c = true) :
    parseAuthority w (u.getAuthority ++ rest) =
      .ok ({ w with _userInfo := u._userInfo, _host := u._host, _port := u.writtenPort }, rest) := by
  have hloop : authorityLoop [] [] (u.getAuthority ++ rest) =
      (u._userInfo, u.hostText ++ u.portText, rest) := by
    have hauth : u.getAuthority = (if u._userInfo ≠ [] then u._userInfo ++ ['@'.toUInt8] else []) ++
        (u.hostText ++ u.portText) := by
      rw [getAuthority, hostText, portText, List.append_assoc]
    rw [hauth]
    split
    · rw [List.append_assoc, List.append_assoc, authorityLoop_append hs.userInfo, List.nil_append,
        List.singleton_append, authorityLoop, if_neg (by decide), if_pos rfl,
        authorityLoop_append (fun c => mem_hostText_portText hs), List.nil_append,
        authorityLoop_rest hrest]
    · next hnil =>
        rw [List.nil_append, authorityLoop_append (fun c => mem_hostText_portText hs), List.nil_append,
          authorityLoop_rest hrest, not_not.mp hnil]
  simp only [parseAuthority, hloop, parseHostAndPort_text hs hbracket hhost hport, bind, Except.bind, pure,
    Except.pure]

/-! ### Main result -/

/-- The text of the URI has the parts of the URI.  Excluded are a host in brackets that begins with
a bracket and has no colon, an authority without a scheme, a relative path with a colon before the
first slash, and, without an authority, a path that would be taken for one or nothing at all. -/
def Regular (u : URI) : Prop :=
  (':'.toUInt8 ∉ u._host → u._host.head? ≠ some '['.toUInt8) ∧
  if u.isRelative then
    u.getAuthority = [] ∧ (u._path.head? = some '/'.toUInt8 ∨ u._path.head? = some '.'.toUInt8 ∨
      ':'.toUInt8 ∉ u._path.takeWhile (· ≠ '/'.toUInt8))
  else if u.getAuthority = [] then
    if u._scheme = bytes "file" then u._path = [] ∨ u._path.head? = some '/'.toUInt8
    else ¬bytes "//" <+: u._path ∧ (u._path ≠ [] ∨ u._query ≠ [] ∨ u._fragment ≠ [])
  else True

instance (u : URI) : Decidable (Regular u) := inferInstanceAs (Decidable (_ ∧ ite _ _ _))

/-- The path that is written: a URI with a scheme and a query or a fragment has one. -/
def writtenPath (u : URI) : Bytes :=
  if u.isRelative = false ∧ u._path = [] ∧ (u._query ≠ [] ∨ u._fragment ≠ []) then ['/'.toUInt8]
  else u._path

/-- The URI that is read from the text. -/
def written (u : URI) : URI := { u with _port := u.writtenPort, _path := u.writtenPath }

theorem getPort_written (u : URI) : u.written.getPort = u.getPort := by
  have hknown : u.written.getWellKnownPort = u.getWellKnownPort := rfl
  have hport : u.written._port = u.writtenPort := rfl
  rw [getPort, getPort, hknown, hport, writtenPort]
  by_cases h0 : u._port = 0
  · simp [h0]
  · by_cases hw : u.isWellKnownPort = true
    · have hw' : u._port = u.getWellKnownPort := by simpa [isWellKnownPort] using hw
      simp [hw, h0, ← hw']
    · simp [hw, h0]

theorem of_getAuthority_eq_nil {u : URI} (h : u.getAuthority = []) :
    u._userInfo = [] ∧ u._host = [] ∧ u.writtenPort = 0 := by
  simp only [getAuthority, List.append_eq_nil_iff, ite_eq_right_iff] at h
  obtain ⟨⟨huser, hhost⟩, hport⟩ := h
  refine ⟨?_, ?_, ?_⟩
  · by_contra hne
    simpa using huser hne
  · split at hhost
    · cases hhost
    · exact hhost
  · rw [writtenPort, if_neg]
    intro hport'
    cases hport hport'

theorem toString_of_scheme {u : URI} (hs : Shape u) (hrel : u.isRelative = false) :
    u.toString = u._scheme ++ ':'.toUInt8 ::
      ((if u.getAuthority ≠ [] ∨ u._scheme = bytes "file" then bytes "//" ++ u.getAuthority else []) ++
        (encode u.writtenPath RESERVED_PATH ++ u.queryText)) := by
  have hpath : (if u._path ≠ [] then
        (if u.getAuthority ≠ [] ∧ u._path.head? ≠ some '/'.toUInt8 then ['/'.toUInt8] else []) ++
          encode u._path RESERVED_PATH
      else if u._query ≠ [] ∨ u._fragment ≠ [] then ['/'.toUInt8] else []) =
        encode u.writtenPath RESERVED_PATH := by
    by_cases hnil : u._path = []
    · by_cases hetc : u._query ≠ [] ∨ u._fragment ≠ []
      · have hwritten : u.writtenPath = ['/'.toUInt8] := if_pos ⟨hrel, hnil, hetc⟩
        rw [if_neg (not_not.mpr hnil), if_pos hetc, hwritten]
        rfl
      · have hwritten : u.writtenPath = u._path := if_neg fun h => hetc h.2.2
        rw [if_neg (not_not.mpr hnil), if_neg hetc, hwritten, hnil]
        rfl
    · have hslash : ¬(u.getAuthority ≠ [] ∧ u._path.head? ≠ some '/'.toUInt8) :=
        fun hne => hne.2 ((hs.path hne.1).resolve_left hnil)
      have hwritten : u.writtenPath = u._path := if_neg fun h => hnil h.2.1
      rw [if_pos hnil, if_neg hslash, hwritten, List.nil_append]
  simp only [toString, hrel, Bool.false_eq_true, if_false, hpath]
  simp only [List.append_assoc, List.cons_append, List.nil_append]

theorem head_encode {path rest : Bytes} (hrest : NoHead (fun c => !endsPath c) rest)
    (h : (encode path RESERVED_PATH ++ rest).head? = some '/'.toUInt8) :
    path.head? = some '/'.toUInt8 := by
  cases path with
  | nil => exact absurd (hrest '/'.toUInt8 h) (by decide)
  | cons c path =>
      have hcons : encode (c :: path) RESERVED_PATH =
          encodeChar RESERVED_PATH c ++ encode path RESERVED_PATH := rfl
      rcases encodeChar_cases c with ⟨henc, -⟩ | ⟨henc, -⟩
      · rw [hcons, henc] at h
        simpa using h
      · rw [hcons, henc] at h
        have hbad : '%'.toUInt8 = '/'.toUInt8 := by simpa using h
        exact absurd hbad (by decide)

theorem slashes_encode {path rest : Bytes} (hrest : NoHead (fun c => !endsPath c) rest)
    (h : bytes "//" <+: encode path RESERVED_PATH ++ rest) : bytes "//" <+: path := by
  obtain ⟨tail, htail⟩ := h
  have hhead : path.head? = some '/'.toUInt8 := head_encode hrest (by rw [← htail]; rfl)
  cases path with
  | nil => cases hhead
  | cons c path =>
      obtain rfl : c = '/'.toUInt8 := by simpa using hhead
      have htail' : '/'.toUInt8 :: tail = encode path RESERVED_PATH ++ rest := (List.cons.inj htail).2
      have hhead' : path.head? = some '/'.toUInt8 := head_encode hrest (by rw [← htail']; rfl)
      cases path with
      | nil => cases hhead'
      | cons c path =>
          obtain rfl : c = '/'.toUInt8 := by simpa using hhead'
          exact ⟨path, rfl⟩

/-- The characters of an encoded byte do not end a scheme, unless it is a colon or a slash. -/
theorem encodeChar_scheme (c : UInt8) :
    (encodeChar RESERVED_PATH c).all (fun x => !endsScheme x) = true ∨
      encodeChar RESERVED_PATH c = [c] ∧ (c = ':'.toUInt8 ∨ c = '/'.toUInt8) :=
  (encodeChar_spec c).2.2

/-- Without a colon in its first segment a path is not taken for a scheme. -/
theorem no_scheme {path rest : Bytes} (hrest : NoHead (fun c => !endsPath c) rest)
    (h : ':'.toUInt8 ∉ path.takeWhile (· ≠ '/'.toUInt8)) :
    ((encode path RESERVED_PATH ++ rest).dropWhile fun c => !endsScheme c).head? ≠ some ':'.toUInt8 := by
  induction path with
  | nil =>
      have hstop : NoHead (fun c => !endsScheme c) rest := by
        intro c hc
        have := hrest c hc
        simp_all [endsScheme, endsAuthority]
      rw [show encode [] RESERVED_PATH ++ rest = rest from rfl, hstop.dropWhile]
      intro hhead
      exact absurd (hrest ':'.toUInt8 hhead) (by decide)
  | cons c path ih =>
      have hcons : encode (c :: path) RESERVED_PATH ++ rest =
          encodeChar RESERVED_PATH c ++ (encode path RESERVED_PATH ++ rest) := by
        rw [← List.append_assoc]
        rfl
      rw [hcons]
      by_cases hslash : c = '/'.toUInt8
      · rw [hslash]
        show (('/'.toUInt8 :: (encode path RESERVED_PATH ++ rest)).dropWhile _).head? ≠ _
        rw [List.dropWhile_cons_of_neg (by decide)]
        show some '/'.toUInt8 ≠ some ':'.toUInt8
        decide
      · rw [List.takeWhile_cons_of_pos (by simpa using hslash)] at h
        have hcolon : c ≠ ':'.toUInt8 := by
          rintro rfl
          exact h List.mem_cons_self
        have hfront := (encodeChar_scheme c).resolve_right fun hc => hc.2.elim hcolon hslash
        rw [List.dropWhile_append_of_pos (List.all_eq_true.mp hfront)]
        exact ih fun hmem => h (List.mem_cons_of_mem _ hmem)

theorem parse_of_relative {u : URI} (hs : Shape u) (hr : Regular u) (hrel : u.isRelative = true) :
    parse u.toString = .ok u.written := by
  have hscheme : u._scheme = [] := by simpa [isRelative] using hrel
  obtain ⟨-, hr⟩ := hr
  rw [if_pos hrel] at hr
  obtain ⟨hauth, hfirst⟩ := hr
  obtain ⟨huser, hhost, hport⟩ := of_getAuthority_eq_nil hauth
  have htext : u.toString = encode u._path RESERVED_PATH ++ u.queryText := by
    simp only [toString, hrel, if_true]
  have hwritten : u.written = { _path := u._path, _query := u._query, _fragment := u._fragment } := by
    have hpath : u.writtenPath = u._path := if_neg fun h => by simp [hrel] at h
    rw [written, hport, hpath, hscheme, huser, hhost]
  -- no character of the text is taken for the colon of a scheme
  have hpathEtc : parse u.toString = parsePathEtc {} u.toString := by
    rw [htext]
    unfold parse
    split
    · next hnil => rw [hnil]; rfl
    · next c rest hcons =>
        split
        · next hc =>
            have hhead {x : UInt8} (henc : encodeChar RESERVED_PATH x = [x])
                (hx : u._path.head? = some x) : c = x := by
              obtain ⟨path, hpath⟩ : ∃ path, u._path = x :: path := by
                cases hp : u._path with
                | nil => simp [hp] at hx
                | cons y path => exact ⟨path, by simpa [hp] using hx⟩
              rw [hpath, encode, List.flatMap_cons, henc] at hcons
              exact (List.cons.inj hcons).1.symm
            have hnot : ':'.toUInt8 ∉ u._path.takeWhile (· ≠ '/'.toUInt8) := by
              rcases hfirst with hx | hx | hnot
              · exact absurd (hhead (by decide) hx) hc.1
              · exact absurd (hhead (by decide) hx) hc.2.1
              · exact hnot
            have hstop := no_scheme (noHead_queryText u) hnot
            split
            · rfl
            · next x it hdrop =>
                have hx : x ≠ ':'.toUInt8 := by
                  rw [hdrop] at hstop
                  simpa using hstop
                rw [if_neg hx]
        · rfl
  rw [hpathEtc, htext, parsePathEtc_text rfl rfl rfl hs.query, hwritten]

theorem head_of_writtenPath {u : URI} (h : u.writtenPath = [] ∨ u.writtenPath.head? = some '/'.toUInt8) :
    ∀ c ∈ (encode u.writtenPath RESERVED_PATH ++ u.queryText).head?, endsAuthority c = true := by
  intro c hc
  rcases h with hnil | hslash
  · rw [hnil] at hc
    have hends : endsPath c = true := by simpa using noHead_queryText u c hc
    simp [endsAuthority, hends]
  · cases hp : u.writtenPath with
    | nil => simp [hp] at hslash
    | cons x path =>
        obtain rfl : x = '/'.toUInt8 := by simpa [hp] using hslash
        have henc : encode ('/'.toUInt8 :: path) RESERVED_PATH =
            '/'.toUInt8 :: encode path RESERVED_PATH := rfl
        rw [hp, henc] at hc
        obtain rfl : '/'.toUInt8 = c := by simpa using hc
        rfl

theorem parseHierarchy_text {u : URI} (hs : Shape u) (hr : Regular u) (hrel : u.isRelative = false) :
    parseHierarchy { _scheme := u._scheme }
      ((if u.getAuthority ≠ [] ∨ u._scheme = bytes "file" then bytes "//" ++ u.getAuthority else []) ++
        (encode u.writtenPath RESERVED_PATH ++ u.queryText)) = .ok u.written := by
  obtain ⟨hbracket, hr⟩ := hr
  rw [hrel, if_neg (by decide)] at hr
  by_cases hA : u.getAuthority ≠ [] ∨ u._scheme = bytes "file"
  · have hpath : u.writtenPath = [] ∨ u.writtenPath.head? = some '/'.toUInt8 := by
      have hpath : u._path = [] ∨ u._path.head? = some '/'.toUInt8 := by
        by_cases hauth : u.getAuthority = []
        · rw [if_pos hauth, if_pos (hA.resolve_left (not_not.mpr hauth))] at hr
          exact hr
        · exact hs.path hauth
      rw [writtenPath]
      split
      · exact Or.inr rfl
      · exact hpath
    rw [if_pos hA, List.append_assoc, parseHierarchy, if_pos (List.prefix_append _ _)]
    have hdrop : (bytes "//" ++ (u.getAuthority ++ (encode u.writtenPath RESERVED_PATH ++ u.queryText))).drop 2 =
        u.getAuthority ++ (encode u.writtenPath RESERVED_PATH ++ u.queryText) := rfl
    rw [hdrop, parseAuthority_text hs hbracket rfl rfl (head_of_writtenPath hpath)]
    exact parsePathEtc_text rfl rfl rfl hs.query _
  · have hauth : u.getAuthority = [] := not_not.mp fun h => hA (Or.inl h)
    obtain ⟨huser, hhost, hport⟩ := of_getAuthority_eq_nil hauth
    rw [if_pos hauth, if_neg fun h => hA (Or.inr h)] at hr
    have hslash : ¬bytes "//" <+: encode u.writtenPath RESERVED_PATH ++ u.queryText := by
      intro hpre
      have hpath := slashes_encode (noHead_queryText u) hpre
      rw [writtenPath] at hpath
      split at hpath
      · exact absurd hpath (by decide)
      · exact hr.1 hpath
    have hwritten : u.written = ⟨u._scheme, [], [], 0, u.writtenPath, u._query, u._fragment⟩ := by
      rw [written, hport, huser, hhost]
    rw [if_neg hA, List.nil_append, parseHierarchy, if_neg hslash, hwritten]
    exact parsePathEtc_text rfl rfl rfl hs.query _

theorem parse_of_scheme {u : URI} (hs : Shape u) (hr : Regular u) (hrel : u.isRelative = false) :
    parse u.toString = .ok u.written := by
  have hhier := parseHierarchy_text hs hr hrel
  rw [toString_of_scheme hs hrel]
  generalize hit : (if u.getAuthority ≠ [] ∨ u._scheme = bytes "file" then bytes "//" ++ u.getAuthority
    else []) ++ (encode u.writtenPath RESERVED_PATH ++ u.queryText) = it at hhier ⊢
  have hne : it ≠ [] := by
    rw [← hit]
    split
    · simp [bytes]
    · next hA =>
        have hauth : u.getAuthority = [] := not_not.mp fun h => hA (Or.inl h)
        obtain ⟨-, hr⟩ := hr
        rw [hrel, if_neg (by decide), if_pos hauth, if_neg fun h => hA (Or.inr h)] at hr
        have hpath : u.writtenPath ≠ [] := by
          rw [writtenPath]
          split
          · exact List.cons_ne_nil _ _
          · next hnot =>
              intro hnil
              exact hnot ⟨hrel, hnil, hr.2.resolve_left (not_not.mpr hnil)⟩
        intro hnil
        have henc := (List.append_eq_nil_iff.mp (List.append_eq_nil_iff.mp hnil).2).1
        have hdecode := decode_encode u.writtenPath
        rw [henc] at hdecode
        exact hpath (Except.ok.inj hdecode).symm
  have hfront : ∀ c ∈ u._scheme, (!endsScheme c) = true := by
    intro c hc
    simp [(hs.scheme c hc).1]
  have hstop : NoHead (fun c => !endsScheme c) (':'.toUInt8 :: it) := noHead_cons (by decide)
  have hlower : u._scheme.map toLower = u._scheme :=
    (List.map_congr_left fun c hc => (hs.scheme c hc).2).trans u._scheme.map_id
  obtain ⟨c, rest, hscheme⟩ : ∃ c rest, u._scheme = c :: rest := by
    cases hscheme : u._scheme with
    | nil => simp [isRelative, hscheme] at hrel
    | cons c rest => exact ⟨c, rest, rfl⟩
  have hc : c ≠ '/'.toUInt8 ∧ c ≠ '.'.toUInt8 ∧ (!endsPath c) = true := by
    have hends := (hs.scheme c (by simp [hscheme])).1
    have hdot := hs.scheme_head
    simp only [endsScheme, endsAuthority, Bool.or_eq_false_iff, decide_eq_false_iff_not] at hends
    refine ⟨hends.2.1, ?_, by simp [hends.2.2]⟩
    rintro rfl
    exact hdot (by simp [hscheme])
  have htext : u._scheme ++ ':'.toUInt8 :: it = c :: (rest ++ ':'.toUInt8 :: it) := by
    rw [hscheme, List.cons_append]
  have hdrop : ((c :: (rest ++ ':'.toUInt8 :: it)).dropWhile fun c => !endsScheme c) = ':'.toUInt8 :: it := by
    rw [← htext]
    exact dropWhile_append_of_noHead hfront hstop
  have htake : ((c :: (rest ++ ':'.toUInt8 :: it)).takeWhile fun c => !endsScheme c) = u._scheme := by
    rw [← htext]
    exact takeWhile_append_of_noHead hfront hstop
  rw [htext]
  unfold parse
  simp only [if_pos hc, hdrop, htake, hlower, if_true, if_neg hne]
  exact hhier

/-- **Main result.**  The text of a parsed URI is parsed to an equal URI, where a URI with a scheme
and a query or fragment has got a path. -/
theorem parse_toString {uri : Bytes} {u : URI} (h : parse uri = .ok u) (hr : Regular u) :
    ∃ v, parse u.toString = .ok v ∧ v.equals { u with _path := u.writtenPath } = true := by
  have hs := shape_of_parse h
  refine ⟨u.written, ?_, ?_⟩
  · cases hrel : u.isRelative with
    | true => exact parse_of_relative hs hr hrel
    | false => exact parse_of_scheme hs hr hrel
  · have hport : getPort { u with _path := u.writtenPath } = u.getPort := rfl
    rw [equals, getPort_written, hport]
    simp [written]

/-- A URI with every part. -/
theorem parse_toString_every_part :
    ∃ v, parse (toString ⟨bytes "s", bytes "u:p", bytes "::1", 8080, bytes "/a b", bytes "q", bytes "f"⟩) =
        .ok v ∧
      v.equals ⟨bytes "s", bytes "u:p", bytes "::1", 8080, bytes "/a b", bytes "q", bytes "f"⟩ = true :=
  @parse_toString (bytes "S://u:p@[::1]:8080/a%20b?q#f")
    ⟨bytes "s", bytes "u:p", bytes "::1", 8080, bytes "/a b", bytes "q", bytes "f"⟩ (by decide +kernel)
    (by decide +kernel)

/-- A query without a path gets one. -/
theorem query_gets_a_path :
    ∃ u v, parse (bytes "http://h?q") = .ok u ∧ Regular u ∧ parse u.toString = .ok v ∧
      v.equals u = false :=
  ⟨⟨bytes "http", [], bytes "h", 0, [], bytes "q", []⟩,
    ⟨bytes "http", [], bytes "h", 0, bytes "/", bytes "q", []⟩, by decide +kernel⟩

end URI

end Poco.Foundation
