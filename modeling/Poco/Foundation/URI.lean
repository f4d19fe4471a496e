import Mathlib.Data.Nat.Basic
import Mathlib.Algebra.Order.Ring.Nat
import Poco.Lib.Segments
import Poco.Foundation.Ascii

/-! # `URI`

A `URI` keeps its parts in separate strings of bytes.  `parse` finds the parts in a text and
decodes the path, `toString` writes them, and `resolve` applies a relative reference to a base.
A part that is not there is empty, and a port that is not there is 0.  `parse` is applied to a new
`URI`. -/

namespace Poco.Foundation

/-- A string of the source. -/
abbrev Bytes := List UInt8

/-- The bytes of an ASCII text. -/
def bytes (s : String) : Bytes := s.toList.map Char.toUInt8

/-- `URISyntaxException(msg, arg)`. -/
structure URISyntaxException where
  msg : String
  arg : Bytes := []
deriving DecidableEq, Repr

/-- The members of `URI`. -/
structure URI where
  _scheme : Bytes := []
  _userInfo : Bytes := []
  _host : Bytes := []
  _port : ℕ := 0
  _path : Bytes := []
  _query : Bytes := []
  _fragment : Bytes := []
deriving DecidableEq, Repr

namespace URI

/-! ### Characters and numbers -/

export Ascii (isSpace isDigit toLower)

/-- The value of a text of digits. -/
def ofDigits (digits : Bytes) : ℕ := digits.foldl (fun n c => 10 * n + (c.toNat - 48)) 0

/-- `std::from_chars` for an `int`: the number and the rest, or `none` with an error code. -/
def from_chars (s : Bytes) : Option (ℤ × Bytes) :=
  let negative := s.head? = some '-'.toUInt8
  let s := if negative then s.tail else s
  let digits := s.takeWhile isDigit
  let value : ℤ := if negative then -ofDigits digits else ofDigits digits
  if digits = [] then none
  else if value < -2 ^ 31 ∨ 2 ^ 31 ≤ value then none
  else some (value, s.dropWhile isDigit)

/-- `NumberParser::tryParse`, with a comma as thousand separator. -/
def tryParse (s : Bytes) : Option ℤ :=
  let s := s.dropWhile isSpace
  let start := if s.head? = some '+'.toUInt8 then s.tail else s
  if start = [] then none
  else match from_chars start with
    | none => none
    | some (value, rest) =>
        if rest = [] then some value
        else
          let cleaned := start.filter (· ≠ ','.toUInt8)
          if cleaned.length > 66 ∨ cleaned = [] then none
          else match from_chars cleaned with
            | some (value, []) => some value
            | _ => none

/-- The digits of `NumberFormatter::append`. -/
def formatNumber (n : ℕ) : Bytes := (Nat.toDigits 10 n).map Char.toUInt8

/-! ### `encode` and `decode` -/

def RESERVED_PATH : Bytes := bytes "?#"

def ILLEGAL : Bytes := bytes "%<>\x7b\x7d|\\\"^`!*'()$,[]"

/-- A character that is never encoded. -/
def isUnreserved (c : UInt8) : Bool :=
  ('a'.toUInt8 ≤ c && c ≤ 'z'.toUInt8) || ('A'.toUInt8 ≤ c && c ≤ 'Z'.toUInt8) || isDigit c ||
    c == '-'.toUInt8 || c == '_'.toUInt8 || c == '.'.toUInt8 || c == '~'.toUInt8

/-- A digit of `NumberFormatter::formatHex`. -/
def hexDigit (n : UInt8) : UInt8 := if n < 10 then '0'.toUInt8 + n else 'A'.toUInt8 + (n - 10)

/-- A character in `encode`. -/
def encodeChar (reserved : Bytes) (c : UInt8) : Bytes :=
  if isUnreserved c then [c]
  else if c ≤ 0x20 || c ≥ 0x7F || ILLEGAL.contains c || reserved.contains c then
    ['%'.toUInt8, hexDigit (c / 16), hexDigit (c % 16)]
  else [c]

/-- `encode`: the text appended. -/
def encode (str reserved : Bytes) : Bytes := str.flatMap (encodeChar reserved)

/-- The value of a hexadecimal digit. -/
def hexValue (c : UInt8) : Option UInt8 :=
  if '0'.toUInt8 ≤ c && c ≤ '9'.toUInt8 then some (c - '0'.toUInt8)
  else if 'A'.toUInt8 ≤ c && c ≤ 'F'.toUInt8 then some (c - 'A'.toUInt8 + 10)
  else if 'a'.toUInt8 ≤ c && c ≤ 'f'.toUInt8 then some (c - 'a'.toUInt8 + 10)
  else none

/-- The loop of `decode`, without `plusAsSpace`. -/
def decodeLoop (str : Bytes) : Bytes → Except URISyntaxException Bytes
  | [] => .ok []
  | c :: it =>
      if c = '%'.toUInt8 then
        match it with
        | [] => .error ⟨"URI encoding: no hex digit following percent sign", str⟩
        | [_] => .error ⟨"URI encoding: two hex digits must follow percent sign", str⟩
        | hi :: lo :: it =>
            match hexValue hi, hexValue lo with
            | some h, some l => do return (h * 16 + l) :: (← decodeLoop str it)
            | _, _ => .error ⟨"URI encoding: not a hex digit", []⟩
      else do return c :: (← decodeLoop str it)

/-- `decode`: the text appended. -/
def decode (str : Bytes) : Except URISyntaxException Bytes := decodeLoop str str

/-! ### Members -/

/-- `isRelative`. -/
def isRelative (u : URI) : Bool := u._scheme = []

/-- `getWellKnownPort`. -/
def getWellKnownPort (u : URI) : ℕ :=
  if u._scheme = bytes "ftp" then 21
  else if u._scheme = bytes "ssh" then 22
  else if u._scheme = bytes "telnet" then 23
  else if u._scheme = bytes "smtp" then 25
  else if u._scheme = bytes "dns" then 53
  else if u._scheme = bytes "http" ∨ u._scheme = bytes "ws" then 80
  else if u._scheme = bytes "nntp" then 119
  else if u._scheme = bytes "imap" then 143
  else if u._scheme = bytes "ldap" then 389
  else if u._scheme = bytes "https" ∨ u._scheme = bytes "wss" then 443
  else if u._scheme = bytes "smtps" then 465
  else if u._scheme = bytes "rtsp" then 554
  else if u._scheme = bytes "ldaps" then 636
  else if u._scheme = bytes "dnss" then 853
  else if u._scheme = bytes "imaps" then 993
  else if u._scheme = bytes "sip" then 5060
  else if u._scheme = bytes "sips" then 5061
  else if u._scheme = bytes "xmpp" then 5222
  else 0

/-- `isWellKnownPort`. -/
def isWellKnownPort (u : URI) : Bool := u._port = u.getWellKnownPort

/-- `getPort`. -/
def getPort (u : URI) : ℕ := if u._port = 0 then u.getWellKnownPort else u._port

/-- `getAuthority`. -/
def getAuthority (u : URI) : Bytes :=
  (if u._userInfo ≠ [] then u._userInfo ++ ['@'.toUInt8] else []) ++
  (if ':'.toUInt8 ∈ u._host then '['.toUInt8 :: u._host ++ [']'.toUInt8] else u._host) ++
  (if u._port ≠ 0 ∧ !u.isWellKnownPort then ':'.toUInt8 :: formatNumber u._port else [])

/-- The query and the fragment in `toString`. -/
def queryText (u : URI) : Bytes :=
  (if u._query ≠ [] then '?'.toUInt8 :: u._query else []) ++
    if u._fragment ≠ [] then '#'.toUInt8 :: u._fragment else []

/-- `toString`. -/
def toString (u : URI) : Bytes :=
  let auth := u.getAuthority
  let front :=
    if u.isRelative then encode u._path RESERVED_PATH
    else
      u._scheme ++ [':'.toUInt8] ++
      (if auth ≠ [] ∨ u._scheme = bytes "file" then bytes "//" ++ auth else []) ++
      (if u._path ≠ [] then
        (if auth ≠ [] ∧ u._path.head? ≠ some '/'.toUInt8 then ['/'.toUInt8] else []) ++
          encode u._path RESERVED_PATH
      else if u._query ≠ [] ∨ u._fragment ≠ [] then ['/'.toUInt8] else [])
  front ++ u.queryText

/-- `equals`. -/
def equals (u v : URI) : Bool :=
  u._scheme = v._scheme && u._userInfo = v._userInfo && u._host = v._host &&
    u.getPort = v.getPort && u._path = v._path && u._query = v._query && u._fragment = v._fragment

/-! ### `parse` -/

/-- The characters that end a path. -/
def endsPath (c : UInt8) : Bool := c = '?'.toUInt8 || c = '#'.toUInt8

/-- The characters that end an authority. -/
def endsAuthority (c : UInt8) : Bool := c = '/'.toUInt8 || endsPath c

/-- `parsePath`: the URI, and the rest of the text. -/
def parsePath (u : URI) (it : Bytes) : Except URISyntaxException (URI × Bytes) := do
  let path ← decode (it.takeWhile fun c => !endsPath c)
  return ({ u with _path := u._path ++ path }, it.dropWhile fun c => !endsPath c)

/-- `parseQuery`. -/
def parseQuery (u : URI) (it : Bytes) : URI × Bytes :=
  ({ u with _query := it.takeWhile (· ≠ '#'.toUInt8) }, it.dropWhile (· ≠ '#'.toUInt8))

/-- `parseFragment`. -/
def parseFragment (u : URI) (it : Bytes) : URI := { u with _fragment := it }

/-- The part of `parsePathEtc` behind the path. -/
def parseQueryEtc (u : URI) (it : Bytes) : URI :=
  let (u, it) := if it.head? = some '?'.toUInt8 then parseQuery u it.tail else (u, it)
  if it.head? = some '#'.toUInt8 then parseFragment u it.tail else u

/-- `parsePathEtc`. -/
def parsePathEtc (u : URI) (it : Bytes) : Except URISyntaxException URI :=
  match it with
  | [] => .ok u
  | c :: _ =>
      if endsPath c then .ok (parseQueryEtc u it)
      else do
        let (u, it) ← parsePath u it
        return parseQueryEtc u it

/-- The host in `parseHostAndPort`, and what follows it. -/
def parseHost (part : Bytes) : Except URISyntaxException (Bytes × Bytes) :=
  if part.head? = some '['.toUInt8 then
    match part.tail.dropWhile (· ≠ ']'.toUInt8) with
    | [] => .error ⟨"unterminated IPv6 address", []⟩
    | _ :: rest => .ok (part.tail.takeWhile (· ≠ ']'.toUInt8), rest)
  else .ok (part.takeWhile (· ≠ ':'.toUInt8), part.dropWhile (· ≠ ':'.toUInt8))

/-- The port in `parseHostAndPort`. -/
def parsePort (it : Bytes) : Except URISyntaxException ℕ :=
  if it.head? = some ':'.toUInt8 ∧ it.tail ≠ [] then
    match tryParse it.tail with
    | some nport =>
        if nport > 0 ∧ nport < 65536 then .ok nport.toNat
        else .error ⟨"bad or invalid port number", it.tail⟩
    | none => .error ⟨"bad or invalid port number", it.tail⟩
  else .ok 0

/-- The last lines of `parseHostAndPort`. -/
def lowerHost (host : Bytes) : Bytes :=
  if host ≠ [] ∧ host.head? ≠ some '%'.toUInt8 then host.map toLower else host

/-- `parseHostAndPort`. -/
def parseHostAndPort (u : URI) (part : Bytes) : Except URISyntaxException URI :=
  if part = [] then .ok u
  else do
    let (host, it) ← parseHost part
    let port ← parsePort it
    return { u with _host := lowerHost host, _port := port }

/-- The loop of `parseAuthority`: user information, the part behind it, and the rest of the text. -/
def authorityLoop : Bytes → Bytes → Bytes → Bytes × Bytes × Bytes
  | userInfo, part, [] => (userInfo, part, [])
  | userInfo, part, c :: it =>
      if endsAuthority c then (userInfo, part, c :: it)
      else if c = '@'.toUInt8 then authorityLoop part [] it
      else authorityLoop userInfo (part ++ [c]) it

/-- `parseAuthority`: the URI and the rest of the text. -/
def parseAuthority (u : URI) (it : Bytes) : Except URISyntaxException (URI × Bytes) := do
  let (userInfo, part, it) := authorityLoop [] [] it
  let u ← parseHostAndPort u part
  return ({ u with _userInfo := userInfo }, it)

/-- The characters that end a scheme. -/
def endsScheme (c : UInt8) : Bool := c = ':'.toUInt8 || endsAuthority c

/-- The part of `parse` behind the colon of a scheme. -/
def parseHierarchy (u : URI) (it : Bytes) : Except URISyntaxException URI :=
  if bytes "//" <+: it then do
    let (u, it) ← parseAuthority u (it.drop 2)
    parsePathEtc u it
  else parsePathEtc u it

/-- `parse`. -/
def parse (uri : Bytes) : Except URISyntaxException URI :=
  match uri with
  | [] => .ok {}
  | c :: _ =>
      if c ≠ '/'.toUInt8 ∧ c ≠ '.'.toUInt8 ∧ !endsPath c then
        match uri.dropWhile fun c => !endsScheme c with
        | [] => parsePathEtc {} uri
        | c :: it =>
            if c = ':'.toUInt8 then
              if it = [] then .error ⟨"URI scheme must be followed by authority or path", uri⟩
              else
                parseHierarchy { _scheme := (uri.takeWhile fun c => !endsScheme c).map toLower } it
            else parsePathEtc {} uri
      else parsePathEtc {} uri

/-! ### `resolve` -/

/-- A segment at its end in `getPathSegments`; empty segments are left out. -/
def addSegment (segments : List Bytes) (seg : Bytes) : List Bytes :=
  if seg ≠ [] then segments ++ [seg] else segments

/-- `getPathSegments`. -/
def getPathSegments (path : Bytes) : List Bytes :=
  let (segments, seg) := Lib.scan (· == '/'.toUInt8) addSegment [] [] path
  addSegment segments seg

/-- `buildPath`. -/
def buildPath (u : URI) (segments : List Bytes) (leadingSlash trailingSlash : Bool) : URI :=
  let front : Bytes :=
    match segments with
    | [] => []
    | s :: _ =>
        if leadingSlash then ['/'.toUInt8]
        else if u._scheme = [] ∧ ':'.toUInt8 ∈ s then bytes "./"
        else []
  { u with
    _path := front ++ ['/'.toUInt8].intercalate segments ++ if trailingSlash then ['/'.toUInt8] else [] }

/-- A segment in `removeDotSegments`. -/
def normalizeSegment (removeLeading : Bool) (segments : List Bytes) (s : Bytes) : List Bytes :=
  if s = bytes ".." then
    if segments ≠ [] then
      if segments.getLast? = some (bytes "..") then segments ++ [s] else segments.dropLast
    else if !removeLeading then segments ++ [s]
    else segments
  else if s ≠ bytes "." then segments ++ [s]
  else segments

/-- `removeDotSegments`. -/
def removeDotSegments (u : URI) (removeLeading : Bool) : URI :=
  if u._path = [] then u
  else
    let leadingSlash : Bool := u._path.head? = some '/'.toUInt8
    let trailingSlash : Bool := u._path.getLast? = some '/'.toUInt8
    u.buildPath ((getPathSegments u._path).foldl (normalizeSegment removeLeading) []) leadingSlash
      trailingSlash

/-- A segment in `mergePath`: the normalized segments and `addTrailingSlash`. -/
def mergeSegment (st : List Bytes × Bool) (s : Bytes) : List Bytes × Bool :=
  if s = bytes ".." then (st.1.dropLast, true)
  else if s ≠ bytes "." then (st.1 ++ [s], false)
  else (st.1, true)

/-- `mergePath`. -/
def mergePath (u : URI) (path : Bytes) : URI :=
  let segments :=
    if u._path ≠ [] then
      let segments := getPathSegments u._path
      if u._path.getLast? ≠ some '/'.toUInt8 ∧ segments ≠ [] then segments.dropLast else segments
    else []
  let addLeadingSlash : Bool :=
    u._path.head? = some '/'.toUInt8 ∨ path.head? = some '/'.toUInt8
  let hasTrailingSlash : Bool := path.getLast? = some '/'.toUInt8
  let (normalizedSegments, addTrailingSlash) :=
    (segments ++ getPathSegments path).foldl mergeSegment ([], false)
  u.buildPath normalizedSegments addLeadingSlash (hasTrailingSlash || addTrailingSlash)

/-- `resolve`. -/
def resolve (u relativeURI : URI) : URI :=
  let u :=
    if relativeURI._scheme ≠ [] then
      removeDotSegments { relativeURI with _fragment := u._fragment } true
    else if relativeURI._host ≠ [] then
      removeDotSegments { relativeURI with _scheme := u._scheme, _fragment := u._fragment } true
    else if relativeURI._path = [] then
      if relativeURI._query ≠ [] then { u with _query := relativeURI._query } else u
    else
      let u :=
        if relativeURI._path.head? = some '/'.toUInt8 then
          removeDotSegments { u with _path := relativeURI._path } true
        else u.mergePath relativeURI._path
      { u with _query := relativeURI._query }
  { u with _fragment := relativeURI._fragment }

end URI

end Poco.Foundation
