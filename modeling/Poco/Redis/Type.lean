import Poco.Foundation.InputStream
import Poco.Foundation.NumberFormatter

/-! # RESP values

A reply of a Redis server is an integer, a simple string, an error, a bulk string or an array of replies.
`toString` writes a value with the marker of its type; `createRedisType` makes an empty value from the
marker, and `read` fills it.  A sequence of replies is read back in order (`readReplies_toString`). -/

namespace Poco.Redis

open Poco.Lib Poco.Foundation NumericString

/-- The exceptions of the parser. -/
inductive Exn
  /-- `SyntaxException`, of `NumberParser::parse64`. -/
  | notAValidInteger (s : List UInt8)
  /-- `RedisException`. -/
  | redisException (message : String)
deriving DecidableEq, Repr

/-- A computation on a `RedisInputStream`. -/
abbrev Reader := EStateM Exn IStream

/-- The values with `RedisTypeTraits`; a null value of a bulk string or an array is `none`. -/
inductive RedisType
  | integer (value : int64Type.Value)
  | simpleString (value : List UInt8)
  | bulkString (value : Option (List UInt8))
  | array (elements : Option (List RedisType))
  | error (message : List UInt8)

/-- `LineEnding::NEWLINE_CRLF`. -/
def NEWLINE_CRLF : List UInt8 := ['\r'.toUInt8, '\n'.toUInt8]

namespace RedisType

/-! ### Writing -/

/-- `RedisTypeTraits<T>::marker`. -/
def marker : RedisType → UInt8
  | integer _ => ':'.toUInt8
  | simpleString _ => '+'.toUInt8
  | bulkString _ => '$'.toUInt8
  | array _ => '*'.toUInt8
  | error _ => '-'.toUInt8

/-- `NumberFormatter::format` of a `std::size_t`. -/
def formatSize (n : ℕ) : List UInt8 := NumberFormatter.formatAs uint64Type n

mutual

/-- `RedisTypeTraits<T>::toString`, behind the marker. -/
def body : RedisType → List UInt8
  | integer value => NumberFormatter.formatAs int64Type value.val ++ NEWLINE_CRLF
  | simpleString value => value ++ NEWLINE_CRLF
  | bulkString none => "-1".toList.map Char.toUInt8 ++ NEWLINE_CRLF
  | bulkString (some s) => formatSize s.length ++ NEWLINE_CRLF ++ s ++ NEWLINE_CRLF
  | array none => "-1".toList.map Char.toUInt8 ++ NEWLINE_CRLF
  | array (some elements) => formatSize elements.length ++ NEWLINE_CRLF ++ elementsToString elements
  | error message => message ++ NEWLINE_CRLF

/-- The loop over the elements of an array. -/
def elementsToString : List RedisType → List UInt8
  | [] => []
  | element :: elements => (element.marker :: element.body) ++ elementsToString elements

end

/-- `RedisType::toString`. -/
def toString (v : RedisType) : List UInt8 := v.marker :: v.body

/-! ### Reading -/

/-- `RedisInputStream::getline`. -/
def getline : Reader (List UInt8) := do
  let line ← IStream.getline
  return if line.getLast? = some '\r'.toUInt8 then line.dropLast else line

/-- `NumberParser::parse64`, with the range of its result. -/
def parse64 (s : List UInt8) : Option int64Type.Value :=
  match NumberParser.parse64 s with
  | some value =>
      if h : int64Type.min ≤ value ∧ value ≤ int64Type.max then some ⟨value, h⟩ else none
  | none => none

/-- `NumberParser::parse64(input.getline())`. -/
def readInt64 : Reader int64Type.Value := do
  let line ← getline
  match parse64 line with
  | some value => return value
  | none => throw (.notAValidInteger line)

/-- `RedisType::createRedisType`: a default value of the type that the marker stands for. -/
def createRedisType (marker : UInt8) : Option RedisType :=
  if marker = ':'.toUInt8 then some (integer ⟨0, by decide⟩)
  else if marker = '+'.toUInt8 then some (simpleString [])
  else if marker = '$'.toUInt8 then some (bulkString none)
  else if marker = '*'.toUInt8 then some (array none)
  else if marker = '-'.toUInt8 then some (error [])
  else none

/-- The loop over the elements of an array that is read. -/
def readElements (readElement : Reader RedisType) : ℕ → Reader (List RedisType)
  | 0 => return []
  | length + 1 => do
      let element ← readElement
      let elements ← readElements readElement length
      return element :: elements

/-- `RedisTypeTraits<T>::read`: the value that replaces one of the same type. -/
def readWith (readElement : Reader RedisType) : RedisType → Reader RedisType
  | integer _ => return integer (← readInt64)
  | simpleString _ => return simpleString (← getline)
  | bulkString _ => do
      let length ← readInt64
      if length.val ≥ 0 then
        let s ← IStream.readOver (List.replicate length.val.toNat ' '.toUInt8)
        let _ ← getline
        return bulkString (some s)
      else return bulkString none
  | array _ => do
      let length ← readInt64
      if length.val ≥ 0 then
        let elements ← readElements readElement length.val.toNat
        return array (some elements)
      else return array none
  | error _ => return error (← getline)

/-- What an element of an array begins with: the marker, and the value that it creates.  The end of file
is the character `-1`, which is no marker. -/
def createElement : Reader RedisType := do
  let c ← IStream.get
  match createRedisType (c.getD 0xFF) with
  | none => throw (.redisException "Wrong answer received from Redis server")
  | some element => return element

/-- An element of an array, with at most `depth` levels of arrays.  Each level begins with a character of
its own, so that there are no more levels than characters (`readElement_of_le`). -/
def readElement : ℕ → Reader RedisType
  | 0 => do
      let _ ← createElement
      throw (.redisException "Wrong answer received from Redis server")
  | depth + 1 => do
      let element ← createElement
      element.readWith (readElement depth)

/-- `RedisType::read`. -/
def read (v : RedisType) : Reader RedisType := fun s => v.readWith (readElement s.rest.length) s

end RedisType

/-- `Client::readReply`. -/
def Client.readReply : Reader RedisType := do
  match ← IStream.get with
  | none => throw (.redisException "Lost connection to Redis server")
  | some c =>
      match RedisType.createRedisType c with
      | none => throw (.redisException "Invalid Redis type returned")
      | some result => result.read

/-- The loop of `Client::sendCommands` that reads the replies. -/
def Client.readReplies : ℕ → Reader (List RedisType)
  | 0 => return []
  | n + 1 => do
      let reply ← readReply
      let replies ← readReplies n
      return reply :: replies

namespace RedisType

/-! ### The depth of arrays -/

/-- Reading leaves no more characters than there were. -/
def Shrinks {α : Type} (x : Reader α) : Prop := ∀ s, (finalState (x s)).rest.length ≤ s.rest.length

section

variable {α β : Type} {x : Reader α} {f : α → Reader β} {r r' : Reader RedisType}

theorem Shrinks.bind (hx : Shrinks x) (hf : ∀ a, Shrinks (f a)) : Shrinks (x >>= f) := by
  intro s
  have h := hx s
  cases hxs : x s with
  | ok a t =>
      rw [hxs] at h
      rw [bind_of_ok hxs]
      exact (hf a t).trans h
  | error e t =>
      rw [hxs] at h
      rwa [bind_of_error hxs]

theorem shrinks_pure (a : α) : Shrinks (pure a) := fun _ => le_rfl

theorem shrinks_throw (e : Exn) : Shrinks (throw e : Reader α) := fun _ => le_rfl

theorem shrinks_get : Shrinks IStream.get := by
  rintro ⟨rest, good⟩
  cases rest with
  | nil => exact le_rfl
  | cons c rest =>
      cases good with
      | true => exact Nat.le_succ _
      | false => exact le_rfl

theorem shrinks_getline : Shrinks getline := by
  refine Shrinks.bind (fun s => ?_) fun line => shrinks_pure _
  unfold IStream.getline
  split_ifs
  · exact ((List.tail_suffix _).trans (List.dropWhile_suffix _)).length_le
  · exact Nat.zero_le _
  · exact le_rfl

theorem shrinks_readOver (old : List UInt8) : Shrinks (IStream.readOver old) := by
  intro s
  simp only [IStream.readOver, IStream.read, finalState]
  split_ifs
  · simp
  · exact Nat.zero_le _
  · exact le_rfl

theorem shrinks_readInt64 : Shrinks readInt64 := by
  refine shrinks_getline.bind fun line => ?_
  cases parse64 line with
  | none => exact shrinks_throw _
  | some v => exact shrinks_pure v

theorem Shrinks.readElements (hr : Shrinks r) (length : ℕ) : Shrinks (readElements r length) := by
  induction length with
  | zero => exact shrinks_pure _
  | succ length ih => exact hr.bind fun _ => ih.bind fun _ => shrinks_pure _

theorem Shrinks.readWith (hr : Shrinks r) (v : RedisType) : Shrinks (v.readWith r) := by
  cases v with
  | integer => exact shrinks_readInt64.bind fun _ => shrinks_pure _
  | simpleString => exact shrinks_getline.bind fun _ => shrinks_pure _
  | bulkString =>
      refine shrinks_readInt64.bind fun length => ?_
      split_ifs
      · exact (shrinks_readOver _).bind fun _ => shrinks_getline.bind fun _ => shrinks_pure _
      · exact shrinks_pure _
  | array =>
      refine shrinks_readInt64.bind fun length => ?_
      split_ifs
      · exact (hr.readElements _).bind fun _ => shrinks_pure _
      · exact shrinks_pure _
  | error => exact shrinks_getline.bind fun _ => shrinks_pure _

theorem shrinks_createElement : Shrinks createElement := by
  refine shrinks_get.bind fun c => ?_
  cases createRedisType (c.getD 0xFF) with
  | none => exact shrinks_throw _
  | some v => exact shrinks_pure v

theorem shrinks_readElement (depth : ℕ) : Shrinks (readElement depth) := by
  induction depth with
  | zero => exact shrinks_createElement.bind fun _ => shrinks_throw _
  | succ depth ih => exact shrinks_createElement.bind fun v => ih.readWith v

/-- Two computations that agree on short streams, behind one that does not make a stream longer. -/
theorem bind_congr_of_shrinks {g : α → Reader β} {n : ℕ} (hx : Shrinks x)
    (hfg : ∀ a s, s.rest.length ≤ n → f a s = g a s) {s : IStream} (hs : s.rest.length ≤ n) :
    (x >>= f) s = (x >>= g) s := by
  have h := hx s
  simp only [Bind.bind, EStateM.bind]
  cases hxs : x s with
  | ok a t =>
      rw [hxs] at h
      exact hfg a t (h.trans hs)
  | error e t => rfl

theorem readElements_congr {n : ℕ} (hr : Shrinks r) (h : ∀ s, s.rest.length ≤ n → r s = r' s) (length : ℕ)
    {s : IStream} (hs : s.rest.length ≤ n) : readElements r length s = readElements r' length s := by
  induction length generalizing s with
  | zero => rfl
  | succ length ih =>
      have hhead : readElements r (length + 1) s =
          (r >>= fun element => readElements r' length >>= fun elements => pure (element :: elements)) s :=
        bind_congr_of_shrinks hr (fun element t ht => by simp only [Bind.bind, EStateM.bind, ih ht]) hs
      rw [hhead]
      simp only [readElements, Bind.bind, EStateM.bind, h s hs]

theorem readWith_congr {n : ℕ} (hr : Shrinks r) (h : ∀ s, s.rest.length ≤ n → r s = r' s) (v : RedisType)
    {s : IStream} (hs : s.rest.length ≤ n) : v.readWith r s = v.readWith r' s := by
  cases v with
  | array =>
      refine bind_congr_of_shrinks shrinks_readInt64 (fun length t ht => ?_) hs
      split_ifs
      · simp only [Bind.bind, EStateM.bind, readElements_congr hr h _ ht]
      · rfl
  | integer => rfl
  | simpleString => rfl
  | bulkString => rfl
  | error => rfl

end

theorem length_of_createElement {s t : IStream} {v : RedisType} (h : createElement s = .ok v t) :
    t.rest.length < s.rest.length := by
  obtain ⟨rest, good⟩ := s
  have hno : createElement ⟨rest, good⟩ ≠ .ok v t ∨ (∃ c cs, rest = c :: cs ∧ good = true) := by
    cases rest with
    | nil =>
        left
        rintro ⟨⟩
    | cons c cs =>
        cases good with
        | true => exact Or.inr ⟨c, cs, rfl, rfl⟩
        | false =>
            left
            rintro ⟨⟩
  obtain ⟨c, cs, rfl, rfl⟩ := hno.resolve_left (fun hne => hne h)
  rw [createElement, bind_of_ok (IStream.get_cons c cs), Option.getD_some] at h
  cases hcreate : createRedisType c with
  | none =>
      rw [hcreate] at h
      cases h
  | some w =>
      rw [hcreate] at h
      cases h
      exact Nat.lt_succ_self _

theorem readElement_succ {depth : ℕ} {s : IStream} (h : s.rest.length ≤ depth) :
    readElement depth s = readElement (depth + 1) s := by
  induction depth generalizing s with
  | zero =>
      simp only [readElement, Bind.bind, EStateM.bind]
      cases hcreate : createElement s with
      | error e t => rfl
      | ok v t =>
          have := length_of_createElement hcreate
          omega
  | succ depth ih =>
      rw [readElement, readElement]
      simp only [Bind.bind, EStateM.bind]
      cases hcreate : createElement s with
      | error e t => rfl
      | ok v t =>
          have hlt := length_of_createElement hcreate
          exact readWith_congr (shrinks_readElement depth) (fun u hu => ih hu) v (show t.rest.length ≤ depth by omega)

/-- A greater depth than the number of characters makes no difference. -/
theorem readElement_of_le {depth : ℕ} {s : IStream} (h : s.rest.length ≤ depth) :
    readElement depth s = readElement s.rest.length s := by
  induction depth, h using Nat.le_induction with
  | base => rfl
  | succ depth hle ih => rw [← readElement_succ hle, ih]

/-! ### What is written is read back -/

/-- A text without an end of line. -/
def IsLine (s : List UInt8) : Prop := '\r'.toUInt8 ∉ s ∧ '\n'.toUInt8 ∉ s

/-- A bound on `max_size()` of a `std::string` or a `std::vector`. -/
def maxSize : ℕ := 2 ^ 63 - 1

mutual

/-- Simple strings and errors are lines, and a size is a size of an object in memory. -/
def Legal : RedisType → Prop
  | integer _ => True
  | simpleString value => IsLine value
  | bulkString none => True
  | bulkString (some s) => s.length ≤ maxSize
  | array none => True
  | array (some elements) => elements.length ≤ maxSize ∧ AllLegal elements
  | error message => IsLine message

/-- Every element is legal. -/
def AllLegal : List RedisType → Prop
  | [] => True
  | element :: elements => element.Legal ∧ AllLegal elements

end

theorem getline_line {line : List UInt8} (h : '\n'.toUInt8 ∉ line) (rest : List UInt8) :
    getline ⟨line ++ NEWLINE_CRLF ++ rest, true⟩ = .ok line ⟨rest, true⟩ := by
  have hline : '\n'.toUInt8 ∉ line ++ ['\r'.toUInt8] := by
    rw [List.mem_append, List.mem_singleton]
    rintro (hmem | hcr)
    · exact h hmem
    · exact absurd hcr (by decide)
  have hsplit : line ++ NEWLINE_CRLF ++ rest = (line ++ ['\r'.toUInt8]) ++ '\n'.toUInt8 :: rest := by
    simp [NEWLINE_CRLF]
  rw [hsplit, getline, bind_of_ok (IStream.getline_append hline rest), List.getLast?_concat, if_pos rfl,
    List.dropLast_concat]
  rfl

theorem readInt64_line {line : List UInt8} (h : '\n'.toUInt8 ∉ line) {v : int64Type.Value}
    (hv : NumberParser.parse64 line = some v.val) (rest : List UInt8) :
    readInt64 ⟨line ++ NEWLINE_CRLF ++ rest, true⟩ = .ok v ⟨rest, true⟩ := by
  have hparse : parse64 line = some v := by
    rw [parse64, hv]
    exact dif_pos v.property
  rw [readInt64, bind_of_ok (getline_line h rest), hparse]
  rfl

theorem newline_notMem_formatAs {T : IntegerType} {v : ℤ} (hv : T.min ≤ v ∧ v ≤ T.max) :
    '\n'.toUInt8 ∉ NumberFormatter.formatAs T v := by
  intro hmem
  rcases formatAs_chars hv _ hmem with hsign | hdigit
  · exact absurd hsign (by decide)
  · exact absurd hdigit (by decide)

theorem readInt64_format (v : int64Type.Value) (rest : List UInt8) :
    readInt64 ⟨NumberFormatter.formatAs int64Type v.val ++ NEWLINE_CRLF ++ rest, true⟩ = .ok v ⟨rest, true⟩ :=
  readInt64_line (newline_notMem_formatAs v.property) (parse64_formatAs v.property v.property) rest

theorem readInt64_minus_one (rest : List UInt8) :
    readInt64 ⟨"-1".toList.map Char.toUInt8 ++ NEWLINE_CRLF ++ rest, true⟩ =
      .ok ⟨-1, by decide⟩ ⟨rest, true⟩ :=
  readInt64_line (by decide) (by decide) rest

theorem readInt64_formatSize {n : ℕ} (h : n ≤ maxSize) (rest : List UInt8) :
    ∃ v : int64Type.Value, v.val = n ∧
      readInt64 ⟨formatSize n ++ NEWLINE_CRLF ++ rest, true⟩ = .ok v ⟨rest, true⟩ := by
  have hmax : maxSize = 2 ^ 63 - 1 := rfl
  have h64 : int64Type.min ≤ (n : ℤ) ∧ (n : ℤ) ≤ int64Type.max := by
    have hlow : int64Type.min = -2 ^ 63 := rfl
    have hhigh : int64Type.max = 2 ^ 63 - 1 := rfl
    omega
  have hsize : uint64Type.min ≤ (n : ℤ) ∧ (n : ℤ) ≤ uint64Type.max := by
    have hlow : uint64Type.min = 0 := rfl
    have hhigh : uint64Type.max = 2 ^ 64 - 1 := rfl
    omega
  exact ⟨⟨n, h64⟩, rfl, readInt64_line (newline_notMem_formatAs hsize) (parse64_formatAs hsize h64) rest⟩

/-- The marker of a value creates a value of the same type, which is read in the same way. -/
theorem createRedisType_marker (v : RedisType) :
    ∃ w, createRedisType v.marker = some w ∧ ∀ r, w.readWith r = v.readWith r := by
  cases v with
  | integer => exact ⟨_, rfl, fun _ => rfl⟩
  | simpleString => exact ⟨_, rfl, fun _ => rfl⟩
  | bulkString => exact ⟨_, rfl, fun _ => rfl⟩
  | array => exact ⟨_, rfl, fun _ => rfl⟩
  | error => exact ⟨_, rfl, fun _ => rfl⟩

theorem createElement_marker (v : RedisType) (rest : List UInt8) :
    ∃ w, createElement ⟨v.marker :: rest, true⟩ = .ok w ⟨rest, true⟩ ∧ ∀ r, w.readWith r = v.readWith r := by
  obtain ⟨w, hcreate, hread⟩ := createRedisType_marker v
  refine ⟨w, ?_, hread⟩
  rw [createElement, bind_of_ok (IStream.get_cons _ _), Option.getD_some, hcreate]
  rfl

/-- Values without elements are read by any reader of elements. -/
theorem readBulkString_some {s : List UInt8} (h : s.length ≤ maxSize) (r : Reader RedisType)
    (rest : List UInt8) :
    (bulkString none).readWith r ⟨(bulkString (some s)).body ++ rest, true⟩ =
      .ok (bulkString (some s)) ⟨rest, true⟩ := by
  obtain ⟨v, hv, hlength⟩ := readInt64_formatSize h (s ++ NEWLINE_CRLF ++ rest)
  have hnonneg : v.val ≥ 0 := by omega
  have hblock : s.length = (List.replicate v.val.toNat ' '.toUInt8).length := by
    rw [List.length_replicate]
    omega
  have hend : getline ⟨NEWLINE_CRLF ++ rest, true⟩ = .ok [] ⟨rest, true⟩ :=
    getline_line List.not_mem_nil rest
  rw [body, readWith]
  simp only [List.append_assoc] at hlength ⊢
  rw [bind_of_ok hlength, if_pos hnonneg, bind_of_ok (IStream.readOver_append hblock _), bind_of_ok hend]
  rfl

mutual

/-- The text of a value is read back, behind the marker. -/
theorem readWith_body : ∀ (v : RedisType), v.Legal → ∀ (depth : ℕ), v.body.length ≤ depth →
    ∀ rest : List UInt8, v.readWith (readElement depth) ⟨v.body ++ rest, true⟩ = .ok v ⟨rest, true⟩
  | integer value, _, depth, _, rest => by
      rw [readWith, body, bind_of_ok (readInt64_format value rest)]
      rfl
  | simpleString value, hlegal, depth, _, rest => by
      rw [Legal] at hlegal
      rw [readWith, body, bind_of_ok (getline_line hlegal.2 rest)]
      rfl
  | bulkString none, _, depth, _, rest => by
      rw [readWith, body, bind_of_ok (readInt64_minus_one rest), if_neg (by decide)]
      rfl
  | bulkString (some s), hlegal, depth, _, rest => by
      rw [Legal] at hlegal
      exact readBulkString_some hlegal (readElement depth) rest
  | array none, _, depth, _, rest => by
      rw [readWith, body, bind_of_ok (readInt64_minus_one rest), if_neg (by decide)]
      rfl
  | array (some elements), hlegal, depth, hdepth, rest => by
      rw [Legal] at hlegal
      rw [body, List.length_append] at hdepth
      obtain ⟨v, hv, hlength⟩ := readInt64_formatSize hlegal.1 (elementsToString elements ++ rest)
      have helements := readElements_elementsToString elements hlegal.2 depth (by omega) rest
      have hnonneg : v.val ≥ 0 := by omega
      have hcount : v.val.toNat = elements.length := by omega
      rw [readWith, body, List.append_assoc, bind_of_ok hlength, if_pos hnonneg, hcount, bind_of_ok helements]
      rfl
  | error message, hlegal, depth, _, rest => by
      rw [Legal] at hlegal
      rw [readWith, body, bind_of_ok (getline_line hlegal.2 rest)]
      rfl

theorem readElements_elementsToString : ∀ (elements : List RedisType), AllLegal elements → ∀ (depth : ℕ),
    (elementsToString elements).length ≤ depth → ∀ rest : List UInt8,
      readElements (readElement depth) elements.length ⟨elementsToString elements ++ rest, true⟩ =
        .ok elements ⟨rest, true⟩
  | [], _, _, _, _ => rfl
  | element :: elements, hlegal, 0, hdepth, _ => by simp [elementsToString] at hdepth
  | element :: elements, hlegal, depth + 1, hdepth, rest => by
      rw [AllLegal] at hlegal
      rw [elementsToString, List.length_append, List.length_cons] at hdepth
      have hbody := readWith_body element hlegal.1 depth (by omega) (elementsToString elements ++ rest)
      have helements := readElements_elementsToString elements hlegal.2 (depth + 1) (by omega) rest
      obtain ⟨w, hcreate, hread⟩ := createElement_marker element (element.body ++ (elementsToString elements ++ rest))
      have helement : readElement (depth + 1)
          ⟨element.marker :: (element.body ++ (elementsToString elements ++ rest)), true⟩ =
          .ok element ⟨elementsToString elements ++ rest, true⟩ := by
        rw [readElement, bind_of_ok hcreate, hread, hbody]
      rw [elementsToString, List.cons_append, List.cons_append, List.append_assoc, List.length_cons, readElements,
        bind_of_ok helement, bind_of_ok helements]
      rfl

end

end RedisType

namespace Client

open RedisType

/-- A reply is read back, and what follows is left in the stream. -/
theorem readReply_toString {v : RedisType} (h : v.Legal) (rest : List UInt8) :
    readReply ⟨v.toString ++ rest, true⟩ = .ok v ⟨rest, true⟩ := by
  obtain ⟨w, hcreate, hread⟩ := createRedisType_marker v
  have hbody := readWith_body v h (v.body ++ rest).length (by simp) rest
  rw [readReply, RedisType.toString, List.cons_append, bind_of_ok (IStream.get_cons _ _)]
  dsimp only
  rw [hcreate]
  show w.readWith (readElement (v.body ++ rest).length) ⟨v.body ++ rest, true⟩ = _
  rw [hread, hbody]

/-- **Main result.** Replies that follow one another are read back in order, and nothing else is read. -/
theorem readReplies_toString {replies : List RedisType} (h : ∀ v ∈ replies, v.Legal) (rest : List UInt8) :
    readReplies replies.length ⟨replies.flatMap RedisType.toString ++ rest, true⟩ = .ok replies ⟨rest, true⟩ := by
  induction replies with
  | nil => rfl
  | cons v replies ih =>
      rw [List.forall_mem_cons] at h
      rw [List.flatMap_cons, List.append_assoc, List.length_cons, readReplies,
        bind_of_ok (readReply_toString h.1 _), bind_of_ok (ih h.2)]
      rfl

/-- Two replies: an array with a null value, an empty array and a text that looks like a reply, and an error. -/
theorem readReplies_toString_pipelined :
    let replies := [RedisType.array (some [.bulkString none, .array (some []), .integer ⟨-2 ^ 63, by decide⟩,
      .bulkString (some ("$-1\r\n".toList.map Char.toUInt8))]), .error ("ERR".toList.map Char.toUInt8)]
    readReplies 2 ⟨replies.flatMap RedisType.toString ++ [0x2B], true⟩ = .ok replies ⟨[0x2B], true⟩ := by
  intro replies
  have hlegal : ∀ v ∈ replies, v.Legal := by
    intro v hv
    simp only [replies, List.mem_cons, List.not_mem_nil, or_false] at hv
    rcases hv with rfl | rfl
    · simp only [Legal, AllLegal, List.length_cons, List.length_nil, maxSize]
      decide
    · simp only [Legal, IsLine]
      decide
  exact readReplies_toString hlegal [0x2B]

end Client

end Poco.Redis
