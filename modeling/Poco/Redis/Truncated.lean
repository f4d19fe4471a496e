import Poco.Redis.Type

/-! # Replies that are cut off

A connection may break in the middle of a reply.  The stream ends there, and `read` does not look at its
state: a line ends where the stream ends, and a block keeps the spaces that it was filled with.  Only a text
that is no number and a marker that is missing are errors.  `Noticed` says after how many bytes of a reply
they occur (`readReply_take`), and a reply that is cut off elsewhere is taken for a whole one. -/

namespace Poco.Redis

open Poco.Lib Poco.Foundation NumericString

namespace RedisType

/-! ### Where a cut is noticed -/

/-- The length of the line with the number of elements. -/
def headerLength (elements : List RedisType) : ℕ := (formatSize elements.length ++ NEWLINE_CRLF).length

mutual

/-- After `k` bytes of a reply something is missing that is looked for: the marker, a digit of a number, the
marker of an element, or what the last element lacks. -/
def Noticed : RedisType → ℕ → Prop
  | integer value, k => k ≤ (if value.val < 0 then 1 else 0) + 1
  | simpleString _, k => k = 0
  | bulkString none, k => k ≤ 2
  | bulkString (some _), k => k ≤ 1
  | array none, k => k ≤ 2
  | array (some elements), k =>
      k ≤ 1 ∨ (elements ≠ [] ∧ k < headerLength elements + 1) ∨
        (headerLength elements + 1 ≤ k ∧ NoticedElements elements (k - (headerLength elements + 1)))
  | error _, k => k = 0

/-- The same for the elements of an array, of which only the last one may be cut off unnoticed. -/
def NoticedElements : List RedisType → ℕ → Prop
  | [], _ => False
  | element :: elements, k =>
      (elements = [] ∧ element.Noticed k) ∨
        (elements ≠ [] ∧ (k < element.toString.length ∨ NoticedElements elements (k - element.toString.length)))

end

/-- A call raises an exception exactly if `P`, and otherwise it has read the stream to its end. -/
def Ends {α : Type} (x : EStateM.Result Exn IStream α) (P : Prop) : Prop :=
  match x with
  | .ok _ t => ¬P ∧ t.rest = []
  | .error _ _ => P

section

variable {α β : Type} {x : Reader α} {f : α → Reader β} {s t : IStream} {P Q : Prop}

theorem Ends.of_ok {a : α} {r : EStateM.Result Exn IStream α} (h : r = .ok a t) (ht : t.rest = []) (hP : ¬P) :
    Ends r P := by
  subst h
  exact ⟨hP, ht⟩

theorem Ends.of_error {e : Exn} {r : EStateM.Result Exn IStream α} (h : r = .error e t) (hP : P) : Ends r P := by
  subst h
  exact hP

theorem Ends.congr {r : EStateM.Result Exn IStream α} (h : Ends r P) (hPQ : P ↔ Q) : Ends r Q := by
  rwa [propext hPQ] at h

/-- What follows a call does not raise an exception on a stream that is read to its end. -/
theorem Ends.bind_ok (h : Ends (x s) P) (hf : ∀ a u, u.rest = [] → ∃ b w, f a u = .ok b w ∧ w.rest = []) :
    Ends ((x >>= f) s) P := by
  cases hx : x s with
  | ok a u =>
      rw [hx] at h
      obtain ⟨b, w, hfa, hw⟩ := hf a u h.2
      exact Ends.of_ok (by rw [bind_of_ok hx, hfa]) hw h.1
  | error e u =>
      rw [hx] at h
      exact Ends.of_error (bind_of_error hx) h

/-- What follows a call raises an exception on a stream that is read to its end. -/
theorem Ends.bind_error (h : Ends (x s) P) (hf : ∀ a u, u.rest = [] → ∃ e w, f a u = .error e w) :
    Ends ((x >>= f) s) True := by
  cases hx : x s with
  | ok a u =>
      rw [hx] at h
      obtain ⟨e, w, hfa⟩ := hf a u h.2
      exact Ends.of_error (by rw [bind_of_ok hx, hfa]) trivial
  | error e u => exact Ends.of_error (bind_of_error hx) trivial

theorem Ends.iff_error {r : EStateM.Result Exn IStream α} (h : Ends r P) : (∃ e t, r = .error e t) ↔ P := by
  cases r with
  | ok a t =>
      refine ⟨?_, fun hP => absurd hP h.1⟩
      rintro ⟨e, u, ⟨⟩⟩
  | error e t => exact ⟨fun _ => h, fun _ => ⟨e, t, rfl⟩⟩

end

/-! ### Lines and numbers that are cut off -/

/-- The beginning of a line, also with a part of its end. -/
theorem getline_take {line : List UInt8} (h : IsLine line) {k : ℕ} (hk : k < line.length + 2) :
    getline ⟨(line ++ NEWLINE_CRLF).take k, true⟩ = .ok (line.take k) ⟨[], false⟩ := by
  have hlast : ∀ j, (line.take j).getLast? ≠ some '\r'.toUInt8 :=
    fun j hj => h.1 (List.mem_of_mem_take (List.mem_of_getLast? hj))
  rcases Nat.lt_or_ge line.length k with hlt | hle
  · obtain rfl : k = line.length + 1 := by omega
    have htake : (line ++ NEWLINE_CRLF).take (line.length + 1) = line ++ ['\r'.toUInt8] := by
      rw [List.take_append, List.take_of_length_le (Nat.le_succ _), Nat.add_sub_cancel_left]
      rfl
    have hno : '\n'.toUInt8 ∉ line ++ ['\r'.toUInt8] := by
      rw [List.mem_append, List.mem_singleton]
      rintro (hmem | hcr)
      · exact h.2 hmem
      · exact absurd hcr (by decide)
    have hread : (IStream.getline : Reader (List UInt8)) ⟨line ++ ['\r'.toUInt8], true⟩ =
        .ok (line ++ ['\r'.toUInt8]) ⟨[], false⟩ := by
      unfold IStream.getline
      rw [if_pos rfl, if_neg hno]
    rw [htake, getline, bind_of_ok hread, List.getLast?_concat, if_pos rfl, List.dropLast_concat,
      List.take_of_length_le (Nat.le_succ _)]
    rfl
  · have hno : '\n'.toUInt8 ∉ line.take k := fun hmem => h.2 (List.mem_of_mem_take hmem)
    have hread : (IStream.getline : Reader (List UInt8)) ⟨line.take k, true⟩ = .ok (line.take k) ⟨[], false⟩ := by
      unfold IStream.getline
      rw [if_pos rfl, if_neg hno]
    rw [List.take_append_of_le_length hle, getline, bind_of_ok hread, if_neg (hlast k)]
    rfl

theorem getline_ended {s : IStream} (h : s.rest = []) : ∃ t : IStream, getline s = .ok [] t ∧ t.rest = [] := by
  obtain ⟨rest, good⟩ := s
  subst h
  cases good with
  | true => exact ⟨⟨[], false⟩, rfl, rfl⟩
  | false => exact ⟨⟨[], false⟩, rfl, rfl⟩

theorem createElement_ended {s : IStream} (h : s.rest = []) : ∃ e t, createElement s = .error e t := by
  obtain ⟨rest, good⟩ := s
  subst h
  cases good with
  | true => exact ⟨_, _, rfl⟩
  | false => exact ⟨_, _, rfl⟩

theorem readElement_ended (depth : ℕ) {s : IStream} (h : s.rest = []) :
    ∃ e t, readElement depth s = .error e t := by
  obtain ⟨e, t, hcreate⟩ := createElement_ended h
  cases depth with
  | zero => exact ⟨e, t, bind_of_error hcreate⟩
  | succ depth => exact ⟨e, t, bind_of_error hcreate⟩

theorem readElements_ended (depth length : ℕ) {s : IStream} (h : s.rest = []) :
    ∃ e t, readElements (readElement depth) (length + 1) s = .error e t := by
  obtain ⟨e, t, helement⟩ := readElement_ended depth h
  exact ⟨e, t, bind_of_error helement⟩

/-- A number that is cut off before its first digit is no number. -/
theorem readInt64_take_short {line : List UInt8} (h : IsLine line) {k : ℕ} (hk : k < line.length + 2)
    (hparse : NumberParser.parse64 (line.take k) = none) :
    ∃ e t, readInt64 ⟨(line ++ NEWLINE_CRLF).take k, true⟩ = .error e t := by
  refine ⟨.notAValidInteger (line.take k), ⟨[], false⟩, ?_⟩
  rw [readInt64, bind_of_ok (getline_take h hk), parse64, hparse]
  rfl

theorem readInt64_take {line : List UInt8} (h : IsLine line) {k : ℕ} (hk : k < line.length + 2)
    {v : int64Type.Value} (hparse : NumberParser.parse64 (line.take k) = some v.val) :
    readInt64 ⟨(line ++ NEWLINE_CRLF).take k, true⟩ = .ok v ⟨[], false⟩ := by
  have hvalue : parse64 (line.take k) = some v := by
    rw [parse64, hparse]
    exact dif_pos v.property
  rw [readInt64, bind_of_ok (getline_take h hk), hvalue]
  rfl

theorem isLine_formatAs {T : IntegerType} {v : ℤ} (hv : T.min ≤ v ∧ v ≤ T.max) :
    IsLine (NumberFormatter.formatAs T v) := by
  refine ⟨fun hmem => ?_, newline_notMem_formatAs hv⟩
  rcases formatAs_chars hv _ hmem with hsign | hdigit
  · exact absurd hsign (by decide)
  · exact absurd hdigit (by decide)

theorem parse64_take_sign {T : IntegerType} {v : ℤ} (hv : T.min ≤ v ∧ v ≤ T.max) {j : ℕ}
    (hj : j ≤ if v < 0 then 1 else 0) : NumberParser.parse64 ((NumberFormatter.formatAs T v).take j) = none := by
  have hnil : NumberParser.parse64 [] = none := by decide
  have hsign : NumberParser.parse64 ['-'.toUInt8] = none := by decide
  rw [NumberFormatter.formatAs, appended_eq hv (Or.inl rfl)]
  split_ifs at hj ⊢ with hneg
  · rcases Nat.le_one_iff_eq_zero_or_eq_one.mp hj with rfl | rfl
    · exact hnil
    · exact hsign
  · obtain rfl := Nat.le_zero.mp hj
    exact hnil

theorem readInt64_take_format {T : IntegerType} {v : ℤ} (hv : T.min ≤ v ∧ v ≤ T.max)
    (h64 : int64Type.min ≤ v ∧ v ≤ int64Type.max) {j : ℕ}
    (hj : j < (NumberFormatter.formatAs T v ++ NEWLINE_CRLF).length) :
    (j ≤ (if v < 0 then 1 else 0) ∧
      ∃ e t, readInt64 ⟨(NumberFormatter.formatAs T v ++ NEWLINE_CRLF).take j, true⟩ = .error e t) ∨
    ((if v < 0 then 1 else 0) < j ∧ ∃ w : int64Type.Value, (0 ≤ v → 0 ≤ w.val ∧ w.val ≤ v) ∧ (0 < v → 0 < w.val) ∧
      readInt64 ⟨(NumberFormatter.formatAs T v ++ NEWLINE_CRLF).take j, true⟩ = .ok w ⟨[], false⟩) := by
  have hk : j < (NumberFormatter.formatAs T v).length + 2 := by
    rwa [List.length_append] at hj
  rcases Nat.lt_or_ge (if v < 0 then 1 else 0) j with hlt | hle
  · obtain ⟨w, hparse, hw, hnonneg, hpos⟩ := parse64_take_formatAs hv h64 hlt
    exact Or.inr ⟨hlt, ⟨w, hw⟩, hnonneg, hpos, readInt64_take (isLine_formatAs hv) hk hparse⟩
  · exact Or.inl ⟨hle, readInt64_take_short (isLine_formatAs hv) hk (parse64_take_sign hv hle)⟩

theorem readInt64_take_formatSize {n : ℕ} (h : n ≤ maxSize) {j : ℕ} (hj : j < (formatSize n ++ NEWLINE_CRLF).length) :
    (j = 0 ∧ ∃ e t, readInt64 ⟨(formatSize n ++ NEWLINE_CRLF).take j, true⟩ = .error e t) ∨
    (0 < j ∧ ∃ w : int64Type.Value, 0 ≤ w.val ∧ (n = 0 → w.val = 0) ∧ (0 < n → 0 < w.val) ∧
      readInt64 ⟨(formatSize n ++ NEWLINE_CRLF).take j, true⟩ = .ok w ⟨[], false⟩) := by
  have hmax : maxSize = 2 ^ 63 - 1 := rfl
  have h64 : int64Type.min ≤ (n : ℤ) ∧ (n : ℤ) ≤ int64Type.max := by
    have hlow : int64Type.min = -2 ^ 63 := rfl
    have hhigh : int64Type.max = 2 ^ 63 - 1 := rfl
    omega
  have hsize : uint64Type.min ≤ (n : ℤ) ∧ (n : ℤ) ≤ uint64Type.max := by
    have hlow : uint64Type.min = 0 := rfl
    have hhigh : uint64Type.max = 2 ^ 64 - 1 := rfl
    omega
  have hneg : ¬(n : ℤ) < 0 := by omega
  have hcut := readInt64_take_format hsize h64 hj
  rw [if_neg hneg] at hcut
  rcases hcut with ⟨hle, herror⟩ | ⟨hlt, w, hnonneg, hpos, hread⟩
  · exact Or.inl ⟨Nat.le_zero.mp hle, herror⟩
  · exact Or.inr ⟨hlt, w, by omega, fun hn => by omega, fun hn => hpos (by omega), hread⟩

/-! ### Values that are cut off -/

theorem noticed_zero (v : RedisType) : v.Noticed 0 := by
  cases v with
  | integer => exact Nat.zero_le _
  | simpleString => exact rfl
  | bulkString s =>
      cases s with
      | none => exact Nat.zero_le _
      | some s => exact Nat.zero_le _
  | array elements =>
      cases elements with
      | none => exact Nat.zero_le _
      | some elements => exact Or.inl (Nat.zero_le _)
  | error => exact rfl

theorem getline_take_ends {α : Type} {line : List UInt8} (h : IsLine line) {j : ℕ}
    (hj : j < (line ++ NEWLINE_CRLF).length) (f : List UInt8 → α) :
    Ends ((do return f (← getline) : Reader α) ⟨(line ++ NEWLINE_CRLF).take j, true⟩) (j + 1 = 0) := by
  rw [List.length_append] at hj
  exact Ends.of_ok (bind_of_ok (getline_take h hj)) rfl (Nat.succ_ne_zero j)

theorem readInt64_take_minus_one {α : Type} {j : ℕ} (hj : j < ("-1".toList.map Char.toUInt8 ++ NEWLINE_CRLF).length)
    {f : int64Type.Value → Reader α}
    (hf : ∀ w : int64Type.Value, w.val < 0 → ∀ u, u.rest = [] → ∃ b t, f w u = .ok b t ∧ t.rest = []) :
    Ends ((readInt64 >>= f) ⟨("-1".toList.map Char.toUInt8 ++ NEWLINE_CRLF).take j, true⟩) (j + 1 ≤ 2) := by
  have hline : IsLine ("-1".toList.map Char.toUInt8) := by
    unfold IsLine
    decide
  have hk : j < ("-1".toList.map Char.toUInt8).length + 2 := by
    rwa [List.length_append] at hj
  have hlen : ("-1".toList.map Char.toUInt8).length = 2 := by decide
  rcases Nat.lt_or_ge j 2 with hlt | hle
  · have hparse : NumberParser.parse64 (("-1".toList.map Char.toUInt8).take j) = none := by
      interval_cases j
      · decide
      · decide
    obtain ⟨e, t, hread⟩ := readInt64_take_short hline hk hparse
    exact Ends.of_error (bind_of_error hread) (by omega)
  · have hparse : NumberParser.parse64 (("-1".toList.map Char.toUInt8).take j) = some (-1) := by
      rw [List.take_of_length_le (hlen.trans_le hle)]
      decide
    have hread := @readInt64_take _ hline j hk ⟨-1, by decide⟩ hparse
    obtain ⟨b, t, hf, ht⟩ := hf ⟨-1, by decide⟩ (by decide) ⟨[], false⟩ rfl
    exact Ends.of_ok (by rw [bind_of_ok hread, hf]) ht (by omega)

theorem readBlock_ended (old : List UInt8) {u : IStream} (h : u.rest = []) :
    ∃ b t, (IStream.readOver old >>= fun s => getline >>= fun _ => pure (bulkString (some s)) : Reader RedisType) u =
      .ok b t ∧ t.rest = [] := by
  have hread : ∃ s t, (IStream.readOver old : Reader (List UInt8)) u = .ok s t ∧ t.rest = [] := by
    refine ⟨(u.read old).1, (u.read old).2, rfl, ?_⟩
    unfold IStream.read
    split_ifs with hgood hle
    · show u.rest.drop old.length = []
      rw [h, List.drop_nil]
    · rfl
    · exact h
  obtain ⟨s, t, hread, ht⟩ := hread
  obtain ⟨w, hline, hw⟩ := getline_ended ht
  exact ⟨_, w, by rw [bind_of_ok hread, bind_of_ok hline]; rfl, hw⟩

theorem readBlock_take {s old : List UInt8} (h : s.length = old.length) {i : ℕ} (hi : i < s.length + 2) :
    ∃ b t, (IStream.readOver old >>= fun s => getline >>= fun _ => pure (bulkString (some s)) : Reader RedisType)
      ⟨(s ++ NEWLINE_CRLF).take i, true⟩ = .ok b t ∧ t.rest = [] := by
  rcases Nat.lt_or_ge i s.length with hlt | hle
  · have hshort : ¬old.length ≤ (s.take i).length := by
      rw [List.length_take, ← h]
      omega
    have hread : (IStream.readOver old : Reader (List UInt8)) ⟨s.take i, true⟩ =
        .ok (s.take i ++ old.drop (s.take i).length) ⟨[], false⟩ := by
      unfold IStream.readOver IStream.read
      rw [if_pos rfl, if_neg hshort]
    obtain ⟨w, hline, hw⟩ := @getline_ended ⟨[], false⟩ rfl
    rw [List.take_append_of_le_length hlt.le]
    exact ⟨_, w, by rw [bind_of_ok hread, bind_of_ok hline]; rfl, hw⟩
  · have htake : (s ++ NEWLINE_CRLF).take i = s ++ ([] ++ NEWLINE_CRLF).take (i - s.length) := by
      rw [List.take_append, List.take_of_length_le hle, List.nil_append]
    have hline := @getline_take [] ⟨List.not_mem_nil, List.not_mem_nil⟩ (i - s.length) (by rw [List.length_nil]; omega)
    rw [htake]
    exact ⟨_, _, by rw [bind_of_ok (IStream.readOver_append h _), bind_of_ok hline]; rfl, rfl⟩

theorem take_header {header rest : List UInt8} {j : ℕ} (h : j < header.length) :
    (header ++ rest).take j = header.take j := List.take_append_of_le_length h.le

theorem take_behind_header {header rest : List UInt8} {j : ℕ} (h : header.length ≤ j) :
    (header ++ rest).take j = header ++ rest.take (j - header.length) := by
  rw [List.take_append, List.take_of_length_le h]

theorem readBulkString_take {s : List UInt8} (h : s.length ≤ maxSize) (r : Reader RedisType) {j : ℕ}
    (hj : j < (bulkString (some s)).body.length) :
    Ends ((bulkString none).readWith r ⟨(bulkString (some s)).body.take j, true⟩) (j + 1 ≤ 1) := by
  rw [body, List.append_assoc] at hj ⊢
  rw [readWith]
  rcases Nat.lt_or_ge j (formatSize s.length ++ NEWLINE_CRLF).length with hlt | hle
  · rw [take_header hlt]
    rcases readInt64_take_formatSize h hlt with ⟨rfl, e, t, hread⟩ | ⟨hpos, w, hnonneg, -, -, hread⟩
    · exact Ends.of_error (bind_of_error hread) le_rfl
    · obtain ⟨b, t, hblock, ht⟩ :=
        readBlock_ended (List.replicate w.val.toNat ' '.toUInt8) (u := ⟨[], false⟩) rfl
      exact Ends.of_ok (by rw [bind_of_ok hread, if_pos hnonneg]; exact hblock) ht (by omega)
  · rw [take_behind_header hle]
    obtain ⟨v, hv, hread⟩ := readInt64_formatSize h
      ((s ++ NEWLINE_CRLF).take (j - (formatSize s.length ++ NEWLINE_CRLF).length))
    have hnonneg : v.val ≥ 0 := by omega
    have hblock : s.length = (List.replicate v.val.toNat ' '.toUInt8).length := by
      rw [List.length_replicate]
      omega
    have hi : j - (formatSize s.length ++ NEWLINE_CRLF).length < s.length + 2 := by
      rw [List.length_append, @List.length_append _ s] at hj
      have hcrlf : NEWLINE_CRLF.length = 2 := rfl
      omega
    obtain ⟨b, t, hrest, ht⟩ := readBlock_take hblock hi
    have hheader : 2 ≤ (formatSize s.length ++ NEWLINE_CRLF).length := by
      rw [List.length_append]
      exact Nat.le_add_left _ _
    exact Ends.of_ok (by rw [bind_of_ok hread, if_pos hnonneg]; exact hrest) ht (by omega)

mutual

theorem readWith_take : ∀ (v : RedisType), v.Legal → ∀ (depth j : ℕ), j < v.body.length → j ≤ depth →
    Ends (v.readWith (readElement depth) ⟨v.body.take j, true⟩) (v.Noticed (j + 1))
  | integer value, _, depth, j, hj, _ => by
      rw [readWith, Noticed, body]
      rw [body] at hj
      rcases readInt64_take_format value.property value.property hj with ⟨hle, e, t, hread⟩ | ⟨hlt, w, -, -, hread⟩
      · exact Ends.of_error (bind_of_error hread) (Nat.succ_le_succ hle)
      · exact Ends.of_ok (bind_of_ok hread) rfl (by omega)
  | simpleString value, hlegal, depth, j, hj, _ => by
      rw [Legal] at hlegal
      rw [readWith, Noticed]
      exact getline_take_ends hlegal hj simpleString
  | bulkString none, _, depth, j, hj, _ => by
      rw [readWith, Noticed]
      refine readInt64_take_minus_one hj fun w hw u hu => ⟨bulkString none, u, ?_, hu⟩
      rw [if_neg (by omega)]
      rfl
  | bulkString (some s), hlegal, depth, j, hj, _ => by
      rw [Legal] at hlegal
      rw [Noticed]
      exact readBulkString_take hlegal (readElement depth) hj
  | array none, _, depth, j, hj, _ => by
      rw [readWith, Noticed]
      refine readInt64_take_minus_one hj fun w hw u hu => ⟨array none, u, ?_, hu⟩
      rw [if_neg (by omega)]
      rfl
  | array (some elements), hlegal, depth, j, hj, hdepth => by
      rw [Legal] at hlegal
      have hheader : 2 ≤ headerLength elements := by
        rw [headerLength, List.length_append]
        exact Nat.le_add_left _ _
      rw [readWith, Noticed]
      rw [body] at hj ⊢
      rcases Nat.lt_or_ge j (headerLength elements) with hlt | hle
      · -- the number of elements is cut off: it is smaller, but not zero
        rw [take_header hlt]
        rcases readInt64_take_formatSize hlegal.1 hlt with ⟨rfl, e, t, hread⟩ | ⟨hpos, w, hnonneg, hzero, hsome, hread⟩
        · exact Ends.of_error (bind_of_error hread) (Or.inl le_rfl)
        · rcases elements.eq_nil_or_concat with rfl | hne
          · refine Ends.of_ok (a := array (some [])) (t := ⟨[], false⟩) ?_ rfl ?_
            · rw [bind_of_ok hread, if_pos hnonneg, hzero rfl]
              rfl
            · rintro (hle | ⟨hne, -⟩ | ⟨hge, -⟩)
              · omega
              · exact hne rfl
              · omega
          · have hnil : elements ≠ [] := by
              obtain ⟨_, _, rfl⟩ := hne
              simp
            have hcount := hsome (List.length_pos_of_ne_nil hnil)
            obtain ⟨n, hn⟩ : ∃ n, w.val.toNat = n + 1 := ⟨w.val.toNat - 1, by omega⟩
            obtain ⟨e, t, helements⟩ := readElements_ended depth n (s := ⟨[], false⟩) rfl
            refine Ends.of_error (e := e) (t := t) ?_ (Or.inr (Or.inl ⟨hnil, Nat.succ_lt_succ hlt⟩))
            rw [bind_of_ok hread, if_pos hnonneg, hn, bind_of_error helements]
      · rw [take_behind_header hle]
        obtain ⟨v, hv, hread⟩ := readInt64_formatSize hlegal.1
          ((elementsToString elements).take (j - (formatSize elements.length ++ NEWLINE_CRLF).length))
        have hcut : j - headerLength elements < (elementsToString elements).length := by
          rw [List.length_append] at hj
          exact (Nat.sub_lt_iff_lt_add hle).mpr (by rwa [Nat.add_comm] at hj)
        have helements := readElements_take elements hlegal.2 depth (j - headerLength elements) hcut (by omega)
        have hnonneg : v.val ≥ 0 := by omega
        have hcount : v.val.toNat = elements.length := by omega
        rw [bind_of_ok hread, if_pos hnonneg, hcount]
        refine (helements.bind_ok fun _ u hu => ⟨_, u, rfl, hu⟩).congr ?_
        rw [Nat.add_sub_add_right]
        constructor
        · exact fun h => Or.inr (Or.inr ⟨Nat.succ_le_succ hle, h⟩)
        · rintro (h | ⟨-, h⟩ | ⟨-, h⟩)
          · omega
          · omega
          · exact h
  | error message, hlegal, depth, j, hj, _ => by
      rw [Legal] at hlegal
      rw [readWith, Noticed]
      exact getline_take_ends hlegal hj error

theorem readElements_take : ∀ (elements : List RedisType), AllLegal elements → ∀ (depth k : ℕ),
    k < (elementsToString elements).length → k ≤ depth →
      Ends (readElements (readElement depth) elements.length ⟨(elementsToString elements).take k, true⟩)
        (NoticedElements elements k)
  | [], _, _, k, hk, _ => absurd hk (Nat.not_lt_zero k)
  | element :: elements, hlegal, depth, 0, _, _ => by
      obtain ⟨e, t, hread⟩ := readElements_ended depth elements.length (s := ⟨[], true⟩) rfl
      refine Ends.of_error (e := e) (t := t) hread ?_
      rw [NoticedElements]
      rcases eq_or_ne elements [] with hnil | hne
      · exact Or.inl ⟨hnil, noticed_zero element⟩
      · exact Or.inr ⟨hne, Or.inl (Nat.succ_pos _)⟩
  | element :: elements, hlegal, 0, j + 1, _, hdepth => absurd hdepth (Nat.not_succ_le_zero j)
  | element :: elements, hlegal, depth + 1, j + 1, hk, hdepth => by
      rw [AllLegal] at hlegal
      rw [elementsToString, List.cons_append, List.length_cons, Nat.add_lt_add_iff_right] at hk
      rw [elementsToString, List.cons_append, List.take_succ_cons, List.length_cons, readElements]
      rw [NoticedElements]
      have hlength : element.toString.length = element.body.length + 1 := rfl
      rcases Nat.lt_or_ge j element.body.length with hlt | hle
      · -- the cut is in this element
        rw [take_header hlt]
        obtain ⟨w, hcreate, hread⟩ := createElement_marker element (element.body.take j)
        have helement : Ends (readElement (depth + 1) ⟨element.marker :: element.body.take j, true⟩)
            (element.Noticed (j + 1)) := by
          rw [readElement, bind_of_ok hcreate, hread]
          exact readWith_take element hlegal.1 depth j hlt (Nat.le_of_succ_le_succ hdepth)
        cases elements with
        | nil =>
            refine (helement.bind_ok fun _ u hu => ⟨_, u, rfl, hu⟩).congr ?_
            constructor
            · exact fun h => Or.inl ⟨rfl, h⟩
            · rintro (⟨-, h⟩ | ⟨hne, -⟩)
              · exact h
              · exact absurd rfl hne
        | cons next elements =>
            refine (helement.bind_error fun a u hu => ?_).congr ?_
            · obtain ⟨e, t, hended⟩ := readElements_ended (depth + 1) elements.length hu
              exact ⟨e, t, bind_of_error hended⟩
            · exact ⟨fun _ => Or.inr ⟨List.cons_ne_nil _ _, Or.inl (by omega)⟩, fun _ => trivial⟩
      · -- this element is complete
        rw [take_behind_header hle]
        have hcut : j - element.body.length < (elementsToString elements).length := by
          rw [List.length_append] at hk
          omega
        have hne : elements ≠ [] := by
          rintro rfl
          exact absurd hcut (Nat.not_lt_zero _)
        have helements := readElements_take elements hlegal.2 (depth + 1) (j - element.body.length) hcut (by omega)
        obtain ⟨w, hcreate, hread⟩ :=
          createElement_marker element (element.body ++ (elementsToString elements).take (j - element.body.length))
        have helement : readElement (depth + 1)
            ⟨element.marker :: (element.body ++ (elementsToString elements).take (j - element.body.length)), true⟩ =
            .ok element ⟨(elementsToString elements).take (j - element.body.length), true⟩ := by
          rw [readElement, bind_of_ok hcreate, hread, readWith_body element hlegal.1 depth (by omega)]
        rw [bind_of_ok helement]
        refine (helements.bind_ok fun _ u hu => ⟨_, u, rfl, hu⟩).congr ?_
        rw [hlength, Nat.add_sub_add_right]
        constructor
        · exact fun h => Or.inr ⟨hne, Or.inr h⟩
        · rintro (⟨hnil, -⟩ | ⟨-, h | h⟩)
          · exact absurd hnil hne
          · omega
          · exact h

end

end RedisType

namespace Client

open RedisType

theorem readReply_take {v : RedisType} (h : v.Legal) {k : ℕ} (hk : k < v.toString.length) :
    Ends (readReply ⟨v.toString.take k, true⟩) (v.Noticed k) := by
  cases k with
  | zero => exact Ends.of_error rfl (noticed_zero v)
  | succ j =>
      have hj : j < v.body.length := Nat.lt_of_succ_lt_succ hk
      obtain ⟨w, hcreate, hread⟩ := createRedisType_marker v
      have hbody := readWith_take v h (v.body.take j).length j hj (by rw [List.length_take]; omega)
      rw [RedisType.toString, List.take_succ_cons, readReply, bind_of_ok (IStream.get_cons _ _)]
      dsimp only
      rw [hcreate]
      show Ends (w.readWith (readElement (v.body.take j).length) ⟨v.body.take j, true⟩) _
      rwa [hread]

/-- **Main result.** A reply that is cut off raises an exception exactly where the cut is noticed. -/
theorem truncated_raises_iff {v : RedisType} (h : v.Legal) {k : ℕ} (hk : k < v.toString.length) :
    (∃ e t, readReply ⟨v.toString.take k, true⟩ = .error e t) ↔ v.Noticed k := (readReply_take h hk).iff_error

/-- The text `OK` without its end of line. -/
theorem truncated_raises_iff_ok :
    (∃ e t, readReply ⟨[0x2B, 0x4F, 0x4B], true⟩ = .error e t) ↔
      (RedisType.simpleString [0x4F, 0x4B]).Noticed 3 :=
  truncated_raises_iff (v := .simpleString [0x4F, 0x4B]) (by unfold Legal IsLine; decide) (k := 3) (by decide)

/-- Five bytes are announced, and two arrive: the others are spaces. -/
theorem not_truncated_raises_spaces :
    ¬∀ v : RedisType, v.Legal → ∀ k < v.toString.length,
      ∃ e t, readReply ⟨v.toString.take k, true⟩ = .error e t := by
  intro h
  have hlegal : (bulkString (some ("hello".toList.map Char.toUInt8))).Legal := by
    rw [Legal]
    decide
  have htext : (bulkString (some ("hello".toList.map Char.toUInt8))).toString =
      "$5\r\nhello\r\n".toList.map Char.toUInt8 := by decide +kernel
  obtain ⟨e, t, hread⟩ := h _ hlegal 6 (by rw [htext]; decide)
  have hvalue : readReply ⟨"$5\r\nhe".toList.map Char.toUInt8, true⟩ =
      .ok (bulkString (some ("he   ".toList.map Char.toUInt8))) ⟨[], false⟩ := by rfl
  have htake : ("$5\r\nhello\r\n".toList.map Char.toUInt8).take 6 = "$5\r\nhe".toList.map Char.toUInt8 := by decide
  rw [htext, htake, hvalue] at hread
  cases hread

end Client

end Poco.Redis
