import Mathlib.Data.List.TakeWhile
import Poco.Lib.JSON

/-! # The text forms of IPv6 addresses

RFC 4291, section 2.2: eight pieces of one to four hexadecimal digits with colons between them; one `::`
stands for one or more pieces that are zero; the last two pieces may be written as four decimal numbers
with dots between them.  `inet_pton` decodes these forms and nothing else. -/

namespace Poco.Lib.IPv6

/-- The bytes of an address, the first one first. -/
def in6_addr : Type := { bytes : List UInt8 // bytes.length = 16 }
deriving DecidableEq

/-- One to `k` digits of the base. -/
def digits? (base k : ℕ) (s : List UInt8) : Option ℕ :=
  if 1 ≤ s.length ∧ s.length ≤ k then
    (s.mapM fun ch => (hexDigit? ch).filter (· < base)).map fun ds => ds.foldl (fun n d => n * base + d) 0
  else none

/-- A piece: the two bytes of a hexadecimal number. -/
def hexPiece? (s : List UInt8) : Option (List UInt8) :=
  (digits? 16 4 s).map fun n => [UInt8.ofNat (n / 256), UInt8.ofNat n]

/-- The two last pieces: four decimal numbers. -/
def dottedQuad? (s : List UInt8) : Option (List UInt8) :=
  ((s.splitOn '.'.toUInt8).mapM fun d => ((digits? 10 3 d).filter (· < 256)).map UInt8.ofNat).filter
    (·.length = 4)

/-- Pieces; if `quad`, the last one may stand for two. -/
def pieces? (quad : Bool) : List (List UInt8) → Option (List UInt8)
  | [] => some []
  | [s] => if quad then (hexPiece? s).or (dottedQuad? s) else hexPiece? s
  | s :: ss => do
      let bytes ← hexPiece? s
      let rest ← pieces? quad ss
      return bytes ++ rest

/-- What stands on one side of `::`, possibly nothing. -/
def side? (quad : Bool) (s : List UInt8) : Option (List UInt8) :=
  if s = [] then some [] else pieces? quad (s.splitOn ':'.toUInt8)

/-- The text in front of the first `::` and the text behind it. -/
def splitDouble : List UInt8 → Option (List UInt8 × List UInt8)
  | [] => none
  | c :: s =>
      if c = ':'.toUInt8 ∧ s.head? = some ':'.toUInt8 then some ([], s.tail)
      else (splitDouble s).map fun p => (c :: p.1, p.2)

/-- An address of 16 bytes. -/
def ofBytes (bytes : List UInt8) : Option in6_addr :=
  if h : bytes.length = 16 then some ⟨bytes, h⟩ else none

/-- `inet_pton(AF_INET6, text)`. -/
def inet_pton (text : List UInt8) : Option in6_addr :=
  match splitDouble text with
  | none => (pieces? true (text.splitOn ':'.toUInt8)).bind ofBytes
  | some (front, back) => do
      let front ← side? false front
      let back ← side? true back
      if front.length + back.length ≤ 14 then
        ofBytes (front ++ List.replicate (16 - (front.length + back.length)) 0 ++ back)
      else none

/-! ### Texts that are put together of pieces -/

/-- Pieces with colons between them. -/
def joinPieces : List (List UInt8) → List UInt8
  | [] => []
  | p :: ps => p ++ ps.flatMap (':'.toUInt8 :: ·)

theorem joinPieces_eq_intercalate (ps : List (List UInt8)) : joinPieces ps = [':'.toUInt8].intercalate ps := by
  induction ps with
  | nil => rfl
  | cons p ps ih =>
      cases ps with
      | nil => simp [joinPieces]
      | cons q ps =>
          rw [List.intercalate_cons_cons, ← ih]
          simp [joinPieces]

/-- A piece is not empty and has no colon. -/
def IsPiece (p : List UInt8) : Prop := p ≠ [] ∧ ':'.toUInt8 ∉ p

theorem splitOn_joinPieces {ps : List (List UInt8)} (hps : ∀ p ∈ ps, IsPiece p) (hne : ps ≠ []) :
    (joinPieces ps).splitOn ':'.toUInt8 = ps := by
  rw [joinPieces_eq_intercalate]
  exact List.splitOn_intercalate _ (fun p hp => (hps p hp).2) hne

theorem splitDouble_append {p : List UInt8} (hp : ':'.toUInt8 ∉ p) (t : List UInt8) :
    splitDouble (p ++ t) = (splitDouble t).map fun q => (p ++ q.1, q.2) := by
  induction p with
  | nil =>
      rw [List.nil_append]
      exact Option.map_id'.symm
  | cons c p ih =>
      rw [List.mem_cons, not_or] at hp
      have hc : ¬(c = ':'.toUInt8 ∧ (p ++ t).head? = some ':'.toUInt8) := fun h => hp.1 h.1.symm
      rw [List.cons_append, splitDouble, if_neg hc, ih hp.2, Option.map_map]
      rfl

theorem splitDouble_colon {p : List UInt8} (hp : IsPiece p) (t : List UInt8) :
    splitDouble (':'.toUInt8 :: (p ++ t)) = (splitDouble t).map fun q => (':'.toUInt8 :: p ++ q.1, q.2) := by
  obtain ⟨c, p, rfl⟩ := List.exists_cons_of_ne_nil hp.1
  have hc : ¬(':'.toUInt8 = ':'.toUInt8 ∧ (c :: p ++ t).head? = some ':'.toUInt8) := by
    rintro ⟨-, h⟩
    exact hp.2 (by rw [Option.some.inj h]; exact List.mem_cons_self)
  rw [splitDouble, if_neg hc, splitDouble_append hp.2, Option.map_map]
  rfl

theorem splitDouble_flatMap {ps : List (List UInt8)} (hps : ∀ p ∈ ps, IsPiece p) (t : List UInt8) :
    splitDouble (ps.flatMap (':'.toUInt8 :: ·) ++ t) =
      (splitDouble t).map fun q => (ps.flatMap (':'.toUInt8 :: ·) ++ q.1, q.2) := by
  induction ps with
  | nil => exact Option.map_id'.symm
  | cons p ps ih =>
      rw [List.forall_mem_cons] at hps
      rw [List.flatMap_cons, List.append_assoc, List.cons_append, splitDouble_colon hps.1, ih hps.2, Option.map_map]
      simp [Function.comp_def]

theorem splitDouble_joinPieces {ps : List (List UInt8)} (hps : ∀ p ∈ ps, IsPiece p) (t : List UInt8) :
    splitDouble (joinPieces ps ++ t) = (splitDouble t).map fun q => (joinPieces ps ++ q.1, q.2) := by
  cases ps with
  | nil => exact Option.map_id'.symm
  | cons p ps =>
      rw [List.forall_mem_cons] at hps
      rw [joinPieces, List.append_assoc, splitDouble_append hps.1.2, splitDouble_flatMap hps.2, Option.map_map]
      simp [Function.comp_def]

theorem side?_joinPieces (quad : Bool) {ps : List (List UInt8)} (hps : ∀ p ∈ ps, IsPiece p) :
    side? quad (joinPieces ps) = pieces? quad ps := by
  cases ps with
  | nil => rfl
  | cons p ps =>
      have hne : joinPieces (p :: ps) ≠ [] := by
        rw [joinPieces, ne_eq, List.append_eq_nil_iff]
        exact fun h => (hps p List.mem_cons_self).1 h.1
      rw [side?, if_neg hne, splitOn_joinPieces hps (List.cons_ne_nil p ps)]

theorem pieces?_map {α : Type} (quad : Bool) {piece : α → List UInt8} {value : α → List UInt8} {l : List α}
    (h : ∀ a ∈ l, hexPiece? (piece a) = some (value a)) : pieces? quad (l.map piece) = some (l.flatMap value) := by
  induction l with
  | nil => rfl
  | cons a l ih =>
      rw [List.forall_mem_cons] at h
      cases l with
      | nil =>
          simp only [List.map_cons, List.map_nil, pieces?, h.1]
          cases quad <;> simp
      | cons b l =>
          rw [List.map_cons, List.map_cons, pieces?, h.1, ← List.map_cons, ih h.2]
          · rfl
          · simp

theorem inet_pton_double (ps qs : List (List UInt8)) (hps : ∀ p ∈ ps, IsPiece p)
    (hqs : ∀ p ∈ qs, IsPiece p) {front back : List UInt8} (hfront : pieces? false ps = some front) (hback : pieces? true qs = some back)
    (hlen : front.length + back.length ≤ 14) :
    inet_pton (joinPieces ps ++ (':'.toUInt8 :: ':'.toUInt8 :: joinPieces qs)) =
      ofBytes (front ++ List.replicate (16 - (front.length + back.length)) 0 ++ back) := by
  have hsplit : splitDouble (joinPieces ps ++ (':'.toUInt8 :: ':'.toUInt8 :: joinPieces qs)) = some (joinPieces ps, joinPieces qs) := by
    rw [splitDouble_joinPieces hps, splitDouble, if_pos ⟨rfl, rfl⟩]
    simp
  simp only [inet_pton, hsplit, side?_joinPieces _ hps, side?_joinPieces _ hqs, hfront, hback]
  simp [hlen]

theorem inet_pton_joinPieces {ps : List (List UInt8)} (hps : ∀ p ∈ ps, IsPiece p) (hne : ps ≠ []) :
    inet_pton (joinPieces ps) = (pieces? true ps).bind ofBytes := by
  have hsplit : splitDouble (joinPieces ps) = none := by
    have h := splitDouble_joinPieces hps []
    rwa [List.append_nil] at h
  simp only [inet_pton, hsplit, splitOn_joinPieces hps hne]

end Poco.Lib.IPv6
