import Poco.Zip.ZipFileInfo

/-! # Walking through an extra field

`ZipLocalFileHeader::parse` and `ZipFileInfo::parse` go through the fields of an extra field with a pointer, which
a Zip64 field moves on only by the values that are taken from it.  Both loops are one loop here, with the bytes
that are read and the places where a field is taken to begin.  `staysInBounds_iff` says for which extra fields
these are the bytes of the extra field and the places that the declared sizes give. -/

namespace Poco.Zip

open Poco.Foundation

namespace ExtraField

/-! ### The loops -/

/-- A number for which there is a field of 32 bits in the header. -/
structure Slot (σ : Type) where
  fromHeader : σ → BitVec 32
  set : σ → ℕ → σ

/-- What a loop has come to, the places of the bytes it has read and of the fields it has found. -/
structure Walk (σ : Type) where
  state : σ
  reads : List ℕ
  fields : List ℕ

variable {σ : Type}

/-- The values of a Zip64 field: each is taken if the header has the mark in its place and the size suffices. -/
def takeValues (xtra : List UInt8) : List (Slot σ) → ℕ → ℕ → σ → Walk σ × ℕ
  | [], _, ptr, st => (⟨st, [], []⟩, ptr)
  | slot :: slots, size, ptr, st =>
    if size ≥ 8 ∧ (slot.fromHeader st).toNat = ZIP64_MAGIC then
      let (w, last) := takeValues xtra slots (size - 8) (ptr + 8) (slot.set st (ZipUtil.get64BitValue xtra ptr).toNat)
      ({ w with reads := List.range' ptr 8 ++ w.reads }, last)
    else takeValues xtra slots size ptr st

/-- The loop over the extra field; `enter` is what else is done for a Zip64 field.  The fuel is for the rounds. -/
def loop (slots : List (Slot σ)) (enter : σ → σ) (xtra : List UInt8) : ℕ → ℕ → σ → Option (Walk σ)
  | 0, _, _ => none
  | fuel + 1, ptr, st =>
    if ptr + 4 ≤ xtra.length then
      let id := ZipUtil.get16BitValue xtra ptr
      let size := (ZipUtil.get16BitValue xtra (ptr + 2)).toNat
      if id = ZIP64_EXTRA_ID then do
        let (taken, last) := takeValues xtra slots size (ptr + 4) (enter st)
        let w ← loop slots enter xtra fuel last taken.state
        return ⟨w.state, List.range' ptr 4 ++ taken.reads ++ w.reads, ptr :: w.fields⟩
      else do
        let w ← loop slots enter xtra fuel (ptr + 4 + size) st
        return ⟨w.state, List.range' ptr 4 ++ w.reads, ptr :: w.fields⟩
    else some ⟨st, [], []⟩

/-! ### Fields by their sizes -/

/-- The places of the fields from `ptr` on, by the declared sizes. -/
def declared (xtra : List UInt8) (ptr : ℕ) : List ℕ :=
  if ptr + 4 ≤ xtra.length then
    ptr :: declared xtra (ptr + 4 + (ZipUtil.get16BitValue xtra (ptr + 2)).toNat)
  else []
termination_by xtra.length - ptr

/-- The loop ends, reads bytes of the extra field only, and finds the fields where the declared sizes put them. -/
def StaysInBounds (slots : List (Slot σ)) (enter : σ → σ) (xtra : List UInt8) (ptr : ℕ) (st : σ) : Prop :=
  ∃ fuel w, loop slots enter xtra fuel ptr st = some w ∧ (∀ i ∈ w.reads, i < xtra.length) ∧
    w.fields = declared xtra ptr

/-- The marks of the header behind a Zip64 field, and the end of the values in it: there is a value for each mark
as long as the size suffices, and the mark stays if the value is not less than it. -/
def takeMarks (xtra : List UInt8) : List Bool → ℕ → ℕ → List Bool × ℕ
  | [], _, ptr => ([], ptr)
  | mark :: marks, size, ptr =>
    if size ≥ 8 ∧ mark then
      let (marks, last) := takeMarks xtra marks (size - 8) (ptr + 8)
      (decide ((ZipUtil.get64BitValue xtra ptr).toNat ≥ ZIP64_MAGIC) :: marks, last)
    else
      let (marks, last) := takeMarks xtra marks size ptr
      (mark :: marks, last)

/-- The values of each Zip64 field are in the extra field, and they fill the declared size, or else no other field
fits behind them. -/
def Fits (xtra : List UInt8) (marks : List Bool) (ptr : ℕ) : Prop :=
  if ptr + 4 ≤ xtra.length then
    let next := ptr + 4 + (ZipUtil.get16BitValue xtra (ptr + 2)).toNat
    if ZipUtil.get16BitValue xtra ptr = ZIP64_EXTRA_ID then
      let (marks, last) := takeMarks xtra marks (ZipUtil.get16BitValue xtra (ptr + 2)).toNat (ptr + 4)
      last ≤ xtra.length ∧ (last = next ∨ xtra.length < last + 4) ∧ Fits xtra marks next
    else Fits xtra marks next
  else True
termination_by xtra.length - ptr

/-! ### Values and marks -/

variable {xtra : List UInt8} {slots : List (Slot σ)} {enter : σ → σ}

/-- Each slot keeps what is set there, with the mark for a number of more than 32 bits, and leaves the others. -/
structure Lawful (slots : List (Slot σ)) : Prop where
  same : ∀ slot ∈ slots, ∀ st val, slot.fromHeader (slot.set st val) = sizeField val
  other : slots.Pairwise fun slot slot' => (∀ st val, slot'.fromHeader (slot.set st val) = slot'.fromHeader st) ∧
    ∀ st val, slot.fromHeader (slot'.set st val) = slot.fromHeader st

/-- The marks that a header has. -/
def marksOf (slots : List (Slot σ)) (st : σ) : List Bool :=
  slots.map fun slot => decide ((slot.fromHeader st).toNat = ZIP64_MAGIC)

theorem sizeField_eq_mark_iff (val : ℕ) : (sizeField val).toNat = ZIP64_MAGIC ↔ val ≥ ZIP64_MAGIC := by
  constructor
  · intro hmark
    by_contra hlt
    rw [ZipFileInfo.sizeField_of_lt hlt] at hmark
    exact hlt hmark.ge
  · intro hge
    rw [sizeField, if_pos hge]
    rfl

theorem takeValues_other {slot : Slot σ} (hslot : ∀ slot' ∈ slots, ∀ st val,
    slot.fromHeader (slot'.set st val) = slot.fromHeader st) (size ptr : ℕ) (st : σ) :
    slot.fromHeader (takeValues xtra slots size ptr st).1.state = slot.fromHeader st := by
  induction slots generalizing size ptr st with
  | nil => rfl
  | cons slot' slots ih =>
      have htail := ih fun slot'' hmem => hslot slot'' (List.mem_cons_of_mem _ hmem)
      rw [takeValues]
      split_ifs
      · exact (htail _ _ _).trans (hslot slot' List.mem_cons_self _ _)
      · exact htail _ _ _

/-- The marks say how many values are taken, and change with them. -/
theorem takeValues_marks (hslots : Lawful slots) (size ptr : ℕ) (st : σ) :
    (marksOf slots (takeValues xtra slots size ptr st).1.state, (takeValues xtra slots size ptr st).2) =
      takeMarks xtra (marksOf slots st) size ptr := by
  induction slots generalizing size ptr st with
  | nil => rfl
  | cons slot slots ih =>
      obtain ⟨hother, htail⟩ := List.pairwise_cons.mp hslots.other
      have hrec := ih ⟨fun slot' hmem => hslots.same slot' (List.mem_cons_of_mem _ hmem), htail⟩
      have hmarks : ∀ val, marksOf slots (slot.set st val) = marksOf slots st := fun val =>
        List.map_congr_left fun slot' hmem => by rw [(hother slot' hmem).1]
      have hcons : ∀ st, marksOf (slot :: slots) st =
          decide ((slot.fromHeader st).toNat = ZIP64_MAGIC) :: marksOf slots st := fun _ => rfl
      rw [takeValues, hcons, hcons, takeMarks]
      by_cases htake : size ≥ 8 ∧ (slot.fromHeader st).toNat = ZIP64_MAGIC
      · rw [if_pos htake, if_pos (by simpa using htake)]
        have hslot := @takeValues_other _ xtra _ _ (fun slot' hmem => (hother slot' hmem).2) (size - 8) (ptr + 8)
          (slot.set st (ZipUtil.get64BitValue xtra ptr).toNat)
        have hrest := hrec (size - 8) (ptr + 8) (slot.set st (ZipUtil.get64BitValue xtra ptr).toNat)
        rw [hmarks] at hrest
        rw [← hrest]
        dsimp only
        rw [hslot, hslots.same slot List.mem_cons_self, decide_eq_decide.mpr (sizeField_eq_mark_iff _)]
      · rw [if_neg htake, if_neg (by simpa using htake), ← hrec size ptr st]
        dsimp only
        rw [takeValues_other fun slot' hmem => (hother slot' hmem).2]

/-- The values are taken one behind the other, and no more than the size. -/
theorem takeValues_reads (xtra : List UInt8) (slots : List (Slot σ)) (size ptr : ℕ) (st : σ) :
    ptr ≤ (takeValues xtra slots size ptr st).2 ∧ (takeValues xtra slots size ptr st).2 ≤ ptr + size ∧
      ∀ i, i ∈ (takeValues xtra slots size ptr st).1.reads ↔ ptr ≤ i ∧ i < (takeValues xtra slots size ptr st).2 := by
  induction slots generalizing size ptr st with
  | nil =>
      refine ⟨le_rfl, Nat.le_add_right _ _, fun i => ?_⟩
      exact iff_of_false List.not_mem_nil fun h => absurd h.1 (not_le.mpr h.2)
  | cons slot slots ih =>
      rw [takeValues]
      split_ifs with htake
      · obtain ⟨hlow, hhigh, hreads⟩ :=
          ih (size - 8) (ptr + 8) (slot.set st (ZipUtil.get64BitValue xtra ptr).toNat)
        dsimp only
        refine ⟨by omega, by omega, fun i => ?_⟩
        rw [List.mem_append, hreads, List.mem_range'_1]
        omega
      · exact ih size ptr st

/-- The values are in the extra field if they end there. -/
theorem takeValues_inBounds {size ptr : ℕ} {st : σ} (hptr : ptr ≤ xtra.length) :
    (∀ i ∈ (takeValues xtra slots size ptr st).1.reads, i < xtra.length) ↔
      (takeValues xtra slots size ptr st).2 ≤ xtra.length := by
  obtain ⟨hlow, -, hreads⟩ := takeValues_reads xtra slots size ptr st
  constructor
  · intro hall
    by_contra hlt
    have hlast := hall xtra.length ((hreads _).mpr ⟨hptr, not_le.mp hlt⟩)
    omega
  · intro hle i hi
    have hin := (hreads i).mp hi
    omega

/-! ### Rounds -/

theorem declared_end {ptr : ℕ} (hend : ¬ptr + 4 ≤ xtra.length) : declared xtra ptr = [] := by
  rw [declared, if_neg hend]

theorem staysInBounds_end {ptr : ℕ} (hend : ¬ptr + 4 ≤ xtra.length) (st : σ) :
    StaysInBounds slots enter xtra ptr st :=
  ⟨1, ⟨st, [], []⟩, if_neg hend, nofun, (declared_end hend).symm⟩

/-- The four bytes of a field's head are in the extra field. -/
theorem head_inBounds {ptr : ℕ} (hle : ptr + 4 ≤ xtra.length) {reads : List ℕ} :
    (∀ i ∈ List.range' ptr 4 ++ reads, i < xtra.length) ↔ ∀ i ∈ reads, i < xtra.length := by
  constructor
  · exact fun hall i hi => hall i (List.mem_append_right _ hi)
  · intro hall i hi
    rcases List.mem_append.mp hi with hhead | hrest
    · rw [List.mem_range'_1] at hhead
      omega
    · exact hall i hrest

theorem staysInBounds_skip {ptr : ℕ} (hle : ptr + 4 ≤ xtra.length)
    (hid : ZipUtil.get16BitValue xtra ptr ≠ ZIP64_EXTRA_ID) (st : σ) :
    StaysInBounds slots enter xtra ptr st ↔
      StaysInBounds slots enter xtra (ptr + 4 + (ZipUtil.get16BitValue xtra (ptr + 2)).toNat) st := by
  constructor
  · rintro ⟨fuel, w, hloop, hreads, hfields⟩
    cases fuel with
    | zero => cases hloop
    | succ fuel =>
        rw [loop, if_pos hle] at hloop
        dsimp only at hloop
        rw [if_neg hid, Option.bind_eq_bind, Option.bind_eq_some_iff] at hloop
        obtain ⟨w', hrec, hw⟩ := hloop
        obtain rfl := Option.some.inj hw
        rw [declared, if_pos hle] at hfields
        exact ⟨fuel, w', hrec, (head_inBounds hle).mp hreads, (List.cons.inj hfields).2⟩
  · rintro ⟨fuel, w, hloop, hreads, hfields⟩
    refine ⟨fuel + 1, ⟨w.state, List.range' ptr 4 ++ w.reads, ptr :: w.fields⟩, ?_, (head_inBounds hle).mpr hreads, ?_⟩
    · rw [loop, if_pos hle]
      dsimp only
      rw [if_neg hid, hloop]
      rfl
    · rw [declared, if_pos hle, hfields]

/-- What is found from a place on begins with it, unless no field fits there. -/
theorem loop_fields {fuel ptr : ℕ} {st : σ} {w : Walk σ} (hloop : loop slots enter xtra fuel ptr st = some w) :
    if ptr + 4 ≤ xtra.length then w.fields.head? = some ptr else w = ⟨st, [], []⟩ := by
  cases fuel with
  | zero => cases hloop
  | succ fuel =>
      rw [loop] at hloop
      split_ifs with hle
      · rw [if_pos hle] at hloop
        dsimp only at hloop
        split_ifs at hloop
        · obtain ⟨w', -, hw⟩ := Option.bind_eq_some_iff.mp hloop
          obtain rfl := Option.some.inj hw
          rfl
        · obtain ⟨w', -, hw⟩ := Option.bind_eq_some_iff.mp hloop
          obtain rfl := Option.some.inj hw
          rfl
      · rw [if_neg hle] at hloop
        exact (Option.some.inj hloop).symm

theorem declared_head? (ptr : ℕ) :
    (declared xtra ptr).head? = if ptr + 4 ≤ xtra.length then some ptr else none := by
  rw [declared]
  split_ifs <;> rfl

/-- A Zip64 field is left behind its values: the loop goes on as by the declared size, or ends there. -/
theorem staysInBounds_zip64 {ptr size last : ℕ} {st : σ} {taken : Walk σ} (hle : ptr + 4 ≤ xtra.length)
    (hid : ZipUtil.get16BitValue xtra ptr = ZIP64_EXTRA_ID)
    (hsize : (ZipUtil.get16BitValue xtra (ptr + 2)).toNat = size)
    (htaken : takeValues xtra slots size (ptr + 4) (enter st) = (taken, last)) :
    StaysInBounds slots enter xtra ptr st ↔
      last ≤ xtra.length ∧ (last = ptr + 4 + size ∨ xtra.length < last + 4) ∧
        StaysInBounds slots enter xtra (ptr + 4 + size) taken.state := by
  have hspan := takeValues_reads xtra slots size (ptr + 4) (enter st)
  have hinside := @takeValues_inBounds σ xtra slots size (ptr + 4) (enter st) hle
  rw [htaken] at hspan hinside
  obtain ⟨hlow, hhigh, -⟩ := hspan
  have hround : ∀ fuel, loop slots enter xtra (fuel + 1) ptr st = (loop slots enter xtra fuel last taken.state).bind
      fun w => some ⟨w.state, List.range' ptr 4 ++ taken.reads ++ w.reads, ptr :: w.fields⟩ := by
    intro fuel
    rw [loop, if_pos hle]
    simp only [if_pos hid, hsize, htaken]
    rfl
  have hdeclared : declared xtra ptr = ptr :: declared xtra (ptr + 4 + size) := by
    rw [declared, if_pos hle, hsize]
  have hreads : ∀ reads, (∀ i ∈ List.range' ptr 4 ++ taken.reads ++ reads, i < xtra.length) ↔
      last ≤ xtra.length ∧ ∀ i ∈ reads, i < xtra.length := by
    intro reads
    rw [List.append_assoc, head_inBounds hle, ← hinside]
    exact List.forall_mem_append
  constructor
  · rintro ⟨fuel, w, hloop, hin, hfields⟩
    cases fuel with
    | zero => cases hloop
    | succ fuel =>
        rw [hround] at hloop
        obtain ⟨w', hrec, hw⟩ := Option.bind_eq_some_iff.mp hloop
        obtain rfl := Option.some.inj hw
        obtain ⟨hlast, hrest⟩ := (hreads w'.reads).mp hin
        rw [hdeclared] at hfields
        have hsame : w'.fields = declared xtra (ptr + 4 + size) := (List.cons.inj hfields).2
        have hhead := loop_fields hrec
        refine ⟨hlast, ?_⟩
        by_cases hmore : last + 4 ≤ xtra.length
        · rw [if_pos hmore, hsame, declared_head?] at hhead
          split_ifs at hhead
          obtain rfl : ptr + 4 + size = last := Option.some.inj hhead
          exact ⟨Or.inl rfl, fuel, w', hrec, hrest, hsame⟩
        · exact ⟨Or.inr (not_le.mp hmore), staysInBounds_end (by omega) taken.state⟩
  · rintro ⟨hlast, hnext, fuel, w, hloop, hin, hfields⟩
    have hagain : ∃ fuel w, loop slots enter xtra fuel last taken.state = some w ∧ (∀ i ∈ w.reads, i < xtra.length) ∧
        w.fields = declared xtra (ptr + 4 + size) := by
      rcases hnext with rfl | hend
      · exact ⟨fuel, w, hloop, hin, hfields⟩
      · obtain ⟨fuel, w, hloop, hin, hfields⟩ : StaysInBounds slots enter xtra last taken.state :=
          staysInBounds_end (not_le.mpr hend) taken.state
        refine ⟨fuel, w, hloop, hin, ?_⟩
        rw [hfields, declared_end (not_le.mpr hend), declared_end (by omega)]
    obtain ⟨fuel, w, hloop, hin, hfields⟩ := hagain
    refine ⟨fuel + 1, ⟨w.state, List.range' ptr 4 ++ taken.reads ++ w.reads, ptr :: w.fields⟩, ?_,
      (hreads w.reads).mpr ⟨hlast, hin⟩, ?_⟩
    · rw [hround, hloop]
      rfl
    · rw [hdeclared, hfields]

/-! ### Main result -/

/-- A walk stays in bounds as the marks of the header say. -/
theorem staysInBounds_iff_fits (hslots : Lawful slots)
    (henter : ∀ slot ∈ slots, ∀ st, slot.fromHeader (enter st) = slot.fromHeader st) (ptr : ℕ) (st : σ) :
    StaysInBounds slots enter xtra ptr st ↔ Fits xtra (marksOf slots st) ptr := by
  have hmarks : ∀ st, marksOf slots (enter st) = marksOf slots st := fun st =>
    List.map_congr_left fun slot hmem => by rw [henter slot hmem]
  generalize hk : xtra.length - ptr = k
  induction k using Nat.strong_induction_on generalizing ptr st with
  | _ k ih =>
      subst hk
      rw [Fits]
      by_cases hle : ptr + 4 ≤ xtra.length
      · rw [if_pos hle]
        have hrec : ∀ st', StaysInBounds slots enter xtra (ptr + 4 + (ZipUtil.get16BitValue xtra (ptr + 2)).toNat) st' ↔
            Fits xtra (marksOf slots st') (ptr + 4 + (ZipUtil.get16BitValue xtra (ptr + 2)).toNat) :=
          fun st' => ih _ (by omega) _ st' rfl
        dsimp only
        by_cases hid : ZipUtil.get16BitValue xtra ptr = ZIP64_EXTRA_ID
        · rw [if_pos hid, staysInBounds_zip64 hle hid rfl rfl, ← hmarks, ← takeValues_marks hslots, hrec]
        · rw [if_neg hid, staysInBounds_skip hle hid, hrec]
      · rw [if_neg hle]
        exact iff_of_true (staysInBounds_end hle st) trivial

/-! ### The two headers -/

theorem get16BitValue_drop (bytes : List UInt8) (ptr n : ℕ) :
    ZipUtil.get16BitValue (bytes.drop ptr) n = ZipUtil.get16BitValue bytes (ptr + n) := by
  rw [← ZipUtil.get16BitValue_drop (bytes.drop ptr), List.drop_drop, ZipUtil.get16BitValue_drop]

theorem get64BitValue_drop (bytes : List UInt8) (ptr : ℕ) :
    ZipUtil.get64BitValue (bytes.drop ptr) 0 = ZipUtil.get64BitValue bytes ptr := by
  have hword : ∀ n, ZipUtil.get32BitValue (bytes.drop ptr) n = ZipUtil.get32BitValue bytes (ptr + n) := fun n => by
    rw [← ZipUtil.get32BitValue_drop (bytes.drop ptr), List.drop_drop, ZipUtil.get32BitValue_drop]
  rw [ZipUtil.get64BitValue, ZipUtil.get64BitValue, hword, hword]
  rfl

/-- The loops of the two headers are this one: a round takes the values of a Zip64 field, or skips a field. -/
theorem loop_state {parse : ℕ → List UInt8 → σ → σ} {block : ℕ → List UInt8 → σ → σ × List UInt8}
    (hzero : ∀ bytes st, parse 0 bytes st = st)
    (hsucc : ∀ fuel bytes st, parse (fuel + 1) bytes st =
      if 4 ≤ bytes.length then
        if ZipUtil.get16BitValue bytes 0 = ZIP64_EXTRA_ID then
          parse fuel (block (ZipUtil.get16BitValue bytes 2).toNat (bytes.drop 4) st).2
            (block (ZipUtil.get16BitValue bytes 2).toNat (bytes.drop 4) st).1
        else parse fuel ((bytes.drop 4).drop (ZipUtil.get16BitValue bytes 2).toNat) st
      else st)
    (hblock : ∀ size ptr st, block size (xtra.drop ptr) st =
      ((takeValues xtra slots size ptr (enter st)).1.state, xtra.drop (takeValues xtra slots size ptr (enter st)).2))
    {fuel ptr : ℕ} (hfuel : xtra.length ≤ ptr + fuel) (st : σ) :
    ∃ w, loop slots enter xtra (fuel + 1) ptr st = some w ∧ w.state = parse fuel (xtra.drop ptr) st := by
  induction fuel generalizing ptr st with
  | zero =>
      rw [loop, if_neg (by omega), hzero]
      exact ⟨_, rfl, rfl⟩
  | succ fuel ih =>
      rw [loop, hsucc, List.length_drop, List.drop_drop, List.drop_drop, ZipUtil.get16BitValue_drop, get16BitValue_drop,
        hblock]
      by_cases hle : ptr + 4 ≤ xtra.length
      · have hdrop : 4 ≤ xtra.length - ptr := by omega
        rw [if_pos hle, if_pos hdrop]
        dsimp only
        by_cases hid : ZipUtil.get16BitValue xtra ptr = ZIP64_EXTRA_ID
        · rw [if_pos hid, if_pos hid]
          generalize htaken :
            takeValues xtra slots (ZipUtil.get16BitValue xtra (ptr + 2)).toNat (ptr + 4) (enter st) = taken
          have hspan := takeValues_reads xtra slots (ZipUtil.get16BitValue xtra (ptr + 2)).toNat (ptr + 4) (enter st)
          rw [htaken] at hspan
          obtain ⟨w, hloop, hstate⟩ := @ih taken.2 (by omega) taken.1.state
          rw [hloop]
          exact ⟨_, rfl, hstate⟩
        · rw [if_neg hid, if_neg hid]
          obtain ⟨w, hloop, hstate⟩ := @ih (ptr + 4 + (ZipUtil.get16BitValue xtra (ptr + 2)).toNat) (by omega) st
          rw [hloop]
          exact ⟨_, rfl, hstate⟩
      · have hdrop : ¬4 ≤ xtra.length - ptr := by omega
        rw [if_neg hle, if_neg hdrop]
        exact ⟨_, rfl, rfl⟩

end ExtraField

namespace ZipLocalFileHeader

open ExtraField

/-- The sizes, in the order in which the loop of `parse` asks for them. -/
def extraSlots : List (Slot ZipLocalFileHeader) :=
  [⟨fun h => h._rawHeader.uncompressedSize, setUncompressedSize⟩,
    ⟨fun h => h._rawHeader.compressedSize, setCompressedSize⟩]

/-- `_forceZip64 = true`. -/
def enterZip64 (h : ZipLocalFileHeader) : ZipLocalFileHeader := { h with _forceZip64 := true }

theorem lawful_extraSlots : Lawful extraSlots := by
  constructor
  · simp only [extraSlots, List.forall_mem_cons, List.not_mem_nil, false_imp_iff, implies_true, and_true]
    exact ⟨fun _ _ => rfl, fun _ _ => rfl⟩
  · simp only [extraSlots, List.pairwise_cons, List.forall_mem_cons, List.not_mem_nil, false_imp_iff, implies_true,
      and_true, List.Pairwise.nil]
    exact ⟨fun _ _ => rfl, fun _ _ => rfl⟩

theorem loop_parseExtra (xtra : List UInt8) (h : ZipLocalFileHeader) :
    ∃ w, loop extraSlots enterZip64 xtra (xtra.length + 1) 0 h = some w ∧
      w.state = parseExtra xtra.length xtra h := by
  have hblock : ∀ size ptr h, zip64Block size (xtra.drop ptr) h =
      ((takeValues xtra extraSlots size ptr (enterZip64 h)).1.state,
        xtra.drop (takeValues xtra extraSlots size ptr (enterZip64 h)).2) := by
    intro size ptr h
    rw [zip64Block, extraSlots, takeValues, enterZip64]
    by_cases hu : size ≥ 8 ∧ h._rawHeader.uncompressedSize.toNat = ZIP64_MAGIC
    · simp only [if_pos hu, takeValues, get64BitValue_drop, List.drop_drop]
      split_ifs <;> rfl
    · simp only [if_neg hu, takeValues, get64BitValue_drop, List.drop_drop]
      split_ifs <;> rfl
  exact loop_state (fun _ _ => rfl) (fun _ _ _ => rfl) hblock (Nat.zero_add _).ge h

end ZipLocalFileHeader

namespace ZipFileInfo

open ExtraField

/-- The sizes and the offset, in the order in which the loop of `parse` asks for them. -/
def extraSlots : List (Slot ZipFileInfo) :=
  [⟨fun i => i._rawInfo.uncompressedSize, setUncompressedSize⟩, ⟨fun i => i._rawInfo.compressedSize, setCompressedSize⟩,
    ⟨fun i => i._rawInfo.relativeOffsetLocalHeader, setOffset⟩]

theorem lawful_extraSlots : Lawful extraSlots := by
  constructor
  · simp only [extraSlots, List.forall_mem_cons, List.not_mem_nil, false_imp_iff, implies_true, and_true]
    exact ⟨fun _ _ => rfl, fun _ _ => rfl, fun _ _ => rfl⟩
  · simp only [extraSlots, List.pairwise_cons, List.forall_mem_cons, List.not_mem_nil, false_imp_iff, implies_true,
      and_true, List.Pairwise.nil]
    exact ⟨⟨⟨fun _ _ => rfl, fun _ _ => rfl⟩, fun _ _ => rfl, fun _ _ => rfl⟩, fun _ _ => rfl, fun _ _ => rfl⟩

/-- One value: what is set, and what is left of the size. -/
def takeValue (xtra : List UInt8) (slot : Slot ZipFileInfo) (size ptr : ℕ) (i : ZipFileInfo) :
    ZipFileInfo × ℕ × ℕ :=
  if size ≥ 8 ∧ (slot.fromHeader i).toNat = ZIP64_MAGIC then
    (slot.set i (ZipUtil.get64BitValue xtra ptr).toNat, size - 8, ptr + 8)
  else (i, size, ptr)

theorem takeValues_cons (xtra : List UInt8) (slot : Slot ZipFileInfo) (slots : List (Slot ZipFileInfo)) (size ptr : ℕ)
    (i : ZipFileInfo) :
    ((takeValues xtra (slot :: slots) size ptr i).1.state, (takeValues xtra (slot :: slots) size ptr i).2) =
      ((takeValues xtra slots (takeValue xtra slot size ptr i).2.1 (takeValue xtra slot size ptr i).2.2
          (takeValue xtra slot size ptr i).1).1.state,
        (takeValues xtra slots (takeValue xtra slot size ptr i).2.1 (takeValue xtra slot size ptr i).2.2
          (takeValue xtra slot size ptr i).1).2) := by
  rw [takeValues, takeValue]
  split_ifs <;> rfl

theorem zip64Field_eq (xtra : List UInt8) (slot : Slot ZipFileInfo) (size ptr : ℕ) (i : ZipFileInfo) :
    ∃ val : Option ℕ, zip64Field (slot.fromHeader i) size (xtra.drop ptr) =
        (val, (takeValue xtra slot size ptr i).2.1, xtra.drop (takeValue xtra slot size ptr i).2.2) ∧
      val.elim i (slot.set i) = (takeValue xtra slot size ptr i).1 := by
  rw [zip64Field, takeValue, get64BitValue_drop, List.drop_drop]
  split_ifs <;> exact ⟨_, rfl, rfl⟩

theorem zip64Block_eq (xtra : List UInt8) (size ptr : ℕ) (i : ZipFileInfo) :
    zip64Block size (xtra.drop ptr) i =
      ((takeValues xtra extraSlots size ptr i).1.state, xtra.drop (takeValues xtra extraSlots size ptr i).2) := by
  obtain ⟨val, hfield, hval⟩ :=
    zip64Field_eq xtra ⟨fun i => i._rawInfo.uncompressedSize, setUncompressedSize⟩ size ptr i
  have hcons := takeValues_cons xtra ⟨fun i => i._rawInfo.uncompressedSize, setUncompressedSize⟩
    [⟨fun i => i._rawInfo.compressedSize, setCompressedSize⟩,
      ⟨fun i => i._rawInfo.relativeOffsetLocalHeader, setOffset⟩] size ptr i
  generalize takeValue xtra ⟨fun i => i._rawInfo.uncompressedSize, setUncompressedSize⟩ size ptr i = s at *
  obtain ⟨val', hfield', hval'⟩ :=
    zip64Field_eq xtra ⟨fun i => i._rawInfo.compressedSize, setCompressedSize⟩ s.2.1 s.2.2 s.1
  have hcons' := takeValues_cons xtra ⟨fun i => i._rawInfo.compressedSize, setCompressedSize⟩
    [⟨fun i => i._rawInfo.relativeOffsetLocalHeader, setOffset⟩] s.2.1 s.2.2 s.1
  generalize takeValue xtra ⟨fun i => i._rawInfo.compressedSize, setCompressedSize⟩ s.2.1 s.2.2 s.1 = s' at *
  obtain ⟨val'', hfield'', hval''⟩ :=
    zip64Field_eq xtra ⟨fun i => i._rawInfo.relativeOffsetLocalHeader, setOffset⟩ s'.2.1 s'.2.2 s'.1
  have hcons'' := takeValues_cons xtra ⟨fun i => i._rawInfo.relativeOffsetLocalHeader, setOffset⟩ [] s'.2.1 s'.2.2 s'.1
  generalize takeValue xtra ⟨fun i => i._rawInfo.relativeOffsetLocalHeader, setOffset⟩ s'.2.1 s'.2.2 s'.1 = s'' at *
  obtain ⟨hstate, hlast⟩ := Prod.ext_iff.mp ((hcons.trans hcons').trans hcons'')
  dsimp only at hfield hfield' hfield'' hval hval' hval'' hstate hlast
  rw [extraSlots, hstate, hlast, zip64Block, hfield]
  simp only [hval, hfield', hval', hfield'', hval'', takeValues]

theorem loop_parseExtra (xtra : List UInt8) (i : ZipFileInfo) :
    ∃ w, loop extraSlots id xtra (xtra.length + 1) 0 i = some w ∧ w.state = parseExtra xtra.length xtra i := by
  have hsucc : ∀ fuel bytes i, parseExtra (fuel + 1) bytes i =
      if 4 ≤ bytes.length then
        if ZipUtil.get16BitValue bytes 0 = ZIP64_EXTRA_ID then
          parseExtra fuel (zip64Block (ZipUtil.get16BitValue bytes 2).toNat (bytes.drop 4) i).2
            (zip64Block (ZipUtil.get16BitValue bytes 2).toNat (bytes.drop 4) i).1
        else parseExtra fuel ((bytes.drop 4).drop (ZipUtil.get16BitValue bytes 2).toNat) i
      else i := by
    intro fuel bytes i
    rw [parseExtra]
  exact loop_state (fun _ _ => rfl) hsucc (zip64Block_eq xtra) (Nat.zero_add _).ge i

end ZipFileInfo

namespace ExtraField

/-- **Main result.**  The loops over the extra field of a local header and of a record of the central directory
stay in it, and go from field to field by the declared sizes, exactly if its Zip64 fields fit. -/
theorem staysInBounds_iff (xtra : List UInt8) (h : ZipLocalFileHeader) (i : ZipFileInfo) :
    (StaysInBounds ZipLocalFileHeader.extraSlots ZipLocalFileHeader.enterZip64 xtra 0 h ↔
      Fits xtra (marksOf ZipLocalFileHeader.extraSlots h) 0) ∧
      (StaysInBounds ZipFileInfo.extraSlots id xtra 0 i ↔ Fits xtra (marksOf ZipFileInfo.extraSlots i) 0) := by
  constructor
  · apply staysInBounds_iff_fits ZipLocalFileHeader.lawful_extraSlots
    simp only [ZipLocalFileHeader.extraSlots, List.forall_mem_cons, List.not_mem_nil, false_imp_iff, implies_true,
      and_true]
    exact ⟨fun _ => rfl, fun _ => rfl⟩
  · exact staysInBounds_iff_fits ZipFileInfo.lawful_extraSlots (fun _ _ _ => rfl) 0 i

/-- A local header whose field for the uncompressed size has the mark. -/
def markedHeader : ZipLocalFileHeader where
  _rawHeader := { uncompressedSize := 0xFFFFFFFF }
  _lastModifiedAt := ⟨0, 1582, 10, 15, 0, 0, 0, 0, 0⟩

/-- A Zip64 field of eight bytes that are not there. -/
theorem not_staysInBounds_cut :
    ¬∀ xtra h i, StaysInBounds ZipLocalFileHeader.extraSlots ZipLocalFileHeader.enterZip64 xtra 0 h ∧
      StaysInBounds ZipFileInfo.extraSlots id xtra 0 i := by
  intro hall
  have hbounds := (hall [0x01, 0x00, 0x08, 0x00] markedHeader ⟨{}, 0, 0, 0, 0, [], markedHeader._lastModifiedAt, [], []⟩).1
  have hlast := ((staysInBounds_zip64 (by decide) (by decide) rfl rfl).mp hbounds).1
  exact absurd hlast (by decide)

end ExtraField

end Poco.Zip
