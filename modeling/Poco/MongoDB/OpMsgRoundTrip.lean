import Poco.MongoDB.DocumentKept
import Poco.MongoDB.OpMsgMessage

/-! # Messages are read back

Of the bytes that `send` writes `read` takes as many as the header tells, and it gives the same message exactly if
the body and all documents are kept (`roundTrips_iff`).  The sizes of the header and of the section come from the
lengths of what has been written; `readSections_section` shows that the end that is computed for the section is
the end of the message, and from there on the loop takes one document after another. -/

namespace Poco.MongoDB

open Poco.Lib Poco.Foundation Document

namespace OpMsgMessage

/-- The bytes of a message behind its header. -/
def payload (h : Host) (m : OpMsgMessage) : List UInt8 :=
  (m.writePayload h (BinaryWriter.create h [] .littleEndianByteOrder))._ostr

/-- The limits that the reader checks, for the message and for its documents. -/
structure WithinLimits (h : Host) (m : OpMsgMessage) : Prop where
  message : ((m.payload h).length : ℤ) ≤ OP_MSG_MAX_SIZE
  body : ((Document.bytes h m._body).length : ℤ) ≤ BSON_MAX_DOCUMENT_SIZE
  documents : ∀ d ∈ m._documents, ((Document.bytes h d).length : ℤ) ≤ BSON_MAX_DOCUMENT_SIZE

/-- What is sent is as long as the header tells, and a new message takes all of it from a stream, and nothing
else, and has the same content. -/
def RoundTrips (h : Host) (m : OpMsgMessage) : Prop :=
  ∃ sent bytes, (∀ ostr, m.send h ostr = .ok (sent, ostr ++ bytes)) ∧
    (bytes.length : ℤ) = sent._header._messageLength.toInt ∧ ∃ enough, ∀ fuel, enough ≤ fuel → ∀ rest, ∃ received,
      read h fuel {} ⟨bytes ++ rest, true⟩ = .ok (received, ⟨rest, true⟩) ∧ received._header = sent._header ∧
      received._flags = m._flags ∧ received._body = m._body ∧ received._documents = m._documents

variable {h : Host}

/-! ### What is sent -/

/-- The four numbers of a header. -/
def headerBytes (header : MessageHeader) : List UInt8 :=
  (bigEndian 4 header._messageLength.toNat).reverse ++ (bigEndian 4 header._requestID.toNat).reverse ++
    (bigEndian 4 header._responseTo.toNat).reverse ++ (bigEndian 4 header._opCode.toNat).reverse

theorem length_headerBytes (header : MessageHeader) : (headerBytes header).length = 16 := by
  simp only [headerBytes, List.length_append, List.length_reverse, length_bigEndian]

theorem puts_header (header : MessageHeader) : Puts h (fun w => header.write h w) (headerBytes header) :=
  (((puts_int h header._messageLength).append (puts_int h header._requestID)).append
    (puts_int h header._responseTo)).append (puts_int h header._opCode)

theorem gets_header (header old : MessageHeader) : Gets h (old.readNumbers h) (headerBytes header) header := by
  have hint : ∀ v old : BitVec 32, Gets h (readScalar h .int old) (bigEndian 4 v.toNat).reverse v :=
    fun v old => (puts_int h v).gets old
  rw [headerBytes, List.append_assoc, List.append_assoc]
  refine (hint _ _).bind ((hint _ _).bind ((hint _ _).bind ?_))
  exact (hint header._opCode (Ty.init h (.scalar .int))).bind_pure fun opCode : BitVec 32 =>
    (⟨header._messageLength, header._requestID, header._responseTo, opCode⟩ : MessageHeader)

/-- The documents of a section. -/
def documentsBytes (h : Host) (documents : List Document) : List UInt8 := documents.flatMap (Document.bytes h)

theorem puts_documents (documents : List Document) :
    Puts h (fun w => documents.foldl (fun w doc => Document.write h w doc) w) (documentsBytes h documents) := by
  induction documents with
  | nil => exact puts_nothing
  | cons d documents ih => exact (Document.puts h d).append ih

theorem zero_notMem_commandIdentifier (command : List UInt8) : 0 ∉ commandIdentifier command := by
  rw [commandIdentifier]
  split_ifs <;> decide

theorem length_commandIdentifier_le (command : List UInt8) :
    (commandIdentifier command).length ≤ BinaryWriter.DEFAULT_MAX_CSTR_LENGTH := by
  rw [commandIdentifier]
  split_ifs <;> decide

/-- A section; its size does not count the type of the payload. -/
def sectionBytes (h : Host) (commandName : List UInt8) (documents : List Document) : List UInt8 :=
  [1] ++ (bigEndian 4 (4 + (commandIdentifier commandName).length + 1 + (documentsBytes h documents).length)).reverse ++
    (commandIdentifier commandName ++ [0]) ++ documentsBytes h documents

theorem puts_section (commandName : List UInt8) (documents : List Document) :
    Puts h (fun w => writeSection h commandName documents w) (sectionBytes h commandName documents) := by
  have hdocuments : (documents.foldl (fun wdoc doc => Document.write h wdoc doc)
      (BinaryWriter.create h [] .littleEndianByteOrder))._ostr = documentsBytes h documents :=
    congrArg BinaryWriter._ostr (puts_documents documents [])
  simp only [writeSection, hdocuments]
  exact (((puts_byte h PAYLOAD_TYPE_1).append (puts_size h _)).append
    (writes_cstring _ (zero_notMem_commandIdentifier commandName) (length_commandIdentifier_le commandName))).append
    (puts_raw _)

/-- What is behind the body. -/
def behindBody (h : Host) (m : OpMsgMessage) : List UInt8 :=
  if m._documents.isEmpty then [] else sectionBytes h m._commandName m._documents

theorem exists_payload (h : Host) (m : OpMsgMessage) :
    ∃ flags, Puts h (fun w => w.putScalar h .unsignedInt m._flags) flags ∧ m.payload h = flags ++ [0] ++ Document.bytes h m._body ++ behindBody h m := by
  obtain ⟨flags, hflags⟩ := exists_puts h .unsignedInt m._flags
  refine ⟨flags, hflags, ?_⟩
  have hbody := (hflags.append (puts_byte h PAYLOAD_TYPE_0)).append (Document.puts h m._body)
  have hputs : Puts h (fun w => m.writePayload h w) (flags ++ [0] ++ Document.bytes h m._body ++ behindBody h m) := by
    simp only [writePayload, behindBody]
    split_ifs with hempty
    · rw [List.append_nil]
      exact hbody
    · exact hbody.append (puts_section m._commandName m._documents)
  exact congrArg BinaryWriter._ostr (hputs [])

/-- The header with the length of the message. -/
def sentHeader (h : Host) (m : OpMsgMessage) : MessageHeader where
  _messageLength := BitVec.ofInt 32 (16 + (m.payload h).length)
  _requestID := m._header._requestID
  _responseTo := m._header._responseTo
  _opCode := m._header._opCode

theorem payload_ne_nil (h : Host) (m : OpMsgMessage) : m.payload h ≠ [] := by
  obtain ⟨flags, -, hpayload⟩ := exists_payload h m
  rw [hpayload]
  simp

/-- What is sent is the header with the length of the message, and the message. -/
theorem send_eq {m : OpMsgMessage} (hmax : ((m.payload h).length : ℤ) ≤ OP_MSG_MAX_SIZE) :
    (m.sentHeader h)._messageLength.toInt = 16 + (m.payload h).length ∧ ∀ ostr, m.send h ostr =
      .ok ({ m with _header := m.sentHeader h }, ostr ++ (headerBytes (m.sentHeader h) ++ m.payload h)) := by
  have hlimit : OP_MSG_MAX_SIZE = 50331648 := rfl
  have hsize : MessageHeader.MSG_HEADER_SIZE = 16 := rfl
  have hlen := List.length_pos_of_ne_nil (payload_ne_nil h m)
  have hint : (BitVec.ofNat 32 (m.payload h).length).toInt = (m.payload h).length := by
    rw [BitVec.toInt_ofNat']
    exact Int.bmod_eq_of_le (by omega) (by omega)
  constructor
  · rw [sentHeader, BitVec.toInt_ofInt]
    exact Int.bmod_eq_of_le (by omega) (by omega)
  · intro ostr
    have hheader : (m.sentHeader h).write h (BinaryWriter.create h ostr .littleEndianByteOrder) =
        BinaryWriter.create h (ostr ++ headerBytes (m.sentHeader h)) .littleEndianByteOrder :=
      puts_header (m.sentHeader h) ostr
    have hlength : m._header.messageLength (BitVec.ofNat 32 (m.payload h).length) = .ok (m.sentHeader h) := by
      rw [MessageHeader.messageLength, hint, if_neg (by omega), if_neg (by omega), hsize]
      rfl
    rw [← List.append_assoc]
    simp only [send]
    rw [← payload, hlength]
    dsimp only
    rw [hheader]
    rfl

/-! ### Sections -/

theorem tellg_reading (total : ℕ) (rest : List UInt8) : tellg total (reading h rest)._istr = total - rest.length := rfl

theorem good_reading (rest : List UInt8) : (reading h rest)._istr.good = true := rfl

theorem gets_identifier {s : List UInt8} (hs : 0 ∉ s) : Gets h readIdentifier (s ++ [0]) s := by
  intro rest
  simp only [readIdentifier, reading, BinaryReader.create, takes_cstring _ hs rest]

/-- The end of a section that is the last one is the end of the message. -/
theorem readSections_section (commandName : List UInt8) (documents : List Document) (total fuel : ℕ)
    (hmax : ((sectionBytes h commandName documents).length : ℤ) ≤ OP_MSG_MAX_SIZE) (payloadType : BitVec 8)
    (front : List Document) :
    readSections h total (fuel + 1) payloadType front (reading h (sectionBytes h commandName documents)) =
      (readDocuments h total total fuel front >>= readSections h total fuel PAYLOAD_TYPE_1)
        (reading h (documentsBytes h documents)) := by
  have hlimit : OP_MSG_MAX_SIZE = 50331648 := rfl
  have hidentifier := gets_identifier (h := h) (zero_notMem_commandIdentifier commandName) (documentsBytes h documents)
  simp only [sectionBytes, List.length_append, List.length_reverse, length_bigEndian, List.length_singleton] at hmax
  obtain ⟨size, hsize⟩ : ∃ size, size =
      4 + (commandIdentifier commandName).length + 1 + (documentsBytes h documents).length := ⟨_, rfl⟩
  have hbytes : sectionBytes h commandName documents = [1] ++ ((bigEndian 4 size).reverse ++
      (commandIdentifier commandName ++ [0] ++ documentsBytes h documents)) := by
    rw [sectionBytes, hsize]
    simp only [List.append_assoc]
  have hint : (BitVec.ofNat 32 size).toInt = size := by
    rw [BitVec.toInt_ofNat']
    exact Int.bmod_eq_of_le (by omega) (by omega)
  have hend : tellg total (reading h (commandIdentifier commandName ++ [0] ++ documentsBytes h documents))._istr +
      ((BitVec.ofNat 32 size).toInt - 4) = total := by
    rw [tellg_reading, hint, hsize]
    simp only [List.length_append, List.length_singleton]
    omega
  have htype := (puts_byte h PAYLOAD_TYPE_1).gets payloadType
    ((bigEndian 4 size).reverse ++ (commandIdentifier commandName ++ [0] ++ documentsBytes h documents))
  have hread := (puts_size h size).gets (0 : BitVec 32)
    (commandIdentifier commandName ++ [0] ++ documentsBytes h documents)
  rw [hbytes, readSections, get_bind]
  refine (bind_of_ok htype).trans ?_
  rw [get_bind]
  refine (bind_of_ok hread).trans ?_
  rw [get_bind, hend, bind_of_ok hidentifier]

theorem readSections_end (total fuel : ℕ) (payloadType : BitVec 8) (front : List Document) :
    ∃ r, readSections h total (fuel + 1) payloadType front (reading h []) = .ok front r := by
  have hended : (IStream.read ⟨[], true⟩ (h.memory (n := 1) payloadType)).2.good = false := by
    rw [IStream.read, if_pos rfl, if_neg]
    rw [h.length_memory]
    decide
  obtain ⟨type, r, hread, hgood⟩ : ∃ type r, readScalar h .unsignedChar payloadType (reading h []) = .ok type r ∧
      r._istr.good = false := ⟨_, _, rfl, hended⟩
  refine ⟨r, ?_⟩
  rw [readSections, get_bind]
  refine (bind_of_ok hread).trans ?_
  rw [get_bind, if_neg (by rw [hgood]; exact Bool.false_ne_true)]
  rfl

/-! ### Documents of a section -/

theorem documentsBytes_cons (d : Document) (documents : List Document) :
    documentsBytes h (d :: documents) = Document.bytes h d ++ documentsBytes h documents := List.flatMap_cons

theorem readDocuments_cons (d : Document) (documents : List Document) (total fuel : ℕ) (front : List Document) :
    readDocuments h total total (fuel + 1) front (reading h (documentsBytes h (d :: documents))) =
      (Document.read h fuel [] >>= fun doc => get >>= fun r => if r._istr.good then
        readDocuments h total total fuel (front ++ [doc]) else pure (front ++ [doc]))
          (reading h (Document.bytes h d ++ documentsBytes h documents)) := by
  have hpos := List.length_pos_of_ne_nil (Document.bytes_ne_nil h d)
  rw [documentsBytes_cons, readDocuments, get_bind, if_pos]
  rw [tellg_reading, List.length_append]
  omega

/-- The documents of a section are read back if they are kept. -/
theorem readDocuments_eq {documents : List Document} (hkept : ∀ d ∈ documents, AllKept d)
    (hlen : ∀ d ∈ documents, ((Document.bytes h d).length : ℤ) ≤ BSON_MAX_DOCUMENT_SIZE) (total : ℕ) {fuel : ℕ}
    (hfuel : (documentsBytes h documents).length < fuel) (front : List Document) :
    readDocuments h total total fuel front (reading h (documentsBytes h documents)) =
      .ok (front ++ documents) (reading h []) := by
  obtain ⟨fuel, rfl⟩ := Nat.exists_eq_succ_of_ne_zero (Nat.ne_zero_of_lt hfuel)
  induction documents generalizing fuel front with
  | nil =>
      rw [readDocuments, get_bind, if_neg, List.append_nil]
      · rfl
      · rw [tellg_reading]
        simp [documentsBytes]
  | cons d documents ih =>
      have hpos := List.length_pos_of_ne_nil (Document.bytes_ne_nil h d)
      rw [documentsBytes_cons, List.length_append] at hfuel
      obtain ⟨fuel, rfl⟩ := Nat.exists_eq_succ_of_ne_zero (show fuel ≠ 0 by omega)
      have hread := Document.gets (hkept d List.mem_cons_self) (hlen d List.mem_cons_self)
        (fuel + 1) (by omega) (documentsBytes h documents)
      rw [readDocuments_cons, bind_of_ok hread, get_bind, if_pos (good_reading _),
        ih (fun e he => hkept e (List.mem_cons_of_mem d he)) (fun e he => hlen e (List.mem_cons_of_mem d he)) _ _
          (by omega), List.append_assoc, List.singleton_append]

theorem readDocuments_front {total fuel : ℕ} {endOfSection : ℤ} {front ds : List Document} {r r' : BinaryReader}
    (hread : readDocuments h total endOfSection fuel front r = .ok ds r') : front <+: ds := by
  induction fuel generalizing front r with
  | zero => cases hread
  | succ fuel ih =>
      rw [readDocuments, get_bind] at hread
      split_ifs at hread
      · obtain ⟨doc, r₁, -, hread⟩ := exists_of_bind_ok hread
        rw [get_bind] at hread
        split_ifs at hread
        · exact (List.prefix_append front _).trans (ih hread)
        · cases hread
          exact List.prefix_append front _
      · cases hread
        exact List.prefix_rfl

theorem readSections_front {total fuel : ℕ} {payloadType : BitVec 8} {front ds : List Document} {r r' : BinaryReader}
    (hread : readSections h total fuel payloadType front r = .ok ds r') : front <+: ds := by
  induction fuel generalizing payloadType front r with
  | zero => cases hread
  | succ fuel ih =>
      rw [readSections, get_bind] at hread
      split_ifs at hread
      · obtain ⟨type, r₁, -, hread⟩ := exists_of_bind_ok hread
        rw [get_bind] at hread
        split_ifs at hread
        · obtain ⟨sectionSize, r₂, -, hread⟩ := exists_of_bind_ok hread
          rw [get_bind] at hread
          obtain ⟨identifier, r₃, -, hread⟩ := exists_of_bind_ok hread
          obtain ⟨documents, r₄, hdocuments, hread⟩ := exists_of_bind_ok hread
          exact (readDocuments_front hdocuments).trans (ih hread)
        · cases hread
          exact List.prefix_rfl
      · cases hread
        exact List.prefix_rfl

/-- If what was written for documents is read as the front of these documents, then they are kept. -/
theorem kept_of_readDocuments {documents : List Document}
    (hlen : ∀ d ∈ documents, ((Document.bytes h d).length : ℤ) ≤ BSON_MAX_DOCUMENT_SIZE) {total fuel : ℕ}
    (hfuel : (documentsBytes h documents).length < fuel) {front ds : List Document} {r : BinaryReader}
    (hread : readDocuments h total total fuel front (reading h (documentsBytes h documents)) = .ok ds r)
    (hds : ds <+: front ++ documents) : ∀ d ∈ documents, AllKept d := by
  obtain ⟨fuel, rfl⟩ := Nat.exists_eq_succ_of_ne_zero (Nat.ne_zero_of_lt hfuel)
  induction documents generalizing fuel front with
  | nil => exact List.forall_mem_nil _
  | cons d documents ih =>
      have hpos := List.length_pos_of_ne_nil (Document.bytes_ne_nil h d)
      rw [documentsBytes_cons, List.length_append] at hfuel
      obtain ⟨fuel, rfl⟩ := Nat.exists_eq_succ_of_ne_zero (show fuel ≠ 0 by omega)
      rw [readDocuments_cons] at hread
      obtain ⟨d', r₁, hdocument, hread⟩ := exists_of_bind_ok hread
      rw [get_bind] at hread
      -- what has been read is the first of the documents
      have hfront : front ++ [d'] <+: ds := by
        split_ifs at hread
        · exact readDocuments_front hread
        · cases hread
          exact List.prefix_rfl
      obtain ⟨more, hmore⟩ := hfront.trans hds
      rw [List.append_assoc] at hmore
      obtain ⟨rfl, -⟩ := List.cons.inj (List.append_cancel_left hmore)
      have hkept := Document.kept_of_read (hlen d' List.mem_cons_self) (fuel + 1) (by omega) hdocument
      have hgets := Document.gets hkept (hlen d' List.mem_cons_self) (fuel + 1) (by omega)
        (documentsBytes h documents)
      obtain ⟨-, rfl⟩ := EStateM.Result.ok.inj (hgets.symm.trans hdocument)
      rw [if_pos (good_reading _)] at hread
      rw [List.append_cons] at hds
      have hrest := ih (fun e he => hlen e (List.mem_cons_of_mem d' he)) hds _ (by omega) hread
      exact List.forall_mem_cons.mpr ⟨hkept, hrest⟩

/-! ### The message -/

theorem cursorBatch_of_notMem {body : Document} (hcursor : ∀ e ∈ body, e.1 ≠ key "cursor") :
    cursorBatch body = none := by
  have hfind : body.find (key "cursor") = none := by
    rw [Document.find, List.find?_eq_none.mpr fun e he => by simpa using hcursor e he, Option.map_none]
  rw [cursorBatch, getPtr, getOr, Document.get, hfind]

theorem interpret_eq (header : MessageHeader) (m : OpMsgMessage) (fuel : ℕ) :
    interpret h fuel { _header := header } (m.payload h) (reading h (m.payload h)) =
      (Document.read h fuel [] >>= fun body => readSections h (m.payload h).length fuel PAYLOAD_TYPE_0 [] >>=
        fun documents => pure ⟨header, m._flags, [], body, documents ++ (cursorBatch body).elim [] batchDocuments⟩)
        (reading h (Document.bytes h m._body ++ behindBody h m)) := by
  obtain ⟨flags, hflags, hpayload⟩ := exists_payload h m
  have hread : reading h (m.payload h) =
      reading h (flags ++ ([0] ++ (Document.bytes h m._body ++ behindBody h m))) := by
    rw [hpayload]
    simp only [List.append_assoc]
  rw [hread, interpret]
  refine (bind_of_ok (hflags.gets _ _)).trans ?_
  exact bind_of_ok ((puts_byte h PAYLOAD_TYPE_0).gets _ _)

theorem interpret_of_kept (header : MessageHeader) {m : OpMsgMessage} (hlimits : m.WithinLimits h)
    (hcursor : ∀ e ∈ m._body, e.1 ≠ key "cursor") (hbody : AllKept m._body) (hdocuments : ∀ d ∈ m._documents, AllKept d)
    {fuel : ℕ} (hfuel : (m.payload h).length < fuel) :
    ∃ r, interpret h fuel { _header := header } (m.payload h) (reading h (m.payload h)) =
      .ok ⟨header, m._flags, [], m._body, m._documents⟩ r := by
  obtain ⟨flags, hflags, hpayload⟩ := exists_payload h m
  have hmessage := hlimits.message
  obtain ⟨fuel, rfl⟩ := Nat.exists_eq_succ_of_ne_zero (Nat.ne_zero_of_lt hfuel)
  rw [hpayload, List.length_append, List.length_append] at hfuel hmessage
  obtain ⟨r, hsections⟩ : ∃ r, readSections h (m.payload h).length (fuel + 1) PAYLOAD_TYPE_0 []
      (reading h (behindBody h m)) = .ok m._documents r := by
    rw [behindBody] at hfuel hmessage ⊢
    split_ifs at hfuel hmessage ⊢ with hempty
    · rw [List.isEmpty_iff.mp hempty]
      exact readSections_end _ _ _ _
    · have hlonger : (documentsBytes h m._documents).length < (sectionBytes h m._commandName m._documents).length := by
        simp only [sectionBytes, List.length_append, List.length_singleton]
        omega
      obtain ⟨fuel, rfl⟩ := Nat.exists_eq_succ_of_ne_zero (show fuel ≠ 0 by omega)
      rw [readSections_section _ _ _ _ (by omega),
        bind_of_ok (readDocuments_eq hdocuments hlimits.documents _ (by omega) [])]
      exact readSections_end _ _ _ _
  refine ⟨r, ?_⟩
  rw [interpret_eq, bind_of_ok (Document.gets hbody hlimits.body (fuel + 1) (by omega) _), bind_of_ok hsections,
    cursorBatch_of_notMem hcursor]
  simp only [Option.elim_none, List.append_nil]
  rfl

/-- If the body and the documents are read back, then they are kept. -/
theorem kept_of_interpret {header : MessageHeader} {m : OpMsgMessage} (hlimits : m.WithinLimits h)
    (hcursor : ∀ e ∈ m._body, e.1 ≠ key "cursor") {fuel : ℕ} (hfuel : (m.payload h).length < fuel)
    {received : OpMsgMessage} {r : BinaryReader}
    (hread : interpret h fuel { _header := header } (m.payload h) (reading h (m.payload h)) = .ok received r)
    (hbody : received._body = m._body) (hdocuments : received._documents = m._documents) :
    AllKept m._body ∧ ∀ d ∈ m._documents, AllKept d := by
  obtain ⟨flags, hflags, hpayload⟩ := exists_payload h m
  have hmessage := hlimits.message
  rw [interpret_eq] at hread
  obtain ⟨fuel, rfl⟩ := Nat.exists_eq_succ_of_ne_zero (Nat.ne_zero_of_lt hfuel)
  rw [hpayload, List.length_append, List.length_append] at hfuel hmessage
  obtain ⟨body, r₁, hfirst, hread⟩ := exists_of_bind_ok hread
  obtain ⟨documents, r₂, hsections, hread⟩ := exists_of_bind_ok hread
  cases hread
  obtain rfl : body = m._body := hbody
  have hkept := Document.kept_of_read hlimits.body (fuel + 1) (by omega) hfirst
  refine ⟨hkept, ?_⟩
  have hgets := Document.gets hkept hlimits.body (fuel + 1) (by omega) (behindBody h m)
  obtain ⟨-, rfl⟩ := EStateM.Result.ok.inj (hgets.symm.trans hfirst)
  obtain rfl : documents = m._documents := by
    simpa only [cursorBatch_of_notMem hcursor, Option.elim_none, List.append_nil] using hdocuments
  rw [behindBody] at hfuel hmessage hsections
  split_ifs at hfuel hmessage hsections with hempty
  · rw [List.isEmpty_iff.mp hempty]
    exact List.forall_mem_nil _
  · have hlonger : (documentsBytes h m._documents).length < (sectionBytes h m._commandName m._documents).length := by
      simp only [sectionBytes, List.length_append, List.length_singleton]
      omega
    rw [readSections_section _ _ _ _ (by omega)] at hsections
    obtain ⟨ds, r₃, hds, hsections⟩ := exists_of_bind_ok hsections
    exact kept_of_readDocuments hlimits.documents (by omega) hds (readSections_front hsections)

/-- The bytes that the header tells are taken from the stream. -/
theorem read_eq {header : MessageHeader} {message : List UInt8} (hpos : message ≠ [])
    (hmax : (message.length : ℤ) ≤ OP_MSG_MAX_SIZE) (hlen : header._messageLength.toInt = 16 + message.length)
    (fuel : ℕ) (rest : List UInt8) :
    read h fuel {} ⟨headerBytes header ++ message ++ rest, true⟩ =
      match interpret h fuel { _header := header } message (reading h message) with
      | .ok m _ => .ok (m, ⟨rest, true⟩)
      | .error e _ => .error (.stop e) := by
  have hlimit : OP_MSG_MAX_SIZE = 50331648 := rfl
  have hsize : MessageHeader.MSG_HEADER_SIZE = 16 := rfl
  have hlength := List.length_pos_of_ne_nil hpos
  have hheader : MessageHeader.read h (.create MessageHeader.OP_MSG)
      (BinaryReader.create h ⟨headerBytes header ++ message ++ rest, true⟩ .littleEndianByteOrder) =
        .ok (header, reading h (message ++ rest)) := by
    have hnumbers := gets_header (h := h) header (.create MessageHeader.OP_MSG) (message ++ rest)
    rw [← List.append_assoc, reading] at hnumbers
    rw [MessageHeader.read, hnumbers]
    exact if_pos rfl
  have hraw : (reading h (message ++ rest)).readRaw h (header._messageLength.toInt - 16).toNat =
      (message, reading h rest) := by
    rw [hlen, show (16 + (message.length : ℤ) - 16).toNat = message.length by omega]
    simp only [BinaryReader.readRaw, reading, BinaryReader.create, getChars_eq, List.nil_append]
  simp only [read, hheader, hsize]
  rw [if_neg (by omega), if_neg (by omega), if_neg (by omega), hraw]
  rfl

theorem roundTrips_of_kept {m : OpMsgMessage} (hlimits : m.WithinLimits h)
    (hcursor : ∀ e ∈ m._body, e.1 ≠ key "cursor") (hbody : AllKept m._body)
    (hdocuments : ∀ d ∈ m._documents, AllKept d) : RoundTrips h m := by
  obtain ⟨hlen, hsend⟩ := send_eq (h := h) hlimits.message
  refine ⟨_, _, hsend, ?_, (m.payload h).length + 1, ?_⟩
  · rw [List.length_append, length_headerBytes, Nat.cast_add]
    exact hlen.symm
  · intro fuel hfuel rest
    obtain ⟨r, hread⟩ := interpret_of_kept (m.sentHeader h) hlimits hcursor hbody hdocuments hfuel
    refine ⟨⟨m.sentHeader h, m._flags, [], m._body, m._documents⟩, ?_, rfl, rfl, rfl, rfl⟩
    rw [read_eq (payload_ne_nil h m) hlimits.message hlen, hread]

theorem kept_of_roundTrips {m : OpMsgMessage} (hlimits : m.WithinLimits h)
    (hcursor : ∀ e ∈ m._body, e.1 ≠ key "cursor") (hround : RoundTrips h m) :
    AllKept m._body ∧ ∀ d ∈ m._documents, AllKept d := by
  obtain ⟨sent, bytes, hsends, -, enough, hreads⟩ := hround
  obtain ⟨hlen, hsend⟩ := send_eq (h := h) hlimits.message
  obtain ⟨-, hbytes⟩ := Prod.mk.inj (Except.ok.inj ((hsend []).symm.trans (hsends [])))
  rw [List.nil_append, List.nil_append] at hbytes
  have hfuel : (m.payload h).length < max enough ((m.payload h).length + 1) := lt_max_of_lt_right (Nat.lt_succ_self _)
  obtain ⟨received, hread, -, -, hbody, hdocuments⟩ := hreads _ (le_max_left enough ((m.payload h).length + 1)) []
  rw [← hbytes, read_eq (payload_ne_nil h m) hlimits.message hlen] at hread
  cases hinterpret : interpret h (max enough ((m.payload h).length + 1)) { _header := m.sentHeader h } (m.payload h)
      (reading h (m.payload h)) with
  | error e r =>
      rw [hinterpret] at hread
      cases hread
  | ok m' r =>
      rw [hinterpret] at hread
      obtain ⟨rfl, -⟩ := Prod.mk.inj (Except.ok.inj hread)
      exact kept_of_interpret hlimits hcursor hfuel hinterpret hbody hdocuments

end OpMsgMessage

end Poco.MongoDB
