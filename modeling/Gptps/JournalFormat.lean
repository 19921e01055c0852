import Gptps.LittleEndian

/-!
# The records of the durable queue's journal

The journal is a file header and then records, each a header of fixed length, a name, a
payload and a checksum of the three. This module has the writer of one record and the
reader of one record, and what the reader answers at a record, at a cut record and at any
other bytes.

A stream is the list of the bytes from its position to the end of the file. A read that
fails and an allocation that fails end the open of the queue and have no place here.
-/

namespace Gptps.JournalFormat

open LittleEndian List

/-- Bytes of a file. -/
abbrev Bytes := List UInt8

/-- The first four bytes of a journal. -/
def fileMagic : ℕ := 0x47445131

/-- The first four bytes of a record. -/
def recMagic : ℕ := 0x44515231

/-- The version of the format. -/
def version : ℕ := 1

/-- The length of the file header. -/
def fhdrLen : ℕ := 8

/-- The length of a record's header. -/
def rhdrLen : ℕ := 20

/-- The first value of a checksum. -/
def fnvSeed : UInt32 := 2166136261

/-- The longest name a record holds. -/
def maxName : ℕ := 4096

/-- The longest payload a record holds. -/
def maxPayload : ℕ := 256 * 1024 * 1024

/-- The last number a record may have. -/
def maxSeq : ℕ := 2 ^ 63 - 1

/-- The type of a record that carries work. -/
def typeP : UInt8 := 80

/-- The marker of a record that is closed. -/
def typeD : UInt8 := 68

/-- The marker of a record that is quarantined. -/
def typeQ : UInt8 := 81

/-- The marker of an attempt that began. -/
def typeS : UInt8 := 83

/-- The marker of an attempt that ended without a verdict. -/
def typeF : UInt8 := 70

/-- The marker of a crash count, carried across a compaction. -/
def typeK : UInt8 := 75

/-- `put16`: two bytes, the lowest first. -/
def put16 (v : ℕ) : Bytes := storeLe 2 v

/-- `put32`: four bytes, the lowest first. -/
def put32 (v : ℕ) : Bytes := storeLe 4 v

/-- `put64`: eight bytes, the lowest first. -/
def put64 (v : ℕ) : Bytes := storeLe 8 v

/-- `get16`: two bytes read back. -/
def get16 (p : Bytes) : ℕ := loadLe (p.take 2)

/-- `get32`: four bytes read back. -/
def get32 (p : Bytes) : ℕ := loadLe (p.take 4)

/-- `get64`: eight bytes read back. -/
def get64 (p : Bytes) : ℕ := loadLe (p.take 8)

/-- The checksum of some bytes, continued from `h`. -/
def fnv (d : Bytes) (h : UInt32) : UInt32 :=
  d.foldl (fun h b => (h ^^^ b.toUInt32) * 16777619) h

/-- The checksum can be taken piece by piece. -/
theorem fnv_append (a b : Bytes) (h : UInt32) : fnv (a ++ b) h = fnv b (fnv a h) :=
  foldl_append

section Writer

/-- What `write_record` is given: a type, a number, a name and a payload. -/
structure Record where
  /-- The type of the record. -/
  type : UInt8
  /-- Its number. -/
  seq : ℕ
  /-- The name of the task, without its final NUL. -/
  name : Bytes
  /-- The work itself. -/
  payload : Bytes
deriving DecidableEq, Repr

/-- A marker about the record numbered `seq`. -/
def marker (type : UInt8) (seq : ℕ) : Record := ⟨type, seq, [], []⟩

/-- The header `write_record` puts before a name of `nlen` and a payload of `plen` bytes. -/
def header (type : UInt8) (nlen plen seq : ℕ) : Bytes :=
  put32 recMagic ++ [type, 0] ++ put16 nlen ++ put32 plen ++ put64 seq

/-- The bytes the checksum of a record is taken over. -/
def Record.summed (r : Record) : Bytes :=
  header r.type r.name.length r.payload.length r.seq ++ (r.name ++ r.payload)

/-- The bytes of a record. -/
def Record.bytes (r : Record) : Bytes :=
  r.summed ++ put32 (fnv r.summed fnvSeed).toNat

/-- The length of a record's bytes. -/
def Record.size (r : Record) : ℕ := rhdrLen + (r.name.length + r.payload.length + 4)

/-- What `write_record` appends when the whole of it reaches the file, `none` when it refuses
the record for its size. -/
def writeRecord (r : Record) : Option Bytes :=
  if r.name.length > maxName ∨ r.payload.length > maxPayload then none else some r.bytes

/-- The header of the file. -/
def fileHeader : Bytes := put32 fileMagic ++ put32 version

end Writer

section Reader

/-- One record as read. -/
structure Raw where
  /-- The type of the record. -/
  type : UInt8
  /-- The length of its name. -/
  nlen : ℕ
  /-- The length of its payload. -/
  plen : ℕ
  /-- Its number. -/
  seq : ℕ
  /-- Its name, payload and checksum. -/
  body : Bytes
deriving DecidableEq, Repr

/-- How reading a record ends. -/
inductive ReadRec where
  /-- A record that verifies. -/
  | ok (r : Raw)
  /-- The clean end of the file. -/
  | fileEnd
  /-- Bytes that do not verify. -/
  | bad
  /-- A readable header that claims more bytes than the file holds. -/
  | torn
deriving DecidableEq, Repr

/-- Reads the record at the stream `f`, `left` bytes before the end of the file (`none`: the
end is not known). -/
def readRec (f : Bytes) (left : Option ℕ) : ReadRec :=
  if left = some 0 then .fileEnd
  else
    let hdr := f.take rhdrLen
    if hdr.length = 0 ∧ left = none then .fileEnd
    else if hdr.length ≠ rhdrLen ∨ get32 hdr ≠ recMagic then .bad
    else
      let nlen := get16 (hdr.drop 6)
      let plen := get32 (hdr.drop 8)
      if nlen > maxName ∨ plen > maxPayload then .bad
      else if left.any (· < rhdrLen + (nlen + plen + 4)) then .torn
      else
        let body := (f.drop rhdrLen).take (nlen + plen + 4)
        if body.length ≠ nlen + plen + 4 ∨
            (fnv (body.take (nlen + plen)) (fnv hdr fnvSeed)).toNat ≠
              get32 (body.drop (nlen + plen)) then .bad
        else .ok ⟨hdr.getD 4 0, nlen, plen, get64 (hdr.drop 12), body⟩

/-- The length of the bytes a record was read from. -/
def Raw.size (r : Raw) : ℕ := rhdrLen + (r.nlen + r.plen + 4)

/-- A written record as it is read back. -/
def Record.raw (r : Record) : Raw :=
  ⟨r.type, r.name.length, r.payload.length, r.seq,
    r.name ++ r.payload ++ put32 (fnv r.summed fnvSeed).toNat⟩

end Reader

section Fields

variable (type : UInt8) (nlen plen seq : ℕ)

@[simp] theorem length_header : (header type nlen plen seq).length = rhdrLen := by
  simp only [header, put16, put32, put64, length_append, length_storeLe, length_cons,
    length_nil]
  rfl

/-- The magic of a header. -/
theorem get32_header : get32 (header type nlen plen seq) = recMagic := by
  have htake : (header type nlen plen seq).take 4 = put32 recMagic := rfl
  rw [get32, htake]
  rfl

theorem type_header : (header type nlen plen seq).getD 4 0 = type := rfl

/-- The length of the name, as it is read back. -/
theorem nlen_header (h : nlen ≤ maxName) :
    get16 ((header type nlen plen seq).drop 6) = nlen := by
  have htake : ((header type nlen plen seq).drop 6).take 2 = storeLe 2 nlen := rfl
  unfold maxName at h
  rw [get16, htake]
  exact loadLe_storeLe_of_lt (by omega)

/-- The length of the payload. -/
theorem plen_header (h : plen ≤ maxPayload) :
    get32 ((header type nlen plen seq).drop 8) = plen := by
  have htake : ((header type nlen plen seq).drop 8).take 4 = storeLe 4 plen := rfl
  unfold maxPayload at h
  rw [get32, htake]
  exact loadLe_storeLe_of_lt (by omega)

/-- The number. -/
theorem seq_header (h : seq ≤ maxSeq) :
    get64 ((header type nlen plen seq).drop 12) = seq := by
  have htake : ((header type nlen plen seq).drop 12).take 8 = storeLe 8 seq := rfl
  unfold maxSeq at h
  rw [get64, htake]
  exact loadLe_storeLe_of_lt (by omega)

end Fields

section Records

variable {k : ℕ} {left : Option ℕ} {f : Bytes}

/-- A record within the bounds that the writer and the reader share. -/
structure Record.Fits (r : Record) : Prop where
  /-- The name is not too long. -/
  name : r.name.length ≤ maxName
  /-- The payload is not too long. -/
  payload : r.payload.length ≤ maxPayload
  /-- The number is one the queue gives. -/
  seq : r.seq ≤ maxSeq

instance (r : Record) : Decidable r.Fits :=
  decidable_of_iff (r.name.length ≤ maxName ∧ r.payload.length ≤ maxPayload ∧ r.seq ≤ maxSeq)
    ⟨fun h => ⟨h.1, h.2.1, h.2.2⟩, fun h => ⟨h.name, h.payload, h.seq⟩⟩

variable {r : Record}

/-- A record takes its size in the file. -/
theorem length_bytes (r : Record) : r.bytes.length = r.size := by
  simp only [Record.bytes, Record.summed, Record.size, put32, length_append, length_header,
    length_storeLe]
  omega

theorem size_raw (r : Record) : r.raw.size = r.size := rfl

/-- No record is shorter than its header and checksum. -/
theorem size_pos (r : Record) : rhdrLen + 4 ≤ r.size := by
  unfold Record.size
  omega

/-- A record's bytes are its header and what is read as its body. -/
theorem bytes_eq (r : Record) :
    r.bytes = header r.type r.name.length r.payload.length r.seq ++ r.raw.body := by
  simp only [Record.bytes, Record.summed, Record.raw, append_assoc]

/-- What follows the header. -/
theorem length_body (r : Record) :
    r.raw.body.length = r.name.length + r.payload.length + 4 := by
  simp only [Record.raw, put32, length_append, length_storeLe]

/-- The first bytes of a stream that starts with a header. -/
theorem take_header (r : Record) (rest : Bytes) :
    (r.bytes ++ rest).take rhdrLen = header r.type r.name.length r.payload.length r.seq :=
  take_left' (length_header ..)

/-- The header of a record that was cut after it. -/
theorem take_header_cut (r : Record) (hk : rhdrLen ≤ k) :
    (r.bytes.take k).take rhdrLen = header r.type r.name.length r.payload.length r.seq := by
  rw [take_take, min_eq_left hk, ← take_header r [], append_nil]

/-- A record that fits passes the checks of its header. -/
theorem Record.Fits.bounds (h : r.Fits) :
    ¬(r.name.length > maxName ∨ r.payload.length > maxPayload) :=
  not_or.mpr ⟨Nat.not_lt.mpr h.name, Nat.not_lt.mpr h.payload⟩

/-- A written record reads back, whatever follows it. -/
theorem readRec_bytes (h : r.Fits) (rest : Bytes) (hleft : ∀ n ∈ left, r.size ≤ n) :
    readRec (r.bytes ++ rest) left = .ok r.raw := by
  have hne : left ≠ some 0 := by
    rintro rfl
    have hle := hleft 0 rfl
    have hpos := size_pos r
    omega
  have hfew : left.any (· < rhdrLen + (r.name.length + r.payload.length + 4)) = false := by
    cases left with
    | none => rfl
    | some n =>
      have hle := hleft n rfl
      unfold Record.size at hle
      simpa using hle
  have hbody : ((r.bytes ++ rest).drop rhdrLen).take (r.name.length + r.payload.length + 4) =
      r.raw.body := by
    exact take_left' (length_body r)
  have hwork : r.raw.body.take (r.name.length + r.payload.length) = r.name ++ r.payload :=
    take_left' length_append
  have hsum : r.raw.body.drop (r.name.length + r.payload.length) =
      put32 (fnv r.summed fnvSeed).toNat := drop_left' length_append
  have hcrc : get32 (put32 (fnv r.summed fnvSeed).toNat) = (fnv r.summed fnvSeed).toNat := by
    rw [get32, put32, take_of_length_le (le_of_eq (length_storeLe ..))]
    exact loadLe_storeLe_of_lt (UInt32.toNat_lt _)
  unfold readRec
  simp only [if_neg hne, take_header, length_header, get32_header, nlen_header _ _ _ _ h.name,
    plen_header _ _ _ _ h.payload, if_neg h.bounds, hfew, hbody, length_body, hwork, hsum, hcrc,
    seq_header _ _ _ _ h.seq, type_header]
  rw [if_neg (by rintro ⟨hz, -⟩; cases hz), if_neg (by simp), if_neg (by decide), if_neg]
  · rfl
  · rw [← fnv_append]
    simp [Record.summed]

/-- What is left of a record that is cut short. -/
theorem length_cut (hk : k < r.size) : (r.bytes.take k).length = k := by
  rw [length_take, length_bytes]
  omega

/-- A record cut short reads as the end of the file, as bytes that do not verify, or, once its
header is whole, as torn. -/
theorem readRec_cut (h : r.Fits) (hk : k < r.size) :
    readRec (r.bytes.take k) (some k) =
      if k = 0 then .fileEnd else if k < rhdrLen then .bad else .torn := by
  by_cases hz : k = 0
  · rw [if_pos hz, readRec, if_pos (by rw [hz])]
  rw [if_neg hz, readRec, if_neg (by simpa using hz)]
  have hlen := length_cut hk
  by_cases hshort : k < rhdrLen
  · rw [if_pos hshort, if_neg (by rintro ⟨-, hnone⟩; cases hnone), if_pos]
    left
    rw [length_take, hlen]
    omega
  have hhdr := take_header_cut r (le_of_not_gt hshort)
  have hfew : (some k).any (· < rhdrLen + (r.name.length + r.payload.length + 4)) = true := by
    simpa [Record.size] using hk
  rw [if_neg hshort]
  simp only [hhdr, length_header, get32_header, nlen_header _ _ _ _ h.name,
    plen_header _ _ _ _ h.payload, if_neg h.bounds, hfew]
  rw [if_neg (by rintro ⟨-, hnone⟩; cases hnone), if_neg (by simp), if_pos trivial]

/-- The same where the end of the file is not known: the body is then read short. -/
theorem readRec_cut_unknown (h : r.Fits) (hk : k < r.size) :
    readRec (r.bytes.take k) none = if k = 0 then .fileEnd else .bad := by
  have hlen := length_cut hk
  have hhdr : ((r.bytes.take k).take rhdrLen).length = min rhdrLen k := by
    rw [length_take, hlen]
  rw [readRec, if_neg (by rintro ⟨⟩)]
  by_cases hz : k = 0
  · rw [if_pos hz, if_pos ⟨by rw [hhdr, hz]; rfl, rfl⟩]
  rw [if_neg hz, if_neg (by rintro ⟨hno, -⟩; rw [hhdr] at hno; unfold rhdrLen at hno; omega)]
  by_cases hshort : k < rhdrLen
  · rw [if_pos]
    left
    omega
  have heq := take_header_cut r (le_of_not_gt hshort)
  simp only [heq, length_header, get32_header, nlen_header _ _ _ _ h.name,
    plen_header _ _ _ _ h.payload, if_neg h.bounds]
  rw [if_neg (by simp), Option.any_none, if_neg Bool.false_ne_true, if_pos]
  left
  rw [length_take, length_drop, hlen]
  unfold Record.size at hk
  omega

/-- The clean end of a file is where nothing is left of it. -/
theorem readRec_fileEnd {n : ℕ} (h : readRec f (some n) = .fileEnd) : n = 0 := by
  by_contra hne
  unfold readRec at h
  rw [if_neg (by simpa using hne)] at h
  dsimp only at h
  split at h
  · rename_i hnone
    cases hnone.2
  split at h
  · cases h
  split at h
  · cases h
  split at h
  · cases h
  split at h <;> cases h

/-- What a record that verifies says about the stream it was read from. -/
theorem readRec_ok {raw : Raw} (h : readRec f left = .ok raw) :
    get32 f = recMagic ∧ raw.size ≤ f.length ∧ (∀ n ∈ left, raw.size ≤ n) ∧
      raw.nlen ≤ maxName ∧ raw.plen ≤ maxPayload := by
  unfold readRec at h
  dsimp only at h
  split at h
  · cases h
  split at h
  · cases h
  split at h
  · cases h
  rename_i hhdr
  split at h
  · cases h
  rename_i hbounds
  split at h
  · cases h
  rename_i hleft
  split at h
  · cases h
  rename_i hbody
  cases h
  rw [not_or, not_not, not_not] at hhdr
  rw [not_or, not_not] at hbody
  rw [not_or, not_lt, not_lt] at hbounds
  refine ⟨?_, ?_, ?_, hbounds⟩
  · have htake : (f.take rhdrLen).take 4 = f.take 4 := take_take ..
    rw [← hhdr.2, get32, get32, htake]
  · have hlen := hbody.1
    rw [length_take, length_drop] at hlen
    unfold Raw.size
    dsimp only
    omega
  · rintro n rfl
    simpa [Raw.size] using hleft

end Records

end Gptps.JournalFormat
