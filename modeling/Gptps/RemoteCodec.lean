import Gptps.LittleEndian
import Mathlib.Tactic.SplitIfs

/-!
# The remote wire codec

A frame is a header of 24 bytes and a payload. Every number is written byte by byte, most
significant first. The payload of a request is the length of the task's name, the name and the
item, so that no peer chooses where a string ends. A buffer pointer is `none` where it is NULL.
-/

namespace Gptps.RemoteCodec

open LittleEndian List Option

/-- Bytes of a buffer. -/
abbrev Bytes := List UInt8

/-- `GPTPS_REMOTE_MAGIC` -/
def remoteMagic : BitVec 32 := 0x47505452

/-- `GPTPS_REMOTE_VERSION` -/
def remoteVersion : BitVec 16 := 1

/-- `GPTPS_REMOTE_HDR_SIZE` -/
def remoteHdrSize : ℕ := 24

/-- `GPTPS_REMOTE_MAX_PAYLOAD`, the cap that stands for 0. -/
def remoteMaxPayload : BitVec 32 := 1024 * 1024

/-- What a frame is for. -/
inductive MsgKind
  /-- Run a task. -/
  | request
  /-- What came of it. -/
  | reply
  /-- Cancel a request. -/
  | cancel
  /-- Is the peer alive? -/
  | ping
  deriving DecidableEq, Repr

/-- The number of a kind on the wire. -/
def MsgKind.code : MsgKind → BitVec 16
  | .request => 1
  | .reply => 2
  | .cancel => 3
  | .ping => 4

/-- Why a call was refused. -/
inductive Refusal
  /-- `GPTPS_E_INVAL` -/
  | inval
  /-- `GPTPS_E_BUDGET`, with what `*len` is set to. -/
  | budget (need : ℕ)
  deriving DecidableEq, Repr

/-- `put_u16`: two bytes, the highest first. -/
def putU16 (v : BitVec 16) : Bytes := putBe 2 v

/-- `put_u32`: four bytes, the highest first. -/
def putU32 (v : BitVec 32) : Bytes := putBe 4 v

/-- `put_u64`: eight bytes, the highest first. -/
def putU64 (v : BitVec 64) : Bytes := putBe 8 v

/-- `get_u16`: two bytes read back. -/
def getU16 (p : Bytes) : BitVec 16 := getBe 2 p

/-- `get_u32`: four bytes read back. -/
def getU32 (p : Bytes) : BitVec 32 := getBe 4 p

/-- `get_u64`: eight bytes read back. -/
def getU64 (p : Bytes) : BitVec 64 := getBe 8 p

section Header

/-- `gptps_remote_hdr`: a decoded frame header. -/
structure Hdr where
  /-- Tells a peer that does not speak the protocol. -/
  magic : BitVec 32
  /-- The version of the protocol. -/
  version : BitVec 16
  /-- The kind, or a number that stands for none. -/
  kind : BitVec 16
  /-- Tells which request a reply is for. -/
  reqId : BitVec 64
  /-- The wire status of a reply. -/
  status : BitVec 32
  /-- How many bytes follow. -/
  payloadLen : BitVec 32
  deriving DecidableEq, Repr

/-- `gptps_remote_encode_hdr` -/
def encodeHdr (h : Hdr) : Bytes :=
  putU32 h.magic ++ (putU16 h.version ++ (putU16 h.kind ++ (putU64 h.reqId ++
    (putU32 h.status ++ putU32 h.payloadLen))))

/-- The fields `gptps_remote_decode_hdr` reads before it checks them. -/
def readHdr (p : Bytes) : Hdr where
  magic := getU32 p
  version := getU16 (p.drop 4)
  kind := getU16 (p.drop 6)
  reqId := getU64 (p.drop 8)
  status := getU32 (p.drop 16)
  payloadLen := getU32 (p.drop 20)

/-- The cap in force: 0 asks for the default. -/
def capOf (maxPayload : BitVec 32) : BitVec 32 := if maxPayload = 0 then remoteMaxPayload else maxPayload

/-- The kinds the switch of `gptps_remote_decode_hdr` lets pass. -/
def knownKind (k : BitVec 16) : Bool :=
  k = MsgKind.request.code ∨ k = MsgKind.reply.code ∨ k = MsgKind.cancel.code ∨ k = MsgKind.ping.code

/-- `gptps_remote_decode_hdr`, given the `len` bytes at `in` and whether there is an `out`. -/
def decodeHdr (inp : Option Bytes) (out : Bool) (maxPayload : BitVec 32) : Except Refusal Hdr :=
  match inp with
  | none => .error .inval
  | some p =>
    if out = false ∨ p.length < remoteHdrSize then .error .inval
    else
      let h := readHdr p
      if h.magic ≠ remoteMagic then .error .inval
      else if h.version ≠ remoteVersion then .error .inval
      else if knownKind h.kind = false then .error .inval
      else if h.payloadLen > capOf maxPayload then .error .inval
      else .ok h

/-- A header that may come over the wire under a cap. -/
def Framed (maxPayload : BitVec 32) (h : Hdr) : Prop :=
  h.magic = remoteMagic ∧ h.version = remoteVersion ∧ (∃ k : MsgKind, h.kind = k.code) ∧
    h.payloadLen ≤ capOf maxPayload

theorem knownKind_iff (k : BitVec 16) : knownKind k = true ↔ ∃ m : MsgKind, k = m.code := by
  unfold knownKind
  rw [decide_eq_true_eq]
  constructor
  · rintro (h | h | h | h)
    · exact ⟨.request, h⟩
    · exact ⟨.reply, h⟩
    · exact ⟨.cancel, h⟩
    · exact ⟨.ping, h⟩
  · rintro ⟨m, rfl⟩
    cases m <;> decide

/-- A header is taken exactly if it is framed. -/
theorem decodeHdr_iff {p : Bytes} (hp : remoteHdrSize ≤ p.length) (cap : BitVec 32) (h : Hdr) :
    decodeHdr (some p) true cap = .ok h ↔ Framed cap (readHdr p) ∧ h = readHdr p := by
  have hlong : ¬(true = false ∨ p.length < remoteHdrSize) := by
    rintro (hno | hlt)
    · cases hno
    · omega
  unfold decodeHdr Framed
  dsimp only
  rw [if_neg hlong, ← knownKind_iff]
  split_ifs with hm hv hk hl
  · simp [hm]
  · simp [hv]
  · simp [hk]
  · have hno : ¬(readHdr p).payloadLen ≤ capOf cap := BitVec.not_le.mpr hl
    simp [hno]
  · simp only [not_not, Bool.not_eq_false] at hm hv hk
    have hle : (readHdr p).payloadLen ≤ capOf cap := BitVec.not_lt.mp hl
    simp [hm, hv, hk, hle, eq_comm]

/-- Stepping over a number. -/
theorem drop_putBe {n m : ℕ} (hn : n ≤ m) (v : BitVec (8 * n)) (r : Bytes) :
    (putBe n v ++ r).drop m = r.drop (m - n) := by
  rw [drop_append, length_putBe, drop_eq_nil_of_le (by rwa [length_putBe]), nil_append]

theorem length_encodeHdr (h : Hdr) : (encodeHdr h).length = remoteHdrSize := by
  rfl

/-- A header reads back as it was written. -/
theorem readHdr_encodeHdr (h : Hdr) : readHdr (encodeHdr h) = h := by
  have hlast : getBe 4 (putBe 4 h.payloadLen) = h.payloadLen := by
    simpa using getBe_putBe 4 h.payloadLen []
  simp only [readHdr, encodeHdr, putU16, putU32, putU64, getU16, getU32, getU64, drop_putBe, getBe_putBe,
    Nat.reduceLeDiff, Nat.reduceSub, drop_zero, hlast]

/-- The header of any 24 bytes is written back as these bytes. -/
theorem encodeHdr_readHdr {p : Bytes} (hp : p.length = remoteHdrSize) : encodeHdr (readHdr p) = p := by
  have hlen : p.length = 24 := hp
  have hput : ∀ n m, m + n ≤ 24 → putBe n (getBe n (p.drop m)) = (p.drop m).take n := fun n m hle =>
    putBe_getBe (by rw [length_drop]; omega)
  have hjoin : p.take (4 + (2 + (2 + (8 + (4 + 4))))) = p := take_of_length_le (le_of_eq hlen)
  rw [take_add, take_add, take_add, take_add, take_add] at hjoin
  simp only [drop_drop, Nat.reduceAdd] at hjoin
  have hfirst := hput 4 0 (by omega)
  rw [drop_zero] at hfirst
  simp only [encodeHdr, readHdr, putU16, putU32, putU64, getU16, getU32, getU64]
  rw [hfirst, hput 2 4 (by omega), hput 2 6 (by omega), hput 8 8 (by omega), hput 4 16 (by omega),
    hput 4 20 (by omega)]
  exact hjoin

end Header

section Requests

/-- `strlen` of the string at some bytes. -/
def strlen (s : Bytes) : ℕ := (s.takeWhile (· ≠ 0)).length

/-- `gptps_remote_encode_request` where `size_t` has `w` bits: the bytes put into the buffer and what
`*len` is set to. -/
def encodeRequest (w : ℕ) (task item : Option Bytes) (itemLen : ℕ) (buf : Bool) (len : Option ℕ) :
    Except Refusal (Bytes × ℕ) :=
  match task, len with
  | some t, some n =>
    if buf = false then .error .inval
    else if itemLen ≠ 0 ∧ item = none then .error .inval
    else
      let tlen := strlen t
      -- summed in 64 bits
      let total := (4 + tlen + itemLen) % 2 ^ 64
      if total > 0xFFFFFFFF then .error .inval
      else
        let need := total % 2 ^ w
        if n < need then .error (.budget need)
        else .ok (putU32 (BitVec.ofNat 32 tlen) ++ (t.take tlen ++ (item.getD []).take itemLen), need)
  | _, _ => .error .inval

/-- The parts of a request, borrowed from its frame; an empty item is NULL. -/
structure Request where
  /-- The name of the task. -/
  task : Bytes
  /-- The item. -/
  item : Option Bytes
  deriving DecidableEq, Repr

/-- `gptps_remote_decode_request`, given the `len` bytes at `buf` and whether all four outputs are
there. -/
def decodeRequest (buf : Option Bytes) (outs : Bool) : Except Refusal Request :=
  match buf with
  | none => .error .inval
  | some p =>
    if outs = false then .error .inval
    else if p.length < 4 then .error .inval
    else
      let tlen := (getU32 p).toNat
      if tlen > p.length - 4 then .error .inval
      else .ok ⟨(p.drop 4).take tlen, if p.length - 4 - tlen ≠ 0 then some (p.drop (4 + tlen)) else none⟩

/-- A frame is the length of the name, the name and the item. -/
structure Parted (p : Bytes) (r : Request) : Prop where
  /-- The length is there. -/
  long : 4 ≤ p.length
  /-- It is that of the name. -/
  task : r.task.length = (getU32 p).toNat
  /-- The parts make up the frame. -/
  parts : p = p.take 4 ++ (r.task ++ r.item.getD [])
  /-- Only an item with bytes is one. -/
  item : r.item ≠ some []

/-- The frames that are taken, and the parts they are taken for. -/
theorem decodeRequest_iff (p : Bytes) (r : Request) : decodeRequest (some p) true = .ok r ↔ Parted p r := by
  unfold decodeRequest
  dsimp only
  rw [if_neg Bool.true_eq_false.mp]
  constructor
  · intro h
    split_ifs at h with hshort hover hmore
    · cases h
      have hsplit : p.drop (4 + (getU32 p).toNat) = (p.drop 4).drop (getU32 p).toNat := by
        rw [drop_drop]
      refine ⟨by omega, ?_, ?_, fun hnil => ?_⟩
      · rw [length_take, length_drop]
        omega
      · rw [getD_some, hsplit, take_append_drop, take_append_drop]
      · have hlen := congrArg length (some.inj hnil)
        rw [length_drop, length_nil] at hlen
        omega
    · cases h
      have hall : (p.drop 4).take (getU32 p).toNat = p.drop 4 :=
        take_of_length_le (by rw [length_drop]; omega)
      refine ⟨by omega, ?_, ?_, nofun⟩
      · rw [hall, length_drop]
        omega
      · rw [hall, getD_none, append_nil, take_append_drop]
  · rintro ⟨hlong, htask, hparts, hitem⟩
    have hrest : p.drop 4 = r.task ++ r.item.getD [] :=
      append_cancel_left ((take_append_drop 4 p).trans hparts)
    have hlen := congrArg length hrest
    rw [length_drop, length_append, htask] at hlen
    have hname : (p.drop 4).take (getU32 p).toNat = r.task := by
      rw [hrest, take_left' htask]
    have hleft : p.drop (4 + (getU32 p).toNat) = r.item.getD [] := by
      rw [← drop_drop, hrest, drop_left' htask]
    rw [if_neg (by omega), if_neg (by omega), hname, hleft]
    obtain ⟨task, item⟩ := r
    rcases item with _ | _ | ⟨b, bs⟩
    · rw [if_neg (by simp at hlen ⊢; omega)]
    · exact absurd rfl hitem
    · rw [if_pos (by simp at hlen ⊢; omega), getD_some]

/-- The bytes of a name and an item, of lengths a caller can have: each fits a `size_t`, and where that
has 64 bits the two and the length of the name do not fill the whole address space. -/
structure Held (w : ℕ) (name : Bytes) (itemLen : ℕ) : Prop where
  /-- The string ends where its NUL is. -/
  ended : 0 ∉ name
  /-- The name. -/
  task : name.length < 2 ^ w
  /-- The item. -/
  item : itemLen < 2 ^ w
  /-- Both. -/
  room : 4 + name.length + itemLen < 2 ^ 64

theorem strlen_name {name : Bytes} (more : Bytes) (h : 0 ∉ name) :
    strlen (name ++ 0 :: more) = name.length := by
  have hall : ∀ b ∈ name, decide (b ≠ 0) = true := fun b hb =>
    decide_eq_true fun hzero => h (hzero ▸ hb)
  rw [strlen, takeWhile_append_of_pos hall, takeWhile_cons_of_neg (by decide), append_nil]

/-- What a request of a name and an item answers. -/
theorem encodeRequest_eq {w : ℕ} (hw : w = 32 ∨ w = 64) {name : Bytes} (more : Bytes) {item : Option Bytes}
    {itemLen : ℕ} (h : Held w name itemLen) (hitem : itemLen ≤ (item.getD []).length) (len : ℕ) :
    encodeRequest w (some (name ++ 0 :: more)) item itemLen true (some len) =
      if 4 + name.length + itemLen > 0xFFFFFFFF then .error .inval
      else if len < 4 + name.length + itemLen then .error (.budget (4 + name.length + itemLen))
      else .ok (putU32 (BitVec.ofNat 32 name.length) ++ (name ++ (item.getD []).take itemLen),
        4 + name.length + itemLen) := by
  have hthere : ¬(itemLen ≠ 0 ∧ item = none) := by
    rintro ⟨hne, rfl⟩
    exact hne (Nat.le_zero.mp hitem)
  unfold encodeRequest
  dsimp only
  rw [if_neg Bool.true_eq_false.mp, if_neg hthere, strlen_name more h.ended, Nat.mod_eq_of_lt h.room,
    take_left' rfl]
  by_cases hbig : 4 + name.length + itemLen > 0xFFFFFFFF
  · rw [if_pos hbig, if_pos hbig]
  · have hneed : (4 + name.length + itemLen) % 2 ^ w = 4 + name.length + itemLen := by
      refine Nat.mod_eq_of_lt ?_
      rcases hw with rfl | rfl <;> omega
    rw [if_neg hbig, if_neg hbig, hneed]

end Requests

/-- A header comes back from its bytes exactly if it has the magic, the version, a known kind and a
length within the cap, and any header's bytes are those it came from. A request is refused with the
size it needs or because no header can frame it, or its frame is read as its name and item; and the
frames that are read are exactly those whose name fits, cut into their parts. -/
theorem codec_exact {w : ℕ} (hw : w = 32 ∨ w = 64) :
    (∀ h h' cap, decodeHdr (some (encodeHdr h)) true cap = .ok h' ↔ Framed cap h ∧ h' = h) ∧
    (∀ p h cap, p.length = remoteHdrSize → decodeHdr (some p) true cap = .ok h → encodeHdr h = p) ∧
    (∀ name more item itemLen len, Held w name itemLen → itemLen ≤ (item.getD []).length →
      let answer := encodeRequest w (some (name ++ 0 :: more)) item itemLen true (some len)
      let need := 4 + name.length + itemLen
      (0xFFFFFFFF < need ∧ answer = .error .inval) ∨
      (need ≤ 0xFFFFFFFF ∧ len < need ∧ answer = .error (.budget need)) ∨
      need ≤ 0xFFFFFFFF ∧ need ≤ len ∧ ∃ b r, answer = .ok (b, need) ∧ b.length = need ∧
        decodeRequest (some b) true = .ok r ∧ r.task = name ∧ r.item.getD [] = (item.getD []).take itemLen) ∧
    ∀ p r, decodeRequest (some p) true = .ok r ↔ Parted p r := by
  refine ⟨fun h h' cap => ?_, fun p h cap hp hd => ?_, fun name more item itemLen len hheld hitem => ?_,
    decodeRequest_iff⟩
  · rw [decodeHdr_iff (le_of_eq (length_encodeHdr h).symm), readHdr_encodeHdr]
  · obtain ⟨-, rfl⟩ := (decodeHdr_iff (le_of_eq hp.symm) cap h).mp hd
    exact encodeHdr_readHdr hp
  · rw [encodeRequest_eq hw more hheld hitem]
    split_ifs with hbig hsmall
    · exact .inl ⟨hbig, rfl⟩
    · exact .inr (.inl ⟨by omega, hsmall, rfl⟩)
    · refine .inr (.inr ⟨by omega, by omega, ?_⟩)
      -- an empty item is read as none
      refine ⟨_, ⟨name, if itemLen = 0 then none else some ((item.getD []).take itemLen)⟩, rfl, ?_,
        (decodeRequest_iff _ _).mpr ⟨?_, ?_, ?_, ?_⟩, rfl, ?_⟩
      · rw [length_append, length_append, length_take_of_le hitem, putU32, length_putBe]
        omega
      · rw [length_append, putU32, length_putBe]
        omega
      · rw [getU32, putU32, getBe_putBe, BitVec.toNat_ofNat, Nat.mod_eq_of_lt (by omega)]
      · split_ifs with hzero
        · rw [hzero, take_zero]
          rfl
        · rfl
      · split_ifs with hzero
        · nofun
        · intro hnil
          have hlen := congrArg length (some.inj hnil)
          rw [length_take_of_le hitem] at hlen
          exact hzero hlen
      · split_ifs with hzero
        · rw [hzero, take_zero]
          rfl
        · rfl

/-- A request that fits its buffer is read as it was written. -/
theorem codec_exact_echo :
    ∃ b r, encodeRequest 64 (some [101, 0]) (some [7]) 1 true (some 16) = .ok (b, 6) ∧
    decodeRequest (some b) true = .ok r ∧ r.task = [101] ∧ r.item.getD [] = [7] := by
  have hheld : Held 64 [101] 1 := ⟨by decide, by decide, by decide, by decide⟩
  rcases (codec_exact (.inr rfl)).2.2.1 [101] [] (some [7]) 1 16 hheld (by decide) with h | h | h
  · exact absurd h.1 (by decide)
  · exact absurd h.2.1 (by decide)
  · obtain ⟨-, -, b, r, hb, -, hr, ht, hi⟩ := h
    exact ⟨b, r, hb, hr, ht, hi⟩

end Gptps.RemoteCodec
