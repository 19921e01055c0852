import Gptps.JournalReplay

/-!
# What replay makes of a torn and of a damaged journal

A journal is the file header and the records that were written. Cut anywhere past its header
it replays to the records that are whole in it. With one record damaged in place it replays to
the records before it and, unless the damaged header claims more bytes than the file holds, to
those after it.
-/

namespace Gptps.JournalDamage

open JournalFormat DurableRecords JournalReplay List Option

section Journals

/-- The bytes of some records in order. -/
def encode (rs : List Record) : Bytes := rs.flatMap Record.bytes

/-- The journal of some records. -/
def journal (rs : List Record) : Bytes := fileHeader ++ encode rs

/-- The numbers of the 'P' records rise above `last`. -/
def Rises : ℕ → List Record → Prop
  | _, [] => True
  | last, r :: rs => if r.type = typeP then last < r.seq ∧ Rises r.seq rs else Rises last rs

/-- Records the queue writes: each within the bounds, its name a C string, and the 'P' records
numbered upwards from 1. -/
structure WriterMade (rs : List Record) : Prop where
  /-- Every record is within the bounds. -/
  fits : ∀ r ∈ rs, r.Fits
  /-- No name holds a NUL. -/
  names : ∀ r ∈ rs, (0 : UInt8) ∉ r.name
  /-- The 'P' records rise. -/
  rises : Rises 0 rs

instance decidableRises : (last : ℕ) → (rs : List Record) → Decidable (Rises last rs)
  | _, [] => isTrue trivial
  | last, r :: rs =>
    have := decidableRises last rs
    have := decidableRises r.seq rs
    inferInstanceAs (Decidable (if r.type = typeP then last < r.seq ∧ Rises r.seq rs
      else Rises last rs))

instance (rs : List Record) : Decidable (WriterMade rs) :=
  decidable_of_iff ((∀ r ∈ rs, r.Fits) ∧ (∀ r ∈ rs, (0 : UInt8) ∉ r.name) ∧ Rises 0 rs)
    ⟨fun h => ⟨h.1, h.2.1, h.2.2⟩, fun h => ⟨h.fits, h.names, h.rises⟩⟩

/-- The records of `rs` that lie whole in the first `room` bytes. -/
def wholeWithin : ℕ → List Record → List Record
  | _, [] => []
  | room, r :: rs => if r.size ≤ room then r :: wholeWithin (room - r.size) rs else []

/-- The table that applying some records in order leaves. -/
def tableOf (rs : List Record) : DqTable := (rs.map Record.raw).foldl applyRec .fresh

/-- Records read from `base` on, each with its offset. -/
def placed : ℕ → List Record → List (ℕ × Raw)
  | _, [] => []
  | base, r :: rs => (base, r.raw) :: placed (base + r.size) rs

/-- The number of the last 'P' of some records, `last` without one. -/
def lastSeq : ℕ → List Record → ℕ
  | last, [] => last
  | last, r :: rs => lastSeq (if r.type = typeP then r.seq else last) rs

/-- The state of replay after some records more. -/
def takeAll (sc : Scan) (rs : List Record) : Scan := rs.foldl (fun sc r => sc.take r.raw) sc

variable {rs before after : List Record} {r : Record} {last : ℕ} {sc : Scan}

theorem encode_cons (r : Record) (rs : List Record) : encode (r :: rs) = r.bytes ++ encode rs :=
  flatMap_cons

theorem Rises.mono {last' : ℕ} (h : Rises last rs) (hle : last' ≤ last) : Rises last' rs := by
  induction rs with
  | nil => exact trivial
  | cons r rs ih =>
    rw [Rises] at h ⊢
    split_ifs at h ⊢ with hp
    · exact ⟨lt_of_le_of_lt hle h.1, h.2⟩
    · exact ih h

theorem rises_append (h : Rises last (before ++ after)) :
    Rises last before ∧ Rises (lastSeq last before) after := by
  induction before generalizing last with
  | nil => exact ⟨trivial, h⟩
  | cons r before ih =>
    rw [cons_append, Rises] at h
    rw [Rises, lastSeq]
    split_ifs at h ⊢ with hp
    · exact ⟨⟨h.1, (ih h.2).1⟩, (ih h.2).2⟩
    · exact ih h

/-- Without its first record a rising list still rises. -/
theorem Rises.tail (h : Rises last (r :: rs)) : Rises last rs := by
  rw [Rises] at h
  split_ifs at h with hp
  · exact h.2.mono (le_of_lt h.1)
  · exact h

/-- What taking some records does to the state of replay. -/
theorem takeAll_eq (hr : Rises sc.lastP rs) :
    takeAll sc rs = ⟨sc.pos + (encode rs).length, lastSeq sc.lastP rs,
      (rs.map Record.raw).foldl applyRec sc.table, sc.dmg, sc.applied ++ placed sc.pos rs⟩ := by
  induction rs generalizing sc with
  | nil => simp [takeAll, encode, lastSeq, placed]
  | cons r rs ih =>
    have hlast : (sc.take r.raw).lastP = if r.type = typeP then r.seq else sc.lastP := by
      rw [Rises] at hr
      split_ifs at hr with hp
      · exact (if_pos ⟨hp, hr.1⟩).trans (if_pos hp).symm
      · exact (if_neg fun h => hp h.1).trans (if_neg hp).symm
    have hrest : Rises (sc.take r.raw).lastP rs := by
      rw [hlast]
      rw [Rises] at hr
      split_ifs at hr ⊢ with hp
      · exact hr.2
      · exact hr
    have hsplit : takeAll sc (r :: rs) = takeAll (sc.take r.raw) rs := rfl
    rw [hsplit, ih hrest, hlast, encode_cons, length_append, length_bytes]
    simp only [Scan.take, size_raw, lastSeq, placed, map_cons, foldl_cons,
      append_assoc, cons_append, nil_append, add_assoc]

end Journals

section Loop

variable {f rest : Bytes} {fend : Option ℕ} {sc sc' : Scan} {rs : List Record} {r : Record}

/-- A record that verifies and may stand where it is, is applied. -/
theorem replayStep_record (hend : EndOf f fend) (hf : f.drop sc.pos = r.bytes ++ rest)
    (hfit : r.Fits) (hseq : r.type = typeP → sc.lastP < r.seq) :
    replayStep f fend sc = (sc.take r.raw, true) := by
  have hlen : f.length - sc.pos = r.size + rest.length := by
    rw [← length_drop, hf, length_append, length_bytes]
  have hread : readRec (f.drop sc.pos) (fend.map (· - sc.pos)) = .ok r.raw := by
    rw [hf]
    refine readRec_bytes hfit rest fun n hn => ?_
    obtain ⟨stop, hstop, rfl⟩ := map_eq_some_iff.mp hn
    rw [hend stop hstop]
    omega
  have hgood : ¬(r.raw.seq > maxSeq ∨ (r.raw.type = typeP ∧ r.raw.seq ≤ sc.lastP)) := by
    rintro (hbig | ⟨hp, hle⟩)
    · exact Nat.not_lt.mpr hfit.seq hbig
    · exact Nat.not_lt.mpr hle (hseq hp)
  unfold replayStep
  rw [hread]
  exact if_neg hgood

/-- Replay applies the records of a stream one after the other. -/
theorem ends_records (hend : EndOf f fend) (hf : f.drop sc.pos = encode rs ++ rest)
    (hfit : ∀ r ∈ rs, r.Fits) (hr : Rises sc.lastP rs) (h : Ends f fend (takeAll sc rs) sc') :
    Ends f fend sc sc' := by
  induction rs generalizing sc with
  | nil => exact h
  | cons r rs ih =>
    rw [encode_cons, append_assoc] at hf
    have hstep : replayStep f fend sc = (sc.take r.raw, true) :=
      replayStep_record hend hf (hfit r mem_cons_self)
        (fun hp => by rw [Rises, if_pos hp] at hr; exact hr.1)
    refine .step hstep (ih ?_ (fun x hx => hfit x (mem_cons_of_mem r hx)) ?_ h)
    · have hpos : (sc.take r.raw).pos = sc.pos + r.bytes.length := by
        rw [length_bytes]
        rfl
      rw [hpos, ← drop_drop, hf, drop_left]
    · rw [Rises] at hr
      split_ifs at hr with hp
      · have hlast : (sc.take r.raw).lastP = r.seq := if_pos ⟨hp, hr.1⟩
        rw [hlast]
        exact hr.2
      · have hlast : (sc.take r.raw).lastP = sc.lastP := if_neg fun h => hp h.1
        rw [hlast]
        exact hr

/-- At the end of the file replay ends. -/
theorem replayStep_end (hend : EndOf f fend) (hf : f.drop sc.pos = []) :
    replayStep f fend sc = (sc, false) := by
  have hlen : f.length - sc.pos = 0 := by
    rw [← length_drop, hf]
    rfl
  unfold replayStep
  rw [hf]
  cases fend with
  | none => rfl
  | some stop =>
    rw [map_some, hend stop rfl, hlen]
    rfl

end Loop

section Tail

variable {rs : List Record} {f : Bytes} {fend : Option ℕ} {sc : Scan} {r : Record}

/-- A prefix of some records: those that lie whole in it, and a beginning of another. -/
theorem encode_take (rs : List Record) (k : ℕ) :
    ∃ tail, (encode rs).take k = encode (wholeWithin k rs) ++ tail ∧
      (tail = [] ∨ ∃ r ∈ rs, ∃ j < r.size, tail = r.bytes.take j) := by
  induction rs generalizing k with
  | nil => exact ⟨[], take_nil, .inl rfl⟩
  | cons r rs ih =>
    rw [encode_cons, take_append, length_bytes, wholeWithin]
    by_cases hk : r.size ≤ k
    · obtain ⟨tail, htake, htail⟩ := ih (k - r.size)
      have hall : r.bytes.take k = r.bytes :=
        take_of_length_le (le_trans (le_of_eq (length_bytes r)) hk)
      refine ⟨tail, ?_, htail.imp_right ?_⟩
      · rw [if_pos hk, encode_cons, hall, htake, append_assoc]
      · rintro ⟨x, hx, hcut⟩
        exact ⟨x, mem_cons_of_mem r hx, hcut⟩
    · refine ⟨r.bytes.take k, ?_, .inr ⟨r, mem_cons_self, k, lt_of_not_ge hk, rfl⟩⟩
      have hnone : k - r.size = 0 := by omega
      rw [if_neg hk, hnone, take_zero, append_nil]
      rfl

theorem wholeWithin_subset (k : ℕ) (rs : List Record) : wholeWithin k rs ⊆ rs := by
  induction rs generalizing k with
  | nil => exact .refl _
  | cons r rs ih =>
    rw [wholeWithin]
    split_ifs
    · exact cons_subset_cons r (ih _)
    · exact nil_subset _

theorem Rises.wholeWithin {last : ℕ} (h : Rises last rs) (k : ℕ) :
    Rises last (wholeWithin k rs) := by
  induction rs generalizing last k with
  | nil => exact trivial
  | cons r rs ih =>
    rw [JournalDamage.wholeWithin]
    split_ifs with hk
    · rw [Rises] at h ⊢
      split_ifs at h ⊢ with hp
      · exact ⟨h.1, ih h.2 _⟩
      · exact ih h _
    · exact trivial

/-- At a record that was cut short replay ends and applies nothing. -/
theorem replayStep_cut (hend : EndOf f fend) (hfit : r.Fits) {j : ℕ} (hj : j < r.size)
    (hf : f.drop sc.pos = r.bytes.take j) :
    ∃ dmg, replayStep f fend sc = ({ sc with dmg := dmg }, false) := by
  have hlen : f.length - sc.pos = j := by
    rw [← length_drop, hf, length_take, length_bytes]
    omega
  unfold replayStep
  rw [hf]
  cases fend with
  | none =>
    rw [map_none, readRec_cut_unknown hfit hj]
    by_cases hz : j = 0
    · exact ⟨sc.dmg, by rw [if_pos hz]⟩
    · exact ⟨sc.dmg, by rw [if_neg hz]; rfl⟩
  | some stop =>
    obtain rfl : stop = f.length := hend stop rfl
    rw [map_some, hlen, readRec_cut hfit hj]
    by_cases hz : j = 0
    · exact ⟨sc.dmg, by rw [if_pos hz]⟩
    rw [if_neg hz]
    by_cases hshort : j < rhdrLen
    · -- too few bytes are left for a record to stand anywhere in them
      have hnone : resync f sc.pos f.length sc.lastP = none := by
        rw [eq_none_iff_forall_ne_some]
        intro off hoff
        obtain ⟨hlt, hacc, -⟩ := resync_iff.mp hoff
        have hroom := (accepts_magic hacc).2
        omega
      refine ⟨sc.dmg, ?_⟩
      rw [if_pos hshort]
      simp only [Scan.skipBad, hnone]
    · rw [if_neg hshort]
      unfold Scan.skipBad
      dsimp only
      cases hre : resync f sc.pos f.length sc.lastP with
      | none => exact ⟨sc.dmg, rfl⟩
      | some next => exact ⟨_, if_pos rfl⟩

/-- A journal cut anywhere past its file header replays to the records that lie whole in what
is left, and applies nothing of the record that was cut. -/
theorem replay_torn_tail (h : WriterMade rs) {k : ℕ} (hk : fhdrLen ≤ k) (knowsEnd : Bool) :
    ∃ sc, replay (some ((journal rs).take k)) knowsEnd = .done sc ∧
      sc.table = tableOf (wholeWithin (k - fhdrLen) rs) ∧
      sc.applied = placed fhdrLen (wholeWithin (k - fhdrLen) rs) := by
  obtain ⟨tail, htake, htail⟩ := encode_take rs (k - fhdrLen)
  have hhead : fileHeader.take k = fileHeader := take_of_length_le hk
  have hcut : (journal rs).take k =
      fileHeader ++ (encode (wholeWithin (k - fhdrLen) rs) ++ tail) := by
    rw [journal, take_append, hhead, ← htake]
    rfl
  rw [hcut]
  generalize hws : wholeWithin (k - fhdrLen) rs = ws at htake
  have hfit : ∀ r ∈ ws, r.Fits := fun r hr =>
    h.fits r (wholeWithin_subset (k - fhdrLen) rs (hws ▸ hr))
  have hrise : Rises 0 ws := hws ▸ h.rises.wholeWithin (k - fhdrLen)
  have hend := endOf_known (fileHeader ++ (encode ws ++ tail)) knowsEnd
  have hall := @takeAll_eq ws .start hrise
  have hlast : (fileHeader ++ (encode ws ++ tail)).drop (takeAll .start ws).pos = tail := by
    have hpos : (takeAll .start ws).pos = (fileHeader ++ encode ws).length := by
      rw [hall, length_append]
      rfl
    rw [hpos, ← append_assoc, drop_left]
  have hstop : ∃ dmg, replayStep (fileHeader ++ (encode ws ++ tail))
      (knownEnd (fileHeader ++ (encode ws ++ tail)) knowsEnd) (takeAll .start ws) =
        ({ takeAll .start ws with dmg := dmg }, false) := by
    rcases htail with htail | ⟨r, hr, j, hj, htail⟩
    · exact ⟨_, replayStep_end hend (hlast.trans htail)⟩
    · exact replayStep_cut hend (h.fits r hr) hj (hlast.trans htail)
  obtain ⟨dmg, hdmg⟩ := hstop
  refine ⟨_, replay_eq knowsEnd (ends_records hend (drop_left' rfl) hfit hrise (.stop hdmg)), ?_, ?_⟩
  · rw [hall]
    rfl
  · rw [hall]
    rfl

/-- The work of a record that holds the image of a marker. -/
def samplePayload : Bytes := (marker typeD 1).bytes

/-- Two records, the second with a marker about the first in its payload. -/
def sampleRecords : List Record :=
  [⟨typeP, 1, [97], [1, 2, 3]⟩, ⟨typeP, 2, [98], samplePayload⟩]

/-- A journal cut one byte before the end of its second record, past the marker in it. -/
theorem replay_torn_tail_sample :
    ∃ sc, replay (some ((journal sampleRecords).take 84)) true = .done sc ∧
      sc.table.recs.map DqRec.done = [false] := by
  obtain ⟨sc, hdone, htable, -⟩ :=
    @replay_torn_tail sampleRecords (by decide +kernel) 84 (by decide) true
  refine ⟨sc, hdone, ?_⟩
  rw [htable]
  decide +kernel

end Tail

section Damaged

variable {lastP o : ℕ}

/-- The journal of `before`, a damaged record and `after`, with the bytes `d` in the place of the
damaged record's. -/
def damaged (before : List Record) (d : Bytes) (after : List Record) : Bytes :=
  fileHeader ++ (encode before ++ (d ++ encode after))

/-- The offset of the damaged record. -/
def damageAt (before : List Record) : ℕ := fhdrLen + (encode before).length

/-- The record that reads as one that verifies at an offset. -/
def Verifies (f : Bytes) (off : ℕ) : Prop :=
  ∃ r, readRec (f.drop off) (some (f.length - off)) = .ok r

instance (f : Bytes) (off : ℕ) : Decidable (Verifies f off) :=
  match h : readRec (f.drop off) (some (f.length - off)) with
  | .ok r => isTrue ⟨r, h⟩
  | .fileEnd => isFalse fun ⟨_, hr⟩ => by rw [h] at hr; cases hr
  | .bad => isFalse fun ⟨_, hr⟩ => by rw [h] at hr; cases hr
  | .torn => isFalse fun ⟨_, hr⟩ => by rw [h] at hr; cases hr

/-- A readable header at `off` claims more bytes than remain in the file. -/
def ClaimsMore (f : Bytes) (off : ℕ) : Prop :=
  off + rhdrLen ≤ f.length ∧ get32 (f.drop off) = recMagic ∧
    get16 (f.drop (off + 6)) ≤ maxName ∧ get32 (f.drop (off + 8)) ≤ maxPayload ∧
    f.length - off <
      rhdrLen + (get16 (f.drop (off + 6)) + get32 (f.drop (off + 8)) + 4)

instance (f : Bytes) (off : ℕ) : Decidable (ClaimsMore f off) :=
  inferInstanceAs (Decidable (_ ∧ _))

variable {before after : List Record} {r : Record} {d f : Bytes} {off : ℕ}

/-- Only such a header is read as torn. -/
theorem readRec_torn_iff :
    readRec (f.drop off) (some (f.length - off)) = .torn ↔ ClaimsMore f off := by
  have hfield {i n : ℕ} (h : i + n ≤ rhdrLen) :
      (((f.drop off).take rhdrLen).drop i).take n = (f.drop (off + i)).take n := by
    rw [drop_take, take_take, drop_drop, min_eq_left (by omega)]
  have hmagic : get32 ((f.drop off).take rhdrLen) = get32 (f.drop off) := by
    have := @hfield 0 4 (by decide)
    rw [drop_zero, add_zero] at this
    rw [get32, this, get32]
  have hnlen : get16 (((f.drop off).take rhdrLen).drop 6) = get16 (f.drop (off + 6)) := by
    rw [get16, hfield (by decide), get16]
  have hplen : get32 (((f.drop off).take rhdrLen).drop 8) = get32 (f.drop (off + 8)) := by
    rw [get32, hfield (by decide), get32]
  have hlen : ((f.drop off).take rhdrLen).length = min rhdrLen (f.length - off) := by
    rw [length_take, length_drop]
  unfold readRec ClaimsMore
  dsimp only
  rw [hmagic, hnlen, hplen, hlen, any_some]
  have hrhdr : rhdrLen = 20 := rfl
  split_ifs with h1 h2 h3 h4 h5 h6
  · refine ⟨fun h => (by cases h), fun h => ?_⟩
    have := some.inj h1
    omega
  · cases h2.2
  · refine ⟨fun h => (by cases h), fun h => ?_⟩
    obtain ⟨hle, hm, -⟩ := h
    rcases h3 with h3 | h3
    · omega
    · exact absurd hm h3
  · refine ⟨fun h => (by cases h), fun h => ?_⟩
    obtain ⟨-, -, hn, hp, -⟩ := h
    omega
  · refine ⟨fun _ => ?_, fun _ => rfl⟩
    rw [not_or, not_not, not_not] at h3
    rw [decide_eq_true_eq] at h5
    exact ⟨by omega, h3.2, by omega, by omega, h5⟩
  all_goals
    refine ⟨fun h => (by cases h), fun h => ?_⟩
    exact absurd (decide_eq_true h.2.2.2.2) h5

/-- A written record may stand where it is. -/
theorem accepts_record {rest : Bytes} (hf : f.drop off = r.bytes ++ rest) (hfit : r.Fits)
    (hseq : r.type = typeP → lastP < r.seq) : accepts f f.length lastP off = true := by
  have hlen : f.length - off = r.size + rest.length := by
    rw [← length_drop, hf, length_append, length_bytes]
  have hread : readRec (f.drop off) (some (f.length - off)) = .ok r.raw := by
    rw [hf]
    refine readRec_bytes hfit rest fun n hn => ?_
    rw [← some.inj hn]
    omega
  unfold accepts
  rw [hread]
  rw [Bool.not_eq_true', Bool.and_eq_false_iff, decide_eq_false_iff_not, decide_eq_false_iff_not,
    not_le]
  by_cases hp : r.type = typeP
  · exact .inr (hseq hp)
  · exact .inl hp

/-- Where the bytes do not verify nothing may stand. -/
theorem accepts_of_not_verifies (h : ¬Verifies f off) : accepts f f.length lastP off = false := by
  unfold accepts
  cases hread : readRec (f.drop off) (some (f.length - off)) with
  | ok r => exact absurd ⟨r, hread⟩ h
  | fileEnd | bad | torn => rfl

/-- The state of replay at the damaged record. -/
def reached (before : List Record) : Scan :=
  ⟨damageAt before, lastSeq 0 before, tableOf before, {}, placed fhdrLen before⟩

/-- A journal of records the queue wrote, the bytes of `r` changed in place. -/
structure Spoiled (before : List Record) (r : Record) (after : List Record) (f : Bytes) : Prop where
  /-- The records were written by the queue. -/
  made : WriterMade (before ++ r :: after)
  /-- The damage changed bytes in place. -/
  file : ∃ d, d.length = r.size ∧ f = damaged before d after

/-- A record has a length. -/
theorem lt_damage_end (before : List Record) (r : Record) :
    damageAt before < damageAt before + r.size :=
  Nat.lt_add_of_pos_right (lt_of_lt_of_le (by decide) (size_pos r))

section Spoiled

variable (h : Spoiled before r after f)

include h

theorem Spoiled.fits : (∀ x ∈ before, x.Fits) ∧ ∀ x ∈ after, x.Fits :=
  ⟨fun x hx => h.made.fits x (mem_append_left _ hx),
    fun x hx => h.made.fits x (mem_append_right _ (mem_cons_of_mem r hx))⟩

theorem Spoiled.rises : Rises 0 before ∧ Rises (lastSeq 0 before) after :=
  ⟨(rises_append h.made.rises).1, (rises_append h.made.rises).2.tail⟩

/-- Replay reaches the damaged record. -/
theorem Spoiled.ends {sc : Scan} (hrest : Ends f (some f.length) (reached before) sc) :
    Ends f (some f.length) .start sc := by
  obtain ⟨d, -, rfl⟩ := h.file
  refine ends_records (endOf_known _ true) (drop_left' rfl) h.fits.1 h.rises.1 ?_
  rw [takeAll_eq h.rises.1]
  exact hrest

/-- The file is as long as before the damage. -/
theorem Spoiled.length : f.length = damageAt before + r.size + (encode after).length := by
  obtain ⟨d, hd, rfl⟩ := h.file
  rw [damaged, length_append, length_append, length_append, hd, damageAt, add_assoc, add_assoc]
  rfl

/-- The records after the damage are as they were. -/
theorem Spoiled.drop_after : f.drop (damageAt before + r.size) = encode after := by
  obtain ⟨d, hd, rfl⟩ := h.file
  have hlen : damageAt before = (fileHeader ++ encode before).length := by
    rw [length_append]
    rfl
  rw [damaged, ← append_assoc, ← append_assoc, ← hd, hlen, ← length_append, drop_left]

/-- The record after the damage may stand where it is. -/
theorem Spoiled.next_accepted (hne : after ≠ []) :
    accepts f f.length (lastSeq 0 before) (damageAt before + r.size) = true := by
  obtain ⟨x, xs, rfl⟩ := exists_cons_of_ne_nil hne
  refine accepts_record (h.drop_after.trans (encode_cons x xs)) (h.fits.2 x mem_cons_self)
    fun hp => ?_
  have hrise := h.rises.2
  rw [Rises, if_pos hp] at hrise
  exact hrise.1

/-- The scan never runs past the end of the damaged record. -/
theorem Spoiled.resync_le {next : ℕ} (hoff : off < damageAt before + r.size)
    (hnext : resync f off f.length (lastSeq 0 before) = some next) :
    next ≤ damageAt before + r.size := by
  obtain ⟨-, hacc, hbefore⟩ := resync_iff.mp hnext
  by_cases hne : after = []
  · have hroom := (accepts_magic hacc).2
    rw [h.length, hne] at hroom
    exact le_trans (Nat.le_add_right ..) hroom
  · by_contra hlt
    have hno := hbefore _ hoff (lt_of_not_ge hlt)
    rw [h.next_accepted hne] at hno
    cases hno

/-- From the end of the damaged record on replay applies the records after it. -/
theorem Spoiled.ends_after {mid : Scan} (hpos : mid.pos = damageAt before + r.size)
    (hlast : mid.lastP = lastSeq 0 before) :
    Ends f (some f.length) mid (takeAll mid after) := by
  have hdrop : f.drop mid.pos = encode after ++ [] := by
    rw [hpos, h.drop_after, append_nil]
  have hnone : f.drop (takeAll mid after).pos = [] := by
    rw [takeAll_eq (hlast ▸ h.rises.2)]
    rw [← drop_drop, hdrop, append_nil, drop_length]
  exact ends_records (endOf_known _ true) hdrop h.fits.2 (hlast ▸ h.rises.2)
    (.stop (replayStep_end (endOf_known _ true) hnone))

/-- A damaged header that claims more bytes than remain ends the replay. -/
theorem Spoiled.ends_cut (hmore : ClaimsMore f (damageAt before)) :
    ∃ dmg, Ends f (some f.length) .start { reached before with dmg := dmg } ∧
      (after ≠ [] → 1 ≤ dmg.regions ∧ dmg.cut = true) := by
  have hstep : replayStep f (some f.length) (reached before) =
      (reached before).skipBad f (some f.length) true := by
    unfold replayStep reached
    rw [map_some, readRec_torn_iff.mpr hmore]
  unfold Scan.skipBad reached at hstep
  dsimp only at hstep
  cases hre : resync f (damageAt before) f.length (lastSeq 0 before) with
  | none =>
    rw [hre] at hstep
    refine ⟨{}, h.ends (.stop hstep), fun hne => ?_⟩
    have hno := resync_none hre (lt_damage_end before r)
    rw [h.next_accepted hne] at hno
    cases hno
  | some next =>
    rw [hre] at hstep
    refine ⟨_, h.ends (.stop (hstep.trans (if_pos rfl))), fun _ => ⟨?_, rfl⟩⟩
    exact Nat.le_add_left ..

/-- Other damage is confined: the replay goes on at the next record. -/
theorem Spoiled.ends_skip (hless : ¬ClaimsMore f (damageAt before))
    (hno : ∀ off, damageAt before ≤ off → off < damageAt before + r.size → ¬Verifies f off) :
    ∃ sc, Ends f (some f.length) .start sc ∧ sc.table = tableOf (before ++ after) ∧
      sc.applied = placed fhdrLen before ++ placed (damageAt before + r.size) after ∧
      sc.dmg.cut = false ∧ (after ≠ [] → 1 ≤ sc.dmg.regions) := by
  have hlt := lt_damage_end before r
  have hread : readRec (f.drop (damageAt before)) (some (f.length - damageAt before)) = .bad := by
    cases hread : readRec (f.drop (damageAt before)) (some (f.length - damageAt before)) with
    | ok raw => exact absurd ⟨raw, hread⟩ (hno _ le_rfl hlt)
    | bad => rfl
    | torn => exact absurd (readRec_torn_iff.mp hread) hless
    | fileEnd =>
      have hzero := readRec_fileEnd hread
      have hlen := h.length
      omega
  have hstep : replayStep f (some f.length) (reached before) =
      (reached before).skipBad f (some f.length) false := by
    unfold replayStep reached
    rw [map_some, hread]
  unfold Scan.skipBad reached at hstep
  dsimp only at hstep
  cases hre : resync f (damageAt before) f.length (lastSeq 0 before) with
  | none =>
    -- the last record: nothing stands behind it
    have hnil : after = [] := by
      by_contra hne
      have hnone := resync_none hre hlt
      rw [h.next_accepted hne] at hnone
      cases hnone
    rw [hre] at hstep
    refine ⟨_, h.ends (.stop hstep), ?_, ?_, rfl, fun hne => absurd hnil hne⟩
    · rw [hnil, append_nil]
    · rw [hnil]
      exact (append_nil _).symm
  | some next =>
    have hnext : next = damageAt before + r.size := by
      refine le_antisymm (h.resync_le hlt hre) (le_of_not_gt fun hin => ?_)
      obtain ⟨hafter, hacc, -⟩ := resync_iff.mp hre
      rw [accepts_of_not_verifies (hno next (le_of_lt hafter) hin)] at hacc
      cases hacc
    rw [hre] at hstep
    have hend := h.ends (.step (hstep.trans (if_neg Bool.false_ne_true)) (h.ends_after hnext rfl))
    rw [takeAll_eq h.rises.2] at hend
    refine ⟨_, hend, ?_, by rw [hnext], rfl, fun _ => Nat.le_add_left ..⟩
    rw [tableOf, tableOf, map_append, foldl_append]

end Spoiled

/-- A journal with one record damaged in place, where nothing in the record's bytes verifies any
more, read with its end known: the records before it are applied, those after it too unless the
damaged header claims more bytes than remain, and the damage is counted wherever a record follows
it. The scan finds the next record wherever it starts. -/
theorem replay_confines_damage (hmade : WriterMade (before ++ r :: after))
    (hd : d.length = r.size)
    (hno : ∀ off, damageAt before ≤ off → off < damageAt before + r.size →
      ¬Verifies (damaged before d after) off) :
    (∃ sc, replay (some (damaged before d after)) true = .done sc ∧
      (ClaimsMore (damaged before d after) (damageAt before) →
        sc.applied = placed fhdrLen before ∧ sc.table = tableOf before) ∧
      (¬ClaimsMore (damaged before d after) (damageAt before) →
        sc.applied = placed fhdrLen before ++ placed (damageAt before + r.size) after ∧
          sc.table = tableOf (before ++ after)) ∧
      (after ≠ [] → 1 ≤ sc.dmg.regions ∧
        (sc.dmg.cut = true ↔ ClaimsMore (damaged before d after) (damageAt before)))) ∧
    ∀ (g : Bytes) (bad off lastP : ℕ), bad < off → accepts g g.length lastP off = true →
      (∀ o, bad < o → o < off → accepts g g.length lastP o = false) →
        resync g bad g.length lastP = some off := by
  refine ⟨?_, fun g bad off lastP hlt hacc hbefore => resync_iff.mpr ⟨hlt, hacc, hbefore⟩⟩
  have h : Spoiled before r after (damaged before d after) := ⟨hmade, d, hd, rfl⟩
  by_cases hmore : ClaimsMore (damaged before d after) (damageAt before)
  · obtain ⟨dmg, hends, hcount⟩ := h.ends_cut hmore
    refine ⟨_, replay_eq true hends, fun _ => ?_, fun hless => absurd hmore hless,
      fun hne => ⟨(hcount hne).1, fun _ => hmore, fun _ => (hcount hne).2⟩⟩
    exact ⟨rfl, rfl⟩
  · obtain ⟨sc, hends, htable, happ, hcut, hcount⟩ := h.ends_skip hmore hno
    refine ⟨sc, replay_eq true hends, fun hless => absurd hless hmore,
      fun _ => ⟨happ, htable⟩, fun hne => ⟨hcount hne, fun hc => ?_, fun hc => absurd hc hmore⟩⟩
    rw [hcut] at hc
    cases hc

/-- Three records, the second without its first byte: the first and the third are applied. -/
theorem replay_confines_damage_sample :
    ∃ sc, replay (some (damaged [⟨typeP, 1, [97], []⟩]
        (0 :: (Record.bytes ⟨typeP, 2, [98], []⟩).tail) [⟨typeP, 3, [99], []⟩])) true = .done sc ∧
      sc.table.recs.map DqRec.seq = [1, 3] ∧ 1 ≤ sc.dmg.regions := by
  have hno : ∀ off < damageAt [⟨typeP, 1, [97], []⟩] + Record.size ⟨typeP, 2, [98], []⟩,
      damageAt [⟨typeP, 1, [97], []⟩] ≤ off → ¬Verifies (damaged [⟨typeP, 1, [97], []⟩]
        (0 :: (Record.bytes ⟨typeP, 2, [98], []⟩).tail) [⟨typeP, 3, [99], []⟩]) off := by
    decide +kernel
  obtain ⟨⟨sc, hdone, -, htable, hcount⟩, -⟩ := replay_confines_damage (by decide +kernel)
    (by decide +kernel) fun off hlo hhi => hno off hhi hlo
  refine ⟨sc, hdone, ?_, (hcount (cons_ne_nil _ _)).1⟩
  rw [(htable (by decide +kernel)).2]
  decide +kernel

/-- Where replay comes to from an offset on while it applies nothing: past a refused record, and
from bytes that do not verify to the next record that may stand where it is. -/
inductive Comes (f : Bytes) (lastP : ℕ) : ℕ → ℕ → Prop
  /-- It is there. -/
  | here (off : ℕ) : Comes f lastP off off
  /-- A refused record is skipped whole. -/
  | refused {off o : ℕ} {raw : Raw} (hread : readRec (f.drop off) (some (f.length - off)) = .ok raw)
      (hr : Refused lastP raw) (rest : Comes f lastP (off + raw.size) o) : Comes f lastP off o
  /-- The scan finds the next record. -/
  | scan {off next o : ℕ} (hread : readRec (f.drop off) (some (f.length - off)) = .bad)
      (hnext : resync f off f.length lastP = some next) (rest : Comes f lastP next o) :
      Comes f lastP off o

/-- A record that replay applies reads at an offset. -/
def Takes (f : Bytes) (lastP off : ℕ) : Prop :=
  ∃ raw, readRec (f.drop off) (some (f.length - off)) = .ok raw ∧ ¬Refused lastP raw

/-- Replay never comes back. -/
theorem Comes.le (h : Comes f lastP off o) : off ≤ o := by
  induction h with
  | here => exact le_rfl
  | refused _ _ _ ih => exact le_trans (Nat.le_add_right ..) ih
  | scan _ hnext _ ih => exact le_trans (le_of_lt (resync_iff.mp hnext).1) ih

/-- What was applied stays applied. -/
theorem Ends.applied {sc sc' : Scan} (h : Ends f (some f.length) sc sc') :
    sc.applied ⊆ sc'.applied := by
  refine h.keeps (P := fun mid => sc.applied ⊆ mid.applied) (fun hr hp => ?_) (.refl _)
  cases hr with
  | take => exact List.Subset.trans hp (subset_append_left ..)
  | refused | scan | stop => exact hp

/-- The table is what the applied records make. -/
theorem Ends.table {sc sc' : Scan} (h : Ends f (some f.length) sc sc')
    (ht : sc.table = (sc.applied.map Prod.snd).foldl applyRec .fresh) :
    sc'.table = (sc'.applied.map Prod.snd).foldl applyRec .fresh := by
  refine h.keeps (P := fun sc => sc.table = (sc.applied.map Prod.snd).foldl applyRec .fresh)
    (fun hr ht => ?_) ht
  cases hr with
  | take => rw [Scan.take, map_append, foldl_append, ← ht]; rfl
  | refused | scan | stop => exact ht

/-- Where `Comes` says replay comes to, it does. -/
theorem Comes.ends (h : Comes f lastP off o) {sc sc' : Scan} (hends : Ends f (some f.length) sc sc')
    (hpos : sc.pos = off) (hlast : sc.lastP = lastP) :
    ∃ mid, mid.pos = o ∧ mid.lastP = lastP ∧ Ends f (some f.length) mid sc' := by
  induction h generalizing sc with
  | here => exact ⟨sc, hpos, hlast, hends⟩
  | refused hread hr _ ih =>
    subst hpos hlast
    cases hends with
    | stop hstep =>
      cases replayStep_round hstep with
      | stop hno => exact absurd hread (hno _)
    | step hstep hrest =>
      cases replayStep_round hstep with
      | take hread' hr' => cases hread.symm.trans hread'; exact absurd hr hr'
      | refused hread' => cases hread.symm.trans hread'; exact ih hrest rfl rfl
      | scan hread' => cases hread.symm.trans hread'
  | scan hread hnext _ ih =>
    subst hpos hlast
    cases hends with
    | stop hstep =>
      cases replayStep_round hstep with
      | stop _ hno => cases (hno hread _ rfl).symm.trans hnext
    | step hstep hrest =>
      cases replayStep_round hstep with
      | take hread' | refused hread' => cases hread.symm.trans hread'
      | scan _ hend hnext' =>
        cases hend
        cases hnext.symm.trans hnext'
        exact ih hrest rfl rfl

/-- A record that reads where replay comes to is applied, unless it is refused. -/
theorem Takes.applied {sc sc' : Scan} (h : Takes f sc.lastP sc.pos)
    (hends : Ends f (some f.length) sc sc') : ∃ raw, (sc.pos, raw) ∈ sc'.applied := by
  obtain ⟨raw, hread, hr⟩ := h
  cases hends with
  | stop hstep =>
    cases replayStep_round hstep with
    | stop hno => exact absurd hread (hno _)
  | step hstep hrest =>
    cases replayStep_round hstep with
    | take => exact ⟨_, Ends.applied hrest (mem_append_right _ mem_cons_self)⟩
    | refused hread' hr' => cases hread.symm.trans hread'; exact absurd hr' hr
    | scan hread' => cases hread.symm.trans hread'

/-- Nothing was applied from the bytes between `start` and `fin`; the replay is past them, or came
from `start` to where it is. -/
structure Apart (f : Bytes) (lastP start fin : ℕ) (sc : Scan) : Prop where
  /-- What was applied. -/
  applied : ∀ p ∈ sc.applied, p.1 + p.2.size ≤ start ∨ fin ≤ p.1
  /-- Where the replay is. -/
  place : fin ≤ sc.pos ∨ sc.lastP = lastP ∧ ∀ o, Comes f lastP sc.pos o → Comes f lastP start o

/-- It stays so if no record that the replay comes to there is one it applies. -/
theorem Apart.round {start fin : ℕ} {sc sc' : Scan} {go : Bool}
    (hno : ∀ o < fin, Comes f lastP start o → ¬Takes f lastP o) (hr : Round f (some f.length) sc sc' go)
    (h : Apart f lastP start fin sc) : Apart f lastP start fin sc' := by
  cases hr with
  | take hread hr =>
    have hfin : fin ≤ sc.pos := by
      rcases h.place with hat | ⟨rfl, hat⟩
      · exact hat
      · exact le_of_not_gt fun hlt => hno _ hlt (hat _ (.here _)) ⟨_, hread, hr⟩
    refine ⟨fun p hp => ?_, .inl (le_trans hfin (Nat.le_add_right ..))⟩
    rcases mem_append.mp hp with hp | hp
    · exact h.applied p hp
    · obtain rfl := mem_singleton.mp hp
      exact .inr hfin
  | refused hread hr =>
    refine ⟨h.applied, h.place.imp (fun hle => le_trans hle (Nat.le_add_right ..)) ?_⟩
    rintro ⟨rfl, hat⟩
    exact ⟨rfl, fun o ho => hat o (.refused hread hr ho)⟩
  | scan hread hend hnext =>
    cases hend
    have hlt := (resync_iff.mp hnext).1
    refine ⟨h.applied, h.place.imp (fun hle => le_trans hle (le_of_lt hlt)) ?_⟩
    rintro ⟨rfl, hat⟩
    exact ⟨rfl, fun o ho => hat o (.scan hread hnext ho)⟩
  | stop => exact ⟨h.applied, h.place⟩

/-- Every record that reads where replay comes to from `start` on before `fin` is refused, and ends
before it. -/
def Contained (f : Bytes) (lastP start fin : ℕ) : Prop :=
  ∀ off < fin, Comes f lastP start off → ∀ raw,
    readRec (f.drop off) (some (f.length - off)) = .ok raw → Refused lastP raw ∧ off + raw.size ≤ fin

/-- Then replay ends there with nothing more applied or goes on right behind the damage. -/
theorem Spoiled.passes (h : Spoiled before r after f)
    (hin : Contained f (lastSeq 0 before) (damageAt before) (damageAt before + r.size))
    {sc sc' : Scan} (hends : Ends f (some f.length) sc sc')
    (hpos : sc.pos ≤ damageAt before + r.size) (hlast : sc.lastP = lastSeq 0 before)
    (hat : ∀ o, Comes f (lastSeq 0 before) sc.pos o →
      Comes f (lastSeq 0 before) (damageAt before) o) :
    sc'.applied = sc.applied ∨
      sc'.applied = sc.applied ++ placed (damageAt before + r.size) after := by
  induction hends with
  | stop hstep => cases replayStep_round hstep with | stop => exact .inl rfl
  | @step sc mid sc' hstep hrest ih =>
    by_cases hfin : sc.pos = damageAt before + r.size
    · have hend := endOf_known f true
      have hloop := (Ends.step hstep hrest).loop hend _ (Nat.lt_succ_self _)
      rw [(h.ends_after hfin hlast).loop hend _ (Nat.lt_succ_self _)] at hloop
      cases hloop
      rw [takeAll_eq (hlast ▸ h.rises.2), hfin]
      exact .inr rfl
    have hlt : sc.pos < damageAt before + r.size := by omega
    have hcomes := hat _ (.here _)
    cases replayStep_round hstep with
    | take hread hr => exact absurd (hin _ hlt hcomes _ hread).1 (hlast ▸ hr)
    | refused hread hr =>
      exact ih (hin _ hlt hcomes _ hread).2 hlast fun o ho => hat o (.refused hread (hlast ▸ hr) ho)
    | scan hread hend hnext =>
      cases hend
      rw [hlast] at hnext
      exact ih (h.resync_le hlt hnext) hlast fun o ho => hat o (.scan hread hnext ho)

end Damaged

end Gptps.JournalDamage
