import Gptps.DurableRecords

/-!
# Replaying the journal

Replay reads one record after the other and applies it. Past bytes that do not verify it looks
for the next record that does, in chunks of 4096 bytes that overlap by three, so that a magic
which straddles two chunks is seen. A record whose header claims more bytes than the file holds
ends the replay, and a record no writer makes is skipped whole.
-/

namespace Gptps.JournalReplay

open JournalFormat DurableRecords List

section Resync

variable {n i bad : ℕ}

/-- The bytes `resync` reads at a time. -/
def chunkLen : ℕ := 4096

/-- Whether the record read at `off` is one that may stand there: it verifies, and is not a
'P' whose number does not rise. -/
def accepts (f : Bytes) (stop lastP off : ℕ) : Bool :=
  match readRec (f.drop off) (some (stop - off)) with
  | .ok r => !(r.type = typeP && r.seq ≤ lastP)
  | _ => false

/-- The loop over one chunk: the first place whose magic is right and whose record may stand
there. -/
def scanChunk (f : Bytes) (stop lastP base : ℕ) (buf : Bytes) : Option ℕ :=
  (range (buf.length - 3)).find? fun i =>
    get32 (buf.drop i) = recMagic && accepts f stop lastP (base + i)

/-- The loop over the chunks from `base` on. -/
def resyncFrom (f : Bytes) (stop lastP : ℕ) : ℕ → ℕ → Option ℕ
  | 0, _ => none
  | fuel + 1, base =>
    if stop - base < rhdrLen + 4 then none
    else
      let buf := (f.drop base).take (min chunkLen (stop - base))
      if buf.length < 4 then none
      else
        match scanChunk f stop lastP base buf with
        | some i => some (base + i)
        -- a magic may straddle the next chunk
        | none => resyncFrom f stop lastP fuel (base + (buf.length - 3))

/-- After a record at `bad` that does not verify: the offset of the next one that does and that
may stand there, `none` if there is none before `stop`. -/
def resync (f : Bytes) (bad stop lastP : ℕ) : Option ℕ :=
  resyncFrom f stop lastP (stop - bad) (bad + 1)

variable {f : Bytes} {lastP base off : ℕ}

/-- A record that may stand at an offset lies whole before the end of the file and begins with
the magic. -/
theorem accepts_magic (h : accepts f f.length lastP off = true) :
    get32 (f.drop off) = recMagic ∧ off + (rhdrLen + 4) ≤ f.length := by
  unfold accepts at h
  cases hread : readRec (f.drop off) (some (f.length - off)) with
  | ok r =>
    obtain ⟨hmagic, hsize, -⟩ := readRec_ok hread
    rw [length_drop, Raw.size] at hsize
    exact ⟨hmagic, by unfold rhdrLen at *; omega⟩
  | fileEnd | bad | torn => rw [hread] at h; cases h

/-- Four bytes of a chunk are the file's. -/
theorem get32_chunk (h : i + 4 ≤ n) :
    get32 (((f.drop base).take n).drop i) = get32 (f.drop (base + i)) := by
  unfold get32
  rw [drop_take, take_take, drop_drop, min_eq_left (by omega)]

/-- The loop over one chunk finds the first record of it that may stand where it is. -/
theorem scanChunk_some (hn : n ≤ f.length - base)
    (h : scanChunk f f.length lastP base ((f.drop base).take n) = some i) :
    accepts f f.length lastP (base + i) = true ∧
      ∀ o, base ≤ o → o < base + i → accepts f f.length lastP o = false := by
  have hlen : ((f.drop base).take n).length = n := by
    rw [length_take, length_drop]
    omega
  obtain ⟨hp, hi, hbefore⟩ := find?_range_eq_some.mp h
  rw [mem_range] at hi
  refine ⟨(Bool.and_eq_true_iff.mp hp).2, ?_⟩
  intro o hlo hhi
  by_contra hacc
  rw [Bool.not_eq_false] at hacc
  obtain ⟨j, rfl⟩ := Nat.exists_eq_add_of_le hlo
  have hno := hbefore j (by omega)
  rw [get32_chunk (by omega), (accepts_magic hacc).1, hacc] at hno
  cases hno

theorem scanChunk_none (hn : n ≤ f.length - base)
    (h : scanChunk f f.length lastP base ((f.drop base).take n) = none) :
    ∀ o, base ≤ o → o < base + (n - 3) → accepts f f.length lastP o = false := by
  have hlen : ((f.drop base).take n).length = n := by
    rw [length_take, length_drop]
    omega
  rw [scanChunk, hlen, find?_range_eq_none] at h
  intro o hlo hhi
  by_contra hacc
  rw [Bool.not_eq_false] at hacc
  obtain ⟨j, rfl⟩ := Nat.exists_eq_add_of_le hlo
  have hno := h j (by omega)
  rw [get32_chunk (by omega), (accepts_magic hacc).1, hacc] at hno
  cases hno

/-- The scan finds the first record from `base` on that may stand where it is, wherever in a
chunk it starts. -/
theorem resyncFrom_iff {fuel : ℕ} (hfuel : f.length - base ≤ fuel) :
    resyncFrom f f.length lastP fuel base = some off ↔
      base ≤ off ∧ accepts f f.length lastP off = true ∧
        ∀ o, base ≤ o → o < off → accepts f f.length lastP o = false := by
  induction fuel generalizing base with
  | zero =>
    refine ⟨fun h => (by cases h), fun ⟨hle, hacc, _⟩ => ?_⟩
    have := (accepts_magic hacc).2
    omega
  | succ fuel ih =>
    rw [resyncFrom]
    by_cases hroom : f.length - base < rhdrLen + 4
    · rw [if_pos hroom]
      refine ⟨fun h => (by cases h), fun ⟨hle, hacc, _⟩ => ?_⟩
      have := (accepts_magic hacc).2
      omega
    rw [if_neg hroom]
    have hn : min chunkLen (f.length - base) ≤ f.length - base := min_le_right ..
    have hbig : rhdrLen + 4 ≤ min chunkLen (f.length - base) := by
      unfold chunkLen rhdrLen at *
      omega
    have hlen : ((f.drop base).take (min chunkLen (f.length - base))).length =
        min chunkLen (f.length - base) := by
      rw [length_take, length_drop]
      omega
    dsimp only
    rw [hlen, if_neg (by unfold rhdrLen at hbig; omega)]
    generalize min chunkLen (f.length - base) = n at hn hbig
    cases hscan : scanChunk f f.length lastP base ((f.drop base).take n) with
    | some i =>
      obtain ⟨hacc, hbefore⟩ := scanChunk_some hn hscan
      constructor
      · intro h
        cases h
        exact ⟨Nat.le_add_right .., hacc, hbefore⟩
      · rintro ⟨hle, haccoff, hno⟩
        rcases lt_trichotomy off (base + i) with hlt | heq | hgt
        · rw [hbefore off hle hlt] at haccoff
          cases haccoff
        · rw [heq]
        · rw [hno (base + i) (Nat.le_add_right ..) hgt] at hacc
          cases hacc
    | none =>
      have hbefore := scanChunk_none hn hscan
      rw [ih (by omega)]
      constructor
      · rintro ⟨hle, hacc, hno⟩
        refine ⟨by omega, hacc, fun o hlo hhi => ?_⟩
        rcases lt_or_ge o (base + (n - 3)) with hlt | hge
        · exact hbefore o hlo hlt
        · exact hno o hge hhi
      · rintro ⟨hle, hacc, hno⟩
        refine ⟨?_, hacc, fun o hlo hhi => hno o (by omega) hhi⟩
        by_contra hlt
        rw [hbefore off hle (lt_of_not_ge hlt)] at hacc
        cases hacc

/-- What `resync` answers: the first later offset whose record may stand there. -/
theorem resync_iff :
    resync f bad f.length lastP = some off ↔
      bad < off ∧ accepts f f.length lastP off = true ∧
        ∀ o, bad < o → o < off → accepts f f.length lastP o = false :=
  resyncFrom_iff (by omega)

/-- `resync` finds nothing only where nothing may stand. -/
theorem resync_none (h : resync f bad f.length lastP = none) (hoff : bad < off) :
    accepts f f.length lastP off = false := by
  induction off using Nat.strongRecOn with
  | _ off ih =>
    by_contra hacc
    rw [Bool.not_eq_false] at hacc
    have hsome : resync f bad f.length lastP = some off :=
      resync_iff.mpr ⟨hoff, hacc, fun o hlo hhi => ih o hhi hlo⟩
    rw [h] at hsome
    cases hsome

end Resync

section Replay

/-- The damage replay found. -/
structure Damage where
  /-- The damaged regions. -/
  regions : ℕ := 0
  /-- The offset of the first. -/
  first : ℕ := 0
  /-- The damaged bytes skipped, or not read past a cut. -/
  bytes : ℕ := 0
  /-- Replay stopped at damage that cannot be told from a torn write. -/
  cut : Bool := false
deriving DecidableEq, Repr

/-- One more damaged region of `n` bytes at `pos`. -/
def Damage.add (d : Damage) (pos n : ℕ) : Damage :=
  { d with regions := d.regions + 1, first := if d.regions = 0 then pos else d.first,
           bytes := d.bytes + n }

/-- The state of the replay loop. -/
structure Scan where
  /-- The offset of the stream. -/
  pos : ℕ
  /-- The number of the last 'P' applied. -/
  lastP : ℕ
  /-- The table so far. -/
  table : DqTable
  /-- The damage so far. -/
  dmg : Damage
  /-- The records applied so far and where each was read. -/
  applied : List (ℕ × Raw)
deriving DecidableEq, Repr

/-- The state before the first record. -/
def Scan.start : Scan := ⟨fhdrLen, 0, .fresh, {}, []⟩

/-- A verified record at the stream's position is applied. -/
def Scan.take (sc : Scan) (r : Raw) : Scan where
  pos := sc.pos + r.size
  lastP := if r.type = typeP ∧ r.seq > sc.lastP then r.seq else sc.lastP
  table := applyRec sc.table r
  dmg := sc.dmg
  applied := sc.applied ++ [(sc.pos, r)]

/-- Bytes that do not verify: the replay goes on at the next record, or ends. -/
def Scan.skipBad (f : Bytes) (fend : Option ℕ) (sc : Scan) (torn : Bool) : Scan × Bool :=
  match fend with
  | none => (sc, false)
  | some stop =>
    match resync f sc.pos stop sc.lastP with
    | none => (sc, false)
    | some next =>
      if torn then
        ({ sc with dmg := { sc.dmg.add sc.pos (stop - sc.pos) with cut := true } }, false)
      else ({ sc with dmg := sc.dmg.add sc.pos (next - sc.pos), pos := next }, true)

/-- One round of the loop, and whether there is another. The end of the file is `fend`, `none`
where it could not be told. -/
def replayStep (f : Bytes) (fend : Option ℕ) (sc : Scan) : Scan × Bool :=
  match readRec (f.drop sc.pos) (fend.map (· - sc.pos)) with
  | .fileEnd => (sc, false)
  | .ok r =>
    -- a record no writer makes, though it verifies
    if r.seq > maxSeq ∨ (r.type = typeP ∧ r.seq ≤ sc.lastP) then
      ({ sc with dmg := sc.dmg.add sc.pos r.size, pos := sc.pos + r.size }, true)
    else (sc.take r, true)
  | .bad => sc.skipBad f fend false
  | .torn => sc.skipBad f fend true

/-- The loop, `none` if it did not end in `fuel` rounds. -/
def replayLoop (f : Bytes) (fend : Option ℕ) : ℕ → Scan → Option Scan
  | 0, _ => none
  | fuel + 1, sc =>
    match replayStep f fend sc with
    | (sc', true) => replayLoop f fend fuel sc'
    | (sc', false) => some sc'

/-- How reading a journal ends. -/
inductive Replay where
  /-- The journal is read into a table. -/
  | done (sc : Scan)
  /-- The file header is corrupt. -/
  | corrupt
  /-- The loop did not end. -/
  | stuck
deriving DecidableEq, Repr

/-- The end of the file as `ftell` reports it, if it can. -/
def knownEnd (f : Bytes) (knowsEnd : Bool) : Option ℕ := if knowsEnd then some f.length else none

/-- Reads the journal; a file that does not exist is an empty one. -/
def replay (file : Option Bytes) (knowsEnd : Bool) : Replay :=
  match file with
  | none => .done .start
  | some f =>
    let fh := f.take fhdrLen
    if fh.length = 0 then .done .start
    else if fh.length < fhdrLen ∨ get32 fh ≠ fileMagic ∨ get32 (fh.drop 4) ≠ version then .corrupt
    else
      match replayLoop f (knownEnd f knowsEnd) (f.length + 1) .start with
      | none => .stuck
      | some sc => .done sc

variable {f : Bytes} {fend : Option ℕ} {sc sc' : Scan}

/-- The end of the file as replay may know it. -/
def EndOf (f : Bytes) (fend : Option ℕ) : Prop := ∀ n ∈ fend, n = f.length

/-- What the loop reaches from a state: rounds that go on, and a last one. -/
inductive Ends (f : Bytes) (fend : Option ℕ) : Scan → Scan → Prop where
  /-- The last round. -/
  | stop {sc sc' : Scan} (h : replayStep f fend sc = (sc', false)) : Ends f fend sc sc'
  /-- A round that goes on. -/
  | step {sc mid sc' : Scan} (h : replayStep f fend sc = (mid, true)) (rest : Ends f fend mid sc') :
      Ends f fend sc sc'

/-- A record that verifies at an offset ends before the end of the file. -/
theorem readRec_drop_size {pos : ℕ} {left : Option ℕ} {r : Raw}
    (h : readRec (f.drop pos) left = .ok r) : pos + r.size ≤ f.length := by
  obtain ⟨-, hsize, -⟩ := readRec_ok h
  rw [length_drop] at hsize
  unfold Raw.size at *
  unfold rhdrLen at *
  omega

/-- A record no writer makes, though it verifies. -/
def Refused (lastP : ℕ) (r : Raw) : Prop := r.seq > maxSeq ∨ (r.type = typeP ∧ r.seq ≤ lastP)

/-- What a round of the loop does, and whether there is another. -/
inductive Round (f : Bytes) (fend : Option ℕ) (sc : Scan) : Scan → Bool → Prop
  /-- A record is applied. -/
  | take {r : Raw} (hread : readRec (f.drop sc.pos) (fend.map (· - sc.pos)) = .ok r)
      (hr : ¬Refused sc.lastP r) : Round f fend sc (sc.take r) true
  /-- A refused record is skipped whole. -/
  | refused {r : Raw} {dmg : Damage}
      (hread : readRec (f.drop sc.pos) (fend.map (· - sc.pos)) = .ok r) (hr : Refused sc.lastP r) :
      Round f fend sc { sc with dmg := dmg, pos := sc.pos + r.size } true
  /-- Past bytes that do not verify the replay goes on at the next record. -/
  | scan {stop next : ℕ} {dmg : Damage}
      (hread : readRec (f.drop sc.pos) (fend.map (· - sc.pos)) = .bad) (hend : fend = some stop)
      (hnext : resync f sc.pos stop sc.lastP = some next) :
      Round f fend sc { sc with dmg := dmg, pos := next } true
  /-- The replay ends where no record reads and none follows damage. -/
  | stop {dmg : Damage} (hread : ∀ r, readRec (f.drop sc.pos) (fend.map (· - sc.pos)) ≠ .ok r)
      (hend : readRec (f.drop sc.pos) (fend.map (· - sc.pos)) = .bad →
        ∀ stop, fend = some stop → resync f sc.pos stop sc.lastP = none) :
      Round f fend sc { sc with dmg := dmg } false

theorem replayStep_round {go : Bool} (h : replayStep f fend sc = (sc', go)) :
    Round f fend sc sc' go := by
  unfold replayStep at h
  cases hread : readRec (f.drop sc.pos) (fend.map (· - sc.pos)) with
  | fileEnd =>
    rw [hread] at h
    cases h
    exact .stop (fun r hr => by cases hread.symm.trans hr) fun hbad => by cases hread.symm.trans hbad
  | ok r =>
    rw [hread] at h
    dsimp only at h
    split_ifs at h with hr
    · cases h
      exact .refused hread hr
    · cases h
      exact .take hread hr
  | bad =>
    have hno : ∀ r, readRec (f.drop sc.pos) (fend.map (· - sc.pos)) ≠ .ok r :=
      fun r hr => by cases hread.symm.trans hr
    rw [hread] at h
    dsimp only [Scan.skipBad] at h
    cases hend : fend with
    | none =>
      subst hend
      cases h
      exact .stop hno fun _ stop hstop => by cases hstop
    | some stop =>
      subst hend
      cases hre : resync f sc.pos stop sc.lastP with
      | none =>
        simp only [hre] at h
        cases h
        exact .stop hno fun _ _ heq => by cases heq; exact hre
      | some next =>
        simp only [hre, Bool.false_eq_true, if_false] at h
        cases h
        exact .scan hread rfl hre
  | torn =>
    have hstop (dmg : Damage) : Round f fend sc { sc with dmg := dmg } false :=
      .stop (fun r hr => by cases hread.symm.trans hr) fun hbad => by cases hread.symm.trans hbad
    rw [hread] at h
    dsimp only [Scan.skipBad] at h
    cases fend with
    | none => cases h; exact hstop sc.dmg
    | some stop =>
      cases hre : resync f sc.pos stop sc.lastP with
      | none => simp only [hre] at h; cases h; exact hstop sc.dmg
      | some next => simp only [hre, if_true] at h; cases h; exact hstop _

/-- What every round keeps, the loop keeps. -/
theorem Ends.keeps {P : Scan → Prop}
    (hround : ∀ {sc sc' : Scan} {go : Bool}, Round f fend sc sc' go → P sc → P sc')
    (h : Ends f fend sc sc') (hp : P sc) : P sc' := by
  induction h with
  | stop hstep => exact hround (replayStep_round hstep) hp
  | step hstep _ ih => exact ih (hround (replayStep_round hstep) hp)

/-- A round that goes on moves the stream forward, inside the file. -/
theorem replayStep_forward (hend : EndOf f fend) (h : replayStep f fend sc = (sc', true)) :
    sc.pos < sc'.pos ∧ sc'.pos ≤ f.length := by
  have hpos (r : Raw) : sc.pos < sc.pos + r.size := by
    unfold Raw.size rhdrLen
    omega
  cases replayStep_round h with
  | take hread | refused hread => exact ⟨hpos _, readRec_drop_size hread⟩
  | scan _ hstop hnext =>
    obtain rfl := hend _ hstop
    obtain ⟨hlt, hacc, -⟩ := resync_iff.mp hnext
    have hle := (accepts_magic hacc).2
    exact ⟨hlt, by dsimp only; omega⟩

/-- From every state the loop ends. -/
theorem exists_ends (hend : EndOf f fend) (sc : Scan) : ∃ sc', Ends f fend sc sc' := by
  induction hn : f.length - sc.pos using Nat.strongRecOn generalizing sc with
  | _ n ih =>
    rcases hstep : replayStep f fend sc with ⟨mid, _ | _⟩
    · exact ⟨mid, .stop hstep⟩
    · obtain ⟨hlt, hle⟩ := replayStep_forward hend hstep
      obtain ⟨sc', hrest⟩ := ih (f.length - mid.pos) (by omega) mid rfl
      exact ⟨sc', .step hstep hrest⟩

/-- The fuel of one round a byte is enough. -/
theorem Ends.loop (hend : EndOf f fend) (h : Ends f fend sc sc') :
    ∀ fuel, f.length - sc.pos < fuel → replayLoop f fend fuel sc = some sc' := by
  induction h with
  | stop hstep =>
    intro fuel hfuel
    obtain ⟨n, rfl⟩ := Nat.exists_eq_add_of_lt (lt_of_le_of_lt (Nat.zero_le _) hfuel)
    rw [zero_add, replayLoop, hstep]
  | step hstep _ ih =>
    intro fuel hfuel
    obtain ⟨n, rfl⟩ := Nat.exists_eq_add_of_lt (lt_of_le_of_lt (Nat.zero_le _) hfuel)
    obtain ⟨hlt, hle⟩ := replayStep_forward hend hstep
    rw [zero_add, replayLoop, hstep]
    exact ih n (by omega)

theorem endOf_known (f : Bytes) (knowsEnd : Bool) : EndOf f (knownEnd f knowsEnd) := by
  intro n hn
  cases knowsEnd with
  | false => cases hn
  | true => exact (Option.some.inj hn).symm

/-- The replay of a journal with a good file header is what its loop reaches. -/
theorem replay_eq {body : Bytes} (knowsEnd : Bool)
    (h : Ends (fileHeader ++ body) (knownEnd (fileHeader ++ body) knowsEnd) .start sc') :
      replay (some (fileHeader ++ body)) knowsEnd = .done sc' := by
  have htake : (fileHeader ++ body).take fhdrLen = fileHeader := take_left' rfl
  unfold replay
  dsimp only
  rw [htake, if_neg (by decide), if_neg (by decide),
    h.loop (endOf_known _ _) _ (Nat.lt_succ_of_le (Nat.sub_le ..))]

/-- Replay always ends. -/
theorem replay_ends (file : Option Bytes) (knowsEnd : Bool) : replay file knowsEnd ≠ .stuck := by
  unfold replay
  cases file with
  | none => rintro ⟨⟩
  | some f =>
    dsimp only
    split_ifs
    · rintro ⟨⟩
    · rintro ⟨⟩
    · obtain ⟨sc', hends⟩ := exists_ends (endOf_known f knowsEnd) .start
      rw [hends.loop (endOf_known _ _) _ (Nat.lt_succ_of_le (Nat.sub_le ..))]
      rintro ⟨⟩

end Replay

end Gptps.JournalReplay
