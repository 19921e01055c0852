import Gptps.EngineApi

/-!
# The arenas of a bounded engine

`bounded_seal` sizes the working set of a bounded engine in `size_t`: a payload slot and a snapshot slot for
each item, a result buffer for each executing thread. Sizes are machine words of the width of `size_t`. On
such a word rounding up to 16 can wrap, which leaves slots of no size behind; where it does not, slots hold
what the configuration promises, lie inside their arena and do not overlap.
-/

namespace Gptps.BoundedArenas

open EngineState EngineStore EngineApi Option

section Words

variable {w : ℕ}

/-- `size_mul`: the product, unless it overflows. -/
def sizeMul (a b : BitVec w) : Option (BitVec w) :=
  if a ≠ 0#w ∧ BitVec.allOnes w / a < b then none else some (a * b)

/-- Round up to a multiple of 16. -/
def roundUp (x : BitVec w) : BitVec w := (x + 15#w) / 16#w * 16#w

/-- Double a size until it is at least the target. -/
def growIndex (target : BitVec w) : ℕ → BitVec w → BitVec w
  | 0, nn => nn
  | fuel + 1, nn => if nn < target then growIndex target fuel (nn <<< 1) else nn

/-- A product that is computed does not wrap. -/
theorem sizeMul_exact {a b c : BitVec w} (h : sizeMul a b = some c) : c.toNat = a.toNat * b.toNat := by
  unfold sizeMul at h
  split_ifs at h with hover
  cases h
  refine Nat.mod_eq_of_lt ?_
  by_cases ha : a = 0#w
  · rw [ha, BitVec.toNat_zero, zero_mul]
    exact Nat.two_pow_pos w
  · have hle : b ≤ BitVec.allOnes w / a := by
      exact le_of_not_gt fun hlt => hover ⟨ha, BitVec.lt_def.mpr hlt⟩
    calc a.toNat * b.toNat ≤ a.toNat * ((2 ^ w - 1) / a.toNat) := Nat.mul_le_mul_left _ hle
      _ ≤ 2 ^ w - 1 := Nat.mul_div_le _ _
      _ < 2 ^ w := Nat.sub_one_lt (Nat.two_pow_pos w).ne'

/-- A number below the width's bound is kept. -/
theorem word_exact {k : ℕ} (hk : k < 2 ^ w) : (BitVec.ofNat w k).toNat = k :=
  Nat.mod_eq_of_lt hk

/-- So is a small constant. -/
theorem small_exact (hw : 7 ≤ w) {k : ℕ} (hk : k < 2 ^ 7) : (BitVec.ofNat w k).toNat = k :=
  word_exact (lt_of_lt_of_le hk (Nat.pow_le_pow_right (by decide) hw))

/-- Rounding up is exact unless the sum wraps. -/
theorem roundUp_exact (hw : 7 ≤ w) {x : BitVec w} (hx : x.toNat + 15 < 2 ^ w) :
    (roundUp x).toNat = (x.toNat + 15) / 16 * 16 := by
  unfold roundUp
  rw [BitVec.toNat_mul, BitVec.toNat_udiv, BitVec.toNat_add, small_exact hw (by decide),
    small_exact hw (by decide), Nat.mod_eq_of_lt hx]
  exact Nat.mod_eq_of_lt (lt_of_le_of_lt (Nat.div_mul_le_self _ _) hx)

/-- A target of less than half the word is reached without wrapping, as in unbounded arithmetic. -/
theorem growIndex_exact {target : BitVec w} (ht : 2 * target.toNat < 2 ^ w) (fuel : ℕ) (nn : BitVec w)
    (hfuel : target.toNat ≤ nn.toNat * 2 ^ fuel) (hpos : 0 < nn.toNat) (m : ℕ)
    (hm : target.toNat ≤ m + nn.toNat) :
    (growIndex target fuel nn).toNat = doubleUntil target.toNat m nn.toNat ∧
      target.toNat ≤ (growIndex target fuel nn).toNat := by
  induction fuel generalizing nn m with
  | zero =>
    rw [Nat.pow_zero, mul_one] at hfuel
    refine ⟨?_, hfuel⟩
    cases m with
    | zero => rfl
    | succ m => exact (if_neg (Nat.not_lt.mpr hfuel)).symm
  | succ fuel ih =>
    rw [growIndex]
    split_ifs with hlt
    · rw [BitVec.lt_def] at hlt
      have hdouble : (nn <<< 1).toNat = nn.toNat * 2 := by
        rw [BitVec.toNat_shiftLeft, Nat.shiftLeft_eq, Nat.pow_one]
        exact Nat.mod_eq_of_lt (by omega)
      cases m with
      | zero => exact absurd hm (by omega)
      | succ m =>
        rw [doubleUntil, if_pos hlt, ← hdouble]
        refine ih (nn <<< 1) ?_ ?_ m ?_
        · rw [hdouble, mul_assoc, ← Nat.pow_succ']
          exact hfuel
        · rw [hdouble]
          exact Nat.mul_pos hpos (by decide)
        · omega
    · refine ⟨?_, le_of_not_gt hlt⟩
      cases m with
      | zero => rfl
      | succ m => exact (if_neg hlt).symm

end Words

section Seal

variable {w : ℕ}

/-- What a working set is sized by, and the sizes of an item and of an index slot. -/
structure Config (w : ℕ) where
  /-- bounded.max_items -/
  maxItems : UInt64
  /-- bounded.max_payload_bytes -/
  maxPayload : UInt32
  /-- bounded.max_result_bytes -/
  maxResult : UInt32
  /-- The number of worker threads. -/
  nworkers : UInt32
  /-- The number of named resources. -/
  nres : BitVec w
  /-- sizeof (gptps_item) -/
  itemSize : BitVec w
  /-- sizeof (gptps_hslot) -/
  slotSize : BitVec w

/-- What the allocator answers. -/
structure Allocs where
  /-- The items. -/
  pool : Bool
  /-- The payload slots. -/
  payload : Bool
  /-- The snapshot slots. -/
  snap : Bool
  /-- The result buffers. -/
  result : Bool
  /-- The handle index. -/
  index : Bool
  /-- Each callback record. -/
  record : ℕ → Bool

/-- The working set of a sealed engine. -/
structure Arenas (w : ℕ) where
  /-- The number of items. -/
  n : BitVec w
  /-- The distance of payload slots. -/
  payloadStride : BitVec w
  /-- The distance of result buffers. -/
  resultStride : BitVec w
  /-- The entries of a snapshot slot. -/
  poolNres : BitVec w
  /-- The size of the items. -/
  itemsSz : BitVec w
  /-- The size of the payload slots; none are made of size zero. -/
  paySz : BitVec w
  /-- The size of the snapshot slots. -/
  snapSz : BitVec w
  /-- The size of the result buffers. -/
  resSz : BitVec w
  /-- The slots of the handle index. -/
  nn : BitVec w
  /-- The number of callback records. -/
  ncb : BitVec w

/-- GPTPS_BOUNDED_HOST_THREADS -/
def boundedHostThreads : ℕ := 32

/-- `bounded_seal` of an engine that is not sealed; `none` is GPTPS_E_NOMEM. -/
def boundedSeal (c : Config w) (ok : Allocs) : Option (Arenas w) :=
  if (BitVec.allOnes w / 4#w).toNat < c.maxItems.toNat then none
  else do
    let n := BitVec.ofNat w c.maxItems.toNat
    let payloadStride := roundUp (BitVec.ofNat w c.maxPayload.toNat)
    let resultStride := roundUp (BitVec.ofNat w c.maxResult.toNat)
    let threads := BitVec.ofNat w c.nworkers.toNat + 1#w
    let itemsSz ← sizeMul n c.itemSize
    let paySz ← sizeMul n payloadStride
    let snaps ← sizeMul n c.nres
    let snapSz ← sizeMul snaps 8#w
    let resSz ← sizeMul threads resultStride
    let nn := growIndex (2#w * n) w 64#w
    let ncb := threads + BitVec.ofNat w boundedHostThreads
    -- gptps_calloc refuses a product that overflows
    if ok.pool && (paySz == 0#w || ok.payload) && (snapSz == 0#w || ok.snap) &&
        (resSz == 0#w || ok.result) && (sizeMul nn c.slotSize).isSome && ok.index &&
        (List.range ncb.toNat).all ok.record then
      some { n, payloadStride, resultStride, poolNres := c.nres, itemsSz, paySz, snapSz, resSz, nn, ncb }
    else none

/-- Where a slot begins in an arena that is made unless its size is zero. -/
def slotAt (size stride i : BitVec w) : Option (BitVec w) := if size = 0#w then none else some (i * stride)

/-- `pool_take`: the payload slot of an item. -/
def payloadAt (s : Arenas w) (i : BitVec w) : Option (BitVec w) := slotAt s.paySz s.payloadStride i

/-- `execute`: the result buffer of a thread. -/
def resultAt (s : Arenas w) (slot : BitVec w) : Option (BitVec w) := slotAt s.resSz s.resultStride slot

/-- `engine_pass`: the snapshot slot of an item, in entries. -/
def snapAt (s : Arenas w) (i : BitVec w) : Option (BitVec w) := slotAt s.snapSz s.poolNres i

/-- The slots of an arena: `unit` is the size of what offsets and widths count. -/
structure SlotsFit (unit count width room : ℕ) (size : BitVec w) (slot : BitVec w → Option (BitVec w)) :
    Prop where
  /-- A slot is as large as it should be. -/
  wide : room ≤ width
  /-- Every slot is there and inside the arena. -/
  inside : 0 < room → ∀ i : BitVec w, i.toNat < count →
    ∃ off, slot i = some off ∧ (off.toNat + width) * unit ≤ size.toNat
  /-- Different slots do not overlap. -/
  disjoint : ∀ i j : BitVec w, i.toNat < count → j.toNat < count → i ≠ j → ∀ x y, slot i = some x →
    slot j = some y → x.toNat + width ≤ y.toNat ∨ y.toNat + width ≤ x.toNat

/-- What a working set should be. -/
structure Fits (c : Config w) (s : Arenas w) : Prop where
  /-- Payloads. -/
  payload : SlotsFit 1 c.maxItems.toNat s.payloadStride.toNat c.maxPayload.toNat s.paySz (payloadAt s)
  /-- Results: one buffer for every worker and one for `gptps_step`. -/
  result : SlotsFit 1 (c.nworkers.toNat + 1) s.resultStride.toNat c.maxResult.toNat s.resSz (resultAt s)
  /-- Snapshots. -/
  snap : SlotsFit 8 c.maxItems.toNat s.poolNres.toNat c.nres.toNat s.snapSz (snapAt s)
  /-- The items. -/
  items : s.n.toNat = c.maxItems.toNat ∧ s.itemsSz.toNat = c.maxItems.toNat * c.itemSize.toNat
  /-- The strides. -/
  strides : s.payloadStride.toNat = (c.maxPayload.toNat + 15) / 16 * 16 ∧
    s.resultStride.toNat = (c.maxResult.toNat + 15) / 16 * 16
  /-- The sizes of the arenas. -/
  sizes : s.paySz.toNat = c.maxItems.toNat * s.payloadStride.toNat ∧
    s.resSz.toNat = (c.nworkers.toNat + 1) * s.resultStride.toNat ∧
    s.snapSz.toNat = c.maxItems.toNat * c.nres.toNat * 8
  /-- The index: the first power of two from 64 on that is at least twice the number of items. -/
  index : s.nn.toNat = doubleUntil (2 * c.maxItems.toNat) (2 * c.maxItems.toNat) 64 ∧
    2 * c.maxItems.toNat ≤ s.nn.toNat ∧ s.nn.toNat * c.slotSize.toNat < 2 ^ w
  /-- The callback records. -/
  records : s.ncb.toNat = c.nworkers.toNat + 1 + boundedHostThreads

/-- Equal slots one after another, counted by an arena's size, fit. -/
theorem slots_fit {unit count width room : ℕ} {size stride : BitVec w} (hroom : room ≤ width)
    (hstride : stride.toNat = width) (hunit : 0 < unit) (hsize : size.toNat = count * width * unit) :
    SlotsFit unit count width room size (slotAt size stride) := by
  have hlt : count * width < 2 ^ w := by
    refine lt_of_le_of_lt ?_ size.isLt
    rw [hsize]
    exact Nat.le_mul_of_pos_right _ hunit
  have hoff : ∀ i : BitVec w, i.toNat < count → (i * stride).toNat = i.toNat * width := by
    intro i hi
    rw [BitVec.toNat_mul, hstride]
    exact Nat.mod_eq_of_lt (lt_of_le_of_lt (Nat.mul_le_mul_right _ hi.le) hlt)
  have hat : ∀ i x, slotAt size stride i = some x → x = i * stride := by
    intro i x hx
    unfold slotAt at hx
    split_ifs at hx
    exact (some.inj hx).symm
  refine ⟨hroom, fun hpos i hi => ⟨i * stride, ?_, ?_⟩, fun i j hi hj hne x y hx hy => ?_⟩
  · refine if_neg fun hzero => ?_
    have hbig : 0 < count * width * unit :=
      Nat.mul_pos (Nat.mul_pos (Nat.zero_lt_of_lt hi) (lt_of_lt_of_le hpos hroom)) hunit
    rw [← hsize, hzero, BitVec.toNat_zero] at hbig
    exact absurd hbig (lt_irrefl 0)
  · rw [hoff i hi, hsize, ← Nat.succ_mul]
    exact Nat.mul_le_mul_right _ (Nat.mul_le_mul_right _ hi)
  · rw [hat i x hx, hat j y hy, hoff i hi, hoff j hj, ← Nat.succ_mul, ← Nat.succ_mul]
    rcases Nat.lt_or_gt_of_ne fun heq => hne (BitVec.eq_of_toNat_eq heq) with h | h
    · exact .inl (Nat.mul_le_mul_right _ h)
    · exact .inr (Nat.mul_le_mul_right _ h)

/-- The sizes that are computed without a check do not wrap. -/
structure Modest (c : Config w) : Prop where
  /-- Rounding up a payload. -/
  payload : c.maxPayload.toNat + 15 < 2 ^ w
  /-- Rounding up a result. -/
  result : c.maxResult.toNat + 15 < 2 ^ w
  /-- Counting the callback records. -/
  workers : c.nworkers.toNat + 1 + boundedHostThreads < 2 ^ w

/-- A quarter of the largest size. -/
theorem quarter_exact (hw : 7 ≤ w) : (BitVec.allOnes w / 4#w).toNat = (2 ^ w - 1) / 4 := by
  rw [BitVec.toNat_udiv, BitVec.toNat_allOnes, small_exact hw (by decide)]

/-- A configured size is rounded up as in unbounded arithmetic. -/
theorem stride_exact (hw : 7 ≤ w) {x : UInt32} (hx : x.toNat + 15 < 2 ^ w) :
    (roundUp (BitVec.ofNat w x.toNat)).toNat = (x.toNat + 15) / 16 * 16 := by
  have hword : (BitVec.ofNat w x.toNat).toNat = x.toNat :=
    word_exact (lt_of_le_of_lt (Nat.le_add_right _ _) hx)
  have hsum : (BitVec.ofNat w x.toNat).toNat + 15 < 2 ^ w := by
    rw [hword]
    exact hx
  rw [roundUp_exact hw hsum, hword]

/-- A rounded size is not smaller. -/
theorem le_stride (x : ℕ) : x ≤ (x + 15) / 16 * 16 := by omega

/-- The executing threads and the callback records are counted without wrapping. -/
theorem threads_exact (hw : 7 ≤ w) {c : Config w} (hc : Modest c) :
    (BitVec.ofNat w c.nworkers.toNat + 1#w).toNat = c.nworkers.toNat + 1 ∧
      (BitVec.ofNat w c.nworkers.toNat + 1#w + BitVec.ofNat w boundedHostThreads).toNat =
        c.nworkers.toNat + 1 + boundedHostThreads := by
  have hworkers := hc.workers
  have hone : (BitVec.ofNat w c.nworkers.toNat + 1#w).toNat = c.nworkers.toNat + 1 := by
    rw [BitVec.toNat_add, word_exact (by omega), small_exact hw (by decide)]
    exact Nat.mod_eq_of_lt (by omega)
  refine ⟨hone, ?_⟩
  rw [BitVec.toNat_add, hone, small_exact hw (by decide)]
  exact Nat.mod_eq_of_lt hworkers

/-- The index is grown to twice the number of items without wrapping. -/
theorem index_exact (hw : 7 ≤ w) {k : ℕ} (hk : 4 * k ≤ 2 ^ w - 1) :
    (growIndex (2#w * BitVec.ofNat w k) w 64#w).toNat = doubleUntil (2 * k) (2 * k) 64 ∧
      2 * k ≤ (growIndex (2#w * BitVec.ofNat w k) w 64#w).toNat := by
  have hpow := Nat.two_pow_pos w
  have htarget : (2#w * BitVec.ofNat w k).toNat = 2 * k := by
    rw [BitVec.toNat_mul, word_exact (k := k) (by omega), small_exact (k := 2) hw (by decide)]
    exact Nat.mod_eq_of_lt (by omega)
  have hfirst : (64#w).toNat = 64 := small_exact hw (by decide)
  have hroom : 2 * (2#w * BitVec.ofNat w k).toNat < 2 ^ w := by omega
  have hgrown := growIndex_exact hroom w 64#w
    (by rw [htarget, hfirst]; omega) (by rw [hfirst]; decide) (2 * k) (by omega)
  rw [htarget, hfirst] at hgrown
  exact hgrown

/-- A working set of modest sizes is what it should be. -/
theorem seal_fits (hw : 7 ≤ w) {c : Config w} {ok : Allocs} {s : Arenas w} (hc : Modest c)
    (h : boundedSeal c ok = some s) : Fits c s := by
  unfold boundedSeal at h
  split_ifs at h with hmany
  obtain ⟨itemsSz, hitems, h⟩ := bind_eq_some_iff.mp h
  obtain ⟨paySz, hpay, h⟩ := bind_eq_some_iff.mp h
  obtain ⟨snaps, hsnaps, h⟩ := bind_eq_some_iff.mp h
  obtain ⟨snapSz, hsnap, h⟩ := bind_eq_some_iff.mp h
  obtain ⟨resSz, hres, h⟩ := bind_eq_some_iff.mp h
  dsimp only at h
  split_ifs at h with hall
  cases h
  rw [quarter_exact hw] at hmany
  have hquarter : 4 * c.maxItems.toNat ≤ 2 ^ w - 1 := by omega
  have hn : (BitVec.ofNat w c.maxItems.toNat).toNat = c.maxItems.toNat :=
    word_exact (by have := Nat.two_pow_pos w; omega)
  have hpayload := stride_exact hw hc.payload
  have hresult := stride_exact hw hc.result
  obtain ⟨hthreads, hrecords⟩ := threads_exact hw hc
  obtain ⟨hindex, hlarge⟩ := index_exact hw hquarter
  -- the products that are checked
  have hitemsSz := sizeMul_exact hitems
  have hpaySz := sizeMul_exact hpay
  have hresSz := sizeMul_exact hres
  have hsnapSz := sizeMul_exact hsnap
  rw [sizeMul_exact hsnaps, small_exact (k := 8) hw (by decide)] at hsnapSz
  rw [hn] at hitemsSz hpaySz hsnapSz
  rw [hthreads] at hresSz
  have hslots : (sizeMul (growIndex (2#w * BitVec.ofNat w c.maxItems.toNat) w 64#w) c.slotSize).isSome =
      true := by
    simp only [Bool.and_eq_true] at hall
    exact hall.1.1.2
  obtain ⟨slots, hslots⟩ := isSome_iff_exists.mp hslots
  refine ⟨?_, ?_, ?_, ⟨hn, hitemsSz⟩, ⟨hpayload, hresult⟩, ⟨hpaySz, hresSz, hsnapSz⟩,
    ⟨hindex, hlarge, ?_⟩, hrecords⟩
  · refine slots_fit ?_ rfl (by decide) (by rw [mul_one]; exact hpaySz)
    rw [hpayload]
    exact le_stride _
  · refine slots_fit ?_ rfl (by decide) (by rw [mul_one]; exact hresSz)
    rw [hresult]
    exact le_stride _
  · exact slots_fit le_rfl rfl (by decide) hsnapSz
  · rw [← sizeMul_exact hslots]
    exact slots.isLt

/-- The sealed engine is one over this working set: its pool, its index and room for its resources. -/
theorem engine_seal {c : Config w} {s : Arenas w} {e e' : Engine} (hfits : Fits c s)
    (hitems : e.maxItems = c.maxItems.toNat) (hres : e.resources.length = c.nres.toNat)
    (hopen : e.sealed = false) (h : EngineApi.boundedSeal e true = .ok e') :
    e'.freeItems = List.range s.n.toNat ∧ e'.hidx.size = s.nn.toNat ∧ e'.poolNres ≤ s.poolNres.toNat := by
  unfold EngineApi.boundedSeal at h
  rw [if_neg (by rw [hopen]; exact Bool.false_ne_true), if_pos rfl] at h
  cases h
  refine ⟨?_, ?_, ?_⟩
  · rw [hfits.items.1, ← hitems]
  · rw [hfits.index.1, ← hitems]
  · exact le_trans (le_of_eq hres) hfits.snap.wide

/-- A `size_t` of 64 bits, or sizes at least 16 below the largest and fewer than 2^32 - 33 workers. -/
def Ample (c : Config w) : Prop :=
  w = 32 → c.maxPayload.toNat ≤ 2 ^ 32 - 16 ∧ c.maxResult.toNat ≤ 2 ^ 32 - 16 ∧
    c.nworkers.toNat < 2 ^ 32 - 33

/-- What fits is ample: neither a stride nor the number of records reaches the size of the word. -/
theorem Fits.ample {c : Config w} {s : Arenas w} (h : Fits c s) : Ample c := by
  rintro rfl
  obtain ⟨hpayload, hresult⟩ := h.strides
  have hrecords := h.records
  unfold boundedHostThreads at hrecords
  have hlt := s.payloadStride.isLt
  have hlt' := s.resultStride.isLt
  have hlt'' := s.ncb.isLt
  omega

/-- With a `size_t` of 32 or 64 bits, a working set that `bounded_seal` makes is what it should be exactly for
an ample configuration: every slot holds what the configuration promises, lies in its arena and overlaps no
other, and every size is computed without wrapping. -/
theorem sealed_arenas_fit {c : Config w} {ok : Allocs} {s : Arenas w} (hw : w = 32 ∨ w = 64)
    (h : boundedSeal c ok = some s) : Fits c s ↔ Ample c := by
  refine ⟨Fits.ample, fun hc => ?_⟩
  rcases hw with rfl | rfl
  · obtain ⟨hpayload, hresult, hworkers⟩ := hc rfl
    exact seal_fits (by decide) ⟨by omega, by omega, by unfold boundedHostThreads; omega⟩ h
  · have hpayload := c.maxPayload.toNat_lt
    have hresult := c.maxResult.toNat_lt
    have hworkers := c.nworkers.toNat_lt
    exact seal_fits (by decide) ⟨by omega, by omega, by unfold boundedHostThreads; omega⟩ h

/-- An allocator that always answers. -/
def plenty : Allocs :=
  { pool := true, payload := true, snap := true, result := true, index := true, record := fun _ => true }

/-- Two items with payloads of 100 bytes and one resource, four workers. -/
def sampleConfig : Config 32 :=
  { maxItems := 2, maxPayload := 100, maxResult := 10, nworkers := 4, nres := 1, itemSize := 200
    slotSize := 16 }

/-- Its payload slots are 112 bytes apart. -/
theorem sealed_arenas_fit_sample : ∃ s, boundedSeal sampleConfig plenty = some s ∧ Fits sampleConfig s ∧
    s.payloadStride.toNat = 112 := by
  have hsome : (boundedSeal sampleConfig plenty).isSome = true := by decide
  obtain ⟨s, hs⟩ := isSome_iff_exists.mp hsome
  have hfits := (sealed_arenas_fit (.inl rfl) hs).mpr fun _ => by decide
  exact ⟨s, hs, hfits, hfits.strides.1⟩

/-- One item whose payload may be as long as 32 bits can say. -/
def hugeConfig : Config 32 :=
  { maxItems := 1, maxPayload := 4294967295, maxResult := 0, nworkers := 0, nres := 0, itemSize := 200
    slotSize := 16 }

/-- With a `size_t` of 32 bits, rounding up a payload of 2^32 - 1 bytes wraps: the engine is sealed with slots
of no size, and the item that `pool_take` gives to the first submit has no slot at all. -/
theorem huge_payload_has_no_slot : ∃ s, boundedSeal hugeConfig plenty = some s ∧
    s.payloadStride.toNat = 0 ∧ payloadAt s 0 = none ∧ ¬ Fits hugeConfig s := by
  have hstride : ((boundedSeal hugeConfig plenty).map fun s => (s.payloadStride.toNat, payloadAt s 0)) =
      some (0, none) := by decide
  obtain ⟨s, hs, heq⟩ := map_eq_some_iff.mp hstride
  obtain ⟨hzero, hnone⟩ := Prod.mk.inj heq
  refine ⟨s, hs, hzero, hnone, fun hfits => ?_⟩
  have hwide := hfits.payload.wide
  rw [hzero] at hwide
  exact absurd hwide (by decide)

end Seal

end Gptps.BoundedArenas
