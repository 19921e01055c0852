import Gptps.TombstoneTable

/-!
# The handle index of the durable queue

Every event names a handle, and the index maps the handle to the number of its record. It is an
open-addressing table with tombstones. Room is reserved before a record is journaled, and a
reservation counts as load until it is used or released.
-/

namespace Gptps.DurableIndex

open TombstoneTable

/-- The handle index. -/
structure Index where
  /-- The slots with their counts. -/
  table : Table ℕ ℕ
  /-- The entries reserved and not yet stored. -/
  reserved : ℕ

/-- The index of a fresh queue. -/
def Index.empty : Index := ⟨.empty, 0⟩

/-- The slot a handle is looked for first. The number of slots is a power of two, so the mask of
the source is the remainder. -/
def slotOf (nslots h : ℕ) : ℕ :=
  let a : UInt64 := UInt64.ofNat h
  let b := (a ^^^ (a >>> 33)) * 0xff51afd7ed558ccd
  (b ^^^ (b >>> 33)).toNat % nslots

/-- The largest `size_t`. -/
def sizeMax : ℕ := 2 ^ 64 - 1

/-- Doubles `nn` until it reaches `target`. -/
def growTo (target : ℕ) : ℕ → ℕ → ℕ
  | 0, nn => nn
  | fuel + 1, nn => if nn < target then growTo target fuel (nn * 2) else nn

/-- Reserves room for `extra` more entries; `alloc` says whether memory for a larger table is
to be had. -/
def mapReserve (x : Index) (extra : ℕ) (alloc : Bool) : Option Index :=
  let need := x.table.live + x.reserved + extra
  if (need + x.table.dead) * 2 ≤ x.table.size then some { x with reserved := x.reserved + extra }
  else if need > sizeMax / 8 then none
  else if alloc then
    (rehash slotOf x.table (growTo (need * 4) 64 16)).map fun t => ⟨t, x.reserved + extra⟩
  else none

/-- Releases reservations that were not used. -/
def mapUnreserve (x : Index) (n : ℕ) : Index := { x with reserved := x.reserved - n }

/-- Stores a handle with the number of its record, using a reservation. -/
def mapPut (x : Index) (h seq : ℕ) : Option Index :=
  (put slotOf x.table (h, seq)).map fun t => ⟨t, x.reserved - 1⟩

/-- The number stored for a handle. -/
def mapFind (x : Index) (h : ℕ) : Option ℕ := if h = 0 then none else lookup slotOf x.table h

/-- Deletes a handle. -/
def mapDel (x : Index) (h : ℕ) : Index :=
  if h = 0 then x else { x with table := del slotOf x.table h }

/-- The index holds exactly the entries of `l`, has `n` reservations and is loaded at most by a
half with them. -/
structure Indexed (x : Index) (l : List (ℕ × ℕ)) (n : ℕ) : Prop where
  /-- The slots hold the entries. -/
  holds : Holds slotOf x.table l
  /-- The reservations are counted. -/
  count : x.reserved = n
  /-- At most every other slot is in use, deleted or reserved. -/
  load : (x.table.live + x.table.dead + x.reserved) * 2 ≤ x.table.size

variable {x y : Index} {l l' : List (ℕ × ℕ)} {n extra h seq : ℕ}

/-- A home slot is in the table. -/
theorem slotOf_lt (n k : ℕ) (hn : 0 < n) : slotOf n k < n := Nat.mod_lt _ hn

theorem indexed_empty : Indexed .empty [] 0 := ⟨holds_fresh 0, rfl, le_refl 0⟩

/-- The order of the entries does not matter. -/
theorem Indexed.perm (hx : Indexed x l n) (hp : l.Perm l') : Indexed x l' n :=
  ⟨hx.holds.perm hp, hx.count, hx.load⟩

/-- The doubling reaches its target. -/
theorem growTo_le (target fuel nn : ℕ) (h : target ≤ nn * 2 ^ fuel) :
    target ≤ growTo target fuel nn := by
  induction fuel generalizing nn with
  | zero => simpa [growTo] using h
  | succ fuel ih =>
    rw [growTo]
    split_ifs with hlt
    · refine ih (nn * 2) (le_trans h (le_of_eq ?_))
      rw [Nat.pow_succ', mul_assoc]
    · exact le_of_not_gt hlt

/-- The table is rehashed into one with room for every entry and reservation. -/
theorem rehash_indexed (hx : Indexed x l n)
    (hrange : x.table.live + x.reserved + extra ≤ sizeMax / 8) :
    ∃ t, rehash slotOf x.table (growTo ((x.table.live + x.reserved + extra) * 4) 64 16) = some t ∧
      Indexed ⟨t, x.reserved + extra⟩ l (n + extra) := by
  have hlive := hx.holds.live
  have hbound : (x.table.live + x.reserved + extra) * 4 ≤
      growTo ((x.table.live + x.reserved + extra) * 4) 64 16 := by
    apply growTo_le
    unfold sizeMax at hrange
    omega
  obtain ⟨t, ht, hsize, hdead, hholds⟩ := rehash_holds slotOf_lt hx.holds
    (show l.length * 2 ≤ growTo ((x.table.live + x.reserved + extra) * 4) 64 16 by omega)
  refine ⟨t, ht, hholds, ?_, ?_⟩
  · rw [← hx.count]
  · dsimp only
    rw [hdead, hsize, hholds.live, ← hlive]
    omega

/-- Where there is room a reservation is only counted. -/
theorem Indexed.count_up (hx : Indexed x l n)
    (hroom : (x.table.live + x.reserved + extra + x.table.dead) * 2 ≤ x.table.size) :
    Indexed { x with reserved := x.reserved + extra } l (n + extra) := by
  refine ⟨hx.holds, ?_, ?_⟩
  · rw [← hx.count]
  · dsimp only
    omega

/-- Reserving keeps the entries and the load. -/
theorem mapReserve_indexed {alloc : Bool} (hx : Indexed x l n)
    (h : mapReserve x extra alloc = some y) : Indexed y l (n + extra) := by
  unfold mapReserve at h
  dsimp only at h
  split_ifs at h with hroom hbig halloc
  · cases h
    exact hx.count_up hroom
  · obtain ⟨t, ht, hind⟩ := rehash_indexed hx (le_of_not_gt hbig)
    rw [ht] at h
    cases h
    exact hind

/-- A reservation is given back. -/
theorem mapUnreserve_indexed {m : ℕ} (hx : Indexed x l (n + m)) :
    Indexed (mapUnreserve x m) l n := by
  have hcount := hx.count
  have hload := hx.load
  refine ⟨hx.holds, ?_, ?_⟩
  · dsimp only [mapUnreserve]
    omega
  · dsimp only [mapUnreserve]
    omega

/-- Storing a new handle ends and uses a reservation. -/
theorem mapPut_indexed (h seq : ℕ) (hx : Indexed x l (n + 1)) (hnew : ∀ e ∈ l, e.1 ≠ h) :
    ∃ y, mapPut x h seq = some y ∧ Indexed y ((h, seq) :: l) n := by
  have hcount := hx.count
  have hload := hx.load
  obtain ⟨u, hu, hsize, hlive, hdead, hholds⟩ :=
    put_holds slotOf_lt hx.holds (e := (h, seq)) hnew (by omega)
  refine ⟨⟨u, x.reserved - 1⟩, by rw [mapPut, hu, Option.map_some], hholds, ?_, ?_⟩
  · dsimp only
    omega
  · dsimp only
    omega

/-- Looking a handle up answers exactly the number stored for it. -/
theorem mapFind_iff (hx : Indexed x l n) (hpos : ∀ e ∈ l, e.1 ≠ 0) :
    mapFind x h = some seq ↔ (h, seq) ∈ l := by
  unfold mapFind
  split_ifs with hz
  · refine ⟨fun hn => (by cases hn), fun hmem => absurd hz (hpos _ hmem)⟩
  · exact lookup_iff slotOf_lt hx.holds h seq

/-- Deleting a stored handle removes it alone. -/
theorem mapDel_indexed (hx : Indexed x ((h, seq) :: l) n) (hz : h ≠ 0) :
    Indexed (mapDel x h) l n := by
  obtain ⟨hholds, hsize, hlive, hdead⟩ := del_holds slotOf_lt hx.holds
  have hload := hx.load
  rw [mapDel, if_neg hz]
  refine ⟨hholds, hx.count, ?_⟩
  dsimp only at hholds hsize hlive hdead ⊢
  omega

/-- Handles 7, 8 and 9 are stored in room for four, and 8 is deleted. -/
def sampleIndex : Index :=
  (do
    let x₀ ← mapReserve .empty 4 true
    let x₁ ← mapPut x₀ 7 1
    let x₂ ← mapPut x₁ 8 2
    let x₃ ← mapPut x₂ 9 3
    some (mapDel x₃ 8)).getD .empty

/-- It stores its two entries. -/
theorem sampleIndex_indexed : Indexed sampleIndex [(9, 3), (7, 1)] 1 := by
  obtain ⟨x₀, hx₀⟩ := Option.isSome_iff_exists.mp
    (show (mapReserve .empty 4 true).isSome = true by decide +kernel)
  have h₀ := mapReserve_indexed indexed_empty hx₀
  obtain ⟨x₁, hx₁, h₁⟩ := mapPut_indexed 7 1 h₀ (by decide)
  obtain ⟨x₂, hx₂, h₂⟩ := mapPut_indexed 8 2 h₁ (by decide)
  obtain ⟨x₃, hx₃, h₃⟩ := mapPut_indexed 9 3 h₂ (by decide)
  have heq : sampleIndex = mapDel x₃ 8 := by
    simp [sampleIndex, hx₀, hx₁, hx₂, hx₃]
  rw [heq]
  exact mapDel_indexed (h₃.perm (.swap ..)) (by decide)

/-- With memory, and as many entries as a `size_t` can count slots for, room is reserved: whatever
entries, tombstones and reservations the index has, the table that comes of it stores the same
entries, so that every handle is found as before. -/
theorem mapReserve_grows (hx : Indexed x l n)
    (hrange : x.table.live + x.reserved + extra ≤ sizeMax / 8) :
    ∃ y, mapReserve x extra true = some y ∧ Indexed y l (n + extra) ∧
      ∀ h, mapFind y h = mapFind x h := by
  have hsome : ∃ y, mapReserve x extra true = some y := by
    unfold mapReserve
    dsimp only
    split_ifs with hroom hbig halloc
    · exact ⟨_, rfl⟩
    · exact absurd hrange (Nat.not_le.mpr hbig)
    · obtain ⟨t, ht, -⟩ := rehash_indexed hx hrange
      exact ⟨_, by rw [ht, Option.map_some]⟩
    · exact absurd rfl halloc
  obtain ⟨y, hy⟩ := hsome
  have hind := mapReserve_indexed hx hy
  refine ⟨y, hy, hind, fun h => ?_⟩
  unfold mapFind
  split_ifs with hz
  · rfl
  · ext seq
    rw [lookup_iff slotOf_lt hind.holds, lookup_iff slotOf_lt hx.holds]

/-- With two entries, a tombstone and a reservation, room for five more takes a larger table:
handle 9 is still found in it, and 8 is not. -/
theorem mapReserve_grows_sample : sampleIndex.table.dead = 1 ∧
    ∃ y, mapReserve sampleIndex 5 true = some y ∧ y.table.size = 32 ∧ mapFind y 9 = some 3 ∧
      mapFind y 8 = none := by
  obtain ⟨y, hy, -, hfind⟩ := @mapReserve_grows _ _ _ 5 sampleIndex_indexed (by decide +kernel)
  have hsize : (mapReserve sampleIndex 5 true).map (·.table.size) = some 32 := by decide +kernel
  rw [hy] at hsize
  refine ⟨by decide +kernel, y, hy, Option.some.inj hsize, ?_, ?_⟩
  · rw [hfind]
    decide +kernel
  · rw [hfind]
    decide +kernel

end Gptps.DurableIndex
