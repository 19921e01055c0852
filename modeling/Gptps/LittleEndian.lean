import Mathlib.Algebra.Ring.Nat

/-!
# Numbers stored in bytes

A number is stored in a fixed count of bytes by shifting it right eight bits at a time and
loaded back by adding the bytes up with their weights. Storing keeps the number modulo the
range of the bytes. The bytes stand least significant first, or the other way round.
-/

namespace Gptps.LittleEndian

open List

/-- The lowest `n` bytes of `v`, least significant first. -/
def storeLe : ℕ → ℕ → List UInt8
  | 0, _ => []
  | n + 1, v => UInt8.ofNat v :: storeLe n (v / 256)

/-- The number some bytes stand for, least significant first. -/
def loadLe : List UInt8 → ℕ
  | [] => 0
  | b :: bs => b.toNat + 256 * loadLe bs

@[simp] theorem length_storeLe (n v : ℕ) : (storeLe n v).length = n := by
  induction n generalizing v with
  | zero => rfl
  | succ n ih => rw [storeLe, length_cons, ih]

/-- What `n` stored bytes load back as: the number modulo their range. -/
theorem loadLe_storeLe (n v : ℕ) : loadLe (storeLe n v) = v % 256 ^ n := by
  induction n generalizing v with
  | zero => rw [storeLe, loadLe, pow_zero, Nat.mod_one]
  | succ n ih =>
    have hbyte : (UInt8.ofNat v).toNat = v % 256 := UInt8.toNat_ofNat'
    rw [storeLe, loadLe, ih, hbyte, pow_succ', Nat.mod_mul]

/-- A number in the range of its bytes is loaded back as it was stored. -/
theorem loadLe_storeLe_of_lt {n v : ℕ} (h : v < 256 ^ n) : loadLe (storeLe n v) = v := by
  rw [loadLe_storeLe, Nat.mod_eq_of_lt h]

/-- What `n` bytes can stand for. -/
theorem loadLe_lt (bs : List UInt8) : loadLe bs < 256 ^ bs.length := by
  induction bs with
  | nil => exact Nat.one_pos
  | cons b bs ih =>
    have hb : b.toNat < 256 := b.toNat_lt
    rw [loadLe, length_cons, pow_succ]
    omega

/-- The same for at most `n` bytes of a longer list. -/
theorem loadLe_take_lt (n : ℕ) (bs : List UInt8) : loadLe (bs.take n) < 256 ^ n := by
  refine lt_of_lt_of_le (loadLe_lt _) (Nat.pow_le_pow_right (by decide) ?_)
  rw [length_take]
  exact min_le_left _ _

/-- What was loaded is stored back as the same bytes. -/
theorem storeLe_loadLe (bs : List UInt8) : storeLe bs.length (loadLe bs) = bs := by
  induction bs with
  | nil => rfl
  | cons b bs ih =>
    have hb : b.toNat < 256 := b.toNat_lt
    have hrest : (b.toNat + 256 * loadLe bs) / 256 = loadLe bs := by omega
    have hbyte : UInt8.ofNat (b.toNat + 256 * loadLe bs) = b := by
      refine UInt8.toNat_inj.mp (UInt8.toNat_ofNat'.trans ?_)
      omega
    rw [loadLe, length_cons, storeLe, hrest, ih, hbyte]

/-- A number of `n` bytes, most significant first. -/
def putBe (n : ℕ) (v : BitVec (8 * n)) : List UInt8 := (storeLe n v.toNat).reverse

/-- The number the first `n` bytes stand for, most significant first. -/
def getBe (n : ℕ) (p : List UInt8) : BitVec (8 * n) := BitVec.ofNat (8 * n) (loadLe (p.take n).reverse)

@[simp] theorem length_putBe (n : ℕ) (v : BitVec (8 * n)) : (putBe n v).length = n := by
  rw [putBe, length_reverse, length_storeLe]

theorem pow_bytes (n : ℕ) : 256 ^ n = 2 ^ (8 * n) := pow_mul 2 8 n |>.symm

/-- What was stored is loaded back, whatever follows it. -/
@[simp] theorem getBe_putBe (n : ℕ) (v : BitVec (8 * n)) (r : List UInt8) : getBe n (putBe n v ++ r) = v := by
  rw [getBe, take_left' (length_putBe n v), putBe, reverse_reverse,
    loadLe_storeLe_of_lt (pow_bytes n ▸ v.isLt), BitVec.ofNat_toNat, BitVec.setWidth_eq]

/-- What was loaded is stored back as the same bytes. -/
theorem putBe_getBe {n : ℕ} {p : List UInt8} (hn : n ≤ p.length) : putBe n (getBe n p) = p.take n := by
  have hlen : (p.take n).reverse.length = n := by rw [length_reverse, length_take_of_le hn]
  have hlt := loadLe_lt (p.take n).reverse
  rw [hlen, pow_bytes] at hlt
  have hback := storeLe_loadLe (p.take n).reverse
  rw [hlen] at hback
  rw [putBe, getBe, BitVec.toNat_ofNat, Nat.mod_eq_of_lt hlt, hback, reverse_reverse]

example : putBe 4 0x47505452 = [0x47, 0x50, 0x54, 0x52] := by decide

end Gptps.LittleEndian
