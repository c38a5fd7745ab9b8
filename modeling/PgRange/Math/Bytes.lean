import Mathlib.Data.Nat.Basic
import Mathlib.Tactic.Ring

/-!
# Words and memory as bytes

A natural number written as a fixed number of bytes, least significant byte first or
last, and read back; rounding up to an alignment; and writing into a block of memory
whose tail is still zero.

## Main results

* `ofMachineBytes_machineBytes` — a word is read back from its bytes in either order
* `alignUp_add` — rounding up does not depend on an aligned base address
* `overwrite_zeros` — writing behind the part that is filled already
-/

set_option autoImplicit false

namespace PgRange.Math

/-- The `k` low bytes of `n`, least significant first. -/
def littleEndian : ℕ → ℕ → List UInt8
  | 0, _ => []
  | k + 1, n => UInt8.ofNat n :: littleEndian k (n / 256)

/-- The number that bytes stand for, least significant first. -/
def ofLittleEndian : List UInt8 → ℕ
  | [] => 0
  | b :: bs => b.toNat + 256 * ofLittleEndian bs

/-- The `k` low bytes of `n`, most significant first. -/
def bigEndian (k n : ℕ) : List UInt8 := (littleEndian k n).reverse

/-- The number that bytes stand for, most significant first. -/
def ofBigEndian (bs : List UInt8) : ℕ := ofLittleEndian bs.reverse

@[simp] theorem length_littleEndian (k n : ℕ) : (littleEndian k n).length = k := by
  induction k generalizing n with
  | zero => rfl
  | succ k ih => simp [littleEndian, ih]

@[simp] theorem length_bigEndian (k n : ℕ) : (bigEndian k n).length = k := by
  simp [bigEndian]

/-- Reading back what was written: all but the bytes that were cut off. -/
theorem ofLittleEndian_littleEndian (k n : ℕ) :
    ofLittleEndian (littleEndian k n) = n % 256 ^ k := by
  induction k generalizing n with
  | zero => simp [littleEndian, ofLittleEndian, Nat.mod_one]
  | succ k ih =>
    have hbyte : (UInt8.ofNat n).toNat = n % 256 := UInt8.toNat_ofNat'
    rw [littleEndian, ofLittleEndian, ih, hbyte, Nat.pow_succ, Nat.mul_comm (256 ^ k) 256,
      Nat.mod_mul]

theorem ofBigEndian_bigEndian (k n : ℕ) : ofBigEndian (bigEndian k n) = n % 256 ^ k := by
  rw [ofBigEndian, bigEndian, List.reverse_reverse, ofLittleEndian_littleEndian]

/-! ### Byte order -/

/-- The order of the bytes of a word in memory. -/
inductive ByteOrder
  | little
  | big
  deriving DecidableEq, Repr

/-- The `k` low bytes of `n` in memory. -/
def machineBytes : ByteOrder → ℕ → ℕ → List UInt8
  | .little => littleEndian
  | .big => bigEndian

/-- The number that bytes in memory stand for. -/
def ofMachineBytes : ByteOrder → List UInt8 → ℕ
  | .little => ofLittleEndian
  | .big => ofBigEndian

@[simp] theorem length_machineBytes (order : ByteOrder) (k n : ℕ) :
    (machineBytes order k n).length = k := by
  cases order <;> simp [machineBytes]

theorem ofMachineBytes_machineBytes (order : ByteOrder) (k n : ℕ) :
    ofMachineBytes order (machineBytes order k n) = n % 256 ^ k := by
  cases order with
  | little => exact ofLittleEndian_littleEndian k n
  | big => exact ofBigEndian_bigEndian k n

theorem littleEndian_mod (k n : ℕ) : littleEndian k (n % 256 ^ k) = littleEndian k n := by
  induction k generalizing n with
  | zero => rfl
  | succ k ih =>
    have hlow : UInt8.ofNat (n % 256 ^ (k + 1)) = UInt8.ofNat n := by
      apply UInt8.toNat_inj.mp
      rw [UInt8.toNat_ofNat', UInt8.toNat_ofNat']
      exact Nat.mod_mod_of_dvd n (Dvd.intro_left (256 ^ k) rfl)
    have hhigh : n % 256 ^ (k + 1) / 256 = n / 256 % 256 ^ k := by
      rw [Nat.pow_succ, Nat.mul_comm, Nat.mod_mul_right_div_self]
    rw [littleEndian, littleEndian, hlow, hhigh, ih]

/-- Only the low bytes of a number are written. -/
theorem machineBytes_mod (order : ByteOrder) (k n : ℕ) :
    machineBytes order k (n % 256 ^ k) = machineBytes order k n := by
  cases order with
  | little => exact littleEndian_mod k n
  | big => simp only [machineBytes, bigEndian, littleEndian_mod]

theorem machineBytes_congr (order : ByteOrder) {k m n : ℕ} (h : m % 256 ^ k = n % 256 ^ k) :
    machineBytes order k m = machineBytes order k n := by
  rw [← machineBytes_mod, h, machineBytes_mod]

/-- Extending a word with its sign does not change its low bytes. -/
theorem toNat_signExtend_mod {k w : ℕ} (hk : 8 * k ≤ w) (n : ℕ) :
    ((BitVec.ofNat (8 * k) n).signExtend w).toNat % 256 ^ k = n % 256 ^ k := by
  have hlow : ((BitVec.ofNat (8 * k) n).signExtend w).setWidth (8 * k) =
      BitVec.ofNat (8 * k) n := by
    apply BitVec.eq_of_getLsbD_eq
    intro i hi
    have hiw : i < w := by omega
    rw [BitVec.getLsbD_setWidth, BitVec.getLsbD_signExtend, if_pos hi]
    simp [hi, hiw]
  have hnat := congrArg BitVec.toNat hlow
  rwa [BitVec.toNat_setWidth, BitVec.toNat_ofNat, Nat.pow_mul] at hnat

/-! ### Alignment -/

/-- The next multiple of `a` at or above `n`. -/
def alignUp (a n : ℕ) : ℕ := (n + (a - 1)) / a * a

section Align

variable {a : ℕ}

theorem le_alignUp (ha : 0 < a) (n : ℕ) : n ≤ alignUp a n := by
  have hdiv := Nat.div_add_mod (n + (a - 1)) a
  have hmod := Nat.mod_lt (n + (a - 1)) ha
  rw [alignUp, Nat.mul_comm]
  omega

theorem alignUp_add (ha : 0 < a) {base : ℕ} (hbase : a ∣ base) (n : ℕ) :
    alignUp a (base + n) = base + alignUp a n := by
  obtain ⟨q, rfl⟩ := hbase
  rw [alignUp, alignUp, Nat.add_assoc, Nat.mul_add_div ha, Nat.add_mul, Nat.mul_comm a q]

theorem alignUp_zero (ha : 0 < a) : alignUp a 0 = 0 := by
  rw [alignUp, Nat.zero_add, Nat.div_eq_of_lt (by omega), Nat.zero_mul]

theorem alignUp_of_dvd (ha : 0 < a) {n : ℕ} (h : a ∣ n) : alignUp a n = n := by
  have hadd := alignUp_add ha h 0
  rwa [alignUp_zero ha] at hadd

end Align

/-! ### Writing into memory -/

/-- Memory after some bytes have been written at an offset. Writing past the end would
make it longer. -/
def overwrite (mem : List UInt8) (off : ℕ) (bytes : List UInt8) : List UInt8 :=
  mem.take off ++ bytes ++ mem.drop (off + bytes.length)

/-- Writing at a distance behind the filled part of memory whose rest is zero. -/
theorem overwrite_zeros (filled bytes : List UInt8) (pad k : ℕ)
    (hfits : pad + bytes.length ≤ k) :
    overwrite (filled ++ List.replicate k 0) (filled.length + pad) bytes =
      filled ++ List.replicate pad 0 ++ bytes ++ List.replicate (k - (pad + bytes.length)) 0 := by
  have hpad : pad ≤ k := by omega
  rw [overwrite, Nat.add_assoc, List.take_length_add_append, List.drop_length_add_append,
    List.take_replicate, List.drop_replicate, Nat.min_eq_left hpad]

end PgRange.Math
