import RegisterAtlas.Storage.DeviceFile
import Mathlib.Algebra.BigOperators.Intervals
import Mathlib.Tactic.Ring

/-!
# Numbers as bytes

The number that bytes hold is the sum of the bytes, each times a power of 256
(`ofLittleEndian_map_range`). Bytes may pass through a buffer that is larger than the number: read
into a buffer of zeros they hold the same number, and the first bytes of a buffer are those of a
number that fits into fewer.
-/

namespace RegisterAtlas

/-! ## Little-endian bytes -/

theorem ofLittleEndian_append (bs bs' : List UInt8) :
    ofLittleEndian (bs ++ bs') = ofLittleEndian bs + 256 ^ bs.length * ofLittleEndian bs' := by
  induction bs with
  | nil => simp [ofLittleEndian]
  | cons b bs ih =>
      rw [List.cons_append, ofLittleEndian, ih, ofLittleEndian, List.length_cons, Nat.pow_succ]
      ring

theorem ofLittleEndian_zeros (n : Nat) : ofLittleEndian (List.replicate n 0) = 0 := by
  induction n with
  | zero => rfl
  | succ n ih => rw [List.replicate_succ, ofLittleEndian, ih]; rfl

theorem ofLittleEndian_lt (bs : List UInt8) : ofLittleEndian bs < 256 ^ bs.length := by
  induction bs with
  | nil => exact Nat.one_pos
  | cons b bs ih =>
      have hb : b.toNat < 256 := b.toNat_lt
      rw [ofLittleEndian, List.length_cons, Nat.pow_succ]
      omega

theorem ofLittleEndian_map_range (f : Nat → UInt8) (n : Nat) :
    ofLittleEndian ((List.range n).map f) = ∑ i ∈ Finset.range n, (f i).toNat * 256 ^ i := by
  induction n with
  | zero => rfl
  | succ n ih =>
      rw [List.range_succ, List.map_append, ofLittleEndian_append, ih, Finset.sum_range_succ,
        List.length_map, List.length_range, List.map_singleton, ofLittleEndian, ofLittleEndian]
      ring

theorem getD_littleEndian {count i : Nat} (h : i < count) (n : Nat) :
    (littleEndian count n).getD i 0 = (n / 256 ^ i).toUInt8 := by
  induction count generalizing i n with
  | zero => exact (Nat.not_lt_zero _ h).elim
  | succ count ih =>
      rw [littleEndian]
      cases i with
      | zero => rw [List.getD_cons_zero, Nat.pow_zero, Nat.div_one]
      | succ i =>
          rw [List.getD_cons_succ, ih (Nat.lt_of_succ_lt_succ h), Nat.div_div_eq_div_mul,
            Nat.pow_succ']

theorem take_littleEndian {count size : Nat} (h : count ≤ size) (n : Nat) :
    (littleEndian size n).take count = littleEndian count n := by
  induction count generalizing size n with
  | zero => rfl
  | succ count ih =>
      obtain ⟨size, rfl⟩ := Nat.exists_eq_add_of_le' (Nat.lt_of_lt_of_le (Nat.succ_pos _) h)
      rw [littleEndian, List.take_succ_cons, ih (Nat.le_of_succ_le_succ h), littleEndian]

/-- What lies beyond the bytes has no influence on them. -/
theorem littleEndian_mod (count n : Nat) :
    littleEndian count (n % 256 ^ count) = littleEndian count n := by
  induction count generalizing n with
  | zero => rfl
  | succ count ih =>
      have hfirst : (n % 256 ^ (count + 1)).toUInt8 = n.toUInt8 := by
        rw [← UInt8.toNat_inj]
        simp [Nat.pow_succ']
      have hrest : n % 256 ^ (count + 1) / 256 = n / 256 % 256 ^ count := by
        rw [Nat.pow_succ', Nat.mod_mul_right_div_self]
      rw [littleEndian, littleEndian, hfirst, hrest, ih]

/-! ## Values -/

theorem pow_bytes (width : Width) : 256 ^ width.bytes = 2 ^ width.bits := by
  cases width <;> rfl

theorem toNat_truncate (width : Width) (v : Value) :
    (width.truncate v).toNat = v.toNat % 2 ^ width.bits := by
  have hmod : width.truncate v = BitVec.ofNat 128 (v.toNat % 2 ^ width.bits) := by
    refine BitVec.eq_of_getLsbD_eq fun i hi => ?_
    rw [Width.getLsbD_truncate, BitVec.getLsbD_ofNat, Nat.testBit_mod_two_pow, Bool.and_comm]
    simp [hi, BitVec.getLsbD]
  have hlt : v.toNat % 2 ^ width.bits < 2 ^ 128 :=
    Nat.lt_of_le_of_lt (Nat.mod_le ..) v.isLt
  rw [hmod, BitVec.toNat_ofNat, Nat.mod_eq_of_lt hlt]

/-- A byte of a value that is truncated to a width, by its place from the lowest one. -/
def byteOf (width : Width) (v : Value) (i : Nat) : UInt8 :=
  (v.toNat % 2 ^ width.bits / 256 ^ i).toUInt8

theorem getD_littleEndian_value {width : Width} {i : Nat} (h : i < width.bytes) (v : Value) :
    (littleEndian width.bytes v.toNat).getD i 0 = byteOf width v i := by
  rw [← littleEndian_mod, pow_bytes, getD_littleEndian h, byteOf]

/-! ## Buffers -/

namespace Disk

/-- Reads a number into the first bytes of a buffer, of which the others stay zero. -/
def readBuffered (d : Disk) (size : Nat) (place : Location) (offset : Nat) (width : Width) :
    Except SystemError Value := do
  let bytes ← d.readBytes place offset width.bytes
  pure (BitVec.ofNat 128 (ofLittleEndian (bytes ++ List.replicate (size - width.bytes) 0)))

/-- Writes the first bytes of a buffer that holds a truncated value. -/
def writeBuffered (d : Disk) (size : Nat) (place : Location) (offset : Nat) (width : Width)
    (v : Value) : Except SystemError Disk :=
  d.writeBytes place offset ((littleEndian size (width.truncate v).toNat).take width.bytes)

theorem readBuffered_eq (d : Disk) (size : Nat) (place : Location) (offset : Nat)
    (width : Width) : d.readBuffered size place offset width = d.readNumber place offset width := by
  simp only [readBuffered, readNumber, ofLittleEndian_append, ofLittleEndian_zeros, Nat.mul_zero,
    Nat.add_zero]

theorem writeBuffered_eq {size : Nat} {width : Width} (h : width.bytes ≤ size) (d : Disk)
    (place : Location) (offset : Nat) (v : Value) :
    d.writeBuffered size place offset width v = d.writeNumber place offset width v := by
  rw [writeBuffered, writeNumber, take_littleEndian h, toNat_truncate, ← pow_bytes,
    littleEndian_mod]

end Disk

end RegisterAtlas
