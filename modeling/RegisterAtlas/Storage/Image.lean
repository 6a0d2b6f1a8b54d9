import RegisterAtlas.Value

/-! # File images

The bytes of a file, and the numbers that they hold, least significant byte first. -/

namespace RegisterAtlas

/-- The number that bytes hold, least significant first. -/
def ofLittleEndian : List UInt8 → Nat
  | [] => 0
  | b :: bs => b.toNat + 256 * ofLittleEndian bs

/-- The lowest `count` bytes of a number, least significant first. -/
def littleEndian : Nat → Nat → List UInt8
  | 0, _ => []
  | count + 1, n => n.toUInt8 :: littleEndian count (n / 256)

@[simp] theorem length_littleEndian (count n : Nat) : (littleEndian count n).length = count := by
  induction count generalizing n with
  | zero => rfl
  | succ count ih => simp [littleEndian, ih]

theorem ofLittleEndian_littleEndian (count n : Nat) :
    ofLittleEndian (littleEndian count n) = n % wordCount (8 * count) := by
  induction count generalizing n with
  | zero => simp [littleEndian, ofLittleEndian, Nat.mod_one]
  | succ count ih =>
      have h : n.toUInt8.toNat = n % 256 := by simp
      have h' : wordCount (8 * (count + 1)) = 256 * wordCount (8 * count) := by
        rw [Nat.mul_succ, Nat.add_comm, wordCount_add]
        rfl
      rw [littleEndian, ofLittleEndian, ih, h, h', Nat.mod_mul]

/-- A file: its size, and the byte at each place before its end. -/
structure Image where
  size : Nat
  stored : Nat → UInt8

namespace Image

def empty : Image := ⟨0, fun _ => 0⟩

/-- The byte at a place; zero behind the end. -/
def byte (f : Image) (i : Nat) : UInt8 := if i < f.size then f.stored i else 0

/-- A file of zeros. -/
def zeros (size : Nat) : Image := ⟨size, fun _ => 0⟩

/-- Puts bytes at a place. A file that ends before them grows, with zeros in between. -/
def patch (f : Image) (start : Nat) (bytes : List UInt8) : Image :=
  let block := bytes.toArray
  { size := max f.size (start + bytes.length)
    stored := fun i =>
      if start ≤ i ∧ i < start + block.size then block.getD (i - start) 0 else f.byte i }

/-- The bytes of the file from `start` on, at most `count` of them. -/
def slice (f : Image) (start count : Nat) : List UInt8 :=
  (List.range (min count (f.size - start))).map fun i => f.byte (start + i)

def ofBytes (bytes : Array UInt8) : Image := ⟨bytes.size, fun i => bytes.getD i 0⟩

def bytes (f : Image) : List UInt8 := f.slice 0 f.size

theorem byte_patch (f : Image) (start : Nat) (bytes : List UInt8) (i : Nat) :
    (f.patch start bytes).byte i =
      if start ≤ i ∧ i < start + bytes.length then bytes.getD (i - start) 0 else f.byte i := by
  by_cases h : i < max f.size (start + bytes.length)
  · simp [byte, patch, h, Array.getD_eq_getD_getElem?, List.getD_eq_getElem?_getD]
  · have h' : ¬ (start ≤ i ∧ i < start + bytes.length) := by omega
    have h'' : ¬ i < f.size := by omega
    simp only [byte, patch, h, h', h'', if_false]

@[simp] theorem length_slice (f : Image) (start count : Nat) :
    (f.slice start count).length = min count (f.size - start) := by simp [slice]

end Image

end RegisterAtlas
