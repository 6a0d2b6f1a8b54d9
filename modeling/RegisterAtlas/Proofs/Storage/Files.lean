import RegisterAtlas.Proofs.Storage.Numbers

/-!
# Files in place

A number that lies within a file is read as the sum of its bytes, and one that is written there
changes its own bytes only (`Stores`). Names are found on the disk as before then, as the same
directories and files are there.
-/

namespace RegisterAtlas

theorem Image.slice_eq {f : Image} {start count : Nat} (h : start + count ≤ f.size) :
    f.slice start count = (List.range count).map fun i => f.byte (start + i) := by
  have hmin : min count (f.size - start) = count := by omega
  rw [Image.slice, hmin]

namespace Disk

variable {d d' d'' : Disk} {place : Location} {image : Image} {start : Nat} {width : Width}
  {v : Value}

theorem image?_eq_some_iff :
    d.image? place = some image ↔ d.content? place = some (.file image) := by
  unfold image?
  rcases d.content? place with _ | _ | _ <;> simp

/-! ## Names -/

/-- The same directories and files are on both disks, and the same parts of them can be mapped. -/
structure SameNames (d d' : Disk) : Prop where
  workingDirectory_eq : d'.workingDirectory = d.workingDirectory
  isDirectory_eq : ∀ place, d'.isDirectory place = d.isDirectory place
  isSome_content? : ∀ place, (d'.content? place).isSome = (d.content? place).isSome
  mapRefusal_eq : d'.mapRefusal = d.mapRefusal

namespace SameNames

theorem refl (d : Disk) : d.SameNames d := ⟨rfl, fun _ => rfl, fun _ => rfl, rfl⟩

theorem trans (h : d.SameNames d') (h' : d'.SameNames d'') : d.SameNames d'' where
  workingDirectory_eq := h'.workingDirectory_eq.trans h.workingDirectory_eq
  isDirectory_eq place := (h'.isDirectory_eq place).trans (h.isDirectory_eq place)
  isSome_content? place := (h'.isSome_content? place).trans (h.isSome_content? place)
  mapRefusal_eq := h'.mapRefusal_eq.trans h.mapRefusal_eq

theorem descend_eq (h : d.SameNames d') (parts : List String) :
    ∀ place, d'.descend place parts = d.descend place parts := by
  induction parts with
  | nil => exact fun _ => rfl
  | cons part rest ih =>
      intro place
      simp only [descend, h.isDirectory_eq, ih]
      have hsome := h.isSome_content? (place ++ [part])
      cases hcontent : d.content? (place ++ [part]) <;>
        cases hcontent' : d'.content? (place ++ [part]) <;> simp [hcontent, hcontent'] at hsome ⊢

theorem locate_eq (h : d.SameNames d') (name : String) : d'.locate name = d.locate name := by
  simp only [locate, h.descend_eq, h.workingDirectory_eq]

theorem openFile_eq (h : d.SameNames d') (name : String) : d'.openFile name = d.openFile name := by
  simp only [openFile, h.locate_eq, h.isDirectory_eq]

end SameNames

/-! ## Numbers in files -/

theorem readNumber_eq (himage : d.image? place = some image) (hsize : image.size < offsetLimit)
    (hend : start + width.bytes ≤ image.size) :
    ∃ v, d.readNumber place start width = .ok v ∧
      v.toNat = ∑ i ∈ Finset.range width.bytes, (image.byte (start + i)).toNat * 256 ^ i := by
  have hoffset : ¬ offsetLimit ≤ start + width.bytes := by omega
  have hlt : ofLittleEndian (image.slice start width.bytes) < 2 ^ 128 := by
    refine Nat.lt_of_lt_of_le (ofLittleEndian_lt _) ?_
    rw [Image.slice_eq hend, List.length_map, List.length_range, pow_bytes]
    exact Nat.pow_le_pow_right (by decide) width.bits_le
  refine ⟨BitVec.ofNat 128 (ofLittleEndian (image.slice start width.bytes)), ?_, ?_⟩
  · rw [readNumber, readBytes, if_neg hoffset, image?_eq_some_iff.1 himage]
    simp only [if_pos hend]
    rfl
  · rw [BitVec.toNat_ofNat, Nat.mod_eq_of_lt hlt, Image.slice_eq hend, ofLittleEndian_map_range]

/-- Puts another image in the place of a file. -/
def setImage (d : Disk) (place : Location) (image : Image) : Disk :=
  { d with contents := d.contents.insert place (.file image) }

theorem content?_setImage (hplace : place ≠ []) (image : Image) (other : Location) :
    (d.setImage place image).content? other =
      if other = place then some (.file image) else d.content? other := by
  simp only [content?, setImage, Table.get?_insert]
  by_cases hother : other = place
  · rw [hother, if_neg hplace, if_pos rfl, if_pos rfl]
  · rw [if_neg (Ne.symm hother), if_neg hother]

/-- A number has been written into a file: its bytes are there, and nothing else is different. -/
structure Stores (d d' : Disk) (place : Location) (start : Nat) (width : Width) (v : Value) :
    Prop where
  workingDirectory_eq : d'.workingDirectory = d.workingDirectory
  mapRefusal_eq : d'.mapRefusal = d.mapRefusal
  content_eq : ∀ other, other ≠ place → d'.content? other = d.content? other
  image_eq : ∃ image image', d.image? place = some image ∧ d'.image? place = some image' ∧
    image'.size = image.size ∧ ∀ i, image'.byte i =
      if start ≤ i ∧ i < start + width.bytes then byteOf width v (i - start) else image.byte i

theorem writeNumber_stores (himage : d.image? place = some image)
    (hsize : image.size < offsetLimit) (hend : start + width.bytes ≤ image.size) (v : Value) :
    ∃ d', d.writeNumber place start width v = .ok d' ∧ d.Stores d' place start width v := by
  have hcontent := image?_eq_some_iff.1 himage
  have hplace : place ≠ [] := by
    rintro rfl
    cases hcontent
  have hoffset : ¬ offsetLimit ≤ start + width.bytes := by omega
  refine ⟨d.setImage place (image.patch start (littleEndian width.bytes v.toNat)), ?_, rfl, rfl,
    ?_, image, image.patch start (littleEndian width.bytes v.toNat), himage, ?_, ?_, ?_⟩
  · rw [writeNumber, writeBytes, length_littleEndian, if_neg hoffset, hcontent]
    rfl
  · intro other hother
    rw [content?_setImage hplace, if_neg hother]
  · rw [image?_eq_some_iff, content?_setImage hplace, if_pos rfl]
  · simp only [Image.patch, length_littleEndian]
    omega
  · intro i
    rw [Image.byte_patch, length_littleEndian]
    split
    · next hi => exact getD_littleEndian_value (by omega) v
    · rfl

theorem Stores.sameNames (h : d.Stores d' place start width v) : d.SameNames d' := by
  obtain ⟨image, image', himage, himage', -, -⟩ := h.image_eq
  have hcontent := image?_eq_some_iff.1 himage
  have hcontent' := image?_eq_some_iff.1 himage'
  refine ⟨h.workingDirectory_eq, fun other => ?_, fun other => ?_, h.mapRefusal_eq⟩
  · by_cases hother : other = place
    · rw [hother, isDirectory, isDirectory, hcontent, hcontent']
    · rw [isDirectory, isDirectory, h.content_eq other hother]
  · by_cases hother : other = place
    · rw [hother, hcontent, hcontent']
      rfl
    · rw [h.content_eq other hother]

end Disk

end RegisterAtlas
