import RegisterAtlas.Datatype
import RegisterAtlas.Proofs.Text.Blank
import RegisterAtlas.Proofs.Text.Decimal

/-!
# Numbers

A number is shown in decimal or in hexadecimal, padded with zeros or not, and with a blank and its
unit behind it. A token is trimmed, loses the unit and is trimmed again, and its radix is told from
its mark. So what is shown is read back as the same number, even if the unit is made of digits or
starts with a blank. Only a unit that ends with a blank would be mangled by the trimming.
-/

namespace RegisterAtlas

/-! ## Reading numbers -/

theorem parseNumber?_of_decimal {cs : List Char} {v : Value}
    (h : Text.trim cs = Nat.toDigits 10 v.toNat) : parseNumber? cs = some v := by
  have hlt : v.toNat < wordCount valueBits := v.isLt
  rw [parseNumber?, h, Text.hexBody?_toDigits]
  dsimp only
  rw [Text.readDigits_toDigits 10 (by decide) (by decide),
    Option.filter_some_pos (by simpa using hlt),
    Option.map_some, BitVec.ofNat_toNat, BitVec.setWidth_eq]

theorem parseNumber?_of_hex {cs digits : List Char} {v : Value}
    (h : Text.trim cs = '0' :: 'x' :: digits) (hread : Text.readDigits 16 digits = some v.toNat) :
    parseNumber? cs = some v := by
  have hlt : v.toNat < wordCount valueBits := v.isLt
  have hbody : Text.hexBody? ('0' :: 'x' :: digits) = some digits := rfl
  rw [parseNumber?, h, hbody]
  dsimp only
  rw [hread, Option.filter_some_pos (by simpa using hlt), Option.map_some, BitVec.ofNat_toNat,
    BitVec.setWidth_eq]

namespace Datatype

variable {units : Option String}

/-- The number is what is left of a number with its unit, up to blanks. -/
theorem trim_bareNumber_withUnits
    (hunits : ∀ u ∈ units, ∀ c ∈ u.toList.getLast?, Text.isBlank c = false)
    (number : String) (hne : number.toList ≠ [])
    (hnumber : ∀ c ∈ number.toList, Text.isBlank c = false) :
    Text.trim (bareNumber units (withUnits number units).toList) = number.toList := by
  have hbare := (Text.isTrimmed_of_forall hnumber).trim_eq
  cases units with
  | none => exact hbare
  | some u =>
      have hshown : (withUnits number (some u)).toList = number.toList ++ [' '] ++ u.toList := by
        simp [withUnits]
      rw [bareNumber, hshown]
      by_cases hu : u.toList = []
      · -- the blank before an empty unit goes with the first trimming
        rw [hu, List.append_nil, Text.trim_append_blank _ (by decide), hbare,
          Text.stripEnd?_eq_some_iff.2 (List.append_nil _).symm]
        exact hbare
      · have htrimmed : Text.IsTrimmed (number.toList ++ [' '] ++ u.toList) := by
          constructor
          · intro c hc
            obtain ⟨d, ds, hds⟩ := List.exists_cons_of_ne_nil hne
            rw [hds, List.append_assoc, List.cons_append, List.head?_cons] at hc
            obtain rfl : d = c := by simpa using hc
            exact hnumber d (by rw [hds]; exact List.mem_cons_self)
          · intro c hc
            rw [List.getLast?_append, List.getLast?_eq_some_getLast hu, Option.some_or] at hc
            exact hunits u rfl c (by rwa [List.getLast?_eq_some_getLast hu])
        rw [htrimmed.trim_eq, Text.stripEnd?_eq_some_iff.2 rfl]
        exact (Text.trim_append_blank _ (by decide)).trans hbare

/-- What is shown for a number is read back as the number, in every format and with every unit that
does not end with a blank. -/
theorem lookup_evaluate_number
    (hunits : ∀ u ∈ units, ∀ c ∈ u.toList.getLast?, Text.isBlank c = false) (v : Value) :
    (Datatype.int units).lookup ((Datatype.int units).evaluate v) = .ok v ∧
    ∀ width, (Datatype.hex width units).lookup ((Datatype.hex width units).evaluate v) = .ok v := by
  constructor
  · have hdigits : (toString v.toNat).toList = Nat.toDigits 10 v.toNat := Nat.toList_repr
    have hread := Text.readDigits_toDigits 10 (by decide) (by decide) v.toNat
    have htrim := trim_bareNumber_withUnits hunits (toString v.toNat)
      (by rw [hdigits]; exact Nat.toDigits_ne_nil)
      (by rw [hdigits]; exact Text.isBlank_of_mem_readDigits hread)
    rw [lookup, evaluate, parseNumber?_of_decimal (htrim.trans hdigits)]
  · intro width
    have hread := Text.readDigits_zeroPadded ((width + 3) / 4) v.toNat
    have hdigits : ("0x" ++ Text.hexPadded ((width + 3) / 4) v.toNat).toList =
        '0' :: 'x' :: Text.zeroPadded ((width + 3) / 4) (Text.hexDigits v.toNat) := by
      simp [Text.hexPadded]
    have htrim := trim_bareNumber_withUnits hunits
      ("0x" ++ Text.hexPadded ((width + 3) / 4) v.toNat)
      (by rw [hdigits]; exact List.cons_ne_nil _ _)
      (by
        rw [hdigits]
        refine List.forall_mem_cons.2 ⟨by decide, List.forall_mem_cons.2 ⟨by decide, ?_⟩⟩
        exact Text.isBlank_of_mem_readDigits hread)
    rw [lookup, evaluate, parseNumber?_of_hex (htrim.trans hdigits) hread]

/-- A unit that looks like a number with a mark, and one of digits that starts with a blank. -/
theorem lookup_evaluate_number_digitUnits :
    (Datatype.hex 8 (some "0x1f")).evaluate 3 = "0x03 0x1f" ∧
    (Datatype.hex 8 (some "0x1f")).lookup "0x03 0x1f" = .ok 3 ∧
    (Datatype.int (some " 00")).evaluate 100 = "100  00" ∧
    (Datatype.int (some " 00")).lookup "100  00" = .ok 100 := by
  have hmark := @lookup_evaluate_number (some "0x1f") (by simp [Text.isBlank]) 3
  have hblank := @lookup_evaluate_number (some " 00") (by simp [Text.isBlank]) 100
  have hshown : (Datatype.hex 8 (some "0x1f")).evaluate 3 = "0x03 0x1f" := by decide
  have hshown' : (Datatype.int (some " 00")).evaluate 100 = "100  00" := by decide
  exact ⟨hshown, hshown ▸ hmark.2 8, hshown', hshown' ▸ hblank.1⟩

end Datatype

end RegisterAtlas
