import LogSync.Identity
import LogSync.Proofs.HexDigits

/-!
# Identifiers as texts

An identifier is 32 bytes, which are held as one number and written as 64 digits. Both ways to look
at it are places of that number, 32 in base 256 and 64 in base 16, so numbers, bytes and texts have
one order. A text is read exactly if it has the form of a written one, with letters in either case.
Peers and discovery keys are written, read and ordered as their identifiers (`TextFormat.of_id`).
-/

namespace LogSync

/-! ## What is said -/

/-- The two digits of a byte, the high one first. -/
def Hex.ofByte (b : UInt8) : List Char := [digit (b.toNat / 16), digit (b.toNat % 16)]

/-- Values that stand for 32 bytes are written as these, two digits for each byte, and read back. -/
structure TextFormat {α : Type} [Ord α] (bytes : α → List UInt8) (read? : String → Option α)
    (text : α → String) : Prop where
  length_bytes : ∀ a, (bytes a).length = 32
  text_eq : ∀ a, text a = String.ofList ((bytes a).flatMap Hex.ofByte)
  /-- A text is read exactly if it has 64 characters, all of which are digits. -/
  readable_iff : ∀ s, (∃ a, read? s = some a) ↔ s.length = 64 ∧ ∀ c ∈ s.toList, Hex.IsDigit c
  /-- A value is written as the text that it was read from, with small letters. -/
  text_of_read : ∀ s a, read? s = some a → text a = s.map Char.toLower
  read_text : ∀ a, read? (text a) = some a
  /-- Values are ordered as their texts. -/
  compare_text : ∀ a b, compare (text a) (text b) = compare a b
  /-- And as their bytes. -/
  lt_bytes_iff : ∀ a b, bytes a < bytes b ↔ compare a b = .lt

namespace Identifier

/-! ## Bytes -/

theorem compare_eq (i j : Identifier) : compare i j = compareOfLessAndEq i.bits j.bits := rfl

/-- The number of an identifier has 64 hexadecimal digits at most. -/
theorem bits_lt (i : Identifier) : i.bits.toNat < Nat.pow 16 64 := i.bits.isLt

/-- The bytes of an identifier spell its number in base 256. -/
theorem bytes_eq_spelled (i : Identifier) : i.bytes = spelled 256 Nat.toUInt8 32 i.bits.toNat := by
  rw [spelled_eq_map, bytes]
  refine List.map_congr_left fun k _ => ?_
  have hpow : Nat.pow 256 (32 - 1 - k) = Nat.pow 2 (8 * (31 - k)) :=
    (Nat.pow_mul 2 8 (31 - k)).symm
  have hshift : i.bits.toNat >>> (8 * (31 - k)) = i.bits.toNat / Nat.pow 2 (8 * (31 - k)) :=
    Nat.shiftRight_eq_div_pow _ _
  rw [hshift, hpow]
  exact (UInt8.ofNat_mod_size).symm

theorem toNat_toUInt8 {b : Nat} (h : b < 256) : b.toUInt8.toNat = b :=
  UInt8.toNat_ofNat_of_lt h

/-- The bytes of identifiers are ordered as their numbers are. -/
theorem bytes_lt_iff (i j : Identifier) : i.bytes < j.bytes ↔ i.bits < j.bits := by
  have hrule : ∀ a < 256, ∀ b < 256, (a.toUInt8 < b.toUInt8 ↔ a < b) := by
    intro a ha b hb
    rw [UInt8.lt_iff_toNat_lt, toNat_toUInt8 ha, toNat_toUInt8 hb]
  rw [bytes_eq_spelled, bytes_eq_spelled, spelled_lt_iff hrule i.bits.isLt j.bits.isLt]
  exact BitVec.lt_def.symm

/-! ## Digits -/

/-- The digits of an identifier are those of its bytes, two for each. -/
theorem digits_eq (i : Identifier) : i.digits = i.bytes.flatMap Hex.ofByte := by
  have hpair : ∀ b < 16 * 16, Hex.ofByte b.toUInt8 = [Hex.digit (b / 16), Hex.digit (b % 16)] := by
    intro b hb
    rw [Hex.ofByte, toNat_toUInt8 hb]
  rw [digits, Hex.write_eq_spelled, bytes_eq_spelled]
  exact (flatMap_spelled (by decide) hpair 32 i.bits.toNat).symm

/-- An identifier is read back from its text. -/
theorem read_text (i : Identifier) : read? i.text = some i := by
  have hlength : i.digits.length = 64 := Hex.length_write 64 _
  have hread : Hex.read? i.digits = some i.bits.toNat := Hex.read_write i.bits.isLt
  rw [read?, text, String.toList_ofList, if_pos hlength, hread, Option.map_some,
    BitVec.ofNat_toNat, BitVec.setWidth_eq]

/-- No two identifiers have one text. -/
theorem text_inj {i j : Identifier} : i.text = j.text ↔ i = j := by
  refine ⟨fun h => ?_, congrArg text⟩
  have hread : some i = some j := by rw [← read_text i, h, read_text j]
  exact Option.some.inj hread

/-- The texts of identifiers are ordered as their numbers are. -/
theorem text_lt_iff (i j : Identifier) : i.text < j.text ↔ i.bits < j.bits := by
  rw [String.lt_iff, text, text, String.toList_ofList, String.toList_ofList, digits, digits,
    Hex.write_lt_write_iff i.bits_lt j.bits_lt]
  exact BitVec.lt_def.symm

/-- Comparing texts and comparing identifiers come to the same. -/
theorem compare_text (i j : Identifier) : compare i.text j.text = compare i j := by
  have heq : i.text = j.text ↔ i.bits = j.bits := by
    rw [text_inj]
    exact ⟨congrArg bits, fun h => by cases i; cases j; cases h; rfl⟩
  have htexts (s t : String) : compare s t = compareOfLessAndEq s t := rfl
  rw [htexts, compare_eq]
  simp only [compareOfLessAndEq, text_lt_iff, heq]

/-! ## Texts that are read -/

/-- A text can be read if and only if it has 64 digits and nothing else. -/
theorem readable_iff (s : String) :
    (∃ i, read? s = some i) ↔ s.length = 64 ∧ ∀ c ∈ s.toList, Hex.IsDigit c := by
  rw [← Option.isSome_iff_exists, ← Hex.isSome_read_iff, read?, String.length_toList]
  split
  · next h => simp [h]
  · next h => simp [h]

/-- What a text is read as is written as the text in lower case. -/
theorem text_of_read {s : String} {i : Identifier} (h : read? s = some i) :
    i.text = s.map Char.toLower := by
  rw [read?] at h
  split at h
  · next hlength =>
    obtain ⟨n, hread, rfl⟩ := Option.map_eq_some_iff.1 h
    obtain ⟨hlt, hwrite⟩ := Hex.write_of_read hread
    rw [hlength] at hlt hwrite
    have hbits : (BitVec.ofNat 256 n).toNat = n := Nat.mod_eq_of_lt hlt
    rw [text, digits, hbits, hwrite, ← String.toList_map, String.ofList_toList]
  · contradiction

/-- Identifiers meet all laws of a text format. -/
theorem textFormat : TextFormat bytes read? text where
  length_bytes i := by rw [bytes_eq_spelled, length_spelled]
  text_eq i := by rw [text, digits_eq]
  readable_iff := readable_iff
  text_of_read _ _ := text_of_read
  read_text := read_text
  compare_text := compare_text
  lt_bytes_iff i j := by
    rw [bytes_lt_iff, compare_eq]
    exact compareOfLessAndEq_eq_lt.symm

end Identifier

/-! ## Names that are identifiers -/

/-- What is told by its identifier alone is written and read as that is. -/
theorem TextFormat.of_id {α : Type} [Ord α] {id : α → Identifier} {mk : Identifier → α}
    (hid : ∀ i, id (mk i) = i) (hmk : ∀ a, mk (id a) = a)
    (hcompare : ∀ a b, compare (id a) (id b) = compare a b) :
    TextFormat (fun a => (id a).bytes) (fun s => (Identifier.read? s).map mk)
      fun a => (id a).text where
  length_bytes a := Identifier.textFormat.length_bytes (id a)
  text_eq a := Identifier.textFormat.text_eq (id a)
  readable_iff s := by
    rw [← Identifier.readable_iff, ← Option.isSome_iff_exists, ← Option.isSome_iff_exists,
      Option.isSome_map]
  text_of_read s a h := by
    obtain ⟨i, hi, rfl⟩ := Option.map_eq_some_iff.1 h
    rw [hid]
    exact Identifier.text_of_read hi
  read_text a := by rw [Identifier.read_text, Option.map_some, hmk]
  compare_text a b := (Identifier.compare_text (id a) (id b)).trans (hcompare a b)
  lt_bytes_iff a b := by rw [← hcompare]; exact Identifier.textFormat.lt_bytes_iff (id a) (id b)

/-- **Peers and discovery keys have one text each.** Each of them is 32 bytes and is written as the
two digits of every byte, the high one first, with small letters. A text is read exactly if it has
64 characters, all of which are digits with letters in either case; what is read is written as that
text with small letters. What is written is read back as it was. And peers, as well as discovery
keys, are ordered as their bytes and as their texts. -/
theorem identifiers_have_one_text :
    TextFormat (·.id.bytes) PeerId.read? PeerId.text ∧
      TextFormat (·.id.bytes) DiscoveryKey.read? DiscoveryKey.text :=
  ⟨.of_id (fun _ => rfl) (fun _ => rfl) fun _ _ => rfl,
    .of_id (fun _ => rfl) (fun _ => rfl) fun _ _ => rfl⟩

end LogSync
