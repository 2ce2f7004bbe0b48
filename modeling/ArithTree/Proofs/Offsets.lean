import ArithTree.Parser.Bytes
import ArithTree.Proofs.Spans
import Mathlib.Data.String.Basic

/-!
# Offsets of characters

A text in UTF-8 has an offset for the start of every character, and these are the offsets at which a
slice may begin and end (`isValid_iff`). No byte of a symbol of the grammar is part of a longer
character, so where a byte is that of a symbol, a character starts and is that symbol
(`exists_byteAt`).
-/

namespace ArithTree.Parser.Bytes

/-- The offset at which the character `i` starts, the end of the text for the one behind the
last. -/
def offset (input : Array Char) (i : Nat) : Nat := String.utf8Len (input.toList.take i)

section

variable {input : Array Char}

@[simp] theorem offset_zero (input : Array Char) : offset input 0 = 0 := rfl

theorem offset_size (input : Array Char) :
    offset input input.size = (String.ofList input.toList).utf8ByteSize := by
  rw [offset, ← Array.length_toList, List.take_length, ← String.utf8Len_toList,
    String.toList_ofList]

theorem offset_succ {i : Nat} {c : Char} (h : input[i]? = some c) :
    offset input (i + 1) = offset input i + c.utf8Size := by
  rw [← Array.getElem?_toList] at h
  rw [offset, List.take_add_one, h, String.utf8Len_append, Option.toList_some, String.utf8Len_cons,
    String.utf8Len_nil, Nat.zero_add]
  rfl

theorem offset_lt_succ {i : Nat} (h : i < input.size) : offset input i < offset input (i + 1) := by
  rw [offset_succ (Array.getElem?_eq_getElem h)]
  exact Nat.lt_add_of_pos_right (Char.utf8Size_pos _)

theorem offset_lt {i j : Nat} (hij : i < j) (hj : j ≤ input.size) :
    offset input i < offset input j := by
  induction j, hij using Nat.le_induction with
  | base => exact offset_lt_succ hj
  | succ j _ ih => exact Nat.lt_trans (ih (by omega)) (offset_lt_succ (by omega))

theorem offset_le {i j : Nat} (hij : i ≤ j) (hj : j ≤ input.size) :
    offset input i ≤ offset input j := by
  rcases Nat.eq_or_lt_of_le hij with rfl | hlt
  · exact Nat.le_refl _
  · exact Nat.le_of_lt (offset_lt hlt hj)

/-- A span has at least as many bytes as characters. -/
theorem add_le_offset {i j : Nat} (hij : i ≤ j) (hj : j ≤ input.size) :
    offset input i + (j - i) ≤ offset input j := by
  induction j, hij using Nat.le_induction with
  | base => omega
  | succ j hij ih =>
    have := ih (by omega)
    have : offset input j < offset input (j + 1) := offset_lt_succ hj
    omega

theorem offset_inj {i j : Nat} (hi : i ≤ input.size) (hj : j ≤ input.size)
    (h : offset input i = offset input j) : i = j := by
  rcases Nat.lt_trichotomy i j with hlt | rfl | hlt
  · exact absurd h (Nat.ne_of_lt (offset_lt hlt hj))
  · rfl
  · exact absurd h.symm (Nat.ne_of_lt (offset_lt hlt hi))

/-! ## Slices -/

theorem utf8ByteSize_take (input : Array Char) (i : Nat) :
    (String.ofList (input.toList.take i)).utf8ByteSize = offset input i := by
  rw [offset, ← String.utf8Len_toList, String.toList_ofList]

/-- The offsets of characters are those between which a text can be cut. -/
theorem isValid_iff (p : Nat) : (⟨p⟩ : String.Pos.Raw).IsValid (String.ofList input.toList) ↔
    ∃ i ≤ input.size, p = offset input i := by
  rw [String.Pos.Raw.isValid_ofList]
  constructor
  · rintro ⟨i, hi⟩
    refine ⟨min i input.size, Nat.min_le_right _ _, ?_⟩
    have hsame : input.toList.take (min i input.size) = input.toList.take i := by
      rw [List.take_eq_take_iff, Array.length_toList, Nat.min_assoc, Nat.min_self]
    rw [offset, hsame, ← offset, ← utf8ByteSize_take]
    exact hi
  · rintro ⟨i, -, rfl⟩
    exact ⟨i, (utf8ByteSize_take input i).symm⟩

theorem slice_offset {i j : Nat} (hij : i ≤ j) (hj : j ≤ input.size) :
    slice (String.ofList input.toList) (offset input i) (offset input j) =
      .ok (String.ofList (span input i j)) := by
  have hsplit : input.toList.take j = input.toList.take i ++ span input i j := by
    rw [span_eq_take_drop, ← List.take_add, Nat.add_sub_cancel' hij]
  have hstop : offset input j =
      String.utf8Len (input.toList.take i) + String.utf8Len (span input i j) := by
    rw [offset, hsplit, String.utf8Len_append]
  have hall : input.toList = input.toList.take i ++ span input i j ++ input.toList.drop j := by
    rw [← hsplit, List.take_append_drop]
  have hextract := String.extract_of_valid (input.toList.take i) (span input i j)
    (input.toList.drop j)
  rw [← hall, ← hstop] at hextract
  rw [slice, if_pos, ← hextract]
  · rfl
  · simp only [String.Pos.Raw.isValid_eq_true_iff, isValid_iff]
    exact ⟨offset_le hij hj, ⟨i, Nat.le_trans hij hj, rfl⟩, j, hj, rfl⟩

/-- Inside a character there is nothing to cut. -/
example : slice "é" 1 2 = .error (.cut 1 2) := by decide

/-! ## Bytes -/
/-- A character is one byte below 128, or its first byte is not below. -/
theorem utf8EncodeChar_cases (c : Char) :
    (c.toNat < 128 ∧ String.utf8EncodeChar c = [UInt8.ofNat c.toNat]) ∨
      ∃ byte rest, String.utf8EncodeChar c = byte :: rest ∧ 128 ≤ c.toNat ∧ 128 ≤ byte.toNat := by
  have lead {n base : Nat} (hbase : 128 ≤ base) (hn : n + base < 256) :
      128 ≤ (UInt8.ofNat (n + base)).toNat := by
    rw [UInt8.toNat_ofNat_of_lt' hn]
    omega
  rw [String.utf8EncodeChar.eq_1, Char.toNat_val]
  split
  · next h => exact Or.inl ⟨Nat.lt_succ_of_le h, rfl⟩
  · next h =>
    have hlong : 128 ≤ c.toNat := by omega
    split
    · exact Or.inr ⟨_, _, rfl, hlong, lead (by omega) (by omega)⟩
    · split <;> exact Or.inr ⟨_, _, rfl, hlong, lead (by omega) (by omega)⟩

theorem head?_utf8EncodeChar_eq_iff {c a : Char} (ha : a.toNat < 128) :
    (String.utf8EncodeChar c).head? = some a.toUInt8 ↔ c = a := by
  have hbyte : a.toUInt8.toNat = a.toNat := UInt8.toNat_ofNat_of_lt' (Nat.lt_trans ha (by decide))
  constructor
  · intro h
    rcases utf8EncodeChar_cases c with ⟨hc, hencode⟩ | ⟨byte, rest, hencode, -, hlead⟩
    · rw [hencode, List.head?_singleton, Option.some.injEq, ← UInt8.toNat_inj, hbyte,
        UInt8.toNat_ofNat_of_lt' (Nat.lt_trans hc (by decide))] at h
      exact Char.toNat_inj.mp h
    · rw [hencode, List.head?_cons, Option.some.injEq] at h
      rw [h, hbyte] at hlead
      omega
  · rintro rfl
    rcases utf8EncodeChar_cases c with ⟨-, hencode⟩ | ⟨_, _, -, hlong, -⟩
    · rw [hencode]
      rfl
    · omega

theorem getUTF8Byte_offset {i : Nat} {c : Char} (h : input[i]? = some c)
    (hi : (⟨offset input i⟩ : String.Pos.Raw) < (String.ofList input.toList).rawEndPos) :
    (String.utf8EncodeChar c).head? =
      some ((String.ofList input.toList).getUTF8Byte ⟨offset input i⟩ hi) := by
  rw [← Array.getElem?_toList] at h
  obtain ⟨hlt, rfl⟩ := List.getElem?_eq_some_iff.mp h
  have hbytes : (String.ofList input.toList).toByteArray = (input.toList.take i).utf8Encode ++
      ((String.utf8EncodeChar input.toList[i]).toByteArray ++
        (input.toList.drop (i + 1)).utf8Encode) := by
    rw [String.toByteArray_ofList, ← List.utf8Encode_singleton, ← List.utf8Encode_cons,
      ← List.utf8Encode_append, ← List.drop_eq_getElem_cons, List.take_append_drop]
  have hsize : (input.toList.take i).utf8Encode.size = offset input i := by
    rw [← String.toByteArray_ofList, String.size_toByteArray, utf8ByteSize_take]
  have hpos : 0 < (String.utf8EncodeChar input.toList[i]).length :=
    List.length_pos_of_ne_nil String.utf8EncodeChar_ne_nil
  rw [List.head?_eq_getElem?, List.getElem?_eq_getElem hpos, Option.some.injEq,
    String.getUTF8Byte_eq_getElem, getElem_congr_coll hbytes,
    ByteArray.getElem_append_right (Nat.le_of_eq hsize)]
  simp only [hsize, Nat.sub_self]
  rw [ByteArray.getElem_append_left (by rwa [List.size_toByteArray]), List.getElem_toByteArray]

/-- Whether a byte is that of a symbol is decided by the characters. -/
theorem exists_byteAt {p : Nat} (hp : p < offset input input.size) {a : Char} (ha : a.toNat < 128) :
    ∃ byte, byteAt (String.ofList input.toList) p = .ok byte ∧
      (byte = a.toUInt8 ↔ ∃ i, p = offset input i ∧ input[i]? = some a) := by
  have hin : (⟨p⟩ : String.Pos.Raw) < (String.ofList input.toList).rawEndPos := by
    rwa [offset_size] at hp
  refine ⟨_, dif_pos hin, ?_⟩
  constructor
  · intro hbyte
    have hfirst : ((String.ofList input.toList).getUTF8Byte ⟨p⟩ hin).IsUTF8FirstByte := by
      have hhead := (head?_utf8EncodeChar_eq_iff ha).mpr rfl
      rw [List.head?_eq_getElem?, List.getElem?_eq_some_iff] at hhead
      obtain ⟨_, hhead⟩ := hhead
      rw [hbyte, ← hhead]
      exact UInt8.isUTF8FirstByte_getElem_zero_utf8EncodeChar
    obtain ⟨i, hi, rfl⟩ := (isValid_iff p).mp (String.Pos.Raw.isValid_iff_isUTF8FirstByte.mpr
      (Or.inr ⟨hin, hfirst⟩))
    have hlt : i < input.size := by
      rcases Nat.eq_or_lt_of_le hi with rfl | hlt
      · exact absurd hp (Nat.lt_irrefl _)
      · exact hlt
    have hget := Array.getElem?_eq_getElem hlt
    refine ⟨i, rfl, ?_⟩
    rw [hget, Option.some.injEq, ← head?_utf8EncodeChar_eq_iff ha,
      getUTF8Byte_offset hget hin, hbyte]
  · rintro ⟨i, rfl, hget⟩
    have hhead := getUTF8Byte_offset hget hin
    rw [(head?_utf8EncodeChar_eq_iff ha).mpr rfl, Option.some.injEq] at hhead
    exact hhead.symm

end

end ArithTree.Parser.Bytes
