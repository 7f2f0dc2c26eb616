import Mathlib.Data.Char
import RootedGlob.Brace.Expansion

/-!
# Offsets into the encoding of a text

A text can also be read by the bytes of its UTF-8 encoding, where places are offsets: numbers of bytes. A
byte is read as the character of its number. An ASCII character is one byte that reads as itself, and no
byte of any other character reads as ASCII (`read?_wide`), so an offset at which an ASCII character is read
has that character of the text behind it (`exists_of_read?`).

A text can be cut at an offset only if this is a boundary, an offset between two characters or at an end
(`isBoundary_iff`). Any other cut is a fault (`slice`).
-/

namespace RootedGlob.Octets

section Encoding

/-- The bytes of the UTF-8 encoding of a text. -/
def octets (text : Text) : List UInt8 := text.flatMap String.utf8EncodeChar

/-- The byte at an offset, as the character of its number. -/
def read? (bytes : List UInt8) (offset : Nat) : Option Char := bytes[offset]?.map Char.ofUInt8

@[simp] theorem octets_nil : octets [] = [] := rfl

@[simp] theorem octets_cons (c : Char) (text : Text) :
    octets (c :: text) = String.utf8EncodeChar c ++ octets text := rfl

@[simp] theorem octets_append (first second : Text) : octets (first ++ second) = octets first ++ octets second :=
  List.flatMap_append

theorem length_octets_cons (c : Char) (text : Text) :
    (octets (c :: text)).length = c.utf8Size + (octets text).length := by
  rw [octets_cons, List.length_append, String.length_utf8EncodeChar]

theorem octets_length_pos (c : Char) (text : Text) : 0 < (octets (c :: text)).length := by
  have := c.utf8Size_pos
  rw [length_octets_cons]
  omega

theorem toNat_ofUInt8 (byte : UInt8) : (Char.ofUInt8 byte).toNat = byte.toNat := by
  rfl

/-- An ASCII character is one byte. -/
theorem utf8EncodeChar_of_ascii {c : Char} (ascii : c.toNat < 128) :
    ∃ byte, String.utf8EncodeChar c = [byte] ∧ Char.ofUInt8 byte = c := by
  have small : c.val ≤ 127 := UInt32.le_iff_toNat_le.mpr (Nat.le_of_lt_succ ascii)
  refine ⟨c.val.toUInt8, String.utf8EncodeChar_eq_singleton (Char.utf8Size_eq_one_iff.mpr small), ?_⟩
  rw [← Char.toNat_inj, toNat_ofUInt8, UInt32.toNat_toUInt8]
  exact Nat.mod_eq_of_lt (Nat.lt_of_lt_of_le ascii (by decide))

theorem length_octets_ascii {c : Char} (ascii : c.toNat < 128) (text : Text) :
    (octets (c :: text)).length = (octets text).length + 1 := by
  obtain ⟨byte, single, -⟩ := utf8EncodeChar_of_ascii ascii
  rw [octets_cons, single, List.singleton_append, List.length_cons]

theorem length_octets_concat {c : Char} (ascii : c.toNat < 128) (text : Text) :
    (octets (text ++ [c])).length = (octets text).length + 1 := by
  rw [octets_append, List.length_append, length_octets_ascii ascii, octets_nil, List.length_nil]

/-- No byte of another character is ASCII. -/
theorem wide_of_mem_utf8EncodeChar {c : Char} (wide : 128 ≤ c.toNat) {byte : UInt8}
    (member : byte ∈ String.utf8EncodeChar c) : 128 ≤ (Char.ofUInt8 byte).toNat := by
  have large : ¬ c.val.toNat ≤ 127 := Nat.not_le.mpr wide
  rw [toNat_ofUInt8]
  simp only [String.utf8EncodeChar, if_neg large] at member
  split at member
  · simp only [List.mem_cons, List.not_mem_nil, or_false] at member
    rcases member with rfl | rfl <;> simp only [UInt8.toNat_ofNat'] <;> omega
  · split at member
    · simp only [List.mem_cons, List.not_mem_nil, or_false] at member
      rcases member with rfl | rfl | rfl <;> simp only [UInt8.toNat_ofNat'] <;> omega
    · simp only [List.mem_cons, List.not_mem_nil, or_false] at member
      rcases member with rfl | rfl | rfl | rfl <;> simp only [UInt8.toNat_ofNat'] <;> omega

end Encoding

section Reading

theorem read?_eq_none_iff {bytes : List UInt8} {offset : Nat} :
    read? bytes offset = none ↔ bytes.length ≤ offset := by
  rw [read?, Option.map_eq_none_iff, List.getElem?_eq_none_iff]

theorem lt_of_read? {bytes : List UInt8} {offset : Nat} {c : Char} (found : read? bytes offset = some c) :
    offset < bytes.length := by
  obtain ⟨byte, here, -⟩ := Option.map_eq_some_iff.mp found
  exact (List.getElem?_eq_some_iff.mp here).1

/-- Reading behind a text is reading from the start of what follows. -/
theorem read?_append (front rest : Text) (offset : Nat) :
    read? (octets (front ++ rest)) ((octets front).length + offset) = read? (octets rest) offset := by
  rw [read?, octets_append, List.getElem?_append_right (Nat.le_add_right _ _), Nat.add_sub_cancel_left, read?]

theorem read?_ascii {c : Char} (ascii : c.toNat < 128) (front back : Text) :
    read? (octets (front ++ c :: back)) (octets front).length = some c := by
  obtain ⟨byte, single, same⟩ := utf8EncodeChar_of_ascii ascii
  have start := read?_append front (c :: back) 0
  rw [Nat.add_zero] at start
  rw [start, read?, octets_cons, single]
  simp [same]

/-- Inside a character that is not ASCII nothing reads as ASCII. -/
theorem read?_wide {c : Char} (wide : 128 ≤ c.toNat) (front back : Text) {offset : Nat}
    (inside : offset < c.utf8Size) :
    ∃ d, read? (octets (front ++ c :: back)) ((octets front).length + offset) = some d ∧ 128 ≤ d.toNat := by
  have short : offset < (String.utf8EncodeChar c).length := by
    rwa [String.length_utf8EncodeChar]
  refine ⟨Char.ofUInt8 (String.utf8EncodeChar c)[offset], ?_, ?_⟩
  · rw [read?_append, read?, octets_cons, List.getElem?_append_left short, List.getElem?_eq_getElem short,
      Option.map_some]
  · exact wide_of_mem_utf8EncodeChar wide (List.getElem_mem short)

/-- What passes from byte to byte through a character that is not ASCII holds at each of its bytes if it holds
behind the character. -/
theorem wide_induction {c : Char} (wide : 128 ≤ c.toNat) (front back : Text) {motive : Nat → Prop}
    (behind : motive (octets (front ++ [c])).length)
    (inside : ∀ offset d, read? (octets (front ++ c :: back)) offset = some d → 128 ≤ d.toNat →
      motive (offset + 1) → motive offset)
    {passed : Nat} (within : passed ≤ c.utf8Size) : motive ((octets front).length + passed) := by
  induction within using Nat.decreasingInduction with
  | self =>
    rwa [octets_append, List.length_append, length_octets_cons, octets_nil, List.length_nil, Nat.add_zero]
      at behind
  | of_succ passed short ih =>
    obtain ⟨d, found, large⟩ := read?_wide wide front back short
    exact inside _ d found large ih

/-- Where an ASCII character is read, the text has it. -/
theorem exists_of_read? {text : Text} {offset : Nat} {c : Char} (ascii : c.toNat < 128)
    (found : read? (octets text) offset = some c) :
    ∃ front back, text = front ++ c :: back ∧ offset = (octets front).length := by
  induction text generalizing offset with
  | nil => simp [read?] at found
  | cons d text ih =>
    -- Either the first character is read, or the offset counts on behind it.
    by_cases inside : offset < d.utf8Size
    · by_cases wide : 128 ≤ d.toNat
      · -- None of its bytes reads as ASCII.
        obtain ⟨other, read, large⟩ := read?_wide wide [] text inside
        rw [octets_nil, List.length_nil, Nat.zero_add, List.nil_append, found, Option.some.injEq] at read
        exact absurd (read ▸ large) (Nat.not_le.mpr ascii)
      · have small := Nat.lt_of_not_le wide
        have single := length_octets_ascii small []
        rw [length_octets_cons, octets_nil, List.length_nil, Nat.add_zero, Nat.zero_add] at single
        obtain rfl : offset = 0 := by omega
        have first := read?_ascii small [] text
        rw [octets_nil, List.length_nil, List.nil_append, found, Option.some.injEq] at first
        exact ⟨[], text, by rw [first, List.nil_append], rfl⟩
    · have whole : offset = (octets [d]).length + (offset - d.utf8Size) := by
        rw [length_octets_cons, octets_nil, List.length_nil]
        omega
      rw [whole, ← List.singleton_append, read?_append] at found
      obtain ⟨front, back, rfl, behind⟩ := ih found
      refine ⟨d :: front, back, rfl, ?_⟩
      rw [length_octets_cons]
      omega

/-- Which ASCII character is read at a boundary tells which one comes next. -/
theorem read?_eq_some_iff {c : Char} (ascii : c.toNat < 128) (front rest : Text) :
    read? (octets (front ++ rest)) (octets front).length = some c ↔ rest.head? = some c := by
  have start := read?_append front rest 0
  rw [Nat.add_zero] at start
  rw [start]
  constructor
  · intro found
    obtain ⟨before, back, rfl, empty⟩ := exists_of_read? ascii found
    cases before with
    | nil => rfl
    | cons d before => exact absurd empty (Nat.ne_of_lt (octets_length_pos d before))
  · intro next
    obtain ⟨back, rfl⟩ := List.head?_eq_some_iff.mp next
    exact read?_ascii ascii [] back

end Reading

section Cutting

/-- An offset at which a text can be cut. -/
def IsBoundary (text : Text) (offset : Nat) : Prop :=
  String.Pos.Raw.IsValid (String.ofList text) ⟨offset⟩

/-- The bytes in front of a boundary encode the text in front of it. -/
theorem isBoundary_iff {text : Text} {offset : Nat} :
    IsBoundary text offset ↔ ∃ front back, text = front ++ back ∧ offset = (octets front).length := by
  have size (front : Text) : (String.ofList front).rawEndPos = ⟨(octets front).length⟩ := by
    rw [String.Pos.Raw.ext_iff, String.byteIdx_rawEndPos, ← String.size_toByteArray, String.toByteArray_ofList]
    exact List.size_toByteArray
  rw [IsBoundary, String.Pos.Raw.isValid_iff_exists_append]
  constructor
  · rintro ⟨front, back, whole, same⟩
    refine ⟨front.toList, back.toList, ?_, ?_⟩
    · rw [← String.toList_append, ← whole, String.toList_ofList]
    · rw [← String.ofList_toList (s := front), size, String.Pos.Raw.ext_iff] at same
      exact same
  · rintro ⟨front, back, rfl, rfl⟩
    exact ⟨String.ofList front, String.ofList back, String.ofList_append, (size front).symm⟩

theorem isBoundary_length (front back : Text) : IsBoundary (front ++ back) (octets front).length :=
  isBoundary_iff.mpr ⟨front, back, rfl, rfl⟩

/-- An ASCII character stands between two boundaries. -/
theorem isBoundary_of_read? {text : Text} {offset : Nat} {c : Char} (ascii : c.toNat < 128)
    (found : read? (octets text) offset = some c) : IsBoundary text offset ∧ IsBoundary text (offset + 1) := by
  obtain ⟨front, back, rfl, rfl⟩ := exists_of_read? ascii found
  have behind := isBoundary_length (front ++ [c]) back
  rw [← List.append_cons, length_octets_concat ascii] at behind
  exact ⟨isBoundary_length front (c :: back), behind⟩

/-- The text before an offset and the text behind it. There is none if the offset lies inside a character or
behind the end. -/
def splitAt? : Text → Nat → Option (Text × Text)
  | text, 0 => some ([], text)
  | [], _ + 1 => none
  | c :: rest, offset + 1 =>
    if c.utf8Size ≤ offset + 1 then
      (splitAt? rest (offset + 1 - c.utf8Size)).map fun (front, back) => (c :: front, back)
    else none

/-- Why a scan of bytes gives no result. -/
inductive Fault where
  /-- The offsets do not lie on boundaries of the text, or not in this order. -/
  | cut (text : Text) (start stop : Nat)
  | expansion (error : Brace.ExpansionError)
deriving DecidableEq, Repr

/-- The text between two offsets. -/
def slice (text : Text) (start stop : Nat) : Except Fault Text :=
  match (splitAt? text stop).bind fun cuts => splitAt? cuts.1 start with
  | some (_, middle) => .ok middle
  | none => .error (.cut text start stop)

theorem splitAt?_eq_some_iff {text front back : Text} {offset : Nat} :
    splitAt? text offset = some (front, back) ↔ text = front ++ back ∧ offset = (octets front).length := by
  -- Each character takes as many bytes off the offset as its encoding has.
  fun_induction splitAt? text offset generalizing front back with
  | case1 text =>
    rw [Option.some.injEq, Prod.mk.injEq]
    constructor
    · rintro ⟨rfl, rfl⟩
      exact ⟨rfl, rfl⟩
    · rintro ⟨rfl, empty⟩
      cases front with
      | nil => exact ⟨rfl, rfl⟩
      | cons c front => exact absurd empty (Nat.ne_of_lt (octets_length_pos c front))
  | case2 =>
    refine iff_of_false (by simp) ?_
    rintro ⟨empty, size⟩
    rw [(List.append_eq_nil_iff.mp empty.symm).1] at size
    cases size
  | case3 c rest offset fits ih =>
    simp only [Option.map_eq_some_iff, Prod.exists, Prod.mk.injEq, ih]
    constructor
    · rintro ⟨inner, _, ⟨rfl, size⟩, rfl, rfl⟩
      refine ⟨rfl, ?_⟩
      rw [length_octets_cons]
      omega
    · rintro ⟨whole, size⟩
      cases front with
      | nil => cases size
      | cons d front =>
        obtain ⟨rfl, rfl⟩ := List.cons.inj whole
        rw [length_octets_cons] at size
        exact ⟨front, back, ⟨rfl, by omega⟩, rfl, rfl⟩
  | case4 c rest offset large =>
    refine iff_of_false (by simp) ?_
    rintro ⟨whole, size⟩
    cases front with
    | nil => cases size
    | cons d front =>
      obtain ⟨rfl, -⟩ := List.cons.inj whole
      rw [length_octets_cons] at size
      omega

theorem slice_eq_ok_iff {text middle : Text} {start stop : Nat} :
    slice text start stop = .ok middle ↔ ∃ front back, text = front ++ middle ++ back
      ∧ start = (octets front).length ∧ stop = (octets (front ++ middle)).length := by
  have cut : slice text start stop = .ok middle
      ↔ ∃ front, ((splitAt? text stop).bind fun cuts => splitAt? cuts.1 start) = some (front, middle) := by
    rw [slice]
    cases (splitAt? text stop).bind fun cuts => splitAt? cuts.1 start <;> simp [Prod.ext_iff]
  simp only [cut, Option.bind_eq_some_iff, Prod.exists, splitAt?_eq_some_iff]
  constructor
  · rintro ⟨front, _, back, ⟨rfl, stop⟩, rfl, start⟩
    exact ⟨front, back, rfl, start, stop⟩
  · rintro ⟨front, back, rfl, start, stop⟩
    exact ⟨front, _, back, ⟨rfl, stop⟩, rfl, start⟩

/-- The text between two boundaries. -/
theorem slice_append (front middle back : Text) :
    slice (front ++ middle ++ back) (octets front).length (octets (front ++ middle)).length = .ok middle :=
  slice_eq_ok_iff.mpr ⟨front, back, rfl, rfl, rfl⟩

/-- A text can be cut at boundaries in their order, and nowhere else. -/
theorem exists_slice_iff {text : Text} {start stop : Nat} :
    (∃ middle, slice text start stop = .ok middle)
      ↔ IsBoundary text start ∧ IsBoundary text stop ∧ start ≤ stop := by
  simp only [slice_eq_ok_iff]
  constructor
  · rintro ⟨middle, front, back, rfl, rfl, rfl⟩
    refine ⟨?_, isBoundary_length (front ++ middle) back, by simp⟩
    rw [List.append_assoc]
    exact isBoundary_length front (middle ++ back)
  · rintro ⟨before, after, order⟩
    obtain ⟨front, back, rfl, rfl⟩ := isBoundary_iff.mp before
    obtain ⟨front', back', whole, rfl⟩ := isBoundary_iff.mp after
    rcases List.append_eq_append_iff.mp whole with ⟨middle, rfl, rfl⟩ | ⟨extra, rfl, rfl⟩
    · exact ⟨middle, front, back', by simp, rfl, rfl⟩
    · -- Nothing can stand between the offsets the other way round.
      cases extra with
      | nil => exact ⟨[], front', back, by simp, by simp, by simp⟩
      | cons c extra =>
        have := octets_length_pos c extra
        rw [octets_append, List.length_append] at order
        omega

/-- What a slice holds is as long as its offsets say. -/
theorem length_of_slice {text middle : Text} {start stop : Nat} (found : slice text start stop = .ok middle) :
    start + (octets middle).length = stop ∧ stop ≤ (octets text).length := by
  obtain ⟨front, back, rfl, rfl, rfl⟩ := slice_eq_ok_iff.mp found
  simp

end Cutting

end RootedGlob.Octets
