import Mathlib.Algebra.Group.Nat.Defs
import WordMachine.MachineCode

/-!
# Machine code read back from its text

Machine code is written for inspection only, and nothing in the machine reads it again.  Here it is
read, in the plain way: the text is split at single spaces, and each part is a number in the radix.
What comes back is the machine code, so that the text shows all of it.

Two things are behind this.  Digits are read from the front, each time the base times what was read
before, and they are written from the back, by division; a numeral is read as the number it was
written for whether its width is fixed (`Text.numberFrom?_digits`) or depends on the number
(`Text.numberFrom?_toDigits`), and in both cases the last digit is the last to be read.  And what is
read as a number has digits only.  A space is no digit, so the split falls between the bytes and
nowhere else.

* `Text.number?`: the number that digits spell.
* `Radix.readByte?_writeByte`: a byte is read back in each radix.
* `MachineCode.parts_render`: the parts of the text are the bytes.
* `MachineCode.IsListing`: numerals of a radix with a single space between two of them.
* `MachineCode.render_reads_back`: the text of machine code is a listing, and is read back.
-/

namespace WordMachine

/-! ## Numbers -/

namespace Text

/-- What a character stands for as a digit of a base. -/
def digitValue? (base : Nat) (c : Char) : Option Nat := (hexValue? c).filter (· < base)

/-- The number that digits spell behind a number that has been read. -/
def numberFrom? (base n : Nat) (cs : List Char) : Option Nat :=
  cs.foldlM (fun n c => (digitValue? base c).map (n * base + ·)) n

/-- The number that digits spell.  There has to be a digit. -/
def number? (base : Nat) (cs : List Char) : Option Nat :=
  if cs.isEmpty then none else numberFrom? base 0 cs

variable {base : Nat}

theorem toList_numeral (letters : LetterCase) (base width n : Nat) :
    (numeral letters base width n).toList = (digits base width n).map (digitChar letters) :=
  String.toList_ofList

theorem length_toList_numeral (letters : LetterCase) (base width n : Nat) :
    (numeral letters base width n).toList.length = width := by
  rw [toList_numeral, List.length_map, length_digits]

/-- A digit is read as what it was written for, in capitals and in small letters. -/
theorem digitValue?_digitChar (letters : LetterCase) {d : Nat} (hbase : base ≤ 16)
    (hd : d < base) : digitValue? base (digitChar letters d) = some d := by
  have hvalue : ∀ d < 16, hexValue? (digitChar letters d) = some d := by
    cases letters <;> decide
  rw [digitValue?, hvalue d (Nat.lt_of_lt_of_le hd hbase), Option.filter_some]
  exact if_pos (decide_eq_true hd)

/-- The last digit is the last to be read. -/
theorem numberFrom?_append_digit (letters : LetterCase) {n m d : Nat} {cs : List Char}
    (hbase : base ≤ 16) (hd : d < base) (h : numberFrom? base n cs = some m) :
    numberFrom? base n (cs ++ [digitChar letters d]) = some (m * base + d) := by
  rw [numberFrom?] at h ⊢
  rw [List.foldlM_append, h]
  show (digitValue? base (digitChar letters d)).map (m * base + ·) >>= pure = _
  rw [digitValue?_digitChar letters hbase hd]
  rfl

/-- A numeral of fixed width is read as the number, less what its leading digits would be worth. -/
theorem numberFrom?_digits (letters : LetterCase) (hpos : 0 < base) (hbase : base ≤ 16)
    (width n : Nat) :
    numberFrom? base 0 ((digits base width n).map (digitChar letters)) =
      some (n % base ^ width) := by
  induction width generalizing n with
  | zero => rw [Nat.pow_zero, Nat.mod_one]; rfl
  | succ width ih =>
    rw [digits, List.map_append, List.map_singleton,
      numberFrom?_append_digit letters hbase (Nat.mod_lt n hpos) (ih (n / base)), Nat.pow_succ',
      Nat.mod_mul, Nat.add_comm, Nat.mul_comm]

/-- A numeral that is as wide as its number needs is read as the number. -/
theorem numberFrom?_toDigits (hone : 1 < base) (hbase : base ≤ 16) (n : Nat) :
    numberFrom? base 0 (Nat.toDigits base n) = some n := by
  induction n using Nat.strongRecOn with
  | ind n ih =>
    rw [Nat.toDigits_eq_if hone]
    split
    · rename_i hlt
      have hnone : numberFrom? base 0 [] = some 0 := rfl
      have hread := numberFrom?_append_digit .lower hbase hlt hnone
      rwa [Nat.zero_mul, Nat.zero_add] at hread
    · rename_i hle
      have hlt : n / base < n := Nat.div_lt_self (by omega) hone
      have hread := numberFrom?_append_digit .lower hbase (Nat.mod_lt n (by omega)) (ih _ hlt)
      rwa [Nat.mul_comm, Nat.div_add_mod] at hread

/-- What is read as a number has digits only. -/
theorem isSome_digitValue?_of_numberFrom? {n m : Nat} {cs : List Char}
    (h : numberFrom? base n cs = some m) : ∀ c ∈ cs, (digitValue? base c).isSome = true := by
  induction cs generalizing n with
  | nil => exact fun _ hc => absurd hc List.not_mem_nil
  | cons c cs ih =>
    rw [numberFrom?, List.foldlM_cons] at h
    obtain ⟨k, hk, hrest⟩ := Option.bind_eq_some_iff.mp h
    obtain ⟨d, hd, -⟩ := Option.map_eq_some_iff.mp hk
    exact List.forall_mem_cons.mpr ⟨Option.isSome_of_eq_some hd, ih hrest⟩

/-- What is read as a number has digits only, and at least one. -/
theorem digits_of_number? {m : Nat} {cs : List Char} (h : number? base cs = some m) :
    cs ≠ [] ∧ ∀ c ∈ cs, (digitValue? base c).isSome = true := by
  rw [number?] at h
  split at h
  · exact nomatch h
  · rename_i hne
    exact ⟨fun hnil => hne (List.isEmpty_iff.mpr hnil), isSome_digitValue?_of_numberFrom? h⟩

end Text

/-! ## Bytes -/

namespace Radix

/-- The base of the radix. -/
def base : Radix → Nat
  | .hex => 16
  | .binary => 2
  | .decimal => 10

/-- The byte that is written with the given digits. -/
def readByte? (radix : Radix) (cs : List Char) : Option Byte :=
  (Text.number? radix.base cs).bind fun n => if n < 256 then some (UInt8.ofNat n) else none

/-- In hexadecimal a byte takes two digits. -/
theorem length_writeByte_hex (b : Byte) : (hex.writeByte b).toList.length = 2 := by
  rw [writeByte, Text.hexUpper, Text.length_toList_numeral]

/-- In binary a byte takes eight digits. -/
theorem length_writeByte_binary (b : Byte) : (binary.writeByte b).toList.length = 8 := by
  rw [writeByte, Text.binary, Text.length_toList_numeral]

theorem writeByte_ne_nil (radix : Radix) (b : Byte) : (radix.writeByte b).toList ≠ [] := by
  cases radix with
  | hex => exact List.ne_nil_of_length_pos (length_writeByte_hex b ▸ Nat.two_pos)
  | binary => exact List.ne_nil_of_length_pos (length_writeByte_binary b ▸ Nat.succ_pos 7)
  | decimal =>
    rw [writeByte, Nat.toString_eq_ofList_toDigits, String.toList_ofList]
    exact Nat.toDigits_ne_nil

/-- A byte is written as its number. -/
theorem number?_writeByte (radix : Radix) (b : Byte) :
    Text.number? radix.base (radix.writeByte b).toList = some b.toNat := by
  have hwidth (n : Nat) (h : b.toNat < n) : some (b.toNat % n) = some b.toNat :=
    congrArg some (Nat.mod_eq_of_lt h)
  rw [Text.number?, if_neg fun h => writeByte_ne_nil radix b (List.isEmpty_iff.mp h)]
  cases radix with
  | hex =>
    rw [writeByte, Text.hexUpper, Text.toList_numeral]
    exact (Text.numberFrom?_digits .upper (by decide) (by decide) 2 _).trans
      (hwidth (16 ^ 2) b.toNat_lt)
  | binary =>
    rw [writeByte, Text.binary, Text.toList_numeral]
    exact (Text.numberFrom?_digits .lower (by decide) (by decide) 8 _).trans
      (hwidth (2 ^ 8) b.toNat_lt)
  | decimal =>
    rw [writeByte, Nat.toString_eq_ofList_toDigits, String.toList_ofList]
    exact Text.numberFrom?_toDigits (by decide) (by decide) _

/-- A byte is read back in the radix in which it was written. -/
theorem readByte?_writeByte (radix : Radix) (b : Byte) :
    radix.readByte? (radix.writeByte b).toList = some b := by
  rw [readByte?, number?_writeByte, Option.bind_some, if_pos b.toNat_lt, UInt8.ofNat_toNat]

end Radix

/-! ## Machine code -/

namespace MachineCode

/-- The parts of a text between single spaces.  The empty text has none. -/
def parts (text : String) : List (List Char) :=
  if text.isEmpty then [] else text.toList.splitOn ' '

/-- The machine code that a text shows in a radix. -/
def read? (radix : Radix) (text : String) : Option MachineCode :=
  (parts text).mapM radix.readByte?

/-- The text is made of numerals in a radix, with a single space between two of them.  In
hexadecimal a numeral has two digits and in binary eight. -/
structure IsListing (radix : Radix) (text : String) : Prop where
  digits : ∀ part ∈ parts text, part ≠ [] ∧
    ∀ c ∈ part, (Text.digitValue? radix.base c).isSome = true
  two_of_hex : radix = .hex → ∀ part ∈ parts text, part.length = 2
  eight_of_binary : radix = .binary → ∀ part ∈ parts text, part.length = 8
  no_leading_space : ¬ [' '] <+: text.toList
  no_trailing_space : ¬ [' '] <:+ text.toList
  no_doubled_space : ¬ [' ', ' '] <:+: text.toList

/-- A space at one of the ends of a text, and one behind another, leaves a part empty. -/
theorem nil_mem_parts {text : String} {s t : List Char} (htext : text.toList = s ++ ' ' :: t)
    (h : s = [] ∨ t = [] ∨ ∃ u, t = ' ' :: u) : [] ∈ parts text := by
  have hne : ¬ text.isEmpty = true := fun hempty => by
    rw [String.isEmpty_iff.mp hempty] at htext
    exact List.append_ne_nil_of_right_ne_nil s (List.cons_ne_nil _ _) htext.symm
  rw [parts, if_neg hne, htext, List.splitOn_append_cons_self, List.mem_append]
  rcases h with rfl | rfl | ⟨u, rfl⟩
  · exact .inl (List.splitOn_nil ' ' ▸ List.mem_cons_self)
  · exact .inr (List.splitOn_nil ' ' ▸ List.mem_cons_self)
  · refine .inr ?_
    rw [← List.nil_append (' ' :: u), List.splitOn_append_cons_self, List.splitOn_nil]
    exact List.mem_cons_self

variable (radix : Radix) (code : MachineCode)

/-- A space is no digit, so the text is split between the bytes. -/
theorem parts_render :
    parts (code.render radix) = code.map fun b => (radix.writeByte b).toList := by
  have htext : (code.render radix).toList =
      [' '].intercalate (code.map fun b => (radix.writeByte b).toList) := by
    rw [render, String.toList_intercalate, List.map_map]
    rfl
  cases code with
  | nil => rfl
  | cons b code =>
    have hspace : ∀ part ∈ (b :: code).map fun b => (radix.writeByte b).toList, ' ' ∉ part := by
      refine List.forall_mem_map.mpr fun b _ hmem => ?_
      have hdigit := (Text.digits_of_number? (radix.number?_writeByte b)).2 ' ' hmem
      exact nomatch hdigit
    have hsplit := List.splitOn_intercalate ' ' hspace (List.cons_ne_nil _ _)
    rw [← htext] at hsplit
    rw [parts, if_neg, hsplit]
    -- the empty text is not split into the digits of a byte
    intro hempty
    rw [String.isEmpty_iff.mp hempty] at hsplit
    exact radix.writeByte_ne_nil b (List.cons.inj hsplit).1.symm

theorem read?_render : read? radix (code.render radix) = some code := by
  rw [read?, parts_render, List.mapM_map]
  induction code with
  | nil => rfl
  | cons b code ih =>
    rw [List.mapM_cons, Function.comp_apply, radix.readByte?_writeByte, ih]
    rfl

theorem isListing_render : IsListing radix (code.render radix) := by
  have hparts := parts_render radix code
  have hnil : [] ∉ parts (code.render radix) := by
    rw [hparts]
    intro hmem
    obtain ⟨b, -, hb⟩ := List.mem_map.mp hmem
    exact radix.writeByte_ne_nil b hb
  constructor
  case digits =>
    rw [hparts]
    exact List.forall_mem_map.mpr fun b _ => Text.digits_of_number? (radix.number?_writeByte b)
  case two_of_hex =>
    rintro rfl
    rw [hparts]
    exact List.forall_mem_map.mpr fun b _ => Radix.length_writeByte_hex b
  case eight_of_binary =>
    rintro rfl
    rw [hparts]
    exact List.forall_mem_map.mpr fun b _ => Radix.length_writeByte_binary b
  case no_leading_space =>
    rintro ⟨t, ht⟩
    exact hnil (nil_mem_parts (s := []) ht.symm (.inl rfl))
  case no_trailing_space =>
    rintro ⟨s, hs⟩
    exact hnil (nil_mem_parts (t := []) hs.symm (.inr (.inl rfl)))
  case no_doubled_space =>
    rintro ⟨s, t, hst⟩
    rw [List.append_assoc] at hst
    exact hnil (nil_mem_parts (t := ' ' :: t) hst.symm (.inr (.inr ⟨t, rfl⟩)))

/-- **The text of machine code loses nothing.**  In each radix the text, split at single spaces and
read part by part, gives back the machine code, and so no two machine codes have the same text.  The
text has the digits of the radix, two a byte in hexadecimal and eight in binary, and a single space
between two bytes: none at its ends, and never two in a row. -/
theorem render_reads_back (radix : Radix) :
    (∀ code, read? radix (render code radix) = some code) ∧
      (∀ code code', render code radix = render code' radix → code = code') ∧
      ∀ code, IsListing radix (render code radix) := by
  refine ⟨read?_render radix, fun code code' h => ?_, isListing_render radix⟩
  have hread := read?_render radix code
  rw [h, read?_render] at hread
  exact (Option.some.inj hread).symm

/-- In decimal the bytes differ in width. -/
example : render [0x10, 0x00, 0xFF] .decimal = "16 0 255" := by decide

end MachineCode
end WordMachine
