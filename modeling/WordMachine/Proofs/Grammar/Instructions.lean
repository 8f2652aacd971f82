import WordMachine.Proofs.Grammar.Definitions
import WordMachine.Proofs.Grammar.Operands

/-!
# Instructions are read as they are written

The forms of a mnemonic are tried in order, and the first whose operands run to the end of
the line is taken.  So that an instruction is read back, its own form has to read it, and all
forms before that have to be refused.

That the own form reads it is put together from its operands (`Grammar.reads_operands`).  The
refusals are a matter of the kinds of the operands, nearly always of how operands of a kind
begin: with a sign, if they are values, with a letter, if they are registers, and with `&`, if
they are addresses or pointers (`Kind.Lead`).  Where two forms differ in none of these, one of
them takes an address where the other takes a pointer, and then it depends on the register:
`acc` is a number, `fp` begins with one and goes on with something else, and the names of all
other registers begin with a letter that is no digit.

* `Rule.FallsShort`: whatever a rule has read, the line does not end there.
* `Grammar.Misfits`: the kinds of a form do not go with given operands.
* `Grammar.misfits_of_precedes`: so it is for every form that is tried before the right one.
* `Grammar.reads_statement_instruction`: instructions are read as themselves.
-/

namespace WordMachine

open Rule Lexeme

/-! ## How operands begin -/

namespace Kind

/-- What an operand can begin with. -/
inductive Lead where
  | value
  | name
  | place
  deriving DecidableEq

/-- What the operands of a kind begin with. -/
def lead : Kind → Lead
  | .literal | .literal8 => .value
  | .register => .name
  | .address | .pointer => .place

/-- The characters that an operand can begin with. -/
def Lead.Begins : Lead → Char → Prop
  | .value, c => c = '$' ∨ c = '[' ∨ c = '!' ∨ c = '<'
  | .name, c => isNameStart c = true
  | .place, c => c = '&'

instance (lead : Lead) (c : Char) : Decidable (lead.Begins c) :=
  match lead with
  | .value => inferInstanceAs (Decidable (c = '$' ∨ c = '[' ∨ c = '!' ∨ c = '<'))
  | .name => inferInstanceAs (Decidable (isNameStart c = true))
  | .place => inferInstanceAs (Decidable (c = '&'))

/-- No operand begins with a blank or with the end of a line. -/
theorem Lead.Begins.isGapStart {lead : Lead} {c : Char} (h : lead.Begins c) :
    isGapStart c = false := by
  cases lead with
  | value => rcases h with rfl | rfl | rfl | rfl <;> decide
  | name => exact isGapStart_of_isNameStart h
  | place =>
    obtain rfl : c = '&' := h
    decide

/-- A character begins operands in one way only. -/
theorem Lead.Begins.eq_lead {lead lead' : Lead} {c : Char} (h : lead.Begins c)
    (h' : lead'.Begins c) : lead = lead' := by
  have hvalue (h : Lead.value.Begins c) : ¬ isNameStart c = true ∧ c ≠ '&' := by
    rcases h with rfl | rfl | rfl | rfl <;> decide
  have hplace (h : c = '&') : ¬ isNameStart c = true := by
    rw [h]
    decide
  cases lead <;> cases lead' <;>
    first
    | rfl
    | exact absurd h' (hvalue h).1
    | exact absurd h' (hvalue h).2
    | exact absurd h (hvalue h').1
    | exact absurd h (hvalue h').2
    | exact absurd h (hplace h')
    | exact absurd h' (hplace h)

end Kind

/-- A register is written by its name. -/
theorem Operand.text_register {slot : Byte} (h : slot.toNat < registerCount) :
    (Operand.register slot).text = (Register.ofSlot slot).name := by
  have hname : Register.nameOfSlot? slot = some (Register.ofSlot slot).name := by
    rw [← Register.nameOfSlot?_slot, Register.slot_ofSlot h]
  rw [text, hname]
  rfl

theorem Register.isName_name (r : Register) : isName r.name = true := by
  revert r
  decide

theorem Expr.literalSource_begins {e : Expr} (h : e.IsTree) :
    ∃ c s, e.literalSource.toList = c :: s ∧ Kind.Lead.value.Begins c := by
  cases h with
  | hex => exact ⟨_, _, toList_text_hex _, .inl rfl⟩
  | reference => exact ⟨_, _, toList_text_reference _, .inr (.inr (.inl rfl))⟩
  | member => exact ⟨_, _, toList_text_member _ _ _, .inr (.inr (.inr rfl))⟩
  | binary =>
    rw [literalSource, String.toList_append, String.toList_append]
    exact ⟨_, _, rfl, .inr (.inl rfl)⟩

theorem Expr.addressSource_begins (e : Expr) : ∃ s, e.addressSource.toList = '&' :: s := by
  cases e <;> simp [addressSource]

theorem Operand.source_pointer (slot : Byte) :
    (Operand.source .pointer (.register slot)).toList =
      '&' :: (Operand.register slot).text.toList := by
  rw [source, String.toList_append]
  · rfl
  · exact nofun

/-- An operand begins as its kind says. -/
theorem Operand.source_begins {kind : Kind} {x : Operand} (h : x.WellFormed kind) :
    ∃ c s, (x.source kind).toList = c :: s ∧ kind.lead.Begins c := by
  cases h with
  | literal h => exact Expr.literalSource_begins h
  | literal8 h => exact Expr.literalSource_begins h
  | address h =>
    obtain ⟨s, hs⟩ := Expr.addressSource_begins _
    exact ⟨'&', s, hs, rfl⟩
  | digits h =>
    obtain ⟨s, hs⟩ := Expr.addressSource_begins _
    exact ⟨'&', s, hs, rfl⟩
  | register h =>
    obtain ⟨c, s, hname, hc, -⟩ := exists_of_isName (Register.isName_name _)
    rw [← Operand.text_register h] at hname
    exact ⟨c, s, hname, hc⟩
  | pointer h => exact ⟨'&', _, Operand.source_pointer _, rfl⟩

namespace Grammar

/-! ## Operands -/

theorem reads_register (r : Register) {rest : List Char} (hrest : Stops isNameRest rest) :
    register.Reads r.name.toList r rest :=
  (reads_identifier r.isName_name hrest).mapSome (Register.ofName?_name r)

/-- An operand that can be written is read as itself. -/
theorem reads_operand {kind : Kind} {x : Operand} (h : x.WellFormed kind) {rest : List Char}
    (hrest : Stops isNameRest rest) : (operand kind).Reads (x.source kind).toList x rest := by
  cases h with
  | literal h => exact (reads_literalValue h hrest).bind_nil (reads_pure _ _)
  | literal8 h => exact (reads_literalValue h hrest).bind_nil (reads_pure _ _)
  | address h => exact (reads_addressValue h hrest).bind_nil (reads_pure _ _)
  | digits h => exact (reads_addressValue_digits h hrest).bind_nil (reads_pure _ _)
  | @register slot h =>
    show (operand .register).Reads (Operand.register slot).text.toList _ rest
    rw [Operand.text_register h]
    refine (reads_register _ hrest).bind_nil ?_
    rw [Register.slot_ofSlot h]
    exact reads_pure _ _
  | @pointer slot h =>
    rw [Operand.source_pointer, Operand.text_register h]
    refine .cons_bind (reads_char _ _) ((reads_register _ hrest).bind_nil ?_)
    rw [Register.slot_ofSlot h]
    exact reads_pure _ _

/-- Operands, each behind a comma. -/
def moreText : List Kind → List Operand → List Char
  | kind :: kinds, x :: xs => ',' :: ' ' :: ((x.source kind).toList ++ moreText kinds xs)
  | _, _ => []

/-- Operands as they are written behind a mnemonic. -/
def operandsText : List Kind → List Operand → List Char
  | kind :: kinds, x :: xs => ' ' :: ((x.source kind).toList ++ moreText kinds xs)
  | _, _ => []

theorem moreText_cons_append (kind : Kind) (kinds : List Kind) (x : Operand) (xs : List Operand)
    (rest : List Char) :
    moreText (kind :: kinds) (x :: xs) ++ rest =
      [',', ' '] ++ ((x.source kind).toList ++ (moreText kinds xs ++ rest)) :=
  congrArg (',' :: ' ' :: ·) (List.append_assoc _ _ _)

theorem operandsText_cons_append (kind : Kind) (kinds : List Kind) (x : Operand)
    (xs : List Operand) (rest : List Char) :
    operandsText (kind :: kinds) (x :: xs) ++ rest =
      [' '] ++ ((x.source kind).toList ++ (moreText kinds xs ++ rest)) :=
  congrArg (' ' :: ·) (List.append_assoc _ _ _)

theorem moreText_eq (kinds : List Kind) (xs : List Operand) :
    moreText kinds xs =
      (List.zipWith Operand.source kinds xs).flatMap fun s => ',' :: ' ' :: s.toList := by
  induction kinds generalizing xs with
  | nil => cases xs <;> rfl
  | cons kind kinds ih =>
    cases xs with
    | nil => rfl
    | cons x xs =>
      rw [moreText, ih, List.zipWith_cons_cons, List.flatMap_cons]
      rfl

/-- An instruction is written as its mnemonic and its operands. -/
theorem toList_source_instruction (opcode : Opcode) (xs : List Operand) :
    (Statement.instruction opcode xs).source.toList =
      opcode.mnemonic.toList ++ operandsText opcode.format.operands xs := by
  rw [Statement.source]
  cases hkinds : opcode.format.operands with
  | nil => simp [operandsText]
  | cons kind kinds =>
    cases xs with
    | nil => simp [operandsText]
    | cons x xs =>
      rw [List.zipWith_cons_cons, operandsText, moreText_eq]
      simp only [String.toList_append, String.toList_intercalate, List.map_cons,
        intercalate_cons_eq, List.flatMap_map, List.append_assoc]
      rfl

/-- Behind an operand stands a comma, or the line ends. -/
theorem stops_moreText (kinds : List Kind) (xs : List Operand) {rest : List Char}
    (hrest : endsLine rest = true) : Stops isNameRest (moreText kinds xs ++ rest) := by
  cases kinds with
  | nil => exact stops_of_endsLine (by decide) hrest
  | cons kind kinds =>
    cases xs with
    | nil => exact stops_of_endsLine (by decide) hrest
    | cons x xs => rfl

/-- Behind a mnemonic stands a blank, or the line ends. -/
theorem stops_operandsText (kinds : List Kind) (xs : List Operand) {p : Char → Bool}
    (hp : p ' ' = false) {rest : List Char} (hrest : Stops p rest) :
    Stops p (operandsText kinds xs ++ rest) := by
  cases kinds with
  | nil => exact hrest
  | cons kind kinds =>
    cases xs with
    | nil => exact hrest
    | cons x xs => exact hp

/-- Blanks in front of an operand are no part of it. -/
theorem stops_source {kind : Kind} {x : Operand} (h : x.WellFormed kind) (s : List Char) :
    Stops isSpace ((x.source kind).toList ++ s) := by
  obtain ⟨c, t, ht, hc⟩ := Operand.source_begins h
  rw [ht]
  exact isSpace_of_isGapStart hc.isGapStart

theorem reads_moreOperands {kinds : List Kind} {xs : List Operand}
    (h : List.Forall₂ Operand.WellFormed kinds xs) {rest : List Char}
    (hrest : endsLine rest = true) : (moreOperands kinds).Reads (moreText kinds xs) xs rest := by
  induction h with
  | nil => exact reads_pure _ _
  | @cons kind x kinds xs hx hxs ih =>
    refine Reads.bind (s := [',', ' ']) (t := (x.source kind).toList ++ moreText kinds xs)
      (reads_spaced_char (s := []) rfl rfl ?_) ?_
    · rw [List.append_assoc]
      exact stops_source hx _
    · exact (reads_operand hx (stops_moreText kinds xs hrest)).bind (ih.bind_nil (reads_pure _ _))

theorem reads_operands {kinds : List Kind} {xs : List Operand}
    (h : List.Forall₂ Operand.WellFormed kinds xs) {rest : List Char}
    (hrest : endsLine rest = true) : (operands kinds).Reads (operandsText kinds xs) xs rest := by
  cases h with
  | nil => exact reads_pure _ _
  | @cons kind x kinds xs hx hxs =>
    refine .cons_bind (reads_spaces1 (List.cons_ne_nil _ _) (by decide) ?_) ?_
    · rw [List.append_assoc]
      exact stops_source hx _
    · exact (reads_operand hx (stops_moreText kinds xs hrest)).bind
        ((reads_moreOperands hxs hrest).bind_nil (reads_pure _ _))

/-- The form of an instruction reads its operands to the end of the line. -/
theorem reads_form {opcode : Opcode} {xs : List Operand}
    (h : List.Forall₂ Operand.WellFormed opcode.format.operands xs) {rest : List Char}
    (hrest : endsLine rest = true) :
    (form opcode).Reads (operandsText opcode.format.operands xs) (.instruction opcode xs) rest :=
  (reads_operands h hrest).bind_nil ((reads_lineEnd hrest).bind_nil (reads_pure _ _))

end Grammar

/-! ## Forms that do not fit -/

namespace Rule

variable {α β : Type}

/-- Whatever the rule reads, the line does not end behind it. -/
def FallsShort (p : Rule α) (s : List Char) : Prop :=
  ∀ a n, p s = some (a, n) → lineEnd (s.drop n) = none

theorem fallsShort_of_eq_none {p : Rule α} {s : List Char} (h : p s = none) : p.FallsShort s := by
  intro a n hs
  rw [h] at hs
  exact nomatch hs

theorem fallsShort_pure (a : α) {s : List Char} (h : lineEnd s = none) :
    (pure a : Rule α).FallsShort s := by
  intro b n hs
  obtain ⟨-, rfl⟩ := Prod.mk.inj (Option.some.inj hs)
  exact h

/-- A sequence falls short if its second rule does, behind what the first has read. -/
theorem Reads.fallsShort_bind {p : Rule α} {f : α → Rule β} {s : List Char} {a : α}
    {rest : List Char} (hp : p.Reads s a rest) (hf : (f a).FallsShort rest) :
    (p >>= f).FallsShort (s ++ rest) := by
  intro b n hs
  obtain ⟨a', k, m, hp', hf', rfl⟩ := exists_of_bind_eq_some hs
  rw [hp] at hp'
  obtain ⟨rfl, rfl⟩ := Prod.mk.inj (Option.some.inj hp')
  rw [List.drop_left] at hf'
  rw [← List.drop_drop, List.drop_left]
  exact hf b m hf'

/-- What is made of the value changes nothing. -/
theorem FallsShort.map {p : Rule α} {s : List Char} (h : p.FallsShort s) (g : α → β) :
    (p >>= fun a => pure (g a)).FallsShort s := by
  intro b n hs
  obtain ⟨a, k, m, hp, hpure, rfl⟩ := exists_of_bind_eq_some hs
  obtain ⟨-, rfl⟩ := Prod.mk.inj (Option.some.inj hpure)
  exact h a k hp

/-- A rule that falls short does not read a line. -/
theorem FallsShort.bind_lineEnd_eq_none {p : Rule α} {s : List Char} (h : p.FallsShort s)
    (f : α → Rule β) : (p >>= fun a => lineEnd >>= fun _ => f a) s = none := by
  cases hs : (p >>= fun a => lineEnd >>= fun _ => f a) s with
  | none => rfl
  | some r =>
    obtain ⟨a, k, m, hp, hend, -⟩ := exists_of_bind_eq_some (n := r.2) (b := r.1) hs
    rw [bind_eq_none (h a k hp)] at hend
    exact nomatch hend

end Rule

namespace Grammar

/-- A form for operands of the first kinds does not read the given operands, which are of the
second kinds: there are too few of the first, or at some position an operand begins otherwise
than it should, or it is the name of a register and should be an address. -/
def Misfits : List Kind → List Kind → List Operand → Prop
  | [], _ :: _, _ :: _ => True
  | kind' :: kinds', kind :: kinds, x :: xs =>
    kind'.lead ≠ kind.lead ∨
      kind' = .address ∧ kind = .pointer ∧ x ≠ .register Register.acc.slot ∨
      (kind' = .pointer → kind = .pointer) ∧ Misfits kinds' kinds xs
  | _, _, _ => False

/-- What begins no operand of a kind is not read as one. -/
theorem operand_eq_none_of_not_begins {kind : Kind} {c : Char} (hc : ¬ kind.lead.Begins c)
    (s : List Char) : operand kind (c :: s) = none := by
  cases kind with
  | literal | literal8 =>
    have hvalue : ¬ (c = '$' ∨ c = '[' ∨ c = '!' ∨ c = '<') := hc
    simp only [not_or] at hvalue
    refine bind_eq_none (firstOf_eq_none fun p hp => ?_)
    simp only [List.mem_cons, List.not_mem_nil, or_false] at hp
    rcases hp with rfl | rfl | rfl | rfl
    · exact bind_eq_none (bind_eq_none (char_eq_none hvalue.1 s))
    · exact bind_eq_none (char_eq_none hvalue.2.1 s)
    · exact bind_eq_none (char_eq_none hvalue.2.2.1 s)
    · exact bind_eq_none (char_eq_none hvalue.2.2.2 s)
  | register =>
    refine bind_eq_none ?_
    rw [register, mapSome, identifier_eq_none (Bool.eq_false_iff.mpr hc)]
  | address => exact bind_eq_none (bind_eq_none (char_eq_none hc s))
  | pointer => exact bind_eq_none (char_eq_none hc s)

/-- An operand that begins otherwise is refused. -/
theorem operand_eq_none {kind : Kind} {lead : Kind.Lead} {c : Char} (hc : lead.Begins c)
    (hlead : kind.lead ≠ lead) (s : List Char) : operand kind (c :: s) = none :=
  operand_eq_none_of_not_begins (fun h => hlead (h.eq_lead hc)) s

/-- What is read as an operand begins as operands of its kind do. -/
theorem exists_begins_of_operand {kind : Kind} {s : List Char} {x : Operand} {n : Nat}
    (h : operand kind s = some (x, n)) : ∃ c t, s = c :: t ∧ kind.lead.Begins c := by
  cases s with
  | nil => cases kind <;> exact nomatch h
  | cons c t =>
    refine ⟨c, t, rfl, by_contra fun hc => ?_⟩
    rw [operand_eq_none_of_not_begins hc] at h
    exact nomatch h

/-- Kinds whose operands begin in the same way are read by the same rule, addresses and
pointers apart. -/
theorem operand_eq_of_lead {kind' kind : Kind} (hlead : kind'.lead = kind.lead)
    (hpointer : kind' = .pointer → kind = .pointer)
    (haddress : ¬ (kind' = .address ∧ kind = .pointer)) : operand kind' = operand kind := by
  cases kind' <;> cases kind <;>
    first
    | rfl
    | exact absurd hlead (by decide)
    | exact absurd (hpointer rfl) (by decide)
    | exact absurd ⟨rfl, rfl⟩ haddress

/-- No line ends in front of anything but a break or a comment. -/
theorem endsLine_eq_false {c : Char} (h : isGapStart c = false) (s : List Char) :
    endsLine (c :: s) = false := by
  unfold endsLine
  split
  all_goals first | rfl | exact absurd h (by simp_all [isGapStart, isGap, isSpace, isBreak])

theorem lineEnd_eq_none_of_isGapStart {c : Char} (h : isGapStart c = false) (s : List Char) :
    lineEnd (c :: s) = none := by
  have hblank : spaces0.Reads [] () (c :: s) := reads_spaces0 rfl (isSpace_of_isGapStart h)
  refine hblank.bind_eq_none ?_
  rw [ahead, endsLine_eq_false h]
  rfl

/-! ## An address where a pointer stands -/

/-- A value that begins with a letter is no bracket, reference or member. -/
theorem valueOf_eq_of_name (first : Rule Expr) {c : Char} (hc : isNameStart c = true)
    (s : List Char) : valueOf first (c :: s) = first (c :: s) := by
  have hne {d : Char} (hd : isNameStart d = false) : c ≠ d := by
    rintro rfl
    rw [hc] at hd
    exact nomatch hd
  have hothers : firstOf [bracketExpr, referenceExpr, memberExpr] (c :: s) = none := by
    refine firstOf_eq_none fun p hp => ?_
    simp only [List.mem_cons, List.not_mem_nil, or_false] at hp
    rcases hp with rfl | rfl | rfl <;> exact bind_eq_none (char_eq_none (hne rfl) s)
  rw [valueOf, firstOf_cons, hothers]
  split
  · rename_i hfirst
    exact hfirst.symm
  · rename_i hfirst
    exact hfirst.symm

/-- A letter that is no digit begins no address. -/
theorem addressValue_eq_none {c : Char} (hname : isNameStart c = true)
    (hdigit : Text.isHexDigit c = false) (s : List Char) : addressValue ('&' :: c :: s) = none := by
  refine Reads.bind_eq_none (s := ['&']) (reads_char '&' _) ?_
  refine (valueOf_eq_of_name addressExpr hname s).trans (bind_eq_none (bind_eq_none ?_))
  rw [while1, List.takeWhile_cons_of_neg (by rw [hdigit]; decide)]
  rfl

/-- Apart from `acc` and `fp`, no register has a name that begins with a digit. -/
theorem register_name_cases (r : Register) :
    r = .acc ∨ r = .fp ∨
      ∃ c s, r.name.toList = c :: s ∧ isNameStart c = true ∧ Text.isHexDigit c = false := by
  have hhead : ∀ r : Register, r = .acc ∨ r = .fp ∨
      (r.name.toList.head?.any fun c => isNameStart c && !Text.isHexDigit c) = true := by
    decide
  refine (hhead r).imp_right (Or.imp_right fun h => ?_)
  cases hname : r.name.toList with
  | nil =>
    rw [hname] at h
    exact nomatch h
  | cons c s =>
    rw [hname, List.head?_cons, Option.any_some, Bool.and_eq_true, Bool.not_eq_true'] at h
    exact ⟨c, s, rfl, h⟩

/-- Where a name would go on, no operands end. -/
theorem fallsShort_moreOperands_of_name {c : Char} (hc : isNameRest c = true) (kinds : List Kind)
    (s : List Char) : (moreOperands kinds).FallsShort (c :: s) := by
  have hgap := isGapStart_of_isNameRest hc
  have hblank : spaces0.Reads [] () (c :: s) := reads_spaces0 rfl (isSpace_of_isGapStart hgap)
  cases kinds with
  | nil => exact fallsShort_pure _ (lineEnd_eq_none_of_isGapStart hgap s)
  | cons kind kinds =>
    refine fallsShort_of_eq_none (bind_eq_none (hblank.bind_eq_none (bind_eq_none ?_)))
    refine char_eq_none ?_ s
    rintro rfl
    exact absurd hc (by decide)

/-- The name of a register is no address, unless it is `acc`. -/
theorem fallsShort_address_of_pointer {slot : Byte} (hslot : slot.toNat < registerCount)
    (hacc : slot ≠ Register.acc.slot) (kinds : List Kind) (s : List Char) :
    (operand .address >>= fun x => moreOperands kinds >>= fun xs => pure (x :: xs)).FallsShort
      ((Operand.source .pointer (.register slot)).toList ++ s) := by
  rw [Operand.source_pointer, Operand.text_register hslot]
  rcases register_name_cases (Register.ofSlot slot) with h | h | ⟨c, t, hname, hc, hdigit⟩
  · exact absurd (by rw [← h, Register.slot_ofSlot hslot]) hacc
  · have hfirst : (operand .address).Reads ['&', 'f'] (.value (.address "f")) ('p' :: s) := by
      rfl
    rw [h]
    exact hfirst.fallsShort_bind ((fallsShort_moreOperands_of_name (by decide) kinds s).map _)
  · rw [hname]
    exact fallsShort_of_eq_none (bind_eq_none (bind_eq_none (addressValue_eq_none hc hdigit _)))

/-! ## Refusals -/

section Refusals

variable {kind' kind : Kind} {kinds' kinds : List Kind} {x : Operand} {xs : List Operand}
  {rest : List Char}

/-- Where operands do not fit, they are not read to the end of the line, if that holds of those
behind the first. -/
theorem fallsShort_of_misfits (hx : x.WellFormed kind) (hrest : endsLine rest = true)
    (hmisfits : Misfits (kind' :: kinds') (kind :: kinds) (x :: xs))
    (ih : Misfits kinds' kinds xs →
      (moreOperands kinds').FallsShort (moreText kinds xs ++ rest)) :
    (operand kind' >>= fun a => moreOperands kinds' >>= fun as => pure (a :: as)).FallsShort
      ((x.source kind).toList ++ (moreText kinds xs ++ rest)) := by
  have hstops := stops_moreText kinds xs hrest
  by_cases hlead : kind'.lead = kind.lead
  · rcases hmisfits with hne | ⟨rfl, rfl, hacc⟩ | ⟨hpointer, hmisfits⟩
    · exact absurd hlead hne
    · cases hx with
      | pointer hslot =>
        exact fallsShort_address_of_pointer hslot (fun e => hacc (congrArg _ e)) kinds' _
    · by_cases haddress : kind' = .address ∧ kind = .pointer
      · obtain ⟨rfl, rfl⟩ := haddress
        cases hx with
        | @pointer slot hslot =>
          by_cases hacc : slot = Register.acc.slot
          · subst hacc
            -- the name is read as digits, and the operands behind it decide
            have hacc : isDigits "acc" = true := by decide
            have haddress := reads_addressValue_digits hacc hstops
            have hdigits : (operand .address).Reads _ (.value (.address "acc"))
                (moreText kinds xs ++ rest) := haddress.bind_nil (reads_pure _ _)
            have htext : (Operand.source .pointer (.register Register.acc.slot)).toList =
                (Expr.address "acc").addressSource.toList := by decide
            rw [htext]
            exact hdigits.fallsShort_bind ((ih hmisfits).map _)
          · exact fallsShort_address_of_pointer hslot hacc kinds' _
      · rw [operand_eq_of_lead hlead hpointer haddress]
        exact (reads_operand hx hstops).fallsShort_bind ((ih hmisfits).map _)
  · obtain ⟨c, s, hs, hc⟩ := Operand.source_begins hx
    rw [hs]
    exact fallsShort_of_eq_none (bind_eq_none (operand_eq_none hc hlead _))

theorem fallsShort_moreOperands (hxs : List.Forall₂ Operand.WellFormed kinds xs)
    (hrest : endsLine rest = true) (hmisfits : Misfits kinds' kinds xs) :
    (moreOperands kinds').FallsShort (moreText kinds xs ++ rest) := by
  induction kinds' generalizing kinds xs with
  | nil =>
    cases hxs with
    | nil => exact hmisfits.elim
    | cons hx hxs => exact fallsShort_pure _ rfl
  | cons kind' kinds' ih =>
    cases hxs with
    | nil => exact hmisfits.elim
    | @cons kind x kinds xs hx hxs =>
      have hcomma : (spaced (char ',')).Reads [',', ' '] ()
          ((x.source kind).toList ++ (moreText kinds xs ++ rest)) :=
        reads_spaced_char (s := []) rfl rfl (stops_source hx _)
      rw [moreText_cons_append]
      exact hcomma.fallsShort_bind (fallsShort_of_misfits hx hrest hmisfits (ih hxs))

/-- No line ends where an operand begins. -/
theorem lineEnd_eq_none (hx : x.WellFormed kind) (s : List Char) :
    lineEnd (' ' :: ((x.source kind).toList ++ s)) = none := by
  obtain ⟨c, t, ht, hc⟩ := Operand.source_begins hx
  have hblank : spaces0.Reads [' '] () ((x.source kind).toList ++ s) :=
    reads_spaces0 (by decide) (stops_source hx s)
  refine hblank.bind_eq_none ?_
  rw [ht, List.cons_append, ahead, endsLine_eq_false hc.isGapStart]
  rfl

/-- A form that operands do not fit is refused. -/
theorem form_eq_none {opcode : Opcode} (hxs : List.Forall₂ Operand.WellFormed kinds xs)
    (hrest : endsLine rest = true) (hmisfits : Misfits opcode.format.operands kinds xs) :
    form opcode (operandsText kinds xs ++ rest) = none := by
  refine FallsShort.bind_lineEnd_eq_none ?_ _
  cases hkinds : opcode.format.operands with
  | nil =>
    rw [hkinds] at hmisfits
    cases hxs with
    | nil => exact hmisfits.elim
    | cons hx hxs =>
      refine fallsShort_pure _ ?_
      rw [operandsText_cons_append]
      exact lineEnd_eq_none hx _
  | cons kind' kinds' =>
    rw [hkinds] at hmisfits
    cases hxs with
    | nil => exact hmisfits.elim
    | @cons kind x kinds xs hx hxs =>
      have hblank : spaces1.Reads [' '] ()
          ((x.source kind).toList ++ (moreText kinds xs ++ rest)) :=
        reads_spaces1 (List.cons_ne_nil _ _) (by decide) (stops_source hx _)
      rw [operandsText_cons_append]
      exact hblank.fallsShort_bind
        (fallsShort_of_misfits hx hrest hmisfits (fallsShort_moreOperands hxs hrest))

end Refusals

/-! ## The forms of a mnemonic -/

/-- Operands of the second kinds never fit a form for operands of the first. -/
def clash : List Kind → List Kind → Bool
  | [], _ :: _ => true
  | kind' :: kinds', kind :: kinds =>
    kind'.lead != kind.lead || (kind' != .pointer || kind == .pointer) && clash kinds' kinds
  | _, [] => false

theorem misfits_of_clash {kinds' kinds : List Kind} {xs : List Operand}
    (hxs : List.Forall₂ Operand.WellFormed kinds xs) (h : clash kinds' kinds = true) :
    Misfits kinds' kinds xs := by
  induction kinds' generalizing kinds xs with
  | nil =>
    cases hxs with
    | nil => exact nomatch h
    | cons hx hxs => trivial
  | cons kind' kinds' ih =>
    cases hxs with
    | nil => exact nomatch h
    | cons hx hxs =>
      rw [clash, Bool.or_eq_true, bne_iff_ne, Bool.and_eq_true, Bool.or_eq_true, bne_iff_ne,
        beq_iff_eq] at h
      refine h.imp_right fun ⟨hpointer, h⟩ => .inr ⟨fun e => ?_, ih hxs h⟩
      exact hpointer.resolve_left fun hne => hne e

/-- The forms of a mnemonic are tried in the order of all instructions. -/
theorem pairwise_forms {R : Opcode → Opcode → Prop} (h : Opcode.all.Pairwise R)
    {mnemonic : String} {o : Opcode} {before after : List Opcode}
    (hforms : Opcode.forms mnemonic = before ++ o :: after) :
    (∀ p ∈ before, R p o) ∧ ∀ p ∈ after, R o p := by
  have hpairs : (before ++ o :: after).Pairwise R := hforms ▸ h.filter _
  rw [List.pairwise_append, List.pairwise_cons] at hpairs
  exact ⟨fun p hp => hpairs.2.2 p hp o List.mem_cons_self, hpairs.2.1.1⟩

theorem mnemonic_eq_of_precedes {mnemonic : String} {p o : Opcode} {before after : List Opcode}
    (hforms : Opcode.forms mnemonic = before ++ o :: after) (hp : p ∈ before) :
    p.mnemonic = o.mnemonic := by
  have hall : ∀ q ∈ before ++ o :: after, q.mnemonic = mnemonic.map Char.toLower :=
    fun q hq => Opcode.mem_forms.mp (hforms ▸ hq)
  have ho := hall o (List.mem_append_right _ List.mem_cons_self)
  exact (hall p (List.mem_append_left _ hp)).trans ho.symm

/-- Of two instructions with the same mnemonic, the operands of the later do not fit the
earlier, but for an address where the later takes a pointer. -/
theorem pairwise_clash : Opcode.all.Pairwise fun p o => p.mnemonic = o.mnemonic →
    clash p.format.operands o.format.operands = true ∨
      p.format = .memReg ∧ o.format = .regPtrReg ∨ p.format = .regMem ∧ o.format = .regRegPtr := by
  decide +kernel

/-- No form that is tried before the right one fits. -/
theorem misfits_of_precedes {p o : Opcode} {xs : List Operand} {before after : List Opcode}
    (h : (Statement.instruction o xs).WellFormed)
    (hforms : Opcode.forms o.mnemonic = before ++ o :: after) (hp : p ∈ before) :
    Misfits p.format.operands o.format.operands xs := by
  obtain ⟨hxs, hfirst, hlast⟩ := h
  have hmnemonic := mnemonic_eq_of_precedes hforms hp
  rcases (pairwise_forms pairwise_clash hforms).1 p hp hmnemonic with
    hclash | ⟨hpo, ho⟩ | ⟨hpo, ho⟩
  · exact misfits_of_clash hxs hclash
  · rw [hpo, ho]
    rw [ho] at hxs
    obtain _ | ⟨hx, hxs⟩ := hxs
    exact .inr (.inl ⟨rfl, rfl, fun e => hfirst ho (congrArg some e)⟩)
  · rw [hpo, ho]
    rw [ho] at hxs
    obtain _ | ⟨hx, _ | ⟨hy, _ | _⟩⟩ := hxs
    exact .inr (.inr ⟨nofun, .inr (.inl ⟨rfl, rfl, fun e => hlast ho (congrArg some e)⟩)⟩)

/-! ## Instructions -/

theorem isName_mnemonic (o : Opcode) : isName o.mnemonic = true := by
  cases o <;> decide

theorem mem_forms_mnemonic (o : Opcode) : o ∈ Opcode.forms o.mnemonic := by
  rw [Opcode.mem_forms, ← String.toList_inj, String.toList_map]
  cases o <;> decide

section Instructions

variable {o : Opcode} {xs : List Operand} {rest : List Char}

/-- An instruction that can be written is read as itself. -/
theorem reads_instruction (h : (Statement.instruction o xs).WellFormed)
    (hrest : endsLine rest = true) :
    instruction.Reads (Statement.instruction o xs).source.toList (.instruction o xs) rest := by
  rw [toList_source_instruction]
  refine (reads_identifier (isName_mnemonic o) ?_).bind ?_
  · exact stops_operandsText _ _ (by decide) (stops_of_endsLine (by decide) hrest)
  · obtain ⟨before, after, hforms⟩ := List.append_of_mem (mem_forms_mnemonic o)
    show (firstOf ((Opcode.forms o.mnemonic).map form)).Reads _ _ _
    rw [hforms, List.map_append, List.map_cons]
    refine Reads.firstOf _ (fun q hq => ?_) (reads_form h.1 hrest)
    obtain ⟨p, hp, rfl⟩ := List.mem_map.mp hq
    exact form_eq_none h.1 hrest (misfits_of_precedes h hforms hp)

/-- An instruction is no definition: no mnemonic is a word that introduces one, and none has a
colon behind it. -/
theorem reads_statement_instruction (h : (Statement.instruction o xs).WellFormed)
    (hrest : endsLine rest = true) :
    statement.Reads (Statement.instruction o xs).source.toList (.instruction o xs) rest := by
  refine Reads.firstOf [_, _, _, _] (fun q hq => ?_) (reads_instruction h hrest)
  have hcolon : Stops (· == ':') (operandsText o.format.operands xs ++ rest) :=
    stops_operandsText _ _ (by decide) (stops_of_endsLine (by decide) hrest)
  have hname : Stops isNameRest (operandsText o.format.operands xs ++ rest) :=
    stops_operandsText _ _ (by decide) (stops_of_endsLine (by decide) hrest)
  rw [toList_source_instruction, List.append_assoc]
  generalize operandsText o.format.operands xs ++ rest = s at hcolon hname ⊢
  have hplus := char_plus_eq_none_of_name (isName_mnemonic o) s
  simp only [List.mem_cons, List.not_mem_nil, or_false] at hq
  rcases hq with rfl | rfl | rfl | rfl
  · exact constant_eq_none false hplus (bind_eq_none (by cases o <;> rfl))
  · refine data_eq_none false hplus fun width => bind_eq_none ?_
    cases width <;> cases o <;> rfl
  · exact struct_eq_none false hplus (bind_eq_none (by cases o <;> rfl))
  · exact (reads_exportMark false hplus).bind_eq_none
      ((reads_identifier (isName_mnemonic o) hname).bind_eq_none
        (bind_eq_none (char_eq_none_of_stops hcolon)))

end Instructions

end Grammar
end WordMachine
