import WordMachine.Proofs.Grammar.Steady

/-!
# Statements in front of more text

A statement that is read is read the same if a break of line and any other text follow
(`Grammar.steady_statement`).  For definitions there is not much to be said: one that comes as
far as its brace is no other definition and no instruction, and the brace has to close.

Instructions are different, since the forms of a mnemonic are tried one after the other.  That
the form which is taken reads the same is not enough, for those before it have to be refused
still.  Such a form may be refused for what the break would change: because its line does not
end, where a single carriage return does, or because a bracket is left open.  But the forms read
the same text.  As far as both have come, they have read the same number of characters, or one of
them stops within a name, where it is refused whatever follows.  So the form that is taken has
read every bracket that the other comes to, and its line ends where the other's would have to
(`Grammar.steady_form`).

* `Rule.SteadyLine`: a rule is steady, and so is the end of the line behind it.
* `Grammar.length_eq_of_operand`: operands of two kinds that both can be read.
* `Grammar.steady_form`, `Grammar.steady_statement`.
-/

namespace WordMachine

open Rule Lexeme

/-! ## Ends of lines -/

namespace Rule

variable {α β : Type} {p : Rule α} {s : List Char}

/-- A break and more text change nothing in what the rule answers, nor in whether the line ends
behind that. -/
structure SteadyLine (p : Rule α) (s : List Char) : Prop where
  steady : p.Steady s
  ending : ∀ a n, p s = some (a, n) → lineEnd.Steady (s.drop n)

namespace SteadyLine

theorem of_eq_none (h : p.Steady s) (hs : p s = none) : p.SteadyLine s :=
  ⟨h, fun a n ha => by
    rw [hs] at ha
    exact nomatch ha⟩

theorem pure (a : α) (h : lineEnd.Steady s) : (pure a : Rule α).SteadyLine s :=
  ⟨local_pure a s, fun _ n hn => by
    obtain ⟨-, rfl⟩ := Prod.mk.inj (Option.some.inj hn)
    exact h⟩

theorem bind {f : α → Rule β} (hp : p.Steady s)
    (hf : ∀ a n, p s = some (a, n) → (f a).SteadyLine (s.drop n)) : (p >>= f).SteadyLine s where
  steady := hp.bind fun a n ha => (hf a n ha).steady
  ending b n h := by
    obtain ⟨a, k, m, hk, hm, rfl⟩ := exists_of_bind_eq_some h
    rw [← List.drop_drop]
    exact (hf a k hk).ending b m hm

theorem map (h : p.SteadyLine s) (g : α → β) : (p >>= fun a => Pure.pure (g a)).SteadyLine s :=
  ⟨h.steady.bind fun _ _ _ => local_pure _ _, fun b n hb => by
    obtain ⟨a, k, m, hk, hpure, rfl⟩ := exists_of_bind_eq_some hb
    obtain ⟨-, rfl⟩ := Prod.mk.inj (Option.some.inj hpure)
    exact h.ending a k hk⟩

end SteadyLine
end Rule

namespace Lexeme

theorem endsLine_append_break {s : List Char} (h : s ≠ ['\r']) (t : List Char) :
    endsLine (s ++ '\n' :: t) = endsLine s := by
  match s with
  | [] => rfl
  | [c] =>
    have hc : c ≠ '\r' := fun e => h (by rw [e])
    unfold endsLine
    grind
  | c :: d :: s =>
    unfold endsLine
    grind

theorem steady_ahead_endsLine {s : List Char} (h : s ≠ ['\r']) : (ahead endsLine).Steady s where
  same t := by rw [ahead, ahead, endsLine_append_break h]
  le_length a n ha := by
    rw [ahead] at ha
    split at ha
    · obtain ⟨-, rfl⟩ := Prod.mk.inj (Option.some.inj ha)
      exact Nat.zero_le _
    · cases ha

/-- Blanks that are required are read as those that are not. -/
theorem spaces0_eq_some_of_spaces1 {s : List Char} {u : Unit} {n : Nat}
    (h : spaces1 s = some (u, n)) : spaces0 s = some (u, n) := by
  obtain ⟨read, k, m, hread, hpure, rfl⟩ := exists_of_bind_eq_some h
  rw [while1] at hread
  split at hread
  · cases hread
  · exact bind_eq_some (p := while0 isSpace) hread hpure

/-- Whether a line ends is decided behind the blanks that are left of it. -/
theorem steady_lineEnd {s : List Char} {u : Unit} {n : Nat} (h : spaces0 s = some (u, n))
    (hs : s.drop n ≠ ['\r']) : lineEnd.Steady s := by
  refine (local_spaces0 s).bind fun _ k hk => steady_ahead_endsLine ?_
  rw [h] at hk
  obtain ⟨-, rfl⟩ := Prod.mk.inj (Option.some.inj hk)
  exact hs

theorem exists_of_lineEnd {s : List Char} (h : lineEnd s ≠ none) :
    ∃ n, spaces0 s = some ((), n) ∧ endsLine (s.drop n) = true := by
  obtain ⟨_, n, hn, hahead⟩ := exists_of_bind_ne_none h
  exact ⟨n, hn, by_contra fun hends => hahead (if_neg hends)⟩

theorem steady_lineEnd_of_ne_none {s : List Char} (h : lineEnd s ≠ none) : lineEnd.Steady s := by
  obtain ⟨n, hn, hends⟩ := exists_of_lineEnd h
  refine steady_lineEnd hn fun hs => ?_
  rw [hs] at hends
  exact nomatch hends

theorem exists_of_spaced_char {c : Char} {s : List Char} (h : spaced (char c) s ≠ none) :
    ∃ n t, spaces0 s = some ((), n) ∧ s.drop n = c :: t := by
  obtain ⟨_, n, hn, hrest⟩ := exists_of_bind_ne_none h
  obtain ⟨_, _, hchar, -⟩ := exists_of_bind_ne_none hrest
  obtain ⟨t, ht, -⟩ := exists_of_char hchar
  exact ⟨n, t, hn, ht⟩

/-- Where a comma can be read, the line does not end, whatever follows. -/
theorem steady_lineEnd_of_comma {s : List Char} (h : spaced (char ',') s ≠ none) :
    lineEnd.Steady s := by
  obtain ⟨n, t, hn, ht⟩ := exists_of_spaced_char h
  refine steady_lineEnd hn ?_
  rw [ht]
  exact fun hs => nomatch (List.cons_eq_cons.mp hs).1

theorem spaced_comma_eq_none_of_lineEnd {s : List Char} (h : lineEnd s ≠ none) :
    spaced (char ',') s = none := by
  by_contra hcomma
  obtain ⟨n, hn, hends⟩ := exists_of_lineEnd h
  obtain ⟨k, t, hk, ht⟩ := exists_of_spaced_char hcomma
  rw [hn] at hk
  obtain ⟨-, rfl⟩ := Prod.mk.inj (Option.some.inj hk)
  rw [ht] at hends
  exact nomatch hends

end Lexeme

namespace Grammar

/-! ## Operands -/

/-- No bracket is left open at the start of the text, nor behind the sign of an address there. -/
def Closes (s : List Char) : Prop :=
  ∀ t, s = '[' :: t ∨ s = '&' :: '[' :: t → bracketExpr ('[' :: t) ≠ none

theorem steady_bracketExpr_of_closes {s : List Char}
    (h : ∀ t, s = '[' :: t → bracketExpr ('[' :: t) ≠ none) : bracketExpr.Steady s := by
  refine steady_bracketExpr ?_
  cases hs : char '[' s with
  | none => exact .inl rfl
  | some r =>
    obtain ⟨t, rfl, -⟩ := exists_of_char (u := r.1) (n := r.2) hs
    exact .inr (h t rfl)

theorem steady_valueOf {first : Rule Expr} (hfirst : first.Local) {s : List Char}
    (h : ∀ t, s = '[' :: t → bracketExpr ('[' :: t) ≠ none) : (valueOf first).Steady s := by
  refine steady_firstOf fun p hp => ?_
  simp only [List.mem_cons, List.not_mem_nil, or_false] at hp
  rcases hp with rfl | rfl | rfl | rfl
  · exact hfirst s
  · exact steady_bracketExpr_of_closes h
  · exact local_referenceExpr s
  · exact local_memberExpr s

theorem local_register : register.Local := local_identifier.mapSome _

/-- An operand is steady where no bracket is left open. -/
theorem steady_operand (kind : Kind) {s : List Char} (h : Closes s) : (operand kind).Steady s := by
  cases kind with
  | literal | literal8 =>
    exact (steady_valueOf local_literalExpr fun t ht => h t (.inl ht)).bind fun _ _ _ =>
      local_pure _ _
  | address =>
    refine Steady.bind ((local_char (by decide) s).bind fun _ n hn => ?_) fun _ _ _ =>
      local_pure _ _
    obtain ⟨t, rfl, rfl⟩ := exists_of_char hn
    exact steady_valueOf (local_hexDigits.bind fun _ => local_pure _) fun u hu =>
      h u (.inr (congrArg _ hu))
  | register => exact (local_register.bind fun _ => local_pure _) s
  | pointer =>
    exact ((local_char (by decide)).bind fun _ => local_register.bind fun _ => local_pure _) s

/-- A bracket that is left open is no operand of any kind. -/
theorem closes_of_operand {kind : Kind} {s : List Char} (h : operand kind s ≠ none) :
    Closes s := by
  have hvalue {first : Rule Expr} {t : List Char} (hfirst : first ('[' :: t) = none)
      (ht : bracketExpr ('[' :: t) = none) : valueOf first ('[' :: t) = none := by
    refine firstOf_eq_none fun p hp => ?_
    simp only [List.mem_cons, List.not_mem_nil, or_false] at hp
    rcases hp with rfl | rfl | rfl | rfl
    · exact hfirst
    · exact ht
    · rfl
    · rfl
  rintro t (rfl | rfl) ht
  · cases kind with
    | literal | literal8 => exact h (bind_eq_none (hvalue rfl ht))
    | address | register | pointer => exact h rfl
  · cases kind with
    | address => exact h (bind_eq_none (Reads.bind_eq_none (reads_char '&' _) (hvalue rfl ht)))
    | literal | literal8 | register | pointer => exact h rfl

theorem exists_of_hexDigits {s : List Char} {digits : String} {n : Nat}
    (h : hexDigits s = some (digits, n)) :
    ∃ rest, s = digits.toList ++ rest ∧ n = digits.toList.length := by
  obtain ⟨read, k, m, hread, hpure, rfl⟩ := exists_of_bind_eq_some h
  obtain ⟨rfl, rfl⟩ := Prod.mk.inj (Option.some.inj hpure)
  rw [while1] at hread
  split at hread
  · cases hread
  · obtain ⟨rfl, rfl⟩ := Prod.mk.inj (Option.some.inj hread)
    rw [String.toList_ofList]
    exact ⟨_, List.takeWhile_append_dropWhile.symm, rfl⟩

/-- Where a letter stands behind the sign, an address is digits. -/
theorem exists_of_address {c : Char} (hc : isNameStart c = true) {t : List Char} {x : Operand}
    {n : Nat} (h : operand .address ('&' :: c :: t) = some (x, n)) :
    ∃ digits rest, isDigits digits = true ∧ c :: t = digits.toList ++ rest ∧
      n = 1 + digits.toList.length := by
  obtain ⟨e, k, _, he, hx, rfl⟩ := exists_of_bind_eq_some h
  obtain ⟨-, rfl⟩ := Prod.mk.inj (Option.some.inj hx)
  obtain ⟨_, i, j, hsign, hvalue, rfl⟩ := exists_of_bind_eq_some he
  obtain ⟨-, -, rfl⟩ := exists_of_char hsign
  have haddress : addressExpr (c :: t) = some (e, j) :=
    (valueOf_eq_of_name addressExpr hc t).symm.trans hvalue
  obtain ⟨digits, l, k, hl, hdigits, rfl⟩ := exists_of_bind_eq_some haddress
  obtain ⟨-, rfl⟩ := Prod.mk.inj (Option.some.inj hdigits)
  obtain ⟨rest, htext, rfl⟩ := exists_of_hexDigits hl
  exact ⟨digits, rest, yields_hexDigits _ _ _ hl, htext, rfl⟩

/-- Where a pointer is read, an address that does not stop within the name has read the name, and
the name has digits only. -/
theorem exists_of_address_of_pointer {s : List Char} {x y : Operand} {n m : Nat}
    (hx : operand .address s = some (x, n)) (hy : operand .pointer s = some (y, m))
    (hstops : Stops isNameRest (s.drop n)) :
    ∃ r name rest, y = .register (Register.slot r) ∧ Register.ofName? name = some r ∧
      isDigits name = true ∧ s = '&' :: (name.toList ++ rest) ∧ n = 1 + name.toList.length ∧
      m = 1 + name.toList.length ∧ Stops isNameRest rest := by
  obtain ⟨r, name, rest, rfl, hofName, hname, rfl, rfl, hrest⟩ := exists_of_pointer hy
  obtain ⟨c, cs, hcs, hc, -⟩ := exists_of_isName hname
  rw [hcs, List.cons_append] at hx
  obtain ⟨digits, rest', hdigits, htext, rfl⟩ := exists_of_address hc hx
  rw [← List.cons_append, ← hcs] at htext
  rw [Nat.add_comm, List.drop_succ_cons, htext, List.drop_left] at hstops
  have hall : digits.toList.all isNameRest = true := by
    rw [isDigits, Bool.and_eq_true] at hdigits
    exact List.all_eq_true.mpr fun d hd =>
      isNameRest_of_isHexDigit (List.all_eq_true.mp hdigits.2 d hd)
  -- both are what the characters of names reach
  have hsame : digits.toList = name.toList := by
    rw [← takeWhile_append_of_stops hall hstops, ← htext,
      takeWhile_append_of_stops (all_isNameRest_of_isName hname) hrest]
  obtain rfl := String.toList_inj.mp hsame
  exact ⟨r, digits, rest, rfl, hofName, hdigits, rfl, rfl, rfl, hrest⟩

/-- An address and a pointer that both can be read are of the same length, unless the address
stops within the name. -/
theorem length_eq_of_address {s : List Char} {x y : Operand} {n m : Nat}
    (hx : operand .address s = some (x, n)) (hy : operand .pointer s = some (y, m))
    (hstops : Stops isNameRest (s.drop n)) : n = m := by
  obtain ⟨_, _, _, -, -, -, -, hn, hm, -⟩ := exists_of_address_of_pointer hx hy hstops
  exact hn.trans hm.symm

/-- Operands of two kinds that both can be read are of the same length, unless one of them stops
within a name. -/
theorem length_eq_of_operand {kind kind' : Kind} {s : List Char} {x y : Operand} {n m : Nat}
    (hx : operand kind s = some (x, n)) (hy : operand kind' s = some (y, m))
    (hn : Stops isNameRest (s.drop n)) (hm : Stops isNameRest (s.drop m)) : n = m := by
  have hlead : kind.lead = kind'.lead := by
    obtain ⟨c, t, rfl, hc⟩ := exists_begins_of_operand hx
    obtain ⟨d, u, hd, hd'⟩ := exists_begins_of_operand hy
    obtain ⟨rfl, -⟩ := List.cons_eq_cons.mp hd
    exact hc.eq_lead hd'
  by_cases haddress : kind = .address ∧ kind' = .pointer
  · obtain ⟨rfl, rfl⟩ := haddress
    exact length_eq_of_address hx hy hn
  · by_cases hpointer : kind = .pointer ∧ kind' = .address
    · obtain ⟨rfl, rfl⟩ := hpointer
      exact (length_eq_of_address hy hx hm).symm
    · have hsame : operand kind = operand kind' := by
        refine operand_eq_of_lead hlead ?_ haddress
        rintro rfl
        cases kind' with
        | pointer => rfl
        | address => exact absurd ⟨rfl, rfl⟩ hpointer
        | literal | literal8 | register => exact absurd hlead (by decide)
      rw [hsame, hy] at hx
      exact (Prod.mk.inj (Option.some.inj hx)).2.symm

/-! ## The operands of a line -/

/-- Where a name would go on, operands are refused, whatever follows. -/
theorem steadyLine_moreOperands_of_name {s : List Char} (h : ¬ Stops isNameRest s)
    (kinds : List Kind) : (moreOperands kinds).SteadyLine s := by
  cases s with
  | nil => exact absurd trivial h
  | cons c s =>
    have hc : isNameRest c = true := (Bool.not_eq_false _).mp h
    have hgap := isGapStart_of_isNameRest hc
    have hblank : spaces0 (c :: s) = some ((), 0) :=
      reads_spaces0 (s := []) rfl (isSpace_of_isGapStart hgap)
    cases kinds with
    | nil =>
      refine .pure _ (steady_lineEnd hblank fun hs => ?_)
      obtain ⟨rfl, -⟩ := List.cons_eq_cons.mp hs
      exact absurd hc (by decide)
    | cons kind kinds =>
      refine .bind (local_spaced (local_char (by decide)) _) fun _ n hn => ?_
      obtain ⟨k, t, hk, ht⟩ := exists_of_spaced_char (hn ▸ Option.some_ne_none _)
      rw [hblank] at hk
      obtain ⟨-, rfl⟩ := Prod.mk.inj (Option.some.inj hk)
      obtain ⟨rfl, -⟩ := List.cons_eq_cons.mp ht
      exact absurd hc (by decide)

/-- Behind operands that end where the line does, no name goes on. -/
theorem stops_of_moreOperands {kinds : List Kind} {s : List Char} {xs : List Operand} {n : Nat}
    (h : moreOperands kinds s = some (xs, n)) (hend : lineEnd (s.drop n) ≠ none) :
    Stops isNameRest s := by
  cases s with
  | nil => trivial
  | cons c s =>
    refine Bool.eq_false_iff.mpr fun hc => hend ?_
    exact fallsShort_moreOperands_of_name hc kinds s xs n h

section Line

variable {kind : Kind} {kinds : List Kind} {s : List Char} {xs : List Operand} {n : Nat}

/-- A first operand and others behind it. -/
def operandThen (kind : Kind) (kinds : List Kind) : Rule (List Operand) := do
  let x ← operand kind
  let xs ← moreOperands kinds
  pure (x :: xs)

theorem exists_of_operandThen (h : operandThen kind kinds s = some (xs, n)) :
    ∃ x k ys m, operand kind s = some (x, k) ∧ moreOperands kinds (s.drop k) = some (ys, m) ∧
      n = k + m := by
  obtain ⟨x, k, _, hk, hrest, rfl⟩ := exists_of_bind_eq_some h
  obtain ⟨ys, m, _, hm, hpure, rfl⟩ := exists_of_bind_eq_some hrest
  obtain ⟨-, rfl⟩ := Prod.mk.inj (Option.some.inj hpure)
  exact ⟨x, k, ys, m, hk, hm, rfl⟩

/-- If operands of some kinds are read to the end of a line, then operands of any kinds are
steady, if that holds of those behind the first. -/
theorem steadyLine_operandThen (h : operandThen kind kinds s = some (xs, n))
    (hend : lineEnd (s.drop n) ≠ none) (kind' : Kind) {kinds' : List Kind}
    (ih : ∀ {t : List Char} {ys : List Operand} {m : Nat}, moreOperands kinds t = some (ys, m) →
      lineEnd (t.drop m) ≠ none → (moreOperands kinds').SteadyLine t) :
    (operandThen kind' kinds').SteadyLine s := by
  obtain ⟨x, k, ys, m, hk, hm, rfl⟩ := exists_of_operandThen h
  rw [← List.drop_drop] at hend
  have hcloses : Closes s := closes_of_operand (hk ▸ Option.some_ne_none _)
  refine .bind (steady_operand kind' hcloses) fun x' k' hk' => .map ?_ _
  by_cases hstops : Stops isNameRest (s.drop k')
  · obtain rfl := length_eq_of_operand hk hk' (stops_of_moreOperands hm hend) hstops
    exact ih hm hend
  · exact steadyLine_moreOperands_of_name hstops kinds'

theorem steadyLine_moreOperands (h : moreOperands kinds s = some (xs, n))
    (hend : lineEnd (s.drop n) ≠ none) (kinds' : List Kind) :
    (moreOperands kinds').SteadyLine s := by
  induction kinds' generalizing kinds s xs n with
  | nil =>
    refine .pure _ ?_
    cases kinds with
    | nil =>
      obtain ⟨-, rfl⟩ := Prod.mk.inj (Option.some.inj h)
      exact steady_lineEnd_of_ne_none hend
    | cons kind kinds =>
      exact steady_lineEnd_of_comma fun hnone => nomatch (bind_eq_none hnone).symm.trans h
  | cons kind' kinds' ih =>
    refine .bind (local_spaced (local_char (by decide)) _) fun u k hk => ?_
    cases kinds with
    | nil =>
      obtain ⟨-, rfl⟩ := Prod.mk.inj (Option.some.inj h)
      rw [List.drop_zero] at hend
      exact nomatch (spaced_comma_eq_none_of_lineEnd hend).symm.trans hk
    | cons kind kinds =>
      obtain ⟨v, i, j, hi, hj, rfl⟩ := exists_of_bind_eq_some h
      obtain ⟨rfl, rfl⟩ := Prod.mk.inj (Option.some.inj (hi.symm.trans hk))
      rw [← List.drop_drop] at hend
      exact steadyLine_operandThen hj hend kind' ih

/-- No operand begins where a line ends. -/
theorem operand_eq_none_of_endsLine (h : endsLine s = true) (kind : Kind) :
    operand kind s = none := by
  unfold endsLine at h
  split at h
  · cases kind <;> rfl
  · cases kind <;> rfl
  · cases kind <;> rfl
  · cases kind <;> rfl
  · exact nomatch h

theorem steadyLine_operands (h : operands kinds s = some (xs, n))
    (hend : lineEnd (s.drop n) ≠ none) (kinds' : List Kind) :
    (operands kinds').SteadyLine s := by
  cases kinds with
  | nil =>
    obtain ⟨-, rfl⟩ := Prod.mk.inj (Option.some.inj h)
    rw [List.drop_zero] at hend
    cases kinds' with
    | nil => exact .pure _ (steady_lineEnd_of_ne_none hend)
    | cons kind' kinds' =>
      refine .bind (local_spaces1 s) fun u k hk => ?_
      obtain ⟨i, hi, hends⟩ := exists_of_lineEnd hend
      rw [spaces0_eq_some_of_spaces1 hk] at hi
      obtain ⟨-, rfl⟩ := Prod.mk.inj (Option.some.inj hi)
      have hnone := operand_eq_none_of_endsLine hends kind'
      refine .of_eq_none ?_ (bind_eq_none hnone)
      refine (steady_operand kind' fun t ht => ?_).bind fun x j hj => nomatch hnone.symm.trans hj
      rcases ht with ht | ht <;> rw [ht] at hends <;> exact nomatch hends
  | cons kind kinds =>
    obtain ⟨u, i, j, hi, hj, rfl⟩ := exists_of_bind_eq_some h
    rw [← List.drop_drop] at hend
    cases kinds' with
    | nil =>
      refine .pure _ (steady_lineEnd (spaces0_eq_some_of_spaces1 hi) fun hs => ?_)
      have hnone : operand kind ['\r'] = none := by
        cases kind <;> rfl
      rw [hs, bind_eq_none hnone] at hj
      exact nomatch hj
    | cons kind' kinds' =>
      refine .bind (local_spaces1 s) fun v k hk => ?_
      obtain ⟨rfl, rfl⟩ := Prod.mk.inj (Option.some.inj (hi.symm.trans hk))
      exact steadyLine_operandThen hj hend kind' fun hm hend => steadyLine_moreOperands hm hend _

end Line

/-- If one form reads its operands to the end of the line, all forms are steady. -/
theorem steady_form {o : Opcode} {s : List Char} (h : form o s ≠ none) (o' : Opcode) :
    (form o').Steady s := by
  obtain ⟨xs, n, hn, hrest⟩ := exists_of_bind_ne_none h
  have hend : lineEnd (s.drop n) ≠ none := fun hnone => hrest (bind_eq_none hnone)
  have hline := steadyLine_operands hn hend o'.format.operands
  exact hline.steady.bind fun xs' n' hn' => (hline.ending xs' n' hn').bind fun _ _ _ =>
    local_pure _ _

theorem steady_instruction {s : List Char} (h : instruction s ≠ none) : instruction.Steady s := by
  refine (local_identifier s).bind_of_ne_none h fun mnemonic n _ h => ?_
  obtain ⟨r, hr⟩ := Option.ne_none_iff_exists'.mp h
  obtain ⟨_, o, _, -, ho, -⟩ := exists_of_firstOf_map hr
  have hform : form o (s.drop n) ≠ none := ho ▸ Option.some_ne_none _
  refine steady_firstOf fun p hp => ?_
  obtain ⟨o', -, rfl⟩ := List.mem_map.mp hp
  exact steady_form hform o'

/-! ## Definitions -/

theorem local_exportMark : exportMark.Local :=
  fun s => (local_char (by decide) s).optional.bind fun _ _ _ => local_pure _ _

theorem local_keyword {word : String} (h : '\n' ∉ word.toList) : (keyword word).Local :=
  (local_literal h).bind fun _ => local_spaces1

theorem local_dataWidth : dataWidth.Local := by
  intro s
  refine steady_firstOf fun p hp => ?_
  rcases List.mem_pair.mp hp with rfl | rfl <;>
    exact ((local_keyword (by decide)).bind fun _ => local_pure _) s

theorem local_constant : constant.Local :=
  local_exportMark.bind fun _ => (local_keyword (by decide)).bind fun _ =>
    local_identifier.bind fun _ => (local_spaced (local_char (by decide))).bind fun _ =>
      local_hexLiteral.bind fun _ => local_pure _

theorem local_structMember : structMember.Local :=
  local_identifier.bind fun _ => (local_spaced (local_char (by decide))).bind fun _ =>
    local_hexLiteral.bind fun _ => local_pure _

theorem local_label : label.Local :=
  local_exportMark.bind fun _ => local_identifier.bind fun _ =>
    (local_char (by decide)).bind fun _ => local_pure _

/-- The mark is read, or nothing is. -/
theorem exists_of_exportMark {s : List Char} {isExported : Bool} {n : Nat}
    (h : exportMark s = some (isExported, n)) : (∃ t, s = '+' :: t) ∨ n = 0 := by
  obtain ⟨_, i, j, hplus, hpure, rfl⟩ := exists_of_bind_eq_some h
  obtain ⟨-, rfl⟩ := Prod.mk.inj (Option.some.inj hpure)
  rcases exists_of_optional hplus with ⟨_, hchar⟩ | ⟨-, rfl⟩
  · obtain ⟨t, rfl, -⟩ := exists_of_char hchar
    exact .inl ⟨t, rfl⟩
  · exact .inr rfl

/-- A word of the language is an identifier where it stands, and a blank follows. -/
theorem exists_of_keyword {word : String} (hword : isName word = true) {s : List Char} {u : Unit}
    {n : Nat} (h : keyword word s = some (u, n)) :
    identifier s = some (word, word.toList.length) ∧
      Stops (· == ':') (s.drop word.toList.length) := by
  obtain ⟨_, k, m, hliteral, hblank, -⟩ := exists_of_bind_eq_some h
  rw [literal] at hliteral
  split at hliteral
  · rename_i hprefix
    obtain ⟨t, rfl⟩ := List.isPrefixOf_iff_prefix.mp hprefix
    obtain ⟨-, rfl⟩ := Prod.mk.inj (Option.some.inj hliteral)
    rw [List.drop_left] at hblank ⊢
    cases t with
    | nil => cases hblank
    | cons c t =>
      have hc : isSpace c = true := by
        by_contra hc
        have hstops : Stops isSpace (c :: t) := Bool.eq_false_iff.mpr hc
        rw [spaces1_eq_none hstops] at hblank
        cases hblank
      refine ⟨reads_identifier hword (Bool.eq_false_iff.mpr fun hrest => ?_), ?_⟩
      · rw [isSpace_of_isNameRest hrest] at hc
        cases hc
      · refine beq_eq_false_iff_ne.mpr ?_
        rintro rfl
        cases hc
  · cases hliteral

section Words

variable {s : List Char} {isExported : Bool} {word : String} {u : Unit} {k n : Nat}

/-- Only one word of the language stands at one place. -/
theorem keyword_eq_none_of_ne {word' : String} (hword : isName word = true)
    (hword' : isName word' = true) (hne : word' ≠ word) (h : keyword word s = some (u, n)) :
    keyword word' s = none := by
  cases hs : keyword word' s with
  | none => rfl
  | some r =>
    have hname := (exists_of_keyword hword h).1
    rw [(exists_of_keyword hword' (u := r.1) (n := r.2) hs).1] at hname
    exact absurd (Prod.mk.inj (Option.some.inj hname)).1 hne

/-- Where a word of the language introduces a definition, there is no label. -/
theorem label_eq_none_of_keyword (hmark : exportMark s = some (isExported, k))
    (hword : isName word = true) (h : keyword word (s.drop k) = some (u, n)) :
    label s = none := by
  obtain ⟨hname, hcolon⟩ := exists_of_keyword hword h
  refine bind_eq_none_of_some hmark (bind_eq_none_of_some hname (bind_eq_none ?_))
  exact char_eq_none_of_stops hcolon

/-- Where a word of the language introduces a definition, there is no instruction. -/
theorem instruction_eq_none_of_keyword (hmark : exportMark s = some (isExported, k))
    (hword : isName word = true) (hforms : Opcode.forms word = [])
    (h : keyword word (s.drop k) = some (u, n)) : instruction s = none := by
  rcases exists_of_exportMark hmark with ⟨t, rfl⟩ | rfl
  · exact bind_eq_none rfl
  · refine bind_eq_none_of_some (exists_of_keyword hword h).1 ?_
    rw [hforms]
    rfl

end Words

/-- The word that introduces a block of data is that of one of the widths. -/
theorem exists_of_dataWidth {s : List Char} {r : Width × Nat} (h : dataWidth s = some r) :
    ∃ width : Width, ∃ r, keyword width.keyword s = some r := by
  by_contra hno
  have hnone (width : Width) : keyword width.keyword s = none :=
    Option.eq_none_iff_forall_ne_some.mpr fun r hr => hno ⟨width, r, hr⟩
  rw [dataWidth_eq_none hnone] at h
  exact nomatch h

theorem statement_eq_none {s : List Char} (hconstant : constant s = none) (hdata : data s = none)
    (hstruct : struct s = none) (hlabel : label s = none) (hinstruction : instruction s = none) :
    statement s = none := by
  refine firstOf_eq_none fun p hp => ?_
  simp only [List.mem_cons, List.not_mem_nil, or_false] at hp
  rcases hp with rfl | rfl | rfl | rfl | rfl
  · exact hconstant
  · exact hdata
  · exact hstruct
  · exact hlabel
  · exact hinstruction

/-- A block of data is steady where a statement can be read. -/
theorem steady_data {s : List Char} (h : statement s ≠ none) : data.Steady s := by
  refine (local_exportMark s).bind fun isExported k hmark => ?_
  refine (local_dataWidth _).bind fun width n hwidth => ?_
  refine (local_identifier _).bind fun name i hname => ?_
  refine (local_spaced (local_char (by decide)) _).bind fun _ j hsign => ?_
  refine Steady.bind (steady_braced local_hexLiteral (fun _ => rfl) fun hnone => h ?_)
    fun _ _ _ => local_pure _ _
  have hdata : data s = none :=
    bind_eq_none_of_some hmark (bind_eq_none_of_some hwidth (bind_eq_none_of_some hname
      (bind_eq_none_of_some hsign (bind_eq_none hnone))))
  obtain ⟨width', r, hword⟩ := exists_of_dataWidth hwidth
  have hisName : isName width'.keyword = true := by
    cases width' <;> decide
  have hother {word : String} (hisName' : isName word = true) (hne : word ≠ width'.keyword) :
      keyword word (s.drop k) = none :=
    keyword_eq_none_of_ne hisName hisName' hne hword
  refine statement_eq_none ?_ hdata ?_ ?_ ?_
  · exact bind_eq_none_of_some hmark
      (bind_eq_none (hother (by decide) (by cases width' <;> decide)))
  · exact bind_eq_none_of_some hmark
      (bind_eq_none (hother (by decide) (by cases width' <;> decide)))
  · exact label_eq_none_of_keyword hmark hisName hword
  · exact instruction_eq_none_of_keyword hmark hisName (by cases width' <;> decide +kernel) hword

/-- A struct is steady where a statement can be read. -/
theorem steady_struct {s : List Char} (h : statement s ≠ none) : struct.Steady s := by
  refine (local_exportMark s).bind fun isExported k hmark => ?_
  refine (local_keyword (by decide) _).bind fun _ n hword => ?_
  refine (local_identifier _).bind fun name i hname => ?_
  refine (local_spaces0 _).bind fun _ j hblank => ?_
  refine Steady.bind (steady_braced local_structMember (fun _ => rfl) fun hnone => h ?_)
    fun _ _ _ => local_pure _ _
  have hisName : isName "struct" = true := by decide
  have hother {word : String} (hisName' : isName word = true) (hne : word ≠ "struct") :
      keyword word (s.drop k) = none :=
    keyword_eq_none_of_ne hisName hisName' hne hword
  refine statement_eq_none ?_ ?_ ?_ ?_ ?_
  · exact bind_eq_none_of_some hmark (bind_eq_none (hother (by decide) (by decide)))
  · refine bind_eq_none_of_some hmark (bind_eq_none (dataWidth_eq_none fun width => ?_))
    exact hother (by cases width <;> decide) (by cases width <;> decide)
  · exact bind_eq_none_of_some hmark (bind_eq_none_of_some hword (bind_eq_none_of_some hname
      (bind_eq_none_of_some hblank (bind_eq_none hnone))))
  · exact label_eq_none_of_keyword hmark hisName hword
  · exact instruction_eq_none_of_keyword hmark hisName (by decide +kernel) hword

/-- A statement that is read is read the same in front of a break and more text. -/
theorem steady_statement {s : List Char} (h : statement s ≠ none) : statement.Steady s := by
  refine (local_constant s).firstOf_cons fun hconstant => ?_
  refine (steady_data h).firstOf_cons fun hdata => ?_
  refine (steady_struct h).firstOf_cons fun hstruct => ?_
  refine (local_label s).firstOf_cons fun hlabel => ?_
  refine Steady.firstOf_cons ?_ fun _ => steady_firstOf nofun
  exact steady_instruction fun hinstruction =>
    h (statement_eq_none hconstant hdata hstruct hlabel hinstruction)

end Grammar
end WordMachine
