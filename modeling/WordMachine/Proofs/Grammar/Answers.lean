import WordMachine.Proofs.Grammar.Instructions

/-!
# Whatever the grammar answers can be written

A statement that was read is well formed: its names are names, its literals have digits, its
operands fit, and every expression in it is a tree.  The last is a matter of folding.  A chain
is read as a chain, and parentheses in it as groups, to any depth; it becomes a tree when the
bracket around it closes, and then there is nothing left in it but operators and leaves
(`Chain.isTree_fold`).

One thing can be built and is never read: a move between a register and what `acc` points to.
The pointer can also be read as an address, since its letters are digits, and so the form that
takes an address there, which is tried before, succeeds on the same text
(`Grammar.form_ne_none_of_aliased`).

* `Rule.Yields.many`, `Rule.Yields.sepBy`, `Rule.exists_of_firstOf_map`: laws of rules.
* `Rule.Covers`: one rule succeeds wherever another gives a certain answer.
* `Chain.isTree_fold`: the fold of a chain of trees is a tree.
* `Grammar.Aliased`: operands that can be read as those of another form too.
* `Grammar.yields_wellFormed`: every statement that is read is well formed.
-/

namespace WordMachine

open Rule Lexeme

namespace Rule

variable {α β ι : Type} {Q : α → Prop}

theorem Yields.mono {p : Rule α} {P : α → Prop} (hp : p.Yields P) (h : ∀ a, P a → Q a) :
    p.Yields Q :=
  fun s a n hs => h a (hp s a n hs)

/-- What is repeated answers what it answers, each time. -/
theorem Yields.forall_manyFrom {p : Rule α} (hp : p.Yields Q) {acc : List α}
    (hacc : ∀ a ∈ acc, Q a) (count : Nat) (s : List Char) :
    ∀ a ∈ (manyFrom p acc count s).1, Q a := by
  induction acc, count, s using manyFrom.induct p with
  | case1 acc count s hs =>
    rw [manyFrom, hs]
    exact fun a ha => hacc a (List.mem_reverse.mp ha)
  | case2 acc count s a n hs hgo ih =>
    rw [manyFrom, hs]
    dsimp only
    rw [dif_pos hgo]
    exact ih (List.forall_mem_cons.mpr ⟨hp s a n hs, hacc⟩)
  | case3 acc count s a n hs hgo =>
    rw [manyFrom, hs]
    dsimp only
    rw [dif_neg hgo]
    exact fun a ha => hacc a (List.mem_reverse.mp ha)

theorem Yields.many {p : Rule α} (hp : p.Yields Q) : (many p).Yields fun as => ∀ a ∈ as, Q a := by
  intro s as n hs
  have has : as = (manyFrom p [] 0 s).1 := congrArg Prod.fst (Option.some.inj hs).symm
  rw [has]
  exact hp.forall_manyFrom (List.forall_mem_nil Q) 0 s

theorem Yields.sepBy {separator : Rule β} {item : Rule α} (hitem : item.Yields Q) :
    (sepBy separator item).Yields fun as => ∀ a ∈ as, Q a := by
  intro s as n hs
  rw [Rule.sepBy] at hs
  split at hs
  · obtain ⟨rfl, -⟩ := Prod.mk.inj (Option.some.inj hs)
    exact List.forall_mem_nil Q
  · rename_i a k ha
    have has := congrArg Prod.fst (Option.some.inj hs)
    rw [← show _ = as from has]
    exact Yields.forall_manyFrom (Yields.bind_right separator fun _ => hitem)
      (List.forall_mem_singleton.mpr (hitem s a k ha)) k _

/-- A sequence succeeds if its second rule does behind what the first has read. -/
theorem bind_eq_some {p : Rule α} {f : α → Rule β} {s : List Char} {a : α} {b : β} {k m : Nat}
    (hp : p s = some (a, k)) (hf : f a (s.drop k) = some (b, m)) :
    (p >>= f) s = some (b, k + m) := by
  rw [bind_apply, hp]
  dsimp only
  rw [hf]

theorem exists_of_bind_ne_none {p : Rule α} {f : α → Rule β} {s : List Char}
    (h : (p >>= f) s ≠ none) : ∃ a k, p s = some (a, k) ∧ f a (s.drop k) ≠ none := by
  obtain ⟨r, hr⟩ := Option.ne_none_iff_exists'.mp h
  obtain ⟨a, k, m, hp, hf, -⟩ := exists_of_bind_eq_some (b := r.1) (n := r.2) hr
  exact ⟨a, k, hp, hf ▸ Option.some_ne_none _⟩

theorem bind_eq_none_of_some {p : Rule α} {f : α → Rule β} {s : List Char} {a : α} {k : Nat}
    (hp : p s = some (a, k)) (hf : f a (s.drop k) = none) : (p >>= f) s = none := by
  rw [bind_apply, hp]
  dsimp only
  rw [hf]

theorem exists_of_char {c : Char} {s : List Char} {u : Unit} {n : Nat}
    (h : char c s = some (u, n)) : ∃ t, s = c :: t ∧ n = 1 := by
  cases s with
  | nil => exact absurd h.symm (Option.some_ne_none _)
  | cons d t =>
    rw [char] at h
    split at h
    · rename_i hd
      exact ⟨t, by rw [hd], (Prod.mk.inj (Option.some.inj h)).2.symm⟩
    · exact absurd h.symm (Option.some_ne_none _)

theorem exists_of_mapSome {p : Rule α} {f : α → Option β} {s : List Char} {b : β} {n : Nat}
    (h : p.mapSome f s = some (b, n)) : ∃ a, p s = some (a, n) ∧ f a = some b := by
  rw [mapSome] at h
  split at h
  · exact absurd h.symm (Option.some_ne_none _)
  · rename_i a k ha
    obtain ⟨b', hb, hpair⟩ := Option.map_eq_some_iff.mp h
    obtain ⟨rfl, rfl⟩ := Prod.mk.inj hpair
    exact ⟨a, ha, hb⟩

/-- Wherever the second rule answers `a`, the first succeeds too, and reads as much. -/
def Covers (q p : Rule α) (a : α) : Prop :=
  ∀ s n, p s = some (a, n) → ∃ b, q s = some (b, n)

theorem Covers.refl (p : Rule α) (a : α) : p.Covers p a :=
  fun _ _ h => ⟨a, h⟩

theorem Covers.bind_right (r : Rule β) {q p : Rule α} {a : α} (h : q.Covers p a) :
    (r >>= fun _ => q).Covers (r >>= fun _ => p) a := by
  intro s n hs
  obtain ⟨_, k, m, hr, hp, rfl⟩ := exists_of_bind_eq_some hs
  obtain ⟨b, hb⟩ := h _ _ hp
  exact ⟨b, bind_eq_some hr hb⟩

/-- Rules for lists, each put together from a rule for the head and one for the tail. -/
theorem Covers.cons {q p : Rule α} {a : α} {qs ps : Rule (List α)} {as : List α}
    (h : q.Covers p a) (hs : qs.Covers ps as) :
    (do let b ← q; let bs ← qs; pure (b :: bs)).Covers
      (do let b ← p; let bs ← ps; pure (b :: bs)) (a :: as) := by
  intro s n hsn
  obtain ⟨a', k, m, hp, htail, rfl⟩ := exists_of_bind_eq_some hsn
  obtain ⟨as', i, j, hps, hpure, rfl⟩ := exists_of_bind_eq_some htail
  obtain ⟨hcons, rfl⟩ := Prod.mk.inj (Option.some.inj hpure)
  obtain ⟨rfl, rfl⟩ := List.cons_eq_cons.mp hcons
  obtain ⟨b, hb⟩ := h _ _ hp
  obtain ⟨bs, hbs⟩ := hs _ _ hps
  exact ⟨b :: bs, bind_eq_some hb (bind_eq_some hbs rfl)⟩

/-- Of several rules the first that succeeds is taken, and all before that have failed. -/
theorem exists_of_firstOf_map {f : ι → Rule α} {is : List ι} {s : List Char} {r : α × Nat}
    (h : firstOf (is.map f) s = some r) :
    ∃ before i after, is = before ++ i :: after ∧ f i s = some r ∧ ∀ j ∈ before, f j s = none := by
  induction is with
  | nil => exact nomatch h
  | cons i is ih =>
    rw [List.map_cons, firstOf_cons] at h
    cases hi : f i s with
    | some r' =>
      rw [hi] at h
      exact ⟨[], i, is, rfl, hi.trans h, nofun⟩
    | none =>
      rw [hi] at h
      obtain ⟨before, j, after, rfl, hj, hbefore⟩ := ih h
      exact ⟨i :: before, j, after, rfl, hj, List.forall_mem_cons.mpr ⟨hi, hbefore⟩⟩

end Rule

/-! ## Folding -/

namespace Expr.IsTree

/-- There is nothing to decide in a tree. -/
theorem disambiguate_eq {e : Expr} (h : e.IsTree) : e.disambiguate = e := by
  cases h <;> simp only [disambiguate]

end Expr.IsTree

/-- What waits for an operand is a tree, if anything is. -/
def Pending.AreTrees (p : Pending Expr) : Prop :=
  (∀ x ∈ p.sum, x.1.IsTree) ∧ ∀ x ∈ p.product, x.1.IsTree

namespace Pending.AreTrees

variable {p : Pending Expr} {e : Expr}

theorem join {waiting : Option (Expr × Operator)} (h : ∀ x ∈ waiting, x.1.IsTree)
    (he : e.IsTree) : (Pending.join .binary waiting e).IsTree := by
  cases waiting with
  | none => exact he
  | some x => exact .binary (h x rfl) he

theorem next (hp : p.AreTrees) (he : e.IsTree) (op : Operator) :
    (p.next .binary e op).AreTrees := by
  have hproduct := join hp.2 he
  cases op with
  | times => exact ⟨hp.1, fun x hx => Option.some.inj hx ▸ hproduct⟩
  | plus | minus => exact ⟨fun x hx => Option.some.inj hx ▸ join hp.1 hproduct, nofun⟩

theorem finish (hp : p.AreTrees) (he : e.IsTree) : (p.finish .binary e).IsTree :=
  join hp.1 (join hp.2 he)

end Pending.AreTrees

namespace Chain

/-- Every operand of the chain means a tree. -/
def AreTrees : Chain → Prop
  | single e => e.disambiguate.IsTree
  | link e _ rest => e.disambiguate.IsTree ∧ rest.AreTrees

theorem isTree_foldFrom :
    ∀ {c : Chain} {p : Pending Expr}, c.AreTrees → p.AreTrees → (c.foldFrom p).IsTree
  | .single e, p, hc, hp => by
    rw [foldFrom]
    exact hp.finish hc
  | .link e op rest, p, hc, hp => by
    rw [foldFrom]
    exact isTree_foldFrom hc.2 (hp.next hc.1 op)

/-- The fold of a chain is a tree. -/
theorem isTree_fold {c : Chain} (h : c.AreTrees) : c.fold.IsTree :=
  isTree_foldFrom h ⟨nofun, nofun⟩

theorem areTrees_ofPairs {head : Expr} {pairs : List (Operator × Expr)}
    (hhead : head.disambiguate.IsTree) (hpairs : ∀ x ∈ pairs, x.2.disambiguate.IsTree) :
    (ofPairs head pairs).AreTrees := by
  induction pairs generalizing head with
  | nil => exact hhead
  | cons x pairs ih =>
    rw [List.forall_mem_cons] at hpairs
    exact ⟨hhead, ih hpairs.1 hpairs.2⟩

end Chain

namespace Grammar

/-! ## Names, literals and expressions -/

theorem yields_identifier : identifier.Yields fun name => isName name = true := by
  intro s name n hs
  cases s with
  | nil => exact absurd hs.symm (Option.some_ne_none _)
  | cons c rest =>
    rw [identifier] at hs
    split at hs
    · rename_i hc
      obtain ⟨rfl, -⟩ := Prod.mk.inj (Option.some.inj hs)
      rw [isName, String.toList_ofList]
      dsimp only
      rw [hc, Bool.true_and]
      exact List.all_takeWhile
    · exact absurd hs.symm (Option.some_ne_none _)

theorem yields_hexDigits : hexDigits.Yields fun digits => isDigits digits = true := by
  have hread : (while1 Text.isHexDigit).Yields fun read =>
      read ≠ [] ∧ read.all Text.isHexDigit = true := by
    intro s read n hs
    rw [while1] at hs
    split at hs
    · exact absurd hs.symm (Option.some_ne_none _)
    · rename_i hne
      obtain ⟨rfl, -⟩ := Prod.mk.inj (Option.some.inj hs)
      exact ⟨fun e => hne (List.isEmpty_iff.mpr e), List.all_takeWhile⟩
  refine hread.bind fun read h => yields_pure ?_
  rw [isDigits, String.toList_ofList, h.2, Bool.and_true, Bool.not_eq_true',
    List.isEmpty_eq_false_iff]
  exact h.1

theorem yields_hexLiteral : hexLiteral.Yields fun digits => isDigits digits = true :=
  .bind_right _ fun _ => yields_hexDigits

theorem yields_literalExpr : literalExpr.Yields Expr.IsTree :=
  yields_hexLiteral.bind fun _ h => yields_pure (.hex h)

theorem yields_referenceExpr : referenceExpr.Yields Expr.IsTree :=
  .bind_right _ fun _ => yields_identifier.bind fun _ h => yields_pure (.reference h)

theorem yields_memberExpr : memberExpr.Yields Expr.IsTree := by
  refine .bind_right _ fun _ => .bind_right _ fun _ => yields_identifier.bind fun layout hl => ?_
  refine .bind_right _ fun _ => .bind_right _ fun _ => .bind_right _ fun _ => ?_
  refine yields_identifier.bind fun base hb => .bind_right _ fun _ => ?_
  exact yields_identifier.bind fun field hf => yields_pure (.member hl hb hf)

theorem Yields.wide {α : Type} {p : Rule α} {Q : α → Prop} (hp : p.Yields Q) :
    (wide p).Yields Q :=
  .bind_right _ fun _ => hp.bind fun _ h => .bind_right _ fun _ => yields_pure h

/-- A chain of leaves that mean trees. -/
theorem yields_chainOf {leaf : Rule Expr} (h : leaf.Yields fun e => e.disambiguate.IsTree) :
    (chainOf leaf).Yields Chain.AreTrees := by
  refine (Yields.wide h).bind fun head hhead => Yields.bind (Yields.many
    (Q := fun x : Operator × Expr => x.2.disambiguate.IsTree) ?_) fun pairs hpairs =>
      yields_pure (Chain.areTrees_ofPairs hhead hpairs)
  exact .bind_right _ fun op => (Yields.wide h).bind fun e he => yields_pure he

theorem yields_simpleLeaf : simpleLeaf.Yields Expr.IsTree := by
  refine yields_firstOf fun p hp => ?_
  simp only [List.mem_cons, List.not_mem_nil, or_false] at hp
  rcases hp with rfl | rfl | rfl
  · exact yields_literalExpr
  · exact yields_referenceExpr
  · exact yields_memberExpr

/-- However deep parentheses nest, what is read means a tree. -/
theorem yields_leafWithin (room : List Char) :
    (leafWithin room).Yields fun e => e.disambiguate.IsTree := by
  have hsimple : simpleLeaf.Yields fun e => e.disambiguate.IsTree :=
    yields_simpleLeaf.mono fun e he => he.disambiguate_eq.symm ▸ he
  induction room with
  | nil => exact hsimple
  | cons c room ih =>
    refine yields_firstOf fun p hp => ?_
    rcases List.mem_pair.mp hp with rfl | rfl
    · refine .bind_right _ fun _ => (yields_chainOf ih).bind fun chain h => ?_
      refine .bind_right _ fun _ => yields_pure ?_
      rw [Expr.disambiguate_group]
      exact Chain.isTree_fold h
    · exact hsimple

theorem yields_bracketExpr : bracketExpr.Yields Expr.IsTree := by
  have hleaf : leaf.Yields fun e => e.disambiguate.IsTree :=
    fun s e n hs => yields_leafWithin s s e n hs
  refine .bind_right _ fun _ => (yields_chainOf hleaf).bind fun chain h => ?_
  refine .bind_right _ fun _ => yields_pure ?_
  rw [Expr.disambiguate_bracket]
  exact Chain.isTree_fold h

theorem yields_valueOf {first : Rule Expr} {Q : Expr → Prop} (hfirst : first.Yields Q)
    (hQ : ∀ e : Expr, e.IsTree → Q e) : (valueOf first).Yields Q := by
  refine yields_firstOf fun p hp => ?_
  simp only [List.mem_cons, List.not_mem_nil, or_false] at hp
  rcases hp with rfl | rfl | rfl | rfl
  · exact hfirst
  · exact yields_bracketExpr.mono hQ
  · exact yields_referenceExpr.mono hQ
  · exact yields_memberExpr.mono hQ

/-! ## Operands -/

/-- An operand that is read can be written. -/
theorem yields_operand_wellFormed (kind : Kind) :
    (operand kind).Yields (Operand.WellFormed kind) := by
  have hliteral : literalValue.Yields Expr.IsTree := yields_valueOf yields_literalExpr fun _ => id
  have haddress : addressValue.Yields fun e => Operand.WellFormed .address (.value e) := by
    refine .bind_right _ fun _ => yields_valueOf ?_ fun _ => .address
    exact yields_hexDigits.bind fun _ h => yields_pure (.digits h)
  cases kind with
  | literal => exact hliteral.bind fun _ h => yields_pure (.literal h)
  | literal8 => exact hliteral.bind fun _ h => yields_pure (.literal8 h)
  | address => exact haddress.bind fun _ h => yields_pure h
  | register => exact .bind_right _ fun r => yields_pure (.register (Register.slot_lt r))
  | pointer =>
    exact .bind_right _ fun _ => .bind_right _ fun r => yields_pure (.pointer (Register.slot_lt r))

/-! ## The pointer `acc` -/

/-- A text that begins as an identifier is the identifier, and it ends there. -/
theorem exists_of_identifier {s : List Char} {name : String} {n : Nat}
    (h : identifier s = some (name, n)) :
    ∃ rest, s = name.toList ++ rest ∧ n = name.toList.length ∧ Stops isNameRest rest := by
  cases s with
  | nil => exact absurd h.symm (Option.some_ne_none _)
  | cons c s =>
    rw [identifier] at h
    split at h
    · obtain ⟨rfl, rfl⟩ := Prod.mk.inj (Option.some.inj h)
      rw [String.toList_ofList]
      refine ⟨s.dropWhile isNameRest, ?_, rfl, ?_⟩
      · rw [List.cons_append, List.takeWhile_append_dropWhile]
      · have hstops := List.head?_dropWhile_not isNameRest s
        cases hdrop : s.dropWhile isNameRest with
        | nil => trivial
        | cons d rest =>
          rw [hdrop] at hstops
          exact hstops
    · exact absurd h.symm (Option.some_ne_none _)

/-- A letter is a digit if it is one in small letters. -/
theorem isHexDigit_toLower (c : Char) : Text.isHexDigit c.toLower = Text.isHexDigit c := by
  by_cases hupper : 'A' ≤ c ∧ c ≤ 'Z'
  · have hlower : c.toLower.val = c.val + ('a'.val - 'A'.val) := congrArg Char.val (dif_pos hupper)
    rw [Bool.eq_iff_iff, isHexDigit_iff, isHexDigit_iff]
    simp only [Char.le_def, UInt32.le_iff_toNat_le, hlower, UInt32.toNat_add, Char.reduceVal,
      UInt32.reduceSub, UInt32.reduceToNat] at hupper ⊢
    omega
  · have hsame : c.toLower = c := dif_neg hupper
    rw [hsame]

theorem isDigits_map_toLower (s : String) : isDigits (s.map Char.toLower) = isDigits s := by
  simp only [isDigits, String.toList_map, List.isEmpty_map, List.all_map, Function.comp_def,
    isHexDigit_toLower]

/-- A register is found by its name, in whatever letters. -/
theorem name_eq_of_ofName? {name : String} {r : Register} (h : Register.ofName? name = some r) :
    r.name = name.map Char.toLower := by
  have hfind := List.find?_some h
  rwa [beq_iff_eq] at hfind

/-- The name of `acc`, in whatever letters, has digits only. -/
theorem isDigits_of_ofName?_acc {name : String} (h : Register.ofName? name = some .acc) :
    isDigits name = true := by
  rw [← isDigits_map_toLower, ← name_eq_of_ofName? h]
  decide

/-- A pointer is the name of a register behind its sign, and the name ends there. -/
theorem exists_of_pointer {s : List Char} {x : Operand} {n : Nat}
    (h : operand .pointer s = some (x, n)) :
    ∃ r name rest, x = .register (Register.slot r) ∧ Register.ofName? name = some r ∧
      isName name = true ∧ s = '&' :: (name.toList ++ rest) ∧ n = 1 + name.toList.length ∧
      Stops isNameRest rest := by
  obtain ⟨_, k, m, hsign, hregister, rfl⟩ := exists_of_bind_eq_some h
  obtain ⟨r, i, j, hr, hpure, rfl⟩ := exists_of_bind_eq_some hregister
  obtain ⟨rfl, rfl⟩ := Prod.mk.inj (Option.some.inj hpure)
  obtain ⟨t, rfl, rfl⟩ := exists_of_char hsign
  obtain ⟨name, hname, hofName⟩ := exists_of_mapSome hr
  obtain ⟨rest, htext, rfl, hstops⟩ := exists_of_identifier hname
  rw [List.drop_one, List.tail_cons] at htext
  exact ⟨r, name, rest, rfl, hofName, yields_identifier _ _ _ hname, by rw [htext], rfl, hstops⟩

/-- Where a pointer is read, and it is `acc`, there an address can be read as well, as long as
the pointer. -/
theorem covers_address :
    (operand .address).Covers (operand .pointer) (.register Register.acc.slot) := by
  intro s n h
  obtain ⟨r, name, rest, hslot, hofName, -, rfl, rfl, hstops⟩ := exists_of_pointer h
  obtain rfl : r = .acc := by
    rw [← Register.ofSlot_slot r, ← Operand.register.inj hslot, Register.ofSlot_slot]
  have haddress : (operand .address).Reads (Expr.address name).addressSource.toList
      (.value (.address name)) rest :=
    (reads_addressValue_digits (isDigits_of_ofName?_acc hofName) hstops).bind_nil (reads_pure _ _)
  rw [Expr.addressSource, String.toList_append, Reads, List.append_assoc, List.length_append]
    at haddress
  exact ⟨_, haddress⟩

/-- Operands of the second kinds that can be read as operands of the first: at each position
the kinds are the same, or `acc` stands there as a pointer, and can as well be an address. -/
inductive Aliased : List Kind → List Kind → List Operand → Prop where
  | nil : Aliased [] [] []
  | same {kind : Kind} {x : Operand} {kinds' kinds : List Kind} {xs : List Operand} :
    Aliased kinds' kinds xs → Aliased (kind :: kinds') (kind :: kinds) (x :: xs)
  | acc {kinds' kinds : List Kind} {xs : List Operand} : Aliased kinds' kinds xs →
    Aliased (.address :: kinds') (.pointer :: kinds) (.register Register.acc.slot :: xs)

section Aliased

variable {kinds' kinds : List Kind} {xs : List Operand}

theorem covers_moreOperands (h : Aliased kinds' kinds xs) :
    (moreOperands kinds').Covers (moreOperands kinds) xs := by
  induction h with
  | nil => exact .refl _ _
  | same _ ih => exact .bind_right _ ((Covers.refl _ _).cons ih)
  | acc _ ih => exact .bind_right _ (covers_address.cons ih)

theorem covers_operands (h : Aliased kinds' kinds xs) :
    (operands kinds').Covers (operands kinds) xs := by
  cases h with
  | nil => exact .refl _ _
  | same h => exact .bind_right _ ((Covers.refl _ _).cons (covers_moreOperands h))
  | acc h => exact .bind_right _ (covers_address.cons (covers_moreOperands h))

/-- A form that is not taken, because one before it succeeds. -/
theorem form_ne_none_of_aliased {p o : Opcode} {s : List Char} {n : Nat}
    (h : Aliased p.format.operands o.format.operands xs)
    (hs : form o s = some (.instruction o xs, n)) : form p s ≠ none := by
  obtain ⟨xs', k, m, hoperands, hend, rfl⟩ := exists_of_bind_eq_some hs
  obtain ⟨_, i, j, hline, hpure, rfl⟩ := exists_of_bind_eq_some hend
  obtain ⟨hxs, -⟩ := Prod.mk.inj (Option.some.inj hpure)
  obtain rfl := (Statement.instruction.inj hxs).2
  obtain ⟨ys, hys⟩ := covers_operands h _ _ hoperands
  have hread : form p s = some (.instruction p ys, k + (i + 0)) :=
    bind_eq_some hys (bind_eq_some hline rfl)
  rw [hread]
  exact Option.some_ne_none _

end Aliased

/-! ## Statements -/

/-- A list between braces holds what its items are. -/
theorem Yields.braced {α : Type} {item : Rule α} {Q : α → Prop} (h : item.Yields Q) :
    (braced item).Yields fun xs => ∀ x ∈ xs, Q x := by
  refine .bind_right _ fun _ => .bind_right _ fun _ => (Yields.sepBy h).bind fun xs hxs => ?_
  exact .bind_right _ fun _ => .bind_right _ fun _ => .bind_right _ fun _ => yields_pure hxs

theorem yields_structMember :
    structMember.Yields fun m => isName m.1 = true ∧ isDigits m.2 = true :=
  yields_identifier.bind fun _ hname => .bind_right _ fun _ =>
    yields_hexLiteral.bind fun _ hdigits => yields_pure ⟨hname, hdigits⟩

theorem yields_constant : constant.Yields Statement.WellFormed := by
  refine .bind_right _ fun _ => .bind_right _ fun _ => yields_identifier.bind fun _ hname => ?_
  exact .bind_right _ fun _ => yields_hexLiteral.bind fun _ hdigits => yields_pure ⟨hname, hdigits⟩

theorem yields_data : data.Yields Statement.WellFormed := by
  refine .bind_right _ fun _ => .bind_right _ fun _ => yields_identifier.bind fun _ hname => ?_
  exact .bind_right _ fun _ => (Yields.braced yields_hexLiteral).bind fun _ hvalues =>
    yields_pure ⟨hname, hvalues⟩

theorem yields_struct : struct.Yields Statement.WellFormed := by
  refine .bind_right _ fun _ => .bind_right _ fun _ => yields_identifier.bind fun _ hname => ?_
  exact .bind_right _ fun _ => (Yields.braced yields_structMember).bind fun _ hmembers =>
    yields_pure ⟨hname, hmembers⟩

theorem yields_label : label.Yields Statement.WellFormed :=
  .bind_right _ fun _ => yields_identifier.bind fun _ hname => .bind_right _ fun _ =>
    yields_pure ⟨hname, trivial⟩

/-- The forms of a mnemonic stand in the order of their bytes. -/
theorem mem_before_of_byte_lt {mnemonic : String} {p o : Opcode} {before after : List Opcode}
    (hforms : Opcode.forms mnemonic = before ++ o :: after) (hp : p ∈ Opcode.forms mnemonic)
    (hlt : p.byte < o.byte) : p ∈ before := by
  have hsorted : Opcode.all.Pairwise fun p o => p.byte < o.byte := by decide
  have hafter := (pairwise_forms hsorted hforms).2
  rw [hforms, List.mem_append, List.mem_cons] at hp
  rcases hp with hbefore | rfl | hp
  · exact hbefore
  · exact absurd hlt (UInt8.lt_irrefl _)
  · exact absurd (hafter p hp) (UInt8.not_lt.mpr (UInt8.le_of_lt hlt))

/-- The format of a move through a pointer, with an address in place of the pointer. -/
def addressed : Format → Format
  | .regPtrReg => .memReg
  | .regRegPtr => .regMem
  | format => format

/-- A form that takes an address is tried before the one that takes a pointer. -/
theorem exists_addressed_form {o : Opcode} (h : addressed o.format ≠ o.format) :
    ∃ p : Opcode, p.mnemonic = o.mnemonic ∧ p.byte < o.byte ∧ p.format = addressed o.format := by
  have hall : ∀ o ∈ Opcode.all, addressed o.format ≠ o.format →
      ∃ p ∈ Opcode.all, p.mnemonic = o.mnemonic ∧ p.byte < o.byte ∧
        p.format = addressed o.format := by
    decide +kernel
  obtain ⟨p, -, hp⟩ := hall o (Opcode.mem_all o) h
  exact ⟨p, hp⟩

/-- The form that is taken has no operands that can be read with an address for the pointer:
the form for those was tried before. -/
theorem not_aliased_of_taken {mnemonic : String} {before after : List Opcode} {o : Opcode}
    {xs : List Operand} {s : List Char} {n : Nat}
    (hforms : Opcode.forms mnemonic = before ++ o :: after)
    (ho : form o s = some (.instruction o xs, n)) (hbefore : ∀ p ∈ before, form p s = none)
    (hformat : addressed o.format ≠ o.format) :
    ¬ Aliased (addressed o.format).operands o.format.operands xs := by
  obtain ⟨p, hmnemonic, hlt, hp⟩ := exists_addressed_form hformat
  have homem : o ∈ Opcode.forms mnemonic := by
    rw [hforms]
    exact List.mem_append_right _ List.mem_cons_self
  have hpmem : p ∈ Opcode.forms mnemonic := by
    rw [Opcode.mem_forms, hmnemonic]
    exact Opcode.mem_forms.mp homem
  rw [← hp]
  intro haliased
  exact form_ne_none_of_aliased haliased ho (hbefore p (mem_before_of_byte_lt hforms hpmem hlt))

theorem yields_instruction_wellFormed : instruction.Yields Statement.WellFormed := by
  intro s st n h
  obtain ⟨mnemonic, k, m, -, hfirst, rfl⟩ := exists_of_bind_eq_some h
  obtain ⟨before, o, after, hforms, ho, hbefore⟩ := exists_of_firstOf_map hfirst
  have hread : (form o).Yields fun st => ∃ xs, st = .instruction o xs ∧
      List.Forall₂ Operand.WellFormed o.format.operands xs :=
    (yields_operands yields_operand_wellFormed _).bind fun xs hxs => .bind_right _ fun _ =>
      yields_pure ⟨xs, rfl, hxs⟩
  obtain ⟨xs, rfl, hxs⟩ := hread _ _ _ ho
  have hrefused := not_aliased_of_taken hforms ho hbefore
  -- if the pointer were `acc`, the operands would be aliased
  refine ⟨hxs, fun hformat hacc => ?_, fun hformat hacc => ?_⟩
  · rw [hformat] at hxs hrefused
    obtain _ | ⟨hx, _ | ⟨hy, _ | _⟩⟩ := hxs
    obtain rfl := Option.some.inj hacc
    exact hrefused (by decide) (.acc (.same .nil))
  · rw [hformat] at hxs hrefused
    obtain _ | ⟨hx, _ | ⟨hy, _ | _⟩⟩ := hxs
    obtain rfl := Option.some.inj hacc
    exact hrefused (by decide) (.same (.acc .nil))

/-- Every statement that is read can be written. -/
theorem yields_wellFormed : statement.Yields Statement.WellFormed := by
  refine yields_firstOf fun p hp => ?_
  simp only [List.mem_cons, List.not_mem_nil, or_false] at hp
  rcases hp with rfl | rfl | rfl | rfl | rfl
  · exact yields_constant
  · exact yields_data
  · exact yields_struct
  · exact yields_label
  · exact yields_instruction_wellFormed

end Grammar
end WordMachine
