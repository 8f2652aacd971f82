import WordMachine.Proofs.Grammar.Ambiguity
import WordMachine.Proofs.Grammar.Gap

/-!
# Rules in front of less text

What does a rule answer if the text behind what it has read is cut off?  It should answer the
same, and nearly every rule does so of itself: a character, a word, a name or the digits of a
literal are what they are, wherever behind them the text ends.  The law of sequences needs nothing
else, since both rules of a sequence have read within what is left.

Three things are not of this kind.  A repetition stops where its rule is refused, and a rule that
is refused in front of much text need not be refused in front of less; so the place where a
repetition stops has to be looked at.  A choice tries other rules first, of which the same is true;
but the alternatives of all choices begin with characters of their own, and on any text at most
one of them succeeds.  And leaves that nest in parentheses have as much room as there is text
ahead, hence less of it.  There is still enough, since each parenthesis that is open has been read.
For that the relation between rules counts what is read: `CutsTo k p q` speaks of readings of at
most `k` characters, and behind an opening parenthesis `k` is one less.

* `Rule.CutsTo`, with the laws of the combinators.
* `Rule.Starts`: what a rule begins with.
* `Grammar.cutsTo_bracketExpr`, `Grammar.cutsTo_braced`: brackets and braces.
* `Grammar.cutsTo_operand`: operands of all kinds.
-/

namespace WordMachine

open Lexeme

namespace Rule

variable {α β : Type} {p q : Rule α} {k : Nat}

/-- What the first rule reads within a front piece of a text, and with at most `k` characters, the
second reads of that piece alone. -/
def CutsTo (k : Nat) (p q : Rule α) : Prop :=
  ∀ u v a n, p (u ++ v) = some (a, n) → n ≤ u.length → n ≤ k → q u = some (a, n)

theorem CutsTo.mono {i : Nat} (h : CutsTo k p q) (hi : i ≤ k) : CutsTo i p q :=
  fun u v a n ha hn hle => h u v a n ha hn (Nat.le_trans hle hi)

theorem cutsTo_pure (k : Nat) (a : α) : CutsTo k (pure a : Rule α) (pure a) :=
  fun _ _ _ _ h _ _ => h

/-- Both rules of a sequence read within the front piece. -/
theorem CutsTo.bind {f g : α → Rule β} (hp : CutsTo k p q) (hf : ∀ a, CutsTo k (f a) (g a)) :
    CutsTo k (p >>= f) (q >>= g) := by
  intro u v b n h hn hk
  obtain ⟨a, i, j, hi, hj, rfl⟩ := exists_of_bind_eq_some h
  refine bind_eq_some (hp u v a i hi (by omega) (by omega)) ?_
  rw [List.drop_append_of_le_length (by omega)] at hj
  refine hf a _ v b j hj ?_ (by omega)
  rw [List.length_drop]
  omega

theorem CutsTo.mapSome (h : CutsTo k p q) (f : α → Option β) :
    CutsTo k (p.mapSome f) (q.mapSome f) := by
  intro u v b n hb hn hk
  obtain ⟨a, ha, hf⟩ := exists_of_mapSome hb
  rw [Rule.mapSome, h u v a n ha hn hk]
  exact congrArg (Option.map (·, n)) hf

/-! ## Characters -/

theorem cutsTo_char (k : Nat) (c : Char) : CutsTo k (char c) (char c) := by
  intro u v a n h hn _
  obtain ⟨t, ht, rfl⟩ := exists_of_char h
  cases u with
  | nil => exact absurd hn (Nat.not_succ_le_zero 0)
  | cons d u => exact h

theorem cutsTo_literal (k : Nat) (cs : List Char) : CutsTo k (literal cs) (literal cs) := by
  intro u v a n h hn _
  rw [literal] at h ⊢
  split at h
  · rename_i hprefix
    obtain ⟨-, rfl⟩ := Prod.mk.inj (Option.some.inj h)
    rw [List.isPrefixOf_iff_prefix] at hprefix
    have hcut : cs <+: u := List.prefix_of_prefix_length_le hprefix (List.prefix_append u v) hn
    exact if_pos (List.isPrefixOf_iff_prefix.mpr hcut)
  · exact absurd h.symm (Option.some_ne_none _)

/-- Characters that are read up to a cut at most are all that are read of the front piece. -/
theorem takeWhile_of_append {p : Char → Bool} {u v : List Char}
    (h : ((u ++ v).takeWhile p).length ≤ u.length) : u.takeWhile p = (u ++ v).takeWhile p := by
  rw [List.takeWhile_append] at h ⊢
  split at h
  · rename_i hall
    rw [List.length_append] at h
    have hnil : v.takeWhile p = [] := List.length_eq_zero_iff.mp (by omega)
    rw [if_pos hall, hnil, List.append_nil]
    exact (List.takeWhile_prefix p).eq_of_length hall
  · rename_i hless
    rw [if_neg hless]

theorem cutsTo_while0 (k : Nat) (p : Char → Bool) : CutsTo k (while0 p) (while0 p) := by
  intro u v read n h hn _
  obtain ⟨rfl, rfl⟩ := Prod.mk.inj (Option.some.inj h)
  rw [while0, takeWhile_of_append hn]

theorem cutsTo_while1 (k : Nat) (p : Char → Bool) : CutsTo k (while1 p) (while1 p) := by
  intro u v read n h hn _
  rw [while1] at h ⊢
  split at h
  · exact absurd h.symm (Option.some_ne_none _)
  · rename_i hread
    obtain ⟨rfl, rfl⟩ := Prod.mk.inj (Option.some.inj h)
    rw [takeWhile_of_append hn, if_neg hread]

/-! ## Choice -/

/-- The rule succeeds only in front of a character of the given kind. -/
def Starts (p : Rule α) (P : Char → Prop) : Prop := ∀ s, p s ≠ none → ∃ c t, s = c :: t ∧ P c

theorem starts_char_bind (c : Char) (f : Unit → Rule α) : (char c >>= f).Starts (· = c) := by
  intro s h
  obtain ⟨_, n, hn, -⟩ := exists_of_bind_ne_none h
  obtain ⟨t, rfl, -⟩ := exists_of_char hn
  exact ⟨c, t, rfl, rfl⟩

/-- What reads at least one character of a kind starts with one. -/
theorem starts_while1 (p : Char → Bool) : (while1 p).Starts fun c => p c = true := by
  intro s h
  cases s with
  | nil => exact absurd rfl h
  | cons c t =>
    refine ⟨c, t, rfl, by_contra fun hc => h ?_⟩
    rw [while1, List.takeWhile_cons_of_neg hc]
    rfl

theorem Starts.bind {P : Char → Prop} (h : p.Starts P) (f : α → Rule β) :
    (p >>= f).Starts P := by
  intro s hs
  obtain ⟨a, n, hn, -⟩ := exists_of_bind_ne_none hs
  exact h s (hn ▸ Option.some_ne_none _)

theorem Starts.mono {P Q : Char → Prop} (h : p.Starts P) (hPQ : ∀ c, P c → Q c) : p.Starts Q := by
  intro s hs
  obtain ⟨c, t, ht, hc⟩ := h s hs
  exact ⟨c, t, ht, hPQ c hc⟩

/-- Rules that start differently exclude each other. -/
theorem Starts.excludes {P Q : Char → Prop} (hp : p.Starts P) (hq : q.Starts Q)
    (h : ∀ c, P c → ¬ Q c) (s : List Char) : Excludes s p q := by
  refine excludes_of_imp fun hs => ?_
  obtain ⟨c, t, rfl, hc⟩ := hp s hs
  by_contra hne
  obtain ⟨d, u, hd, hd'⟩ := hq _ hne
  obtain ⟨rfl, -⟩ := List.cons_eq_cons.mp hd
  exact h c hc hd'

/-- What is in one list has its partner in the other. -/
theorem exists_mem_of_forall₂ {R : Rule α → Rule α → Prop} {ps qs : List (Rule α)}
    (h : List.Forall₂ R ps qs) (hp : p ∈ ps) : ∃ q ∈ qs, R p q := by
  induction h with
  | nil => exact nomatch hp
  | cons hfirst _ ih =>
    rcases List.mem_cons.mp hp with rfl | hp
    · exact ⟨_, List.mem_cons_self, hfirst⟩
    · obtain ⟨q, hq, hpq⟩ := ih hp
      exact ⟨q, List.mem_cons_of_mem _ hq, hpq⟩

/-- What a choice answers is answered by one of its rules. -/
theorem exists_of_firstOf {ps : List (Rule α)} {s : List Char} {r : α × Nat}
    (h : firstOf ps s = some r) : ∃ p ∈ ps, p s = some r := by
  rw [← List.map_id ps] at h
  obtain ⟨before, p, after, rfl, hp, -⟩ := exists_of_firstOf_map h
  exact ⟨p, List.mem_append_right _ List.mem_cons_self, hp⟩

theorem starts_firstOf {P : Char → Prop} {ps : List (Rule α)} (h : ∀ p ∈ ps, p.Starts P) :
    (firstOf ps).Starts P := by
  intro s hs
  obtain ⟨r, hr⟩ := Option.ne_none_iff_exists'.mp hs
  obtain ⟨p, hp, hread⟩ := exists_of_firstOf hr
  exact h p hp s (hread ▸ Option.some_ne_none _)

/-- A choice between rules that exclude each other. -/
theorem cutsTo_firstOf {ps qs : List (Rule α)} (h : List.Forall₂ (CutsTo k) ps qs)
    (hqs : ∀ s, qs.Pairwise (Excludes s)) : CutsTo k (firstOf ps) (firstOf qs) := by
  intro u v a n ha hn hk
  obtain ⟨p, hp, hread⟩ := exists_of_firstOf ha
  obtain ⟨q, hq, hcuts⟩ := exists_mem_of_forall₂ h hp
  exact (firstOf_eq_some_iff (hqs u)).mpr ⟨q, hq, hcuts u v a n hread hn hk⟩

theorem optional_of_some {s : List Char} {a : α} {n : Nat} (h : p s = some (a, n)) :
    optional p s = some (some a, n) := by
  rw [Rule.optional, h]

theorem optional_of_none {s : List Char} (h : p s = none) : optional p s = some (none, 0) := by
  rw [Rule.optional, h]

/-- What may fail is refused in front of less text if it is refused in front of more. -/
theorem CutsTo.optional (h : CutsTo k p q) (hnone : ∀ u v, p (u ++ v) = none → q u = none) :
    CutsTo k (optional p) (optional q) := by
  intro u v o n ho hn hk
  cases hs : p (u ++ v) with
  | none => exact (optional_of_none (hnone u v hs)).trans ((optional_of_none hs).symm.trans ho)
  | some r =>
    obtain ⟨rfl, rfl⟩ := Prod.mk.inj (Option.some.inj ((optional_of_some hs).symm.trans ho))
    exact optional_of_some (h u v r.1 r.2 hs hn hk)

/-! ## Repetition -/

/-- A repetition within the front piece, if it cannot go on where it stops. -/
theorem CutsTo.manyFrom (hp : CutsTo k p q) {u v : List Char}
    (hn : (manyFrom p [] 0 (u ++ v)).2 ≤ u.length) (hk : (manyFrom p [] 0 (u ++ v)).2 ≤ k)
    (hstop : q (u.drop (manyFrom p [] 0 (u ++ v)).2) = none) :
    manyFrom q [] 0 u = manyFrom p [] 0 (u ++ v) := by
  induction hlen : u.length using Nat.strongRecOn generalizing u with
  | ind l ih =>
    subst hlen
    have hend (h : Rule.manyFrom p [] 0 (u ++ v) = ([], 0)) :
        Rule.manyFrom q [] 0 u = Rule.manyFrom p [] 0 (u ++ v) := by
      rw [h, List.drop_zero] at hstop
      rw [h, manyFrom_of_none hstop]
    cases hs : p (u ++ v) with
    | none => exact hend (manyFrom_of_none hs)
    | some r =>
      by_cases hgo : 0 < r.2 ∧ u ++ v ≠ []
      · rw [manyFrom_of_some hs hgo] at hn hk hstop ⊢
        dsimp only at hn hk hstop
        have hle : r.2 ≤ u.length := by omega
        have hne : u ≠ [] := by
          rintro rfl
          exact absurd (Nat.lt_of_lt_of_le hgo.1 hle) (Nat.lt_irrefl 0)
        have hq : q u = some (r.1, r.2) := hp u v r.1 r.2 hs hle (by omega)
        rw [List.drop_append_of_le_length hle] at hn hk hstop ⊢
        rw [← List.drop_drop] at hstop
        have hrest := ih _ (length_drop_lt ⟨hgo.1, hne⟩) (by rw [List.length_drop]; omega)
          (by omega) hstop rfl
        rw [manyFrom_of_some hq ⟨hgo.1, hne⟩, hrest]
      · refine hend ?_
        rw [Rule.manyFrom, hs]
        dsimp only
        rw [dif_neg hgo]
        rfl

/-- A list with separators within the front piece, if no item starts where it is empty and none
goes on where it stops. -/
theorem CutsTo.sepBy {separator : Rule β} {item : Rule α} (hitem : CutsTo k item item)
    (hseparator : CutsTo k separator separator) {u v : List Char} {as : List α} {n : Nat}
    (h : sepBy separator item (u ++ v) = some (as, n)) (hn : n ≤ u.length) (hk : n ≤ k)
    (hempty : item (u ++ v) = none → item u = none)
    (hstop : (separator >>= fun _ => item) (u.drop n) = none) :
    sepBy separator item u = some (as, n) := by
  cases hs : item (u ++ v) with
  | none =>
    rw [← h, sepBy_of_none hs, sepBy_of_none (hempty hs)]
  | some r =>
    rw [sepBy_of_some hs] at h
    obtain ⟨rfl, rfl⟩ := Prod.mk.inj (Option.some.inj h)
    rw [List.drop_append_of_le_length (by omega)] at hn hk hstop ⊢
    rw [← List.drop_drop] at hstop
    have hmany := (hseparator.bind fun _ => hitem).manyFrom (u := u.drop r.2)
      (by rw [List.length_drop]; omega) (by omega) hstop
    have hread : item u = some (r.1, r.2) := hitem u v r.1 r.2 hs (by omega) (by omega)
    rw [sepBy_of_some hread, hmany]

end Rule

namespace Lexeme

open Rule

/-! ## Names, literals and blanks -/

theorem cutsTo_spaces0 (k : Nat) : CutsTo k spaces0 spaces0 :=
  (cutsTo_while0 k isSpace).bind fun _ => cutsTo_pure k _

theorem cutsTo_spaces1 (k : Nat) : CutsTo k spaces1 spaces1 :=
  (cutsTo_while1 k isSpace).bind fun _ => cutsTo_pure k _

theorem cutsTo_gaps0 (k : Nat) : CutsTo k gaps0 gaps0 :=
  (cutsTo_while0 k isGap).bind fun _ => cutsTo_pure k _

section

variable {α : Type} {p q : Rule α} {k : Nat}

theorem cutsTo_spaced (h : CutsTo k p q) : CutsTo k (spaced p) (spaced q) :=
  (cutsTo_spaces0 k).bind fun _ => h.bind fun _ => (cutsTo_spaces0 k).bind fun _ => cutsTo_pure k _

theorem cutsTo_wide (h : CutsTo k p q) : CutsTo k (wide p) (wide q) :=
  (cutsTo_gaps0 k).bind fun _ => h.bind fun _ => (cutsTo_gaps0 k).bind fun _ => cutsTo_pure k _

end

theorem cutsTo_gap (k : Nat) : CutsTo k gap gap := by
  intro u v a n h hn _
  obtain ⟨-, rfl⟩ := Prod.mk.inj (Option.some.inj h)
  rw [gap, gapLength_of_append hn]

theorem cutsTo_identifier (k : Nat) : CutsTo k identifier identifier := by
  intro u v name n h hn _
  cases u with
  | nil => exact absurd (progress_identifier _ _ _ h) (Nat.not_lt.mpr hn)
  | cons c u =>
    rw [List.cons_append, identifier] at h
    rw [identifier]
    split at h
    · rename_i hc
      obtain ⟨rfl, rfl⟩ := Prod.mk.inj (Option.some.inj h)
      rw [if_pos hc, takeWhile_of_append (Nat.le_of_succ_le_succ hn)]
    · exact absurd h.symm (Option.some_ne_none _)

theorem cutsTo_hexDigits (k : Nat) : CutsTo k hexDigits hexDigits :=
  (cutsTo_while1 k _).bind fun _ => cutsTo_pure k _

theorem starts_hexDigits : hexDigits.Starts fun c => Text.isHexDigit c = true :=
  (starts_while1 _).bind _

theorem starts_identifier : identifier.Starts fun c => isNameStart c = true := by
  intro s h
  cases s with
  | nil => exact absurd rfl h
  | cons c t => exact ⟨c, t, rfl, by_contra fun hc => h (if_neg hc)⟩

theorem cutsTo_hexLiteral (k : Nat) : CutsTo k hexLiteral hexLiteral :=
  (cutsTo_char k '$').bind fun _ => cutsTo_hexDigits k

end Lexeme

namespace Grammar

open Rule

variable {k : Nat}

/-! ## Expressions -/

theorem starts_literalExpr : literalExpr.Starts (· = '$') := (starts_char_bind '$' _).bind _

theorem starts_referenceExpr : referenceExpr.Starts (· = '!') := starts_char_bind '!' _

theorem starts_memberExpr : memberExpr.Starts (· = '<') := starts_char_bind '<' _

theorem cutsTo_literalExpr (k : Nat) : CutsTo k literalExpr literalExpr :=
  (cutsTo_hexLiteral k).bind fun _ => cutsTo_pure k _

theorem cutsTo_referenceExpr (k : Nat) : CutsTo k referenceExpr referenceExpr :=
  (cutsTo_char k '!').bind fun _ => (cutsTo_identifier k).bind fun _ => cutsTo_pure k _

theorem cutsTo_memberExpr (k : Nat) : CutsTo k memberExpr memberExpr :=
  (cutsTo_char k '<').bind fun _ => (cutsTo_spaces0 k).bind fun _ =>
    (cutsTo_identifier k).bind fun _ => (cutsTo_spaces0 k).bind fun _ =>
      (cutsTo_char k '>').bind fun _ => (cutsTo_spaces0 k).bind fun _ =>
        (cutsTo_identifier k).bind fun _ => (cutsTo_char k '.').bind fun _ =>
          (cutsTo_identifier k).bind fun _ => cutsTo_pure k _

theorem cutsTo_operator (k : Nat) : CutsTo k operator operator := by
  have hsign (c : Char) (op : Operator) :
      CutsTo k (do char c; pure op) (do char c; pure op) :=
    (cutsTo_char k c).bind fun _ => cutsTo_pure k op
  refine cutsTo_firstOf (.cons (hsign _ _) (.cons (hsign _ _) (.cons (hsign _ _) .nil))) fun s => ?_
  have hne {c d : Char} (h : c ≠ d) (f g : Unit → Rule Operator) :
      Excludes s (char c >>= f) (char d >>= g) :=
    (starts_char_bind c f).excludes (starts_char_bind d g) (fun _ hc hd => h (hc ▸ hd)) s
  simp only [List.pairwise_cons, List.forall_mem_cons, List.not_mem_nil, false_imp_iff,
    implies_true, List.Pairwise.nil, and_true]
  exact ⟨⟨hne (by decide) _ _, hne (by decide) _ _⟩, hne (by decide) _ _⟩

/-- What leaves without parentheses begin with. -/
def LeafStart (c : Char) : Prop := c = '$' ∨ c = '!' ∨ c = '<'

theorem starts_simpleLeaf : simpleLeaf.Starts LeafStart := by
  refine starts_firstOf fun p hp => ?_
  simp only [List.mem_cons, List.not_mem_nil, or_false] at hp
  rcases hp with rfl | rfl | rfl
  · exact starts_literalExpr.mono fun _ => .inl
  · exact starts_referenceExpr.mono fun _ h => .inr (.inl h)
  · exact starts_memberExpr.mono fun _ h => .inr (.inr h)

theorem excludes_reference_member (s : List Char) : Excludes s referenceExpr memberExpr :=
  starts_referenceExpr.excludes starts_memberExpr (by rintro _ rfl; decide) s

theorem cutsTo_simpleLeaf (k : Nat) : CutsTo k simpleLeaf simpleLeaf := by
  refine cutsTo_firstOf (.cons (cutsTo_literalExpr k) (.cons (cutsTo_referenceExpr k)
    (.cons (cutsTo_memberExpr k) .nil))) fun s => ?_
  simp only [List.pairwise_cons, List.forall_mem_cons, List.not_mem_nil, false_imp_iff,
    implies_true, List.Pairwise.nil, and_true]
  refine ⟨⟨?_, ?_⟩, excludes_reference_member s⟩
  · exact starts_literalExpr.excludes starts_referenceExpr (by rintro _ rfl; decide) s
  · exact starts_literalExpr.excludes starts_memberExpr (by rintro _ rfl; decide) s

section Enclosed

variable {leaf leaf' : Rule Expr}

theorem cutsTo_linkOf (h : CutsTo k leaf leaf') : CutsTo k (linkOf leaf) (linkOf leaf') :=
  (cutsTo_wide (cutsTo_operator k)).bind fun _ => (cutsTo_wide h).bind fun _ => cutsTo_pure k _

/-- A chain that closes within the front piece. -/
theorem chainOf_of_append (h : CutsTo k leaf leaf') {u v : List Char} {c : Chain} {n : Nat}
    (hc : chainOf leaf (u ++ v) = some (c, n)) (hk : n ≤ k) (hclose : ClosesChain (u.drop n)) :
    chainOf leaf' u = some (c, n) := by
  have hlt := hclose.lt_length
  obtain ⟨head, i, _, hhead, hrest, rfl⟩ := exists_of_bind_eq_some hc
  obtain ⟨tail, m, _, htail, hpure, rfl⟩ := exists_of_bind_eq_some hrest
  obtain ⟨rfl, rfl⟩ := Prod.mk.inj (Option.some.inj hpure)
  rw [List.drop_append_of_le_length (by omega)] at htail
  have hmany : manyFrom (linkOf leaf) [] 0 (u.drop i ++ v) = (tail, m) := Option.some.inj htail
  rw [Nat.add_zero, ← List.drop_drop] at hclose
  have hcut := (cutsTo_linkOf h).manyFrom (u := u.drop i) (v := v)
    (by rw [hmany, List.length_drop]; omega) (by rw [hmany]; omega)
    (by rw [hmany]; exact hclose.linkOf_eq_none)
  rw [hmany] at hcut
  refine bind_eq_some (cutsTo_wide h u v head i hhead (by omega) (by omega)) (bind_eq_some ?_ rfl)
  exact congrArg some hcut

/-- Behind the character that opens there is one character less to read. -/
theorem cutsTo_enclosed {opening closing : Char} (hclosing : closing = ')' ∨ closing = ']')
    (h : CutsTo k leaf leaf') (f : Chain → Expr) :
    CutsTo (k + 1) (enclosed opening closing (chainOf leaf) f)
      (enclosed opening closing (chainOf leaf') f) := by
  intro u v e n he hn hk
  obtain ⟨_, i, _, hopen, hrest, rfl⟩ := exists_of_bind_eq_some he
  obtain ⟨c, j, _, hinner, hclose, rfl⟩ := exists_of_bind_eq_some hrest
  obtain ⟨_, m, _, hchar, hpure, rfl⟩ := exists_of_bind_eq_some hclose
  obtain ⟨rfl, rfl⟩ := Prod.mk.inj (Option.some.inj hpure)
  obtain ⟨-, -, rfl⟩ := exists_of_char hopen
  obtain ⟨-, -, rfl⟩ := exists_of_char hchar
  have hopen' := cutsTo_char 1 opening u v _ _ hopen (by omega) (Nat.le_refl 1)
  rw [List.drop_append_of_le_length (by omega)] at hinner hchar
  rw [List.drop_append_of_le_length (by rw [List.length_drop]; omega)] at hchar
  have hchar' := cutsTo_char 1 closing _ v _ _ hchar (by simp only [List.length_drop]; omega)
    (Nat.le_refl 1)
  obtain ⟨t, ht, -⟩ := exists_of_char hchar'
  have hcloses : ClosesChain ((u.drop 1).drop j) := by
    rw [ht]
    exact ⟨t, hclosing.imp (fun e => by rw [e]) fun e => by rw [e]⟩
  exact bind_eq_some hopen' (bind_eq_some (chainOf_of_append h hinner (by omega) hcloses)
    (bind_eq_some hchar' rfl))

end Enclosed

/-- A leaf is a chain in parentheses, or it has none. -/
theorem leafWithin_cons_eq_some_iff {c : Char} {room s : List Char} {r : Expr × Nat} :
    leafWithin (c :: room) s = some r ↔
      enclosed '(' ')' (chainOf (leafWithin room)) .group s = some r ∨ simpleLeaf s = some r := by
  have hexcludes : Excludes s (enclosed '(' ')' (chainOf (leafWithin room)) .group) simpleLeaf := by
    refine (starts_char_bind '(' _).excludes starts_simpleLeaf ?_ s
    rintro _ rfl
    simp [LeafStart]
  rw [leafWithin_cons, firstOf_eq_some_iff (List.pairwise_pair.mpr hexcludes)]
  simp only [List.mem_cons, List.not_mem_nil, or_false, exists_eq_or_imp, exists_eq_left]

/-- Each parenthesis of a leaf has been read, so there is room enough in what has been read. -/
theorem cutsTo_leafWithin (room room' : List Char) :
    CutsTo room'.length (leafWithin room) (leafWithin room') := by
  have hsimple (room' : List Char) {s : List Char} {r : Expr × Nat} (h : simpleLeaf s = some r) :
      leafWithin room' s = some r := by
    cases room' with
    | nil => exact h
    | cons c room' => exact leafWithin_cons_eq_some_iff.mpr (.inr h)
  induction room' generalizing room with
  | nil =>
    intro u v e n he hn hk
    cases room with
    | nil => exact cutsTo_simpleLeaf 0 u v e n he hn hk
    | cons c room =>
      rcases leafWithin_cons_eq_some_iff.mp he with hgroup | hread
      · exact absurd ((progress_char '(').bind _ _ _ _ hgroup) (Nat.not_lt.mpr hk)
      · exact cutsTo_simpleLeaf 0 u v e n hread hn hk
  | cons c' room' ih =>
    intro u v e n he hn hk
    cases room with
    | nil => exact hsimple _ (cutsTo_simpleLeaf _ u v e n he hn hk)
    | cons c room =>
      rw [leafWithin_cons_eq_some_iff] at he ⊢
      refine he.imp (fun hgroup => ?_) fun hread => cutsTo_simpleLeaf _ u v e n hread hn hk
      exact cutsTo_enclosed (.inl rfl) (ih room) _ u v e n hgroup hn hk

theorem cutsTo_leaf (k : Nat) : CutsTo k leaf leaf :=
  fun u v e n he hn _ => cutsTo_leafWithin (u ++ v) u u v e n he hn hn

theorem cutsTo_bracketExpr (k : Nat) : CutsTo k bracketExpr bracketExpr :=
  (cutsTo_enclosed (.inr rfl) (cutsTo_leaf k) _).mono (Nat.le_succ k)

/-! ## Operands -/

/-- What is theirs alone must not begin as brackets, references and members do. -/
theorem cutsTo_valueOf {first : Rule Expr} (h : CutsTo k first first)
    (hfirst : first.Starts fun c => c ≠ '[' ∧ c ≠ '!' ∧ c ≠ '<') :
    CutsTo k (valueOf first) (valueOf first) := by
  refine cutsTo_firstOf (.cons h (.cons (cutsTo_bracketExpr k) (.cons (cutsTo_referenceExpr k)
    (.cons (cutsTo_memberExpr k) .nil)))) fun s => ?_
  have hbracket : bracketExpr.Starts (· = '[') := starts_char_bind '[' _
  simp only [List.pairwise_cons, List.forall_mem_cons, List.not_mem_nil, false_imp_iff,
    implies_true, List.Pairwise.nil, and_true]
  refine ⟨⟨?_, ?_, ?_⟩, ⟨?_, ?_⟩, excludes_reference_member s⟩
  · exact hfirst.excludes hbracket (fun _ hc => hc.1) s
  · exact hfirst.excludes starts_referenceExpr (fun _ hc => hc.2.1) s
  · exact hfirst.excludes starts_memberExpr (fun _ hc => hc.2.2) s
  · exact hbracket.excludes starts_referenceExpr (by rintro _ rfl; decide) s
  · exact hbracket.excludes starts_memberExpr (by rintro _ rfl; decide) s

theorem cutsTo_register (k : Nat) : CutsTo k register register := (cutsTo_identifier k).mapSome _

theorem cutsTo_operand (k : Nat) (kind : Kind) : CutsTo k (operand kind) (operand kind) := by
  cases kind with
  | literal | literal8 =>
    refine (cutsTo_valueOf (cutsTo_literalExpr k) ?_).bind fun _ => cutsTo_pure k _
    refine starts_literalExpr.mono ?_
    rintro _ rfl
    decide
  | address =>
    have haddress : CutsTo k addressExpr addressExpr :=
      (cutsTo_hexDigits k).bind fun _ => cutsTo_pure k _
    refine CutsTo.bind ((cutsTo_char k '&').bind fun _ => cutsTo_valueOf haddress ?_) fun _ =>
      cutsTo_pure k _
    refine (starts_hexDigits.bind _).mono fun c hc => ⟨?_, ?_, ?_⟩
    all_goals
      rintro rfl
      exact absurd hc (by decide)
  | register => exact (cutsTo_register k).bind fun _ => cutsTo_pure k _
  | pointer =>
    exact (cutsTo_char k '&').bind fun _ => (cutsTo_register k).bind fun _ => cutsTo_pure k _

/-! ## Lists between braces -/

section Braced

variable {α : Type} {item : Rule α}

namespace EndsList

variable {u v : List Char} {o : Option Unit} {m : Nat} {tail : List Char}

/-- The end of a list that has its brace within the front piece. -/
theorem of_append (h : EndsList (u ++ v) o m tail)
    (hlt : m + gapLength ((u ++ v).drop m) < u.length) : ∃ tail, EndsList u o m tail := by
  have hdrop : (u ++ v).drop m = u.drop m ++ v := List.drop_append_of_le_length (by omega)
  have hbrace := h.brace
  rw [hdrop] at hlt hbrace
  have hle : gapLength (u.drop m ++ v) ≤ (u.drop m).length := by
    rw [List.length_drop]
    omega
  rw [List.drop_append_of_le_length hle, ← gapLength_of_append hle] at hbrace
  have hne : (u.drop m).drop (gapLength (u.drop m)) ≠ [] := by
    refine List.ne_nil_of_length_pos ?_
    rw [gapLength_of_append hle]
    simp only [List.length_drop]
    omega
  obtain ⟨c, tail, hcons⟩ := List.exists_cons_of_ne_nil hne
  rw [hcons] at hbrace
  obtain ⟨rfl, -⟩ := List.cons_eq_cons.mp hbrace
  refine ⟨tail, ?_, hcons⟩
  rcases exists_of_optional h.comma? with ⟨a, ha⟩ | ⟨hnone, rfl⟩
  · have hcut := ((cutsTo_gap m).bind fun _ => cutsTo_char m ',') u v a m ha (by omega)
      (Nat.le_refl m)
    exact (optional_of_some hcut).trans ((optional_of_some ha).symm.trans h.comma?)
  · have hcomma : (gap >>= fun _ => char ',') u = none := by
      refine bind_eq_none_of_some rfl ?_
      rw [List.drop_zero] at hcons
      rw [hcons]
      rfl
    exact (optional_of_none hcomma).trans ((optional_of_none hnone).symm.trans h.comma?)

/-- Where a list ends stands a gap, a comma or the brace. -/
theorem isGapStart_or {c : Char} {t : List Char} (h : EndsList (c :: t) o m tail) :
    isGapStart c = true ∨ c = ',' ∨ c = '\x7d' := by
  by_contra hno
  obtain ⟨hgap, hcomma, hbrace⟩ := not_or.mp hno |>.imp_right not_or.mp
  have hstops : Stops isGapStart (c :: t) := Bool.eq_false_iff.mpr hgap
  have hlength : gapLength (c :: t) = 0 := gapFrom_of_stops hstops 0
  have hnone : (gap >>= fun _ => char ',') (c :: t) = none := by
    refine bind_eq_none_of_some (a := ()) (k := 0) (by rw [gap, hlength]) ?_
    exact char_eq_none hcomma t
  have hclose := h.brace
  rcases exists_of_optional h.comma? with ⟨a, ha⟩ | ⟨-, rfl⟩
  · exact absurd (hnone.symm.trans ha).symm (Option.some_ne_none _)
  · rw [List.drop_zero, hlength, List.drop_zero] at hclose
    exact hbrace (List.cons_eq_cons.mp hclose).1

end EndsList

/-- The end of a list within the front piece. -/
theorem endOfList_of_append (xs : List α) {ys : List α} {u v : List Char} {n : Nat}
    (h : endOfList xs (u ++ v) = some (ys, n)) (hn : n ≤ u.length) :
    (∃ o m tail, EndsList u o m tail) ∧ endOfList xs u = some (ys, n) := by
  obtain ⟨o, m, _, ho, hrest, rfl⟩ := exists_of_bind_eq_some h
  obtain ⟨_, g, _, hg, hbrace, rfl⟩ := exists_of_bind_eq_some hrest
  obtain ⟨_, j, _, hj, hpure, rfl⟩ := exists_of_bind_eq_some hbrace
  obtain ⟨rfl, rfl⟩ := Prod.mk.inj (Option.some.inj hpure)
  obtain ⟨-, rfl⟩ := Prod.mk.inj (Option.some.inj hg)
  obtain ⟨tail, htail, rfl⟩ := exists_of_char hj
  have hends : EndsList (u ++ v) o m tail := ⟨ho, htail⟩
  obtain ⟨tail', hcut⟩ := hends.of_append (by omega)
  refine ⟨⟨o, m, tail', hcut⟩, ?_⟩
  have hle : gapLength (u.drop m ++ v) ≤ (u.drop m).length := by
    rw [← List.drop_append_of_le_length (by omega), List.length_drop]
    omega
  have hgap : gap (u.drop m) = some ((), gapLength ((u ++ v).drop m)) := by
    rw [gap, List.drop_append_of_le_length (by omega), gapLength_of_append hle]
  refine bind_eq_some hcut.comma? (bind_eq_some hgap (bind_eq_some (a := ()) ?_ rfl))
  have hbrace' := hcut.brace
  rw [gapLength_of_append hle, ← List.drop_append_of_le_length (by omega)] at hbrace'
  rw [hbrace']
  rfl

theorem cutsTo_comma (k : Nat) : CutsTo k comma comma :=
  (cutsTo_gap k).bind fun _ => (cutsTo_char k ',').bind fun _ => cutsTo_gap k

/-- A list between braces, if its items do not begin as what stands around them does. -/
theorem cutsTo_braced (hitem : CutsTo k item item)
    (hstarts : item.Starts fun c => isGapStart c = false ∧ c ≠ ',' ∧ c ≠ '\x7d') :
    CutsTo k (braced item) (braced item) := by
  intro u v xs n h hn hk
  obtain ⟨_, i, _, hopen, hrest, rfl⟩ := exists_of_bind_eq_some h
  obtain ⟨_, g, _, hgap, hlist, rfl⟩ := exists_of_bind_eq_some hrest
  obtain ⟨items, j, m, hitems, hclose, rfl⟩ := exists_of_bind_eq_some hlist
  have hopen' := cutsTo_char k _ u v _ i hopen (by omega) (by omega)
  rw [List.drop_append_of_le_length (by omega)] at hgap hitems hclose
  have hgap' := cutsTo_gap k _ v _ g hgap (by rw [List.length_drop]; omega) (by omega)
  rw [List.drop_append_of_le_length (by rw [List.length_drop]; omega)] at hitems hclose
  rw [List.drop_append_of_le_length (by simp only [List.length_drop]; omega)] at hclose
  obtain ⟨⟨o, e, tail, hends⟩, hend⟩ := endOfList_of_append items hclose
    (by simp only [List.length_drop]; omega)
  have hbrace (tail : List Char) : item ('\x7d' :: tail) = none := by
    by_contra hne
    obtain ⟨c, t, hc, -, -, hno⟩ := hstarts _ hne
    exact hno (List.cons_eq_cons.mp hc).1.symm
  have hitems' : sepBy comma item ((u.drop i).drop g) = some (items, j) := by
    refine CutsTo.sepBy hitem (cutsTo_comma k) hitems (by simp only [List.length_drop]; omega)
      (by omega) (fun hnone => ?_) (hends.comma_item_eq_none hbrace)
    by_contra hne
    obtain ⟨c, t, ht, hc, hcomma, hclosing⟩ := hstarts _ hne
    -- without items the list ends where the first would start
    obtain ⟨-, rfl⟩ := Prod.mk.inj (Option.some.inj ((sepBy_of_none hnone).symm.trans hitems))
    rw [List.drop_zero, ht] at hends
    rcases hends.isGapStart_or with hgapStart | hsame | hsame
    · rw [hc] at hgapStart
      exact nomatch hgapStart
    · exact hcomma hsame
    · exact hclosing hsame
  exact bind_eq_some hopen' (bind_eq_some hgap' (bind_eq_some hitems' hend))

end Braced

/-! ## Definitions -/

theorem cutsTo_exportMark (k : Nat) : CutsTo k exportMark exportMark := by
  refine ((cutsTo_char k '+').optional fun u v h => ?_).bind fun _ => cutsTo_pure k _
  cases u with
  | nil => rfl
  | cons c u => exact h

theorem cutsTo_keyword (k : Nat) (word : String) : CutsTo k (keyword word) (keyword word) :=
  (cutsTo_literal k _).bind fun _ => cutsTo_spaces1 k

theorem cutsTo_dataWidth (k : Nat) : CutsTo k dataWidth dataWidth := by
  have hwidth (width : Width) :
      CutsTo k (do keyword width.keyword; pure width) (do keyword width.keyword; pure width) :=
    (cutsTo_keyword k _).bind fun _ => cutsTo_pure k _
  refine cutsTo_firstOf (.cons (hwidth .word) (.cons (hwidth .byte) .nil)) fun s => ?_
  refine List.pairwise_pair.mpr (excludes_of_imp fun h => ?_)
  obtain ⟨_, n, hn, -⟩ := exists_of_bind_ne_none h
  exact bind_eq_none (keyword_eq_none_of_ne (by decide) (by decide) (by decide) hn)

theorem cutsTo_sign (k : Nat) (c : Char) : CutsTo k (spaced (char c)) (spaced (char c)) :=
  cutsTo_spaced (cutsTo_char k c)

theorem cutsTo_constant (k : Nat) : CutsTo k constant constant :=
  (cutsTo_exportMark k).bind fun _ => (cutsTo_keyword k _).bind fun _ =>
    (cutsTo_identifier k).bind fun _ => (cutsTo_sign k '=').bind fun _ =>
      (cutsTo_hexLiteral k).bind fun _ => cutsTo_pure k _

theorem cutsTo_data (k : Nat) : CutsTo k data data := by
  refine (cutsTo_exportMark k).bind fun _ => (cutsTo_dataWidth k).bind fun _ =>
    (cutsTo_identifier k).bind fun _ => (cutsTo_sign k '=').bind fun _ =>
      (cutsTo_braced (cutsTo_hexLiteral k) ?_).bind fun _ => cutsTo_pure k _
  refine (starts_char_bind '$' _).mono ?_
  rintro _ rfl
  decide

theorem cutsTo_structMember (k : Nat) : CutsTo k structMember structMember :=
  (cutsTo_identifier k).bind fun _ => (cutsTo_sign k ':').bind fun _ =>
    (cutsTo_hexLiteral k).bind fun _ => cutsTo_pure k _

theorem cutsTo_struct (k : Nat) : CutsTo k struct struct := by
  refine (cutsTo_exportMark k).bind fun _ => (cutsTo_keyword k _).bind fun _ =>
    (cutsTo_identifier k).bind fun _ => (cutsTo_spaces0 k).bind fun _ =>
      (cutsTo_braced (cutsTo_structMember k) ?_).bind fun _ => cutsTo_pure k _
  refine (starts_identifier.bind _).mono fun c hc => ⟨isGapStart_of_isNameStart hc, ?_, ?_⟩
  all_goals
    rintro rfl
    exact absurd hc (by decide)

theorem cutsTo_label (k : Nat) : CutsTo k label label :=
  (cutsTo_exportMark k).bind fun _ => (cutsTo_identifier k).bind fun _ =>
    (cutsTo_char k ':').bind fun _ => cutsTo_pure k _

end Grammar
end WordMachine
