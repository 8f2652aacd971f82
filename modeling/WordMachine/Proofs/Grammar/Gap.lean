import WordMachine.Proofs.Grammar.Steady

/-!
# Blank text and where a gap ends

The function that measures a gap walks over the text with a flag for "in a comment".  Here is what
it measures.  A text is blank if it is made of blanks and of comments, each comment up to its end
of line or to the end of the text (`IsBlank`), and blank texts are just those of which the whole is
one gap (`isBlank_iff`).

A gap that has an end ends there whatever is cut off behind it (`gapFrom_of_append`).  At the end
of a gap stands neither a blank nor the beginning of a comment (`StartsNoGap`), and where nothing of
that kind stands, a gap has no length.

* `IsBlank`, `isBlank_iff`: blank texts.
* `gapLength_of_append`: gaps in a text that is cut.
* `StartsNoGap`, `gapLength_eq_zero_iff`: where no gap starts.
-/

namespace WordMachine
namespace Lexeme

open Rule

/-! ## Blank text -/

/-- The text is made of blanks and of comments, which run to the end of their line. -/
inductive IsBlank : List Char → Prop where
  | nil : IsBlank []
  | blank {c : Char} {s : List Char} (hc : isGap c = true) (hs : IsBlank s) : IsBlank (c :: s)
  | comment {text s : List Char} (htext : ∀ c ∈ text, isBreak c = false)
    (hend : s = [] ∨ ∃ c t, s = c :: t ∧ isBreak c = true) (hs : IsBlank s) :
    IsBlank (';' :: ';' :: (text ++ s))

theorem isGap_of_isBreak {c : Char} (h : isBreak c = true) : isGap c = true := by
  rw [isGap, h, Bool.or_true]

theorem le_gapFrom (inComment : Bool) (count : Nat) (s : List Char) :
    count ≤ gapFrom inComment count s := by
  rw [gapFrom_eq_add]
  exact Nat.le_add_right _ _

/-- A gap ends where the text ends, if not before. -/
theorem gapFrom_le_length (inComment : Bool) (s : List Char) :
    gapFrom inComment 0 s ≤ s.length := by
  induction s generalizing inComment with
  | nil => exact Nat.le_refl 0
  | cons c s ih =>
    have hnext (b : Bool) : gapFrom b (0 + 1) s ≤ (c :: s).length := by
      rw [gapFrom_eq_add, List.length_cons, Nat.add_comm]
      exact Nat.add_le_add_right (ih b) _
    rw [gapFrom]
    split
    · exact hnext _
    · split
      · exact hnext _
      · split
        · exact hnext _
        · exact Nat.zero_le _

/-- Within a line a comment takes everything. -/
theorem gapFrom_comment_append {text : List Char} (h : ∀ c ∈ text, isBreak c = false)
    (count : Nat) (s : List Char) :
    gapFrom true count (text ++ s) = gapFrom true (count + text.length) s := by
  induction text generalizing count with
  | nil => rfl
  | cons c text ih =>
    obtain ⟨hc, htext⟩ := List.forall_mem_cons.mp h
    rw [List.cons_append, gapFrom, hc, if_pos rfl]
    simp only [Bool.not_false, Bool.and_true, ite_self, ih htext, List.length_cons]
    congr 1
    omega

/-- At its end of line a comment is a blank text again. -/
theorem gapFrom_comment_of_ends {s : List Char}
    (h : s = [] ∨ ∃ c t, s = c :: t ∧ isBreak c = true) (count : Nat) :
    gapFrom true count s = gapFrom false count s := by
  rcases h with rfl | ⟨c, t, rfl, hc⟩
  · rfl
  · rw [gapFrom, gapFrom, if_pos (isGap_of_isBreak hc), if_pos (isGap_of_isBreak hc), hc]
    rfl

theorem IsBlank.gapFrom_eq {s : List Char} (h : IsBlank s) (count : Nat) :
    gapFrom false count s = count + s.length := by
  induction h generalizing count with
  | nil => rfl
  | @blank c s hc hs ih =>
    rw [gapFrom, if_pos hc, Bool.false_and, ih, List.length_cons]
    omega
  | @comment text s htext hend hs ih =>
    have hopen : gapFrom false count (';' :: ';' :: (text ++ s)) =
        gapFrom true (count + 1 + 1) (text ++ s) := by
      rw [gapFrom, if_neg (by decide), if_neg Bool.false_ne_true, if_pos (by simp), gapFrom,
        if_neg (by decide), if_pos rfl]
    rw [hopen, gapFrom_comment_append htext, gapFrom_comment_of_ends hend, ih]
    simp only [List.length_cons, List.length_append]
    omega

/-- What is left when a gap takes the whole text, inside a comment or not. -/
def GapRest : Bool → List Char → Prop
  | false, s => IsBlank s
  | true, s => ∃ text rest, s = text ++ rest ∧ (∀ c ∈ text, isBreak c = false) ∧
    (rest = [] ∨ ∃ c t, rest = c :: t ∧ isBreak c = true) ∧ IsBlank rest

/-- A character that breaks no line belongs to the comment. -/
theorem GapRest.cons {c : Char} {s : List Char} (hc : isBreak c = false) (h : GapRest true s) :
    GapRest true (c :: s) := by
  obtain ⟨text, rest, rfl, htext, hend, hrest⟩ := h
  exact ⟨c :: text, rest, rfl, List.forall_mem_cons.mpr ⟨hc, htext⟩, hend, hrest⟩

/-- A comment that opens runs to its end of line. -/
theorem GapRest.isBlank {s : List Char} (h : GapRest true (';' :: s)) :
    IsBlank (';' :: ';' :: s) := by
  obtain ⟨text, rest, htext, hbreak, hend, hrest⟩ := h
  cases text with
  | nil =>
    rcases hend with rfl | ⟨c, t, rfl, hc⟩
    · exact absurd htext (List.cons_ne_nil _ _)
    · obtain ⟨rfl, -⟩ := List.cons.inj htext
      exact absurd hc (by decide)
  | cons c text =>
    obtain ⟨rfl, rfl⟩ := List.cons.inj htext
    exact .comment (List.forall_mem_cons.mp hbreak).2 hend hrest

/-- If a gap takes the whole text, then the text is blank behind the comment it may begin in. -/
theorem gapRest_of_gapFrom {s : List Char} {inComment : Bool}
    (h : gapFrom inComment 0 s = s.length) : GapRest inComment s := by
  induction s generalizing inComment with
  | nil =>
    cases inComment with
    | false => exact .nil
    | true => exact ⟨[], [], rfl, nofun, .inl rfl, .nil⟩
  | cons c s ih =>
    rw [gapFrom] at h
    have hnext {b : Bool} (h : gapFrom b (0 + 1) s = (c :: s).length) : GapRest b s := by
      rw [gapFrom_eq_add, List.length_cons] at h
      exact ih (by omega)
    split at h
    · rename_i hgap
      cases inComment with
      | false => exact .blank hgap (hnext h)
      | true =>
        cases hbreak : isBreak c with
        | false =>
          rw [hbreak] at h
          exact (hnext h).cons hbreak
        | true =>
          rw [hbreak] at h
          exact ⟨[], c :: s, rfl, nofun, .inr ⟨c, s, rfl, hbreak⟩, .blank hgap (hnext h)⟩
    · rename_i hgap
      have hbreak : isBreak c = false := by
        rw [Bool.eq_false_iff]
        exact fun hc => hgap (isGap_of_isBreak hc)
      split at h
      · rename_i hcomment
        obtain rfl : inComment = true := hcomment
        exact (hnext h).cons hbreak
      · rename_i hcomment
        obtain rfl : inComment = false := Bool.eq_false_iff.mpr hcomment
        split at h
        · rename_i hopen
          rw [Bool.and_eq_true, beq_iff_eq, beq_iff_eq] at hopen
          obtain ⟨rfl, hhead⟩ := hopen
          obtain ⟨t, rfl⟩ := List.head?_eq_some_iff.mp hhead
          exact (hnext h).isBlank
        · exact absurd h (Nat.succ_ne_zero _).symm

/-- **Blank texts are those that are one gap.** -/
theorem isBlank_iff {s : List Char} : IsBlank s ↔ s.drop (gapLength s) = [] := by
  constructor
  · intro h
    rw [gapLength, h.gapFrom_eq, Nat.zero_add, List.drop_length]
  · intro h
    have hle : s.length ≤ gapLength s := List.drop_eq_nil_iff.mp h
    exact gapRest_of_gapFrom (Nat.le_antisymm (gapFrom_le_length false s) hle)

/-! ## Gaps in a text that is cut -/

/-- A gap that does not reach beyond a cut is the same without what is cut off. -/
theorem gapFrom_of_append {inComment : Bool} {s t : List Char}
    (h : gapFrom inComment 0 (s ++ t) ≤ s.length) :
    gapFrom inComment 0 s = gapFrom inComment 0 (s ++ t) := by
  induction s generalizing inComment with
  | nil => exact (Nat.le_zero.mp h).symm
  | cons c s ih =>
    rw [List.cons_append, gapFrom] at h
    rw [List.cons_append, gapFrom, gapFrom]
    have hnext {b : Bool} (h : gapFrom b (0 + 1) (s ++ t) ≤ (c :: s).length) :
        gapFrom b (0 + 1) s = gapFrom b (0 + 1) (s ++ t) := by
      rw [gapFrom_eq_add, List.length_cons] at h
      rw [gapFrom_eq_add, gapFrom_eq_add b (0 + 1) (s ++ t), ih (by omega)]
    split at h
    · rename_i hgap
      rw [if_pos hgap, if_pos hgap, hnext h]
    · rename_i hgap
      rw [if_neg hgap, if_neg hgap]
      split at h
      · rename_i hcomment
        rw [if_pos hcomment, if_pos hcomment, hnext h]
      · rename_i hcomment
        rw [if_neg hcomment, if_neg hcomment]
        cases s with
        | cons d s =>
          have hhead : (d :: s ++ t).head? = (d :: s).head? := rfl
          rw [hhead] at h ⊢
          split at h
          · rename_i hopen
            rw [if_pos hopen, if_pos hopen, hnext h]
          · rename_i hopen
            rw [if_neg hopen, if_neg hopen]
        | nil =>
          split at h
          · -- a comment that opens over the cut is longer than what is in front of the cut
            rename_i hopen
            rw [Bool.and_eq_true, beq_iff_eq, beq_iff_eq] at hopen
            obtain ⟨t, rfl⟩ := List.head?_eq_some_iff.mp hopen.2
            rw [List.nil_append, gapFrom, if_neg (by decide), if_pos rfl] at h
            have := le_gapFrom true (0 + 1 + 1) t
            rw [List.length_singleton] at h
            omega
          · rename_i hopen
            rw [if_neg hopen, if_neg (by simp)]

theorem gapLength_of_append {s t : List Char} (h : gapLength (s ++ t) ≤ s.length) :
    gapLength s = gapLength (s ++ t) :=
  gapFrom_of_append h

theorem length_take_gapLength (s : List Char) : (s.take (gapLength s)).length = gapLength s :=
  List.length_take_of_le (gapFrom_le_length false s)

/-- A gap is a blank text. -/
theorem isBlank_take_gapLength (s : List Char) : IsBlank (s.take (gapLength s)) := by
  have hsplit := congrArg gapLength (List.take_append_drop (gapLength s) s)
  have hgap : gapLength (s.take (gapLength s) ++ s.drop (gapLength s)) ≤
      (s.take (gapLength s)).length :=
    Nat.le_of_eq (hsplit.trans (length_take_gapLength s).symm)
  rw [isBlank_iff, gapLength_of_append hgap, hsplit, List.drop_eq_nil_iff]
  exact Nat.le_of_eq (length_take_gapLength s)

/-- Neither a blank nor a comment starts here. -/
def StartsNoGap (s : List Char) : Prop :=
  (∀ c ∈ s.head?, isGap c = false) ∧ ¬ [';', ';'] <+: s

theorem gapLength_eq_zero_iff {s : List Char} : gapLength s = 0 ↔ StartsNoGap s := by
  cases s with
  | nil => exact ⟨fun _ => ⟨nofun, by simp⟩, fun _ => rfl⟩
  | cons c s =>
    have hlonger (b : Bool) : gapFrom b (0 + 1) s ≠ 0 :=
      Nat.ne_of_gt (Nat.lt_of_lt_of_le Nat.zero_lt_one (le_gapFrom b (0 + 1) s))
    have hopen : (c == ';' && s.head? == some ';') = true ↔ [';', ';'] <+: c :: s := by
      rw [Bool.and_eq_true, beq_iff_eq, beq_iff_eq, List.cons_prefix_cons]
      refine and_congr eq_comm ⟨fun h => ?_, fun ⟨t, h⟩ => h ▸ rfl⟩
      obtain ⟨t, rfl⟩ := List.head?_eq_some_iff.mp h
      exact List.prefix_append [';'] t
    rw [gapLength, gapFrom, StartsNoGap, ← hopen]
    by_cases hgap : isGap c = true
    · rw [if_pos hgap]
      refine iff_of_false (hlonger _) fun h => ?_
      rw [h.1 c rfl] at hgap
      exact Bool.false_ne_true hgap
    · rw [if_neg hgap, if_neg Bool.false_ne_true]
      by_cases hcomment : (c == ';' && s.head? == some ';') = true
      · rw [if_pos hcomment]
        exact iff_of_false (hlonger _) fun h => h.2 hcomment
      · rw [if_neg hcomment]
        refine iff_of_true rfl ⟨fun d hd => ?_, hcomment⟩
        obtain rfl := Option.some.inj hd
        exact Bool.eq_false_iff.mpr hgap

/-- Behind a gap no gap starts, be it one that begins in a comment. -/
theorem gapLength_drop_gapFrom (inComment : Bool) (s : List Char) :
    gapLength (s.drop (gapFrom inComment 0 s)) = 0 := by
  induction s generalizing inComment with
  | nil => rfl
  | cons c s ih =>
    have hnext (b : Bool) : gapLength ((c :: s).drop (gapFrom b (0 + 1) s)) = 0 := by
      rw [gapFrom_eq_add, Nat.zero_add, Nat.add_comm, List.drop_succ_cons]
      exact ih b
    rw [gapFrom]
    split
    · exact hnext _
    · rename_i hgap
      split
      · exact hnext _
      · split
        · exact hnext _
        · rename_i hopen
          rw [List.drop_zero, gapLength, gapFrom, if_neg hgap, if_neg Bool.false_ne_true,
            if_neg hopen]

theorem startsNoGap_drop (s : List Char) : StartsNoGap (s.drop (gapLength s)) :=
  gapLength_eq_zero_iff.mp (gapLength_drop_gapFrom false s)

end Lexeme
end WordMachine
