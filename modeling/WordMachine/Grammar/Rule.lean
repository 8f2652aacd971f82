/-!
# Rules of a grammar

A rule looks at the characters ahead and either fails or answers a value and *how
many* of the characters it has read.  It does not answer the rest: what comes next
is the text without that many characters, so that a rule can neither invent text
nor skip back, and "what was read, then what was not" is the whole text by
`List.take_append_drop`.  A count is also all that is needed to know the line and
the column of what follows.

Choice is ordered and tries again from the same place.  Repetition ends when the
repeated rule fails; it also ends when the repeated rule reads nothing, which makes
it total.  Repetition collects what it reads from the back, so that the length of
a list in the source is not bounded by the depth of the stack; `manyFrom_eq` says
that this changes nothing.
-/

namespace WordMachine

/-- A rule: a value and the number of characters read, or failure. -/
def Rule (α : Type) : Type := List Char → Option (α × Nat)

namespace Rule

variable {α β : Type}

/-- Succeeds without reading. -/
protected def pure (a : α) : Rule α := fun _ => some (a, 0)

/-- One rule after another, the second chosen by the value of the first. -/
protected def bind (p : Rule α) (f : α → Rule β) : Rule β := fun s =>
  match p s with
  | none => none
  | some (a, n) =>
    match f a (s.drop n) with
    | none => none
    | some (b, m) => some (b, n + m)

instance : Monad Rule where
  pure := Rule.pure
  bind := Rule.bind

@[simp] theorem pure_apply (a : α) (s : List Char) : (pure a : Rule α) s = some (a, 0) := rfl

/-- The second rule goes on behind what the first has read, and the counts add
up. -/
theorem bind_apply (p : Rule α) (f : α → Rule β) (s : List Char) :
    (p >>= f) s =
      match p s with
      | none => none
      | some (a, n) =>
        match f a (s.drop n) with
        | none => none
        | some (b, m) => some (b, n + m) := rfl

/-- Fails. -/
def fail : Rule α := fun _ => none

/-- The first of several rules that succeeds. -/
def firstOf : List (Rule α) → Rule α
  | [] => fail
  | p :: ps => fun s =>
    match p s with
    | some r => some r
    | none => firstOf ps s

/-- Succeeds with `none` where the given rule fails. -/
def optional (p : Rule α) : Rule (Option α) := fun s =>
  match p s with
  | some (a, n) => some (some a, n)
  | none => some (none, 0)

/-- Keeps a value only if it stands for something. -/
def mapSome (p : Rule α) (f : α → Option β) : Rule β := fun s =>
  match p s with
  | none => none
  | some (a, n) => (f a).map (·, n)

/-- Exactly the given character. -/
def char (c : Char) : Rule Unit
  | [] => none
  | d :: _ => if d = c then some ((), 1) else none

/-- Exactly the given characters. -/
def literal (cs : List Char) : Rule Unit := fun s =>
  if cs.isPrefixOf s then some ((), cs.length) else none

/-- All the characters ahead that satisfy a condition. -/
def while0 (p : Char → Bool) : Rule (List Char) := fun s =>
  let read := s.takeWhile p
  some (read, read.length)

/-- All the characters ahead that satisfy a condition, at least one. -/
def while1 (p : Char → Bool) : Rule (List Char) := fun s =>
  let read := s.takeWhile p
  if read.isEmpty then none else some (read, read.length)

/-- Requires something of the characters ahead without reading them. -/
def ahead (p : List Char → Bool) : Rule Unit := fun s =>
  if p s then some ((), 0) else none

/-- Reading something shortens what is ahead, unless nothing is ahead. -/
theorem length_drop_lt {n : Nat} {s : List Char} (h : 0 < n ∧ s ≠ []) :
    (s.drop n).length < s.length := by
  have := List.length_pos_iff.mpr h.2
  have := h.1
  rw [List.length_drop]
  omega

/-- Repeats a rule, in front of values already read and counted. -/
def manyFrom (p : Rule α) (acc : List α) (count : Nat) (s : List Char) : List α × Nat :=
  match p s with
  | none => (acc.reverse, count)
  | some (a, n) =>
    if _ : 0 < n ∧ s ≠ [] then manyFrom p (a :: acc) (count + n) (s.drop n)
    else (acc.reverse, count)
termination_by s.length
decreasing_by exact length_drop_lt ‹0 < n ∧ s ≠ []›

/-- Values and characters that were there before the repetition are carried along
and change nothing in what it reads. -/
theorem manyFrom_eq (p : Rule α) (acc : List α) (count : Nat) (s : List Char) :
    manyFrom p acc count s =
      (acc.reverse ++ (manyFrom p [] 0 s).1, count + (manyFrom p [] 0 s).2) := by
  induction h : s.length using Nat.strongRecOn generalizing acc count s with
  | ind k ih =>
    subst h
    unfold manyFrom
    split
    · simp
    · rename_i a n _
      split
      · rename_i hn
        have hlt := length_drop_lt hn
        rw [ih _ hlt (a :: acc) (count + n) (s.drop n) rfl,
          ih _ hlt [a] (0 + n) (s.drop n) rfl]
        simp [Nat.add_assoc]
      · simp

/-- As many repetitions as there are. -/
def many (p : Rule α) : Rule (List α) := fun s => some (manyFrom p [] 0 s)

/-- A list with separators, possibly empty.  A separator after which no item
follows is not read. -/
def sepBy (separator : Rule β) (item : Rule α) : Rule (List α) := fun s =>
  match item s with
  | none => some ([], 0)
  | some (a, n) => some (manyFrom (separator.bind fun _ => item) [a] n (s.drop n))

/-! ## Progress

A loop over the source ends because what it repeats reads something.  That is a
property of its first required piece, whatever follows it. -/

/-- A rule that never succeeds without reading. -/
def Progress (p : Rule α) : Prop := ∀ s a n, p s = some (a, n) → 0 < n

theorem progress_char (c : Char) : Progress (char c) := by
  intro s a n h
  cases s with
  | nil => simp [char] at h
  | cons d t =>
    simp only [char] at h
    split at h
    · simp at h; omega
    · simp at h

/-- A sequence reads at least as much as its first rule. -/
theorem Progress.bind {p : Rule α} (hp : Progress p) (f : α → Rule β) :
    Progress (p >>= f) := by
  intro s b n h
  change Rule.bind p f s = some (b, n) at h
  unfold Rule.bind at h
  split at h
  · simp at h
  · rename_i a k hk
    split at h
    · simp at h
    · rename_i c m _
      have := hp s a k hk
      simp only [Option.some.injEq, Prod.mk.injEq] at h
      omega

/-- A sequence reads at least as much as its second rule. -/
theorem Progress.bind_right (p : Rule α) {f : α → Rule β} (hf : ∀ a, Progress (f a)) :
    Progress (p >>= f) := by
  intro s b n h
  change Rule.bind p f s = some (b, n) at h
  unfold Rule.bind at h
  split at h
  · simp at h
  · rename_i a k hk
    split at h
    · simp at h
    · rename_i c m hm
      have := hf a _ c m hm
      simp only [Option.some.injEq, Prod.mk.injEq] at h
      omega

theorem progress_firstOf {ps : List (Rule α)} (h : ∀ p ∈ ps, Progress p) :
    Progress (firstOf ps) := by
  induction ps with
  | nil => intro s a n hs; simp [firstOf, fail] at hs
  | cons p ps ih =>
    intro s a n hs
    unfold firstOf at hs
    split at hs
    · rename_i r hr
      cases hs
      exact h p (by simp) s a n hr
    · exact ih (fun q hq => h q (by simp [hq])) s a n hs

end Rule
end WordMachine
