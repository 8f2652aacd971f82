import WordMachine.Proofs.Grammar.Cut
import WordMachine.Proofs.Grammar.Spelling

/-!
# Lists between braces

The items of a block of data and the members of a struct stand between braces, with commas.  Which
commas are accepted?  Written down, a list is `(item ','?)*`: a comma may be left out, but there is
none that does not directly follow an item.  The rule reads a list with separators, and behind it a
comma that may be there or not, and the two are tried one after the other.  So the items have one
comma between two of them and perhaps one behind the last, which is less than what is written down;
and where there is no item, there is still perhaps a comma, which is more.

Stated over tokens this is short.  What stands between the braces spells items and commas, with
blanks and comments between them (`Grammar.Spells`), and a list is read as `xs` if and only if the
tokens are those of `Grammar.listed xs trailing`, for one of the two values of `trailing`.  That it
is read only then goes along the rule; that it is read then needs to know where the rule stops, and
behind an item that depends on the token that follows.

* `Grammar.Spells`, `Grammar.listed`, `Grammar.CommasFollow`: tokens and their text.
* `Grammar.spelledBy_braced`: what is read between braces.
* `Grammar.isWritten_iff_of_isList`: what of that is a word of `(item ','?)*`.
-/

namespace WordMachine

open Rule Lexeme

namespace Grammar

/-! ## Items and commas -/

/-- What stands between braces: items and commas. -/
inductive Token (α : Type) where
  | item (a : α)
  | comma

variable {α : Type} {Item : List Char → α → Prop} {tokens : List (Token α)}

/-- The text spells the tokens: blanks and comments stand in front of each and behind the last. -/
inductive Spells (Item : List Char → α → Prop) : List Char → List (Token α) → Prop where
  | nil {g : List Char} (hg : IsClosedBlank g) : Spells Item g []
  | item {g text s : List Char} {a : α} {tokens : List (Token α)} (hg : IsClosedBlank g)
    (htext : Item text a) (hs : Spells Item s tokens) :
    Spells Item (g ++ (text ++ s)) (.item a :: tokens)
  | comma {g s : List Char} {tokens : List (Token α)} (hg : IsClosedBlank g)
    (hs : Spells Item s tokens) : Spells Item (g ++ ',' :: s) (.comma :: tokens)

theorem Spells.gap_append {g s : List Char} (hg : IsClosedBlank g) (hs : Spells Item s tokens) :
    Spells Item (g ++ s) tokens := by
  cases hs with
  | nil hg' => exact .nil (hg.append hg')
  | item hg' htext hs =>
    rw [← List.append_assoc]
    exact .item (hg.append hg') htext hs
  | comma hg' hs =>
    rw [← List.append_assoc]
    exact .comma (hg.append hg') hs

/-- The comma behind the last item, or nothing. -/
def lastComma (trailing : Bool) : List (Token α) := if trailing then [.comma] else []

/-- The items with one comma between two of them, and perhaps one comma more. -/
def listed (xs : List α) (trailing : Bool) : List (Token α) :=
  (xs.map .item).intersperse .comma ++ lastComma trailing

/-- Items that stand behind another one, with their commas. -/
def following (xs : List α) : List (Token α) := xs.flatMap fun x => [.comma, .item x]

theorem listed_cons (x : α) (xs : List α) (trailing : Bool) :
    listed (x :: xs) trailing = .item x :: (following xs ++ lastComma trailing) := by
  have hitems : ((x :: xs).map Token.item).intersperse .comma = .item x :: following xs := by
    induction xs generalizing x with
    | nil => rfl
    | cons y xs ih => exact congrArg (fun ts => .item x :: .comma :: ts) (ih y)
  rw [listed, hitems, List.cons_append]

/-- The words of `(item ','?)*`: each comma directly follows an item. -/
inductive CommasFollow : List (Token α) → Prop where
  | nil : CommasFollow []
  | item {a : α} {tokens : List (Token α)} (h : CommasFollow tokens) :
    CommasFollow (.item a :: tokens)
  | itemComma {a : α} {tokens : List (Token α)} (h : CommasFollow tokens) :
    CommasFollow (.item a :: .comma :: tokens)

/-- No word of `(item ','?)*` begins with a comma. -/
theorem CommasFollow.nil_or_item (h : CommasFollow tokens) :
    tokens = [] ∨ ∃ a ts, tokens = .item a :: ts := by
  cases h with
  | nil => exact .inl rfl
  | item => exact .inr ⟨_, _, rfl⟩
  | itemComma => exact .inr ⟨_, _, rfl⟩

/-- Items with their commas are a word of `(item ','?)*`, and a comma without items is none. -/
theorem commasFollow_listed_iff (xs : List α) (trailing : Bool) :
    CommasFollow (listed xs trailing) ↔ (xs = [] → trailing = false) := by
  cases xs with
  | nil =>
    cases trailing with
    | false => exact iff_of_true .nil fun _ => rfl
    | true => exact iff_of_false nofun fun h => nomatch h rfl
  | cons x xs =>
    refine iff_of_true ?_ nofun
    rw [listed_cons]
    induction xs generalizing x with
    | nil =>
      cases trailing with
      | false => exact .item .nil
      | true => exact .itemComma .nil
    | cons y xs ih => exact .itemComma (ih y)

/-! ## What is between braces -/

/-- A rule for the items of a list: an item begins with nothing that stands around items. -/
structure IsItemRule (item : Rule α) (Item : List Char → α → Prop) : Prop where
  spelledBy : item.SpelledBy Item isNameRest
  starts : item.Starts fun c => isGapStart c = false ∧ c ≠ ',' ∧ c ≠ '\x7d'

section Braced

variable {item : Rule α} {s t rest : List Char} {x : α} {xs : List α} {trailing : Bool}

/-- A separator and the item behind it spell a comma and an item. -/
theorem spells_of_comma_item (hitem : IsItemRule item Item) (hne : rest ≠ [])
    (h : (comma >>= fun _ => item).Reads s x rest) (ht : Spells Item t tokens) :
    Spells Item (s ++ t) (.comma :: .item x :: tokens) := by
  obtain ⟨_, _, u, rfl, hcomma, hx⟩ := reads_bind_iff.mp h
  obtain ⟨_, g, _, rfl, hg, hcomma⟩ := reads_bind_iff.mp hcomma
  obtain ⟨_, c, g', rfl, hc, hg'⟩ := reads_bind_iff.mp hcomma
  obtain rfl := hc.of_char
  have hu := Spells.item (isClosedBlank_of_gap hg' (List.append_ne_nil_of_right_ne_nil u hne))
    (hitem.spelledBy.text hx) ht
  have hall := Spells.comma (isClosedBlank_of_gap hg nofun) hu
  simpa only [List.append_assoc, List.cons_append, List.nil_append] using hall

theorem spells_of_many (hitem : IsItemRule item Item) (hne : rest ≠ [])
    (h : (many (comma >>= fun _ => item)).Reads s xs rest) (ht : Spells Item t tokens) :
    Spells Item (s ++ t) (following xs ++ tokens) := by
  induction xs generalizing s with
  | nil =>
    rcases h.of_many with ⟨rfl, -⟩ | ⟨_, _, _, _, hcons, -⟩
    · exact ht
    · exact nomatch hcons
  | cons x xs ih =>
    rcases h.of_many with ⟨-, hnil⟩ | ⟨y, ys, u, v, hcons, rfl, hy, hys⟩
    · exact nomatch hnil
    · obtain ⟨rfl, rfl⟩ := List.cons_eq_cons.mp hcons
      rw [List.append_assoc]
      exact spells_of_comma_item hitem (List.append_ne_nil_of_right_ne_nil v hne) hy (ih hys)

/-- In front of the brace stands a comma or nothing. -/
theorem exists_of_endOfList (Item : List Char → α → Prop) {ys : List α}
    (h : (endOfList xs).Reads s ys rest) :
    ys = xs ∧ ∃ e trailing, s = e ++ ['\x7d'] ∧ Spells Item e (lastComma trailing) := by
  obtain ⟨o, e, _, rfl, ho, h⟩ := reads_bind_iff.mp h
  obtain ⟨_, g, _, rfl, hg, h⟩ := reads_bind_iff.mp h
  obtain ⟨_, hys, hbrace⟩ := reads_map_iff.mp h
  obtain rfl := hbrace.of_char
  have hclosed := isClosedBlank_of_gap hg nofun
  refine ⟨hys, ?_⟩
  rcases reads_optional_iff.mp ho with ⟨_, -, hcomma⟩ | ⟨-, rfl, -⟩
  · obtain ⟨_, g', _, rfl, hg', hc⟩ := reads_bind_iff.mp hcomma
    obtain rfl := hc.of_char
    refine ⟨g' ++ ',' :: g, true, ?_, .comma (isClosedBlank_of_gap hg' nofun) (.nil hclosed)⟩
    simp only [List.append_assoc, List.cons_append, List.nil_append]
  · exact ⟨g, false, rfl, .nil hclosed⟩

/-- The text spells the items with their commas. -/
def IsList (Item : List Char → α → Prop) (body : List Char) (xs : List α) : Prop :=
  ∃ trailing, Spells Item body (listed xs trailing)

/-- The text of a list: between braces, the items with their commas. -/
def IsListText (Item : List Char → α → Prop) (text : List Char) (xs : List α) : Prop :=
  ∃ body, text = '\x7b' :: (body ++ ['\x7d']) ∧ IsList Item body xs

theorem isListText_of_braced (hitem : IsItemRule item Item) (h : (braced item).Reads s xs rest) :
    IsListText Item s xs := by
  obtain ⟨_, _, _, rfl, hopen, h⟩ := reads_bind_iff.mp h
  obtain ⟨_, g, _, rfl, hg, h⟩ := reads_bind_iff.mp h
  obtain ⟨ys, l, _, rfl, hlist, hend⟩ := reads_bind_iff.mp h
  obtain ⟨rfl, e, trailing, rfl, he⟩ := exists_of_endOfList Item hend
  have hopened : IsClosedBlank g := isClosedBlank_of_gap hg (by simp)
  refine ⟨g ++ (l ++ e), ?_, trailing, .gap_append hopened ?_⟩
  · rw [hopen.of_char]
    simp only [List.append_assoc, List.cons_append, List.nil_append]
  · rcases hlist.of_sepBy with ⟨rfl, rfl⟩ | ⟨y, ys, u, v, rfl, rfl, hy, hys⟩
    · exact he
    · rw [listed_cons, List.append_assoc]
      exact Spells.item (g := []) .nil (hitem.spelledBy.text hy)
        (spells_of_many hitem (by simp) hys he)

/-! ## What is accepted between braces -/

/-- The text of an item is not empty, and it begins with nothing that stands around items. -/
theorem IsItemRule.exists_cons (hitem : IsItemRule item Item) (hs : Item s x) :
    ∃ c t, s = c :: t ∧ isGapStart c = false ∧ c ≠ ',' := by
  have hread : item.Reads s x ['\x7d'] := hitem.spelledBy.reads hs rfl
  obtain ⟨c, u, hcons, hgap, hcomma, hbrace⟩ := hitem.starts _ (hread ▸ Option.some_ne_none _)
  cases s with
  | nil => exact absurd (List.cons_eq_cons.mp hcons).1.symm hbrace
  | cons d s =>
    obtain ⟨rfl, -⟩ := List.cons_eq_cons.mp hcons
    exact ⟨d, s, rfl, hgap, hcomma⟩

theorem IsItemRule.stops (hitem : IsItemRule item Item) (hs : Item s x) (t : List Char) :
    Stops isGapStart (s ++ t) := by
  obtain ⟨c, u, rfl, hc, -⟩ := hitem.exists_cons hs
  exact hc

theorem IsItemRule.eq_none (hitem : IsItemRule item Item) {c : Char} (hc : c = ',' ∨ c = '\x7d')
    (t : List Char) : item (c :: t) = none := by
  by_contra hne
  obtain ⟨d, u, hcons, -, hcomma, hbrace⟩ := hitem.starts _ hne
  obtain ⟨rfl, -⟩ := List.cons_eq_cons.mp hcons
  exact hc.elim hcomma hbrace

/-- No gap goes on with a comma. -/
theorem stops_comma (t : List Char) : Stops isGapStart (',' :: t) := rfl

/-- No gap goes on with a brace. -/
theorem stops_brace (t : List Char) : Stops isGapStart ('\x7d' :: t) := rfl

theorem reads_comma_of_isClosedBlank {g g' : List Char} (hg : IsClosedBlank g)
    (hg' : IsClosedBlank g') (hrest : Stops isGapStart rest) :
    comma.Reads (g ++ ',' :: g') () rest :=
  (reads_gap_of_isClosedBlank hg (stops_comma _)).bind
    (.cons_bind (reads_char _ _) (reads_gap_of_isClosedBlank hg' hrest))

/-- Behind an item, the name or the digits of the item do not go on. -/
theorem stops_of_spells (h : Spells Item s (following xs ++ lastComma trailing))
    (rest : List Char) : Stops isNameRest (s ++ '\x7d' :: rest) := by
  have hname (c : Char) (hc : isGapStart c = true) : isNameRest c = false := by
    refine Bool.eq_false_iff.mpr fun hrest => ?_
    rw [isGapStart_of_isNameRest hrest] at hc
    exact Bool.false_ne_true hc
  generalize htokens : following xs ++ lastComma trailing = tokens at h
  cases h with
  | nil hg => exact hg.stops_append hname rfl
  | item => cases xs <;> cases trailing <;> exact nomatch htokens
  | comma hg hs =>
    rw [List.append_assoc]
    exact hg.stops_append hname rfl

/-- Behind the last item, no item stands behind a comma. -/
theorem comma_item_eq_none (hitem : IsItemRule item Item)
    (h : Spells Item s (lastComma trailing)) (rest : List Char) :
    (comma >>= fun _ => item) (s ++ '\x7d' :: rest) = none := by
  cases trailing with
  | false =>
    cases h with
    | nil hg =>
      exact bind_eq_none ((reads_gap_of_isClosedBlank hg (stops_brace rest)).bind_eq_none rfl)
  | true =>
    cases h with
    | comma hg hs =>
      cases hs with
      | nil hg' =>
        exact (reads_comma_of_isClosedBlank hg hg' (stops_brace rest)).bind_eq_none
          (hitem.eq_none (.inr rfl) rest)

/-- Behind an item, the repetition reads all the other items, and not the last comma. -/
theorem exists_reads_many (hitem : IsItemRule item Item)
    (h : Spells Item s (following xs ++ lastComma trailing)) (rest : List Char) :
    ∃ l e, s = l ++ e ∧ Spells Item e (lastComma trailing) ∧
      (many (comma >>= fun _ => item)).Reads l xs (e ++ '\x7d' :: rest) := by
  induction xs generalizing s with
  | nil => exact ⟨[], s, rfl, h, reads_many_nil (comma_item_eq_none hitem h rest)⟩
  | cons x xs ih =>
    cases h with
    | @comma g _ _ hg hs =>
      cases hs with
      | @item g' text _ _ _ hg' htext hs =>
        obtain ⟨l, e, rfl, he, hl⟩ := ih hs
        have hstops := stops_of_spells hs rest
        rw [List.append_assoc] at hstops
        have hcomma := reads_comma_of_isClosedBlank hg hg'
          (hitem.stops htext (l ++ (e ++ '\x7d' :: rest)))
        refine ⟨(g ++ ',' :: g' ++ text) ++ l, e, ?_, he, Reads.many_cons
          (hcomma.bind (hitem.spelledBy.reads htext hstops)) (by simp) hl⟩
        simp only [List.append_assoc, List.cons_append]

/-- The last comma, if it is there, and the brace. -/
theorem reads_endOfList_of_spells (h : Spells Item s (lastComma trailing)) (xs : List α)
    (rest : List Char) : (endOfList xs).Reads (s ++ ['\x7d']) xs rest := by
  cases trailing with
  | false =>
    cases h with
    | nil hg =>
      have hgap : gap.Reads s () ('\x7d' :: rest) := reads_gap_of_isClosedBlank hg (stops_brace _)
      have hcomma : (gap >>= fun _ => char ',') (s ++ ['\x7d'] ++ rest) = none := by
        rw [List.append_assoc]
        exact hgap.bind_eq_none rfl
      exact .nil_bind (reads_optional_none hcomma)
        (Reads.bind (t := ['\x7d']) hgap ((reads_char _ _).bind_nil (reads_pure _ _)))
  | true =>
    cases h with
    | @comma g s _ hg hs =>
      cases hs with
      | nil hg' =>
        have hcomma : (gap >>= fun _ => char ',').Reads (g ++ [',']) () (s ++ ['\x7d'] ++ rest) :=
          (reads_gap_of_isClosedBlank hg (stops_comma _)).bind (reads_char _ _)
        have hgap : gap.Reads s () ('\x7d' :: rest) :=
          reads_gap_of_isClosedBlank hg' (stops_brace _)
        refine Reads.congr (s := (g ++ [',']) ++ (s ++ ['\x7d'])) ?_ (by simp)
        exact (reads_optional_some hcomma).bind
          (Reads.bind (t := ['\x7d']) hgap ((reads_char _ _).bind_nil (reads_pure _ _)))

/-- The pieces of a list: the blanks behind the opening brace, the items, and the end. -/
theorem reads_braced_of_pieces {g l e : List Char} (hg : IsClosedBlank g)
    (hstops : Stops isGapStart (l ++ (e ++ '\x7d' :: rest)))
    (hl : (sepBy comma item).Reads l xs (e ++ '\x7d' :: rest))
    (he : Spells Item e (lastComma trailing)) :
    (braced item).Reads ('\x7b' :: (g ++ (l ++ e) ++ ['\x7d'])) xs rest := by
  have hend := reads_endOfList_of_spells he xs rest
  refine Reads.congr (s := '\x7b' :: (g ++ (l ++ (e ++ ['\x7d'])))) ?_ (by simp)
  refine .cons_bind (reads_char _ _) ((reads_gap_of_isClosedBlank hg ?_).bind (Reads.bind ?_ hend))
  · simpa using hstops
  · show (sepBy comma item).Reads l xs (e ++ ['\x7d'] ++ rest)
    rwa [List.append_assoc]

theorem reads_braced_of_isListText (hitem : IsItemRule item Item) (h : IsListText Item s xs)
    (rest : List Char) : (braced item).Reads s xs rest := by
  obtain ⟨body, rfl, trailing, hbody⟩ := h
  cases xs with
  | nil =>
    -- where there is no item, the comma that may be there is still tried
    cases trailing with
    | false =>
      cases hbody with
      | nil hg =>
        have hnone : item ('\x7d' :: rest) = none := hitem.eq_none (.inr rfl) rest
        have hend : Spells Item [] (lastComma false) := .nil .nil
        have hread := reads_braced_of_pieces (l := []) hg (stops_brace rest)
          (reads_sepBy_nil hnone) hend
        rwa [List.append_nil, List.append_nil] at hread
    | true =>
      cases hbody with
      | @comma g s _ hg hs =>
        have hnone : item (',' :: (s ++ '\x7d' :: rest)) = none := hitem.eq_none (.inl rfl) _
        have hcomma : Spells Item (',' :: s) (lastComma true) := Spells.comma (g := []) .nil hs
        exact reads_braced_of_pieces (l := []) hg (stops_comma _) (reads_sepBy_nil hnone) hcomma
  | cons x xs =>
    rw [listed_cons] at hbody
    cases hbody with
    | @item g text s _ _ hg htext hs =>
      obtain ⟨l, e, rfl, he, hl⟩ := exists_reads_many hitem hs rest
      have hstops := stops_of_spells hs rest
      rw [List.append_assoc] at hstops
      have hlist := Reads.sepBy (hitem.spelledBy.reads htext hstops) hl
      have hread := reads_braced_of_pieces hg (by simpa using hitem.stops htext _) hlist he
      rwa [List.append_assoc text] at hread

/-- **The items of a list have one comma between two of them, and perhaps one more**,
which may stand there without items. -/
theorem spelledBy_braced (hitem : IsItemRule item Item) :
    (braced item).SpelledBy (IsListText Item) fun _ => false where
  text hs := isListText_of_braced hitem hs
  reads hs _ := reads_braced_of_isListText hitem hs _

/-! ## Which lists are written as they should be -/

/-- The text between the braces is a word of `(item ','?)*`. -/
def IsWritten (Item : List Char → α → Prop) (body : List Char) : Prop :=
  ∃ tokens, CommasFollow tokens ∧ Spells Item body tokens

/-- A text that spells a comma alone spells no word of `(item ','?)*`: the first character behind
its blanks and comments is a comma. -/
theorem not_isWritten_of_spells_comma (hitem : IsItemRule item Item)
    (h : Spells Item s [.comma]) : ¬ IsWritten Item s := by
  rintro ⟨tokens, hfollow, htokens⟩
  have hcomma : ∃ u, (s ++ ['\x7d']).drop (gapLength (s ++ ['\x7d'])) = ',' :: u := by
    cases h with
    | comma hg _ =>
      rw [List.append_assoc]
      exact ⟨_, drop_gapLength_of_isClosedBlank hg (stops_comma _)⟩
  obtain ⟨u, hu⟩ := hcomma
  rcases hfollow.nil_or_item with rfl | ⟨a, ts, rfl⟩
  · cases htokens with
    | nil hg =>
      rw [drop_gapLength_of_isClosedBlank hg (stops_brace [])] at hu
      exact absurd (List.cons_eq_cons.mp hu).1 (by decide)
  · cases htokens with
    | item hg htext _ =>
      rw [List.append_assoc, List.append_assoc,
        drop_gapLength_of_isClosedBlank hg (hitem.stops htext _)] at hu
      obtain ⟨c, t, rfl, -, hne⟩ := hitem.exists_cons htext
      exact hne (List.cons_eq_cons.mp hu).1

/-- **A list that is read is a word of `(item ','?)*` unless a comma stands there alone.** -/
theorem isWritten_iff_of_isList (hitem : IsItemRule item Item) (h : IsList Item s xs) :
    IsWritten Item s ↔ ¬ Spells Item s [.comma] := by
  refine ⟨fun hwritten hcomma => not_isWritten_of_spells_comma hitem hcomma hwritten, fun hno => ?_⟩
  obtain ⟨trailing, hs⟩ := h
  refine ⟨_, (commasFollow_listed_iff xs trailing).mpr fun hxs => ?_, hs⟩
  subst hxs
  cases trailing with
  | false => rfl
  | true => exact absurd hs hno

end Braced

end Grammar
end WordMachine
