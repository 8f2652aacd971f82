import Mathlib.Data.List.Induction
import Mathlib.Data.List.Nodup
import WordMachine.Proofs.Assembly.Layout

/-!
# Which names are bound, and to what

Layout goes through unless a name is bound twice.  Neither the cursor nor what the names are
bound to has a part in that: it is a matter of the list of names alone, and the first name on
the list that has been there before is the one that is reported
(`Statement.layout_eq_error_iff`).

If layout goes through, the entries are those of the definitions, one after the other, each at
its cursor (`Statement.entriesFrom`).  No other entry has the same name, so what a name means is
decided by the one definition of that name, and only the word that a label or a data block is
bound to depends on the place the program is laid out for.

The induction on statements is from their end: what stands in front of the last statement is
laid out without it, and the last statement is then bound among the names in front of it.

* `Statement.boundNames`, `Statement.entriesFrom`: the names and the entries of statements.
* `Statement.layout_eq_ok_iff`, `Statement.layout_eq_error_iff`: the outcomes of layout.
* `Scope.find?_eq_some_iff`: without repetition, looking up a name is membership.
-/

namespace WordMachine

namespace Scope

/-- The names that are bound, in the order in which they were bound. -/
def names (s : Scope) : List String := s.entries.map Entry.name

theorem isBound_eq_true_iff_mem_names {s : Scope} {name : String} :
    s.isBound name = true ↔ name ∈ s.names := by
  rw [isBound_iff, names, List.mem_map]

theorem isBound_eq_false_iff {s : Scope} {name : String} :
    s.isBound name = false ↔ name ∉ s.names := by
  rw [← isBound_eq_true_iff_mem_names, Bool.not_eq_true]

/-- If no name is bound twice, what is found under the name of an entry is the entry. -/
theorem find?_eq_some_iff {s : Scope} (h : s.names.Nodup) {name : String} {e : Entry} :
    s.find? name = some e ↔ e ∈ s.entries ∧ e.name = name := by
  obtain ⟨entries⟩ := s
  rw [names] at h
  rw [find?]
  constructor
  · intro hfind
    exact ⟨List.mem_of_find?_eq_some hfind, by simpa using List.find?_some hfind⟩
  · rintro ⟨hmem, rfl⟩
    induction entries with
    | nil => exact absurd hmem List.not_mem_nil
    | cons x xs ih =>
      obtain ⟨hx, hxs⟩ := List.nodup_cons.mp h
      rcases List.mem_cons.mp hmem with rfl | hmem
      · exact List.find?_cons_of_pos (by simp)
      · have hne : x.name ≠ e.name := fun heq => hx (heq ▸ List.mem_map_of_mem hmem)
        rw [List.find?_cons_of_neg (by simpa using hne)]
        exact ih hxs hmem

end Scope

namespace Statement

/-- The names that statements bind, in source order. -/
def boundNames (sts : List Statement) : List String := sts.filterMap binds?

/-- What a statement binds that stands at the cursor. -/
def entry? (cursor : Word) : Statement → Option Entry
  | .instruction _ _ => none
  | .define _ name definition => some (definition.entry name cursor)

/-- What statements bind of which the first stands at the cursor. -/
def entriesFrom (cursor : Word) : List Statement → List Entry
  | [] => []
  | st :: rest => (st.entry? cursor).toList ++ entriesFrom (cursor + st.extent) rest

section Names

variable (cursor : Word)

theorem boundNames_append (xs ys : List Statement) :
    boundNames (xs ++ ys) = boundNames xs ++ boundNames ys := List.filterMap_append

theorem entriesFrom_append (xs ys : List Statement) :
    entriesFrom cursor (xs ++ ys) =
      entriesFrom cursor xs ++ entriesFrom (cursorAfter cursor xs) ys := by
  induction xs generalizing cursor with
  | nil => rfl
  | cons st xs ih =>
    rw [List.cons_append, entriesFrom, entriesFrom, ih, List.append_assoc]
    rfl

theorem entriesFrom_singleton (st : Statement) :
    entriesFrom cursor [st] = (st.entry? cursor).toList := List.append_nil _

/-- The entries have the names that are bound, in the same order. -/
theorem map_name_entriesFrom (sts : List Statement) :
    (entriesFrom cursor sts).map Entry.name = boundNames sts := by
  induction sts generalizing cursor with
  | nil => rfl
  | cons st sts ih =>
    rw [entriesFrom, List.map_append, ih]
    cases st with
    | instruction opcode operands => rfl
    | define exported name d => exact congrArg (· :: _) (d.name_entry name cursor)

theorem names_entriesFrom (sts : List Statement) :
    (Scope.mk (entriesFrom cursor sts)).names = boundNames sts :=
  map_name_entriesFrom cursor sts

end Names

/-! ## The outcomes of layout -/

variable {origin : Word} {sts : List Statement}

/-- The last statement is bound among the names of those in front of it. -/
theorem layout_append_singleton (origin : Word) (xs : List Statement) (st : Statement) :
    layout origin (xs ++ [st]) =
      (layout origin xs >>= fun named => st.bind (cursorAfter origin xs) named) := by
  rw [layout, layoutFrom_append]
  refine congrArg _ (funext fun named => ?_)
  rw [layoutFrom]
  cases st.bind (cursorAfter origin xs) named <;> rfl

/-- A statement that binds a free name, or none, is bound behind the others. -/
theorem bind_eq_ok {cursor : Word} {scope : Scope} {st : Statement}
    (h : ∀ name ∈ st.binds?, name ∉ scope.names) :
    st.bind cursor scope = .ok ⟨scope.entries ++ (st.entry? cursor).toList⟩ := by
  cases st with
  | instruction opcode operands =>
    rw [bind, entry?, Option.toList_none, List.append_nil]
  | define exported name d =>
    refine Scope.insert_of_not_isBound (Scope.isBound_eq_false_iff.mpr ?_)
    rw [Definition.name_entry]
    exact h name rfl

/-- A statement that binds a name once more ends layout. -/
theorem bind_eq_error {cursor : Word} {scope : Scope} {st : Statement} {name : String}
    (hst : st.binds? = some name) (hname : name ∈ scope.names) :
    st.bind cursor scope = .error (.duplicateBinding name) := by
  cases st with
  | instruction opcode operands => exact nomatch hst
  | define exported n d =>
    obtain rfl := Option.some.inj hst
    have hbound : scope.isBound (d.entry n cursor).name = true := by
      rwa [Definition.name_entry, Scope.isBound_eq_true_iff_mem_names]
    have herror := Scope.insert_of_isBound hbound
    rwa [Definition.name_entry] at herror

theorem nodup_boundNames_concat {xs : List Statement} {st : Statement} :
    (boundNames (xs ++ [st])).Nodup ↔
      (boundNames xs).Nodup ∧ ∀ name ∈ st.binds?, name ∉ boundNames xs := by
  have hlast : boundNames [st] = st.binds?.toList := by
    cases hst : st.binds? <;> simp [boundNames, hst]
  rw [boundNames_append, hlast]
  cases st.binds? with
  | none => simp
  | some name => simp [← List.concat_eq_append, List.nodup_concat, and_comm]

/-- **What layout binds.**  Layout goes through if no name is bound twice, and then every
definition has its entry. -/
theorem layout_of_nodup (h : (boundNames sts).Nodup) :
    layout origin sts = .ok ⟨entriesFrom origin sts⟩ := by
  induction sts using List.reverseRecOn with
  | nil => rfl
  | append_singleton xs st ih =>
    obtain ⟨hxs, hst⟩ := nodup_boundNames_concat.mp h
    rw [layout_append_singleton, ih hxs, entriesFrom_append, entriesFrom_singleton]
    refine bind_eq_ok ?_
    rwa [names_entriesFrom]

/-- The name is bound by a statement and by one in front of it, and in front of that one no name
is bound twice: it is the first to be repeated. -/
def Repeats (sts : List Statement) (name : String) : Prop :=
  ∃ before st after, sts = before ++ st :: after ∧ st.binds? = some name ∧
    name ∈ boundNames before ∧ (boundNames before).Nodup

/-- Some name is the first to be repeated, if any is repeated. -/
theorem exists_repeats (h : ¬ (boundNames sts).Nodup) : ∃ name, Repeats sts name := by
  induction sts using List.reverseRecOn with
  | nil => exact absurd List.nodup_nil h
  | append_singleton xs st ih =>
    by_cases hxs : (boundNames xs).Nodup
    · have hst : ¬ ∀ name ∈ st.binds?, name ∉ boundNames xs :=
        fun hst => h (nodup_boundNames_concat.mpr ⟨hxs, hst⟩)
      push Not at hst
      obtain ⟨name, hname, hmem⟩ := hst
      exact ⟨name, xs, st, [], rfl, hname, hmem, hxs⟩
    · obtain ⟨name, before, x, after, rfl, hx⟩ := ih hxs
      exact ⟨name, before, x, after ++ [st], by simp, hx⟩

theorem not_nodup_of_repeats {name : String} (h : Repeats sts name) :
    ¬ (boundNames sts).Nodup := by
  obtain ⟨before, st, after, rfl, hst, hname, -⟩ := h
  rw [boundNames_append, List.nodup_append]
  rintro ⟨-, -, hne⟩
  refine hne name hname name ?_ rfl
  rw [boundNames, List.filterMap_cons_some hst]
  exact List.mem_cons_self

/-- Layout ends at the first name that is repeated. -/
theorem layout_of_repeats {name : String} (h : Repeats sts name) :
    layout origin sts = .error (.duplicateBinding name) := by
  obtain ⟨before, st, after, rfl, hst, hname, hnodup⟩ := h
  have hlayout : layoutFrom origin .empty before = .ok ⟨entriesFrom origin before⟩ :=
    layout_of_nodup hnodup
  rw [layout, layoutFrom_append, hlayout]
  show layoutFrom (cursorAfter origin before) ⟨entriesFrom origin before⟩ (st :: after) = _
  rw [layoutFrom, bind_eq_error hst]
  · rfl
  · rwa [names_entriesFrom]

theorem layout_eq_ok_iff {scope : Scope} :
    layout origin sts = .ok scope ↔
      (boundNames sts).Nodup ∧ scope = ⟨entriesFrom origin sts⟩ := by
  constructor
  · intro h
    by_cases hnodup : (boundNames sts).Nodup
    · rw [layout_of_nodup hnodup] at h
      exact ⟨hnodup, (Except.ok.inj h).symm⟩
    · obtain ⟨name, hname⟩ := exists_repeats hnodup
      rw [layout_of_repeats hname] at h
      exact nomatch h
  · rintro ⟨hnodup, rfl⟩
    exact layout_of_nodup hnodup

/-- **Why layout fails.**  It fails for the first name that is repeated, wherever the program is
laid out. -/
theorem layout_eq_error_iff {e : AssemblyError} :
    layout origin sts = .error e ↔ ∃ name, Repeats sts name ∧ e = .duplicateBinding name := by
  constructor
  · intro h
    by_cases hnodup : (boundNames sts).Nodup
    · rw [layout_of_nodup hnodup] at h
      exact nomatch h
    · obtain ⟨name, hname⟩ := exists_repeats hnodup
      rw [layout_of_repeats hname] at h
      exact ⟨name, hname, (Except.error.inj h).symm⟩
  · rintro ⟨name, hname, rfl⟩
    exact layout_of_repeats hname

end Statement
end WordMachine
