import WordMachine.Proofs.Assembly.Names

/-!
# One list or three tables

A scope is a single list of entries.  The names of a module can also be kept in three tables:
what each symbol stands for, by its name; the layout of each struct, by its name; and the names
in the order in which they were bound.  A look-up is then a look into one table, and a listing
goes through the order and looks up one name after the other.

With three tables there is something to go wrong.  A name that has entered a table and not the
order is lost to every listing; one that has entered the order twice is listed twice; one that
stands in both tables means two things.  None of this happens (`Tables.Shows`): filled by the same
calls, the tables show what the list shows, and they refuse the same calls.

What the list shows after any calls, some of which may have failed, is then said once for both
(`NameView.Records`).  The first call with a name decides what the name means.  Later calls with it
are refused and change nothing.

* `Tables`, `Tables.insert`: the tables, and a call on them.
* `Scope.afterCalls`, `Tables.afterCalls`: what there is after calls, from the empty store.
* `Scope.granted`: the calls that have succeeded.
* `first_binding_stands`: what both stores show, and which calls they refuse.
-/

namespace WordMachine

/-- The word or address of an entry that is a symbol. -/
def Entry.binding? (e : Entry) : Option Binding := e.asSymbol?.map Prod.snd

/-! ## Tables -/

/-- Names bound in three tables. -/
structure Tables where
  symbols : Std.HashMap String Binding
  structs : Std.HashMap String StructLayout
  /-- The names, in the order in which they were bound. -/
  order : List String

namespace Tables

/-- No names. -/
def empty : Tables := ⟨∅, ∅, []⟩

/-- Whether a name is bound, to whatever kind of thing. -/
def isBound (t : Tables) (name : String) : Bool :=
  t.symbols.contains name || t.structs.contains name

/-- Enters a name into the order and what it means into the table of its kind. -/
def enter (t : Tables) : Entry → Tables
  | .symbol name binding =>
    { t with order := t.order ++ [name], symbols := t.symbols.insert name binding }
  | .struct layout =>
    { t with order := t.order ++ [layout.name], structs := t.structs.insert layout.name layout }

/-- Binds a name that is still free. -/
def insert (e : Entry) : EStateM AssemblyError Tables Unit := fun t =>
  if t.isBound e.name then .error (.duplicateBinding e.name) t else .ok () (t.enter e)

/-- The symbols, in binding order. -/
def symbolList (t : Tables) : List (String × Binding) :=
  t.order.filterMap fun name => t.symbols[name]?.map (name, ·)

/-- The structs, in binding order. -/
def structList (t : Tables) : List StructLayout := t.order.filterMap (t.structs[·]?)

end Tables

/-! ## What is shown -/

/-- What can be seen of a store of names. -/
structure NameView where
  /-- The names, in the order in which they were bound. -/
  order : List String
  symbol? : String → Option Binding
  struct? : String → Option StructLayout
  symbols : List (String × Binding)
  structs : List StructLayout
  size : Nat

/-- What can be seen of a scope. -/
def Scope.view (s : Scope) : NameView :=
  ⟨s.names, s.symbol?, s.struct?, s.symbols, s.structs, s.size⟩

/-- What can be seen of tables. -/
def Tables.view (t : Tables) : NameView :=
  ⟨t.order, (t.symbols[·]?), (t.structs[·]?), t.symbolList, t.structList, t.symbols.size⟩

/-! ## Calls -/

/-- The scope after a call, which changes it if it succeeds. -/
def Scope.called (s : Scope) (e : Entry) : Scope :=
  match s.insert e with
  | .ok t => t
  | .error _ => s

/-- The scope after calls. -/
def Scope.afterCalls (calls : List Entry) : Scope := calls.foldl Scope.called .empty

/-- The calls that succeed, of calls on a scope one after the other. -/
def Scope.grantedFrom (s : Scope) : List Entry → List Entry
  | [] => []
  | e :: rest =>
    match s.insert e with
    | .ok t => e :: t.grantedFrom rest
    | .error _ => s.grantedFrom rest

/-- The calls that have succeeded. -/
def Scope.granted (calls : List Entry) : List Entry := Scope.empty.grantedFrom calls

/-- The tables after a call, in the state in which it has left them. -/
def Tables.called (t : Tables) (e : Entry) : Tables :=
  match Tables.insert e t with
  | .ok _ t' => t'
  | .error _ t' => t'

/-- The tables after calls. -/
def Tables.afterCalls (calls : List Entry) : Tables := calls.foldl Tables.called .empty

/-! ## The list -/

namespace Scope

variable {s : Scope} {e : Entry}

theorem called_of_isBound (h : s.isBound e.name = true) : s.called e = s := by
  rw [called, insert_of_isBound h]

theorem called_of_not_isBound (h : s.isBound e.name = false) :
    s.called e = ⟨s.entries ++ [e]⟩ := by
  rw [called, insert_of_not_isBound h]

/-- A name is bound if something is found under it. -/
theorem find?_eq_none_iff {name : String} : s.find? name = none ↔ s.isBound name = false := by
  rw [isBound_eq_false_iff, find?, List.find?_eq_none, names]
  simp

/-- A new entry is found under its own name, and nothing else has changed. -/
theorem find?_concat (h : s.isBound e.name = false) (name : String) :
    (Scope.mk (s.entries ++ [e])).find? name = if e.name = name then some e else s.find? name := by
  rw [find?, List.find?_append, ← find?, List.find?_singleton]
  by_cases hname : e.name = name
  · subst hname
    rw [find?_eq_none_iff.mpr h]
    simp
  · simp [hname]

/-- The entries are those of the calls that have succeeded. -/
theorem entries_foldl_called (s : Scope) (calls : List Entry) :
    (calls.foldl called s).entries = s.entries ++ s.grantedFrom calls := by
  induction calls generalizing s with
  | nil => exact (List.append_nil _).symm
  | cons e calls ih =>
    rw [List.foldl_cons, ih, grantedFrom]
    cases h : s.isBound e.name with
    | true => rw [called_of_isBound h, insert_of_isBound h]
    | false =>
      rw [called_of_not_isBound h, insert_of_not_isBound h]
      exact List.append_assoc _ _ _

theorem entries_afterCalls (calls : List Entry) : (afterCalls calls).entries = granted calls :=
  entries_foldl_called .empty calls

/-- What is found under a name is the first entry with it, from before or among the calls. -/
theorem find?_foldl_called (s : Scope) (calls : List Entry) (name : String) :
    (calls.foldl called s).find? name = (s.find? name).or (calls.find? (·.name == name)) := by
  induction calls generalizing s with
  | nil => exact (Option.or_none).symm
  | cons e calls ih =>
    rw [List.foldl_cons, ih, List.find?_cons]
    cases h : s.isBound e.name with
    | true =>
      rw [called_of_isBound h]
      by_cases hname : e.name = name
      · -- the scope has an entry with this name, so what comes behind does not matter
        subst hname
        obtain ⟨found, hfound⟩ := Option.ne_none_iff_exists'.mp fun hnone => by
          rw [find?_eq_none_iff.mp hnone] at h
          exact Bool.noConfusion h
        rw [hfound, Option.some_or, Option.some_or]
      · rw [beq_false_of_ne hname]
    | false =>
      rw [called_of_not_isBound h, find?_concat h]
      by_cases hname : e.name = name
      · subst hname
        rw [if_pos rfl, find?_eq_none_iff.mpr h, BEq.rfl]
        rfl
      · rw [if_neg hname, beq_false_of_ne hname]

/-- The first call with a name decides. -/
theorem find?_afterCalls (calls : List Entry) (name : String) :
    (afterCalls calls).find? name = calls.find? (·.name == name) :=
  find?_foldl_called .empty calls name

theorem nodup_names_called (h : s.names.Nodup) (e : Entry) : (s.called e).names.Nodup := by
  cases hbound : s.isBound e.name with
  | true => rwa [called_of_isBound hbound]
  | false =>
    rw [called_of_not_isBound hbound, names, List.map_append]
    exact List.nodup_append.mpr ⟨h, List.nodup_singleton _, fun x hx y hy hxy =>
      isBound_eq_false_iff.mp hbound ((hxy.trans (List.mem_singleton.mp hy)) ▸ hx)⟩

theorem nodup_names_afterCalls (calls : List Entry) : (afterCalls calls).names.Nodup := by
  induction calls using List.reverseRecOn with
  | nil => exact List.nodup_nil
  | append_singleton calls e ih =>
    rw [afterCalls, List.foldl_append]
    exact nodup_names_called ih e

theorem symbol?_eq_bind (s : Scope) (name : String) :
    s.symbol? name = (s.find? name).bind Entry.binding? := by
  rw [symbol?]
  rcases s.find? name with _ | (_ | _) <;> rfl

theorem struct?_eq_bind (s : Scope) (name : String) :
    s.struct? name = (s.find? name).bind Entry.asStruct? := by
  rw [struct?]
  rcases s.find? name with _ | (_ | _) <;> rfl

/-! ### Listings

Symbols and structs are listed alike: the entries that are of the one kind, in the order of the
list.  `f` picks them out, and `g` reads the name off what it has picked. -/

section Listing

variable {α : Type} {f : Entry → Option α} {g : α → String}

/-- Going through the names and looking each of them up lists what the list itself shows. -/
theorem filterMap_names (h : s.names.Nodup) (f : Entry → Option α) :
    s.names.filterMap (fun name => (s.find? name).bind f) = s.entries.filterMap f := by
  rw [names, List.filterMap_map]
  refine List.filterMap_congr fun e he => ?_
  show (s.find? e.name).bind f = f e
  rw [(find?_eq_some_iff h).mpr ⟨he, rfl⟩, Option.bind_some]

/-- What is listed has its name among the names, and in the same order. -/
theorem sublist_names (hg : ∀ e x, f e = some x → g x = e.name) (s : Scope) :
    ((s.entries.filterMap f).map g).Sublist s.names := by
  obtain ⟨entries⟩ := s
  rw [names]
  induction entries with
  | nil => exact List.Sublist.slnil
  | cons e entries ih =>
    rw [List.map_cons]
    cases he : f e with
    | none =>
      rw [List.filterMap_cons_none he]
      exact ih.cons _
    | some x =>
      rw [List.filterMap_cons_some he, List.map_cons, hg e x he]
      exact ih.cons_cons _

/-- What is found under its name is listed, and nothing else is. -/
theorem mem_filterMap_entries (h : s.names.Nodup) (hg : ∀ e x, f e = some x → g x = e.name)
    {x : α} : x ∈ s.entries.filterMap f ↔ (s.find? (g x)).bind f = some x := by
  rw [List.mem_filterMap, Option.bind_eq_some_iff]
  constructor
  · rintro ⟨e, he, hx⟩
    exact ⟨e, (find?_eq_some_iff h).mpr ⟨he, (hg e x hx).symm⟩, hx⟩
  · rintro ⟨e, he, hx⟩
    exact ⟨e, ((find?_eq_some_iff h).mp he).1, hx⟩

end Listing

end Scope

namespace Entry

theorem fst_of_asSymbol? :
    ∀ (e : Entry) (x : String × Binding), e.asSymbol? = some x → x.1 = e.name
  | .symbol _ _, _, h => congrArg Prod.fst (Option.some.inj h).symm
  | .struct _, _, h => nomatch h

theorem name_of_asStruct? :
    ∀ (e : Entry) (x : StructLayout), e.asStruct? = some x → x.name = e.name
  | .symbol _ _, _, h => nomatch h
  | .struct _, _, h => congrArg StructLayout.name (Option.some.inj h).symm

end Entry

/-! ## The tables show the list -/

namespace Scope

variable {s : Scope} {e : Entry}

/-! What a new entry shows -/

theorem symbol?_concat (h : s.isBound e.name = false) (name : String) :
    (Scope.mk (s.entries ++ [e])).symbol? name =
      if e.name = name then e.binding? else s.symbol? name := by
  rw [symbol?_eq_bind, symbol?_eq_bind, find?_concat h]
  split <;> rfl

theorem struct?_concat (h : s.isBound e.name = false) (name : String) :
    (Scope.mk (s.entries ++ [e])).struct? name =
      if e.name = name then e.asStruct? else s.struct? name := by
  rw [struct?_eq_bind, struct?_eq_bind, find?_concat h]
  split <;> rfl

theorem names_concat (s : Scope) (e : Entry) :
    (Scope.mk (s.entries ++ [e])).names = s.names ++ [e.name] :=
  List.map_append

theorem size_concat (s : Scope) (e : Entry) :
    (Scope.mk (s.entries ++ [e])).size = s.size + e.asSymbol?.toList.length := by
  rw [size, symbols, List.filterMap_append, List.length_append]
  cases e <;> rfl

end Scope

namespace Tables

variable {t : Tables} {e : Entry}

/-! What a free name shows once it has been entered -/

theorem getElem?_symbols_enter (h : t.symbols[e.name]? = none) (name : String) :
    (t.enter e).symbols[name]? = if e.name = name then e.binding? else t.symbols[name]? := by
  cases e with
  | symbol n binding =>
    rw [enter, Std.HashMap.getElem?_insert]
    simp only [beq_iff_eq]
    rfl
  | struct layout =>
    show t.symbols[name]? = _
    split
    · rename_i hname
      rw [← hname, h]
      rfl
    · rfl

theorem getElem?_structs_enter (h : t.structs[e.name]? = none) (name : String) :
    (t.enter e).structs[name]? = if e.name = name then e.asStruct? else t.structs[name]? := by
  cases e with
  | symbol n binding =>
    show t.structs[name]? = _
    split
    · rename_i hname
      rw [← hname, h]
      rfl
    · rfl
  | struct layout =>
    rw [enter, Std.HashMap.getElem?_insert]
    simp only [beq_iff_eq]
    rfl

theorem order_enter (t : Tables) (e : Entry) : (t.enter e).order = t.order ++ [e.name] := by
  cases e <;> rfl

theorem size_symbols_enter (h : t.symbols[e.name]? = none) :
    (t.enter e).symbols.size = t.symbols.size + e.asSymbol?.toList.length := by
  cases e with
  | symbol n binding =>
    have hfresh : n ∉ t.symbols := by
      rw [Std.HashMap.mem_iff_isSome_getElem?, show t.symbols[n]? = none from h]
      exact Bool.false_ne_true
    rw [enter, Std.HashMap.size_insert, if_neg hfresh]
    rfl
  | struct layout => rfl

/-- The tables have the names of the scope, and mean by them what it means. -/
structure Shows (t : Tables) (s : Scope) : Prop where
  order : t.order = s.names
  symbols : ∀ name, t.symbols[name]? = s.symbol? name
  structs : ∀ name, t.structs[name]? = s.struct? name
  size : t.symbols.size = s.size

theorem shows_empty : Tables.empty.Shows Scope.empty where
  order := rfl
  symbols _ := Std.HashMap.getElem?_empty
  structs _ := Std.HashMap.getElem?_empty
  size := Std.HashMap.size_empty

namespace Shows

variable {s : Scope}

/-- What is bound in one of the tables is bound in the list. -/
theorem isBound (h : t.Shows s) (name : String) : t.isBound name = s.isBound name := by
  have hnone : s.find? name = none ↔ s.isBound name = false := Scope.find?_eq_none_iff
  rw [Tables.isBound, Std.HashMap.contains_eq_isSome_getElem?,
    Std.HashMap.contains_eq_isSome_getElem?, h.symbols, h.structs, Scope.symbol?, Scope.struct?]
  rcases hfind : s.find? name with _ | found
  · exact (hnone.mp hfind).symm
  · have hbound : s.isBound name = true := by
      rw [← Bool.not_eq_false, ← hnone, hfind]
      exact Option.some_ne_none found
    rw [hbound]
    cases found <;> rfl

/-- A free name enters the order and one of the tables, as its entry enters the list. -/
theorem enter (h : t.Shows s) (hfree : s.isBound e.name = false) :
    (t.enter e).Shows ⟨s.entries ++ [e]⟩ := by
  have hfind : s.find? e.name = none := Scope.find?_eq_none_iff.mpr hfree
  have hsymbol : t.symbols[e.name]? = none := by
    rw [h.symbols, Scope.symbol?_eq_bind, hfind, Option.bind_none]
  have hstruct : t.structs[e.name]? = none := by
    rw [h.structs, Scope.struct?_eq_bind, hfind, Option.bind_none]
  constructor
  case order => rw [order_enter, h.order, Scope.names_concat]
  case symbols =>
    intro name
    rw [getElem?_symbols_enter hsymbol, Scope.symbol?_concat hfree, h.symbols]
  case structs =>
    intro name
    rw [getElem?_structs_enter hstruct, Scope.struct?_concat hfree, h.structs]
  case size => rw [size_symbols_enter hsymbol, Scope.size_concat, h.size]

/-- Both refuse a bound name, and the tables are then as they were. -/
theorem insert_of_isBound (h : t.Shows s) (hbound : s.isBound e.name = true) :
    insert e t = .error (.duplicateBinding e.name) t := by
  rw [insert, h.isBound, if_pos hbound]

theorem insert_of_not_isBound (h : t.Shows s) (hfree : s.isBound e.name = false) :
    insert e t = .ok () (t.enter e) := by
  rw [insert, h.isBound, hfree, if_neg Bool.false_ne_true]

/-- After the same call the tables still show the list. -/
theorem called (h : t.Shows s) (e : Entry) : (t.called e).Shows (s.called e) := by
  cases hbound : s.isBound e.name with
  | true =>
    rw [Tables.called, h.insert_of_isBound hbound, Scope.called_of_isBound hbound]
    exact h
  | false =>
    rw [Tables.called, h.insert_of_not_isBound hbound, Scope.called_of_not_isBound hbound]
    exact h.enter hbound

end Shows

/-- After the same calls the tables show the list. -/
theorem shows_afterCalls (calls : List Entry) :
    (Tables.afterCalls calls).Shows (Scope.afterCalls calls) := by
  induction calls using List.reverseRecOn with
  | nil => exact shows_empty
  | append_singleton calls e ih =>
    rw [Tables.afterCalls, Scope.afterCalls, List.foldl_append, List.foldl_append]
    exact ih.called e

/-- Tables that show a list without repetition are seen as the list is seen. -/
theorem Shows.view_eq {s : Scope} (h : t.Shows s) (hnodup : s.names.Nodup) : t.view = s.view := by
  have hsymbols : t.symbolList = s.symbols := by
    rw [Scope.symbols, ← Scope.filterMap_names hnodup, symbolList, h.order]
    refine List.filterMap_congr fun name _ => ?_
    rw [h.symbols, Scope.symbol?_eq_bind]
    rcases hfind : s.find? name with _ | (_ | _)
    · rfl
    · obtain ⟨-, rfl⟩ := (Scope.find?_eq_some_iff hnodup).mp hfind
      rfl
    · rfl
  have hstructs : t.structList = s.structs := by
    rw [Scope.structs, ← Scope.filterMap_names hnodup, structList, h.order]
    refine List.filterMap_congr fun name _ => ?_
    rw [h.structs, Scope.struct?_eq_bind]
  rw [view, Scope.view, h.order, hsymbols, hstructs, h.size, funext h.symbols, funext h.structs]

end Tables

/-! ## What there is after calls -/

/-- What a store shows after calls, of which those in `granted` have succeeded. -/
structure NameView.Records (v : NameView) (calls granted : List Entry) : Prop where
  /-- No name stands twice in the order of binding. -/
  nodup : v.order.Nodup
  /-- Every name in it is that of a symbol or of a struct, and the other way round. -/
  mem_order : ∀ name, name ∈ v.order ↔ (v.symbol? name).isSome ∨ (v.struct? name).isSome
  /-- No name is both. -/
  disjoint : ∀ name, v.symbol? name = none ∨ v.struct? name = none
  /-- The first call with a name says what the name stands for as a symbol. -/
  symbol? : ∀ name, v.symbol? name = (calls.find? (·.name == name)).bind Entry.binding?
  /-- It says what it stands for as a struct, too. -/
  struct? : ∀ name, v.struct? name = (calls.find? (·.name == name)).bind Entry.asStruct?
  /-- Symbols are listed in the order in which their calls have succeeded. -/
  symbols : v.symbols = granted.filterMap Entry.asSymbol?
  /-- Every symbol is listed. -/
  mem_symbols : ∀ name binding, (name, binding) ∈ v.symbols ↔ v.symbol? name = some binding
  /-- No symbol is listed twice. -/
  nodup_symbols : (v.symbols.map Prod.fst).Nodup
  /-- Structs are listed in the order in which their calls have succeeded. -/
  structs : v.structs = granted.filterMap Entry.asStruct?
  /-- Every struct is listed. -/
  mem_structs : ∀ layout, layout ∈ v.structs ↔ v.struct? layout.name = some layout
  /-- No struct is listed twice. -/
  nodup_structs : (v.structs.map StructLayout.name).Nodup
  /-- The size is the number of symbols. -/
  size : v.size = v.symbols.length

namespace Scope

theorem mem_names_iff {s : Scope} {name : String} :
    name ∈ s.names ↔ (s.symbol? name).isSome ∨ (s.struct? name).isSome := by
  rw [← isBound_eq_true_iff_mem_names, ← Bool.not_eq_false, ← find?_eq_none_iff, symbol?,
    struct?]
  rcases s.find? name with _ | (_ | _) <;> simp

/-- What a scope shows after calls. -/
theorem records_afterCalls (calls : List Entry) :
    (afterCalls calls).view.Records calls (granted calls) := by
  have hnodup := nodup_names_afterCalls calls
  have hentries := entries_afterCalls calls
  have hfind := find?_afterCalls calls
  generalize afterCalls calls = s at hnodup hentries hfind
  constructor
  case nodup => exact hnodup
  case mem_order => exact fun name => mem_names_iff
  case disjoint =>
    intro name
    show s.symbol? name = none ∨ s.struct? name = none
    rw [symbol?, struct?]
    rcases s.find? name with _ | (_ | _)
    · exact .inl rfl
    · exact .inr rfl
    · exact .inl rfl
  case symbol? => exact fun name => (s.symbol?_eq_bind name).trans (by rw [hfind])
  case struct? => exact fun name => (s.struct?_eq_bind name).trans (by rw [hfind])
  case symbols => exact congrArg _ hentries
  case mem_symbols =>
    intro name binding
    show (name, binding) ∈ s.symbols ↔ s.symbol? name = some binding
    rw [Scope.symbols, mem_filterMap_entries hnodup Entry.fst_of_asSymbol?, symbol?]
    rcases hname : s.find? name with _ | (_ | _)
    · simp
    · obtain ⟨-, rfl⟩ := (find?_eq_some_iff hnodup).mp hname
      simp [Entry.asSymbol?, Entry.name]
    · simp [Entry.asSymbol?]
  case nodup_symbols => exact hnodup.sublist (sublist_names Entry.fst_of_asSymbol? s)
  case structs => exact congrArg _ hentries
  case mem_structs =>
    intro layout
    show layout ∈ s.structs ↔ s.struct? layout.name = some layout
    rw [Scope.structs, mem_filterMap_entries hnodup Entry.name_of_asStruct?, struct?_eq_bind]
  case nodup_structs => exact hnodup.sublist (sublist_names Entry.name_of_asStruct? s)
  case size => rfl

/-- A name is bound if a call with it has succeeded. -/
theorem isBound_afterCalls (calls : List Entry) (name : String) :
    (afterCalls calls).isBound name = true ↔ name ∈ (granted calls).map Entry.name := by
  rw [isBound_eq_true_iff_mem_names, names, entries_afterCalls]

end Scope

/-- **The first binding of a name stands.**  After any calls, successful or not, list and tables
show the same: no name twice, every name as a symbol or as a struct and never as both, and each as
the first call with it has bound it.  A further call fails exactly if a call with its name has
succeeded.  It then changes nothing. -/
theorem first_binding_stands (calls : List Entry) :
    (Scope.afterCalls calls).view.Records calls (Scope.granted calls) ∧
      (Tables.afterCalls calls).view = (Scope.afterCalls calls).view ∧
      ∀ e : Entry,
        if e.name ∈ (Scope.granted calls).map Entry.name then
          (Scope.afterCalls calls).insert e = .error (.duplicateBinding e.name) ∧
            Scope.afterCalls (calls ++ [e]) = Scope.afterCalls calls ∧
            Tables.insert e (Tables.afterCalls calls) =
              .error (.duplicateBinding e.name) (Tables.afterCalls calls)
        else
          (Scope.afterCalls calls).insert e = .ok (Scope.afterCalls (calls ++ [e])) ∧
            Scope.granted (calls ++ [e]) = Scope.granted calls ++ [e] ∧
            Tables.insert e (Tables.afterCalls calls) =
              .ok () (Tables.afterCalls (calls ++ [e])) := by
  have hshows := Tables.shows_afterCalls calls
  refine ⟨Scope.records_afterCalls calls, hshows.view_eq (Scope.nodup_names_afterCalls calls),
    fun e => ?_⟩
  have hlist : Scope.afterCalls (calls ++ [e]) = (Scope.afterCalls calls).called e :=
    List.foldl_append
  have htables : Tables.afterCalls (calls ++ [e]) = (Tables.afterCalls calls).called e :=
    List.foldl_append
  rw [hlist, htables]
  split
  · rename_i hgranted
    have hbound := (Scope.isBound_afterCalls calls e.name).mpr hgranted
    exact ⟨Scope.insert_of_isBound hbound, Scope.called_of_isBound hbound,
      hshows.insert_of_isBound hbound⟩
  · rename_i hgranted
    have hfree : (Scope.afterCalls calls).isBound e.name = false := by
      rwa [← Scope.isBound_afterCalls, Bool.not_eq_true] at hgranted
    have hcalled := Scope.called_of_not_isBound hfree
    have hinsert := hshows.insert_of_not_isBound hfree
    refine ⟨?_, ?_, ?_⟩
    · rw [hcalled, Scope.insert_of_not_isBound hfree]
    · rw [← Scope.entries_afterCalls, hlist, hcalled, Scope.entries_afterCalls]
    · rw [Tables.called, hinsert]

end WordMachine
