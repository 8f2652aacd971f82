import WordMachine.Word
import WordMachine.Text.Numeral
import WordMachine.Assembly.Error

/-!
# The names of a module

A module binds names to three kinds of thing: a label or data block to an
address, a constant to a value, a struct to a layout.  All of them share one
namespace, and the first binding of a name is the one that stands.

`Scope` is therefore one list of entries, each with its name, in the order in
which they were bound; there is no second table that could disagree with it.  The
symbols (addresses and values) and the structs are two views of that list.
-/

namespace WordMachine

/-- What a symbol stands for. -/
inductive Binding where
  /-- Where a label or a data block lies. -/
  | address (a : Word)
  /-- What a constant is. -/
  | value (v : Word)
  deriving DecidableEq, Repr

namespace Binding

/-- The word a symbol resolves to, whichever kind it is. -/
def word : Binding → Word
  | .address a => a
  | .value v => v

/-- The binding as text: addresses after an ampersand, values after a dollar. -/
def text : Binding → String
  | .address a => "&" ++ Text.hexUpper 4 a.toNat
  | .value v => "$" ++ Text.hexUpper 4 v.toNat

end Binding

/-- One member of a struct. -/
structure Member where
  name : String
  offset : Word
  size : Word
  deriving DecidableEq, Repr

/-- A record layout: members one after the other, without gaps. -/
structure StructLayout where
  name : String
  members : List Member
  deriving DecidableEq, Repr

namespace StructLayout

/-- The members for a list of names and sizes, the first of them at a given
offset.  Offsets wrap. -/
def place : Word → List (String × Word) → List Member
  | _, [] => []
  | offset, (name, size) :: rest => ⟨name, offset, size⟩ :: place (offset + size) rest

/-- The layout with the given members, in the given order, from offset zero. -/
def ofSizes (name : String) (sizes : List (String × Word)) : StructLayout :=
  ⟨name, place 0 sizes⟩

/-- The first member with a given name. -/
def member? (s : StructLayout) (name : String) : Option Member :=
  s.members.find? (·.name == name)

/-- The size of the whole, modulo `2 ^ 16`. -/
def size (s : StructLayout) : Word := s.members.foldl (fun total m => total + m.size) 0

end StructLayout

/-- One binding of a name. -/
inductive Entry where
  | symbol (name : String) (binding : Binding)
  | struct (layout : StructLayout)
  deriving DecidableEq, Repr

namespace Entry

/-- The name that is bound. -/
def name : Entry → String
  | .symbol name _ => name
  | .struct layout => layout.name

/-- The entry as a symbol, if it is one. -/
def asSymbol? : Entry → Option (String × Binding)
  | .symbol name binding => some (name, binding)
  | .struct _ => none

/-- The entry as a struct, if it is one. -/
def asStruct? : Entry → Option StructLayout
  | .symbol _ _ => none
  | .struct layout => some layout

end Entry

/-- The names bound so far, in the order in which they were bound. -/
structure Scope where
  entries : List Entry
  deriving DecidableEq, Repr

namespace Scope

/-- No names. -/
def empty : Scope := ⟨[]⟩

/-- Whether a name is bound, to whatever kind of thing. -/
def isBound (s : Scope) (name : String) : Bool := s.entries.any (·.name == name)

/-- Binds a name that is still free. -/
def insert (s : Scope) (e : Entry) : Except AssemblyError Scope :=
  if s.isBound e.name then .error (.duplicateBinding e.name)
  else .ok ⟨s.entries ++ [e]⟩

/-- The entry for a name. -/
def find? (s : Scope) (name : String) : Option Entry := s.entries.find? (·.name == name)

/-- What a name stands for as a symbol.  A struct's name stands for nothing. -/
def symbol? (s : Scope) (name : String) : Option Binding :=
  match s.find? name with
  | some (.symbol _ binding) => some binding
  | _ => none

/-- The struct with a given name. -/
def struct? (s : Scope) (name : String) : Option StructLayout :=
  match s.find? name with
  | some (.struct layout) => some layout
  | _ => none

/-- The word a symbol resolves to. -/
def value? (s : Scope) (name : String) : Option Word := (s.symbol? name).map Binding.word

/-- The member of a struct, if both exist. -/
def member? (s : Scope) (layout name : String) : Option Member := do
  (← s.struct? layout).member? name

/-- The symbols, in binding order. -/
def symbols (s : Scope) : List (String × Binding) := s.entries.filterMap Entry.asSymbol?

/-- The structs, in binding order. -/
def structs (s : Scope) : List StructLayout := s.entries.filterMap Entry.asStruct?

/-- How many symbols there are.  Structs do not count. -/
def size (s : Scope) : Nat := s.symbols.length

/-- Whether there are no symbols. -/
def isEmpty (s : Scope) : Bool := s.symbols.isEmpty

@[simp] theorem entries_empty : empty.entries = [] := rfl

/-- A free name is bound after all others. -/
theorem insert_of_not_isBound {s : Scope} {e : Entry} (h : s.isBound e.name = false) :
    s.insert e = .ok ⟨s.entries ++ [e]⟩ := by
  simp [insert, h]

/-- A bound name cannot be bound again. -/
theorem insert_of_isBound {s : Scope} {e : Entry} (h : s.isBound e.name = true) :
    s.insert e = .error (.duplicateBinding e.name) := by
  simp [insert, h]

theorem isBound_iff {s : Scope} {name : String} :
    s.isBound name = true ↔ ∃ e ∈ s.entries, e.name = name := by
  simp [isBound]

end Scope
end WordMachine
