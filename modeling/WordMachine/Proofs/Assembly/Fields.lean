import WordMachine.Proofs.Assembly.Layout
import WordMachine.Proofs.Expr.Leaves

/-!
# The fields of machine code

The bytes of a program come from fields that stand one after the other: the bytes of
instructions, their operands, and the values of data blocks.  What encoding does with a program
it does with each field on its own, and so a question about the code of a program is a question
about one field (`Statement.encodeAll_eq`).

Fields know no addresses.  A field is as long as its kind says, whatever the names in it are
bound to, and the names have a part in its bytes only by way of the leaves of its expression.

* `Field`, `Field.encode`, `Statement.fields`: fields, and the fields of a statement.
* `Field.failure?_encode`: an operand has no bytes if one of its leaves has no value.
* `Field.encode_congr`: it keeps its bytes if its leaves keep their values.
* `Statement.failure?_encodeAll`: encoding fails for the first leaf that has no value.
* `Statement.encodeAll_congr`: a program keeps its bytes if its leaves keep their values.
-/

namespace WordMachine

/-- A piece of machine code. -/
inductive Field where
  /-- The byte of an instruction. -/
  | opcode (o : Opcode)
  /-- An operand at a position of a given kind. -/
  | operand (kind : Kind) (x : Operand)
  /-- A value of a data block. -/
  | element (width : Width) (digits : String)
  deriving DecidableEq, Repr

/-- The leaves of an operand.  A register has none. -/
def Operand.leaves : Operand → List Leaf
  | .register _ => []
  | .value e => e.leaves

namespace Field

/-- The bytes of a field. -/
def encode (scope : Scope) : Field → Except AssemblyError MachineCode
  | .opcode o => .ok [o.byte]
  | .operand kind x => x.encode scope kind
  | .element width digits => .ok (width.emit (hexWord digits))

/-- How many bytes the field takes. -/
def width : Field → Nat
  | .opcode _ => 1
  | .operand kind _ => kind.width
  | .element width _ => width.size

/-- The leaves that the bytes of a field are made of. -/
def leaves : Field → List Leaf
  | .operand _ x => x.leaves
  | .opcode _ | .element _ _ => []

/-- If the field is an operand, it fits its position. -/
def Fits : Field → Prop
  | .operand kind x => x.Fits kind
  | .opcode _ | .element _ _ => True

section Encode

variable {scope scope' : Scope} {f : Field}

/-- A field takes its width, among whatever names. -/
theorem length_of_encode {code : MachineCode} (h : f.encode scope = .ok code) :
    code.length = f.width := by
  cases f with
  | opcode o =>
    obtain rfl := Except.ok.inj h
    rfl
  | operand kind x => exact Operand.length_of_encode h
  | element width digits =>
    obtain rfl := Except.ok.inj h
    exact Width.length_emit width _

/-- **The first leaf without a value is reported** for a field whose operand fits. -/
theorem failure?_encode (h : f.Fits) :
    failure? (f.encode scope) = f.leaves.findSome? (Leaf.fault? scope) := by
  cases f with
  | opcode o => rfl
  | element width digits => rfl
  | operand kind x =>
    cases x with
    | register slot => cases kind <;> first | rfl | exact absurd h id
    | value e =>
      cases kind with
      | literal | literal8 | address => exact (failure?_map _ _).trans e.failure?_value
      | register | pointer => exact absurd h id

/-- The bytes of a field are made of the values of its leaves. -/
theorem encode_congr (h : ∀ leaf ∈ f.leaves, leaf.value scope' = leaf.value scope) :
    f.encode scope' = f.encode scope := by
  cases f with
  | opcode o => rfl
  | element width digits => rfl
  | operand kind x =>
    cases x with
    | register slot => cases kind <;> rfl
    | value e =>
      have hvalue : e.value scope' = e.value scope := e.value_congr h
      cases kind <;> simp only [encode, Operand.encode, hvalue]

end Encode

end Field

/-! ## The fields of statements -/

namespace Statement

/-- The fields of a statement, in the order of its bytes. -/
def fields : Statement → List Field
  | .instruction opcode operands =>
    .opcode opcode :: (opcode.format.operands.zip operands).map fun p => .operand p.1 p.2
  | .define _ _ (.data width values) => values.map (.element width)
  | .define _ _ _ => []

variable {scope : Scope}

theorem encode_eq (st : Statement) :
    st.encode scope = List.flatten <$> st.fields.mapM (Field.encode scope) := by
  cases st with
  | instruction opcode operands =>
    rw [encode, fields, List.mapM_cons, List.mapM_map]
    simp only [map_bind, map_pure, List.flatten_cons]
    rfl
  | define exported name d =>
    cases d with
    | data width values =>
      rw [encode, fields, List.mapM_map]
      have hpure : values.mapM (Field.encode scope ∘ Field.element width) =
          pure (values.map fun digits => width.emit (hexWord digits)) := List.mapM_pure
      rw [hpure]
      rfl
    | label | constant _ | struct _ => rfl

theorem encodeAll_cons (st : Statement) (sts : List Statement) :
    encodeAll scope (st :: sts) = (do
      let part ← st.encode scope
      let code ← encodeAll scope sts
      pure (part ++ code)) := by
  simp only [encodeAll, List.mapM_cons, bind_assoc, pure_bind, List.flatten_cons]

/-- **The bytes of a program are the bytes of its fields.** -/
theorem encodeAll_eq (sts : List Statement) :
    encodeAll scope sts = List.flatten <$> (sts.flatMap fields).mapM (Field.encode scope) := by
  induction sts with
  | nil => rfl
  | cons st sts ih =>
    rw [encodeAll_cons, ih, encode_eq, List.flatMap_cons, List.mapM_append]
    simp only [map_eq_pure_bind, bind_assoc, pure_bind, List.flatten_append]

/-- Code is cut into the bytes of the fields, in their order. -/
theorem exists_fields_of_encodeAll {sts : List Statement} {code : MachineCode}
    (h : encodeAll scope sts = .ok code) :
    ∃ parts, List.Forall₂ (fun f part => Field.encode scope f = .ok part) (sts.flatMap fields)
      parts ∧ code = parts.flatten := by
  rw [encodeAll_eq, map_eq_pure_bind] at h
  obtain ⟨parts, hparts, h⟩ := exists_of_bind_eq_ok h
  exact ⟨parts, forall₂_of_mapM_eq_ok hparts, (Except.ok.inj h).symm⟩

/-- The leaves of the operands of a statement, in source order. -/
def leaves : Statement → List Leaf
  | .instruction _ operands => operands.flatMap Operand.leaves
  | .define _ _ _ => []

/-- If the operands fit, each of them has its field. -/
theorem flatMap_leaves_fields {st : Statement} (h : st.Fits) :
    st.fields.flatMap Field.leaves = st.leaves := by
  cases st with
  | instruction opcode operands =>
    have hzip : (opcode.format.operands.zip operands).map Prod.snd = operands :=
      List.map_snd_zip (Nat.le_of_eq h.length_eq.symm)
    rw [fields, leaves, List.flatMap_cons, List.flatMap_map]
    conv_rhs => rw [← hzip, List.flatMap_map]
    rfl
  | define exported name d =>
    cases d with
    | data width values =>
      rw [fields, List.flatMap_map]
      exact List.flatMap_eq_nil_iff.mpr fun _ _ => rfl
    | label | constant _ | struct _ => rfl

theorem fits_of_mem_fields {st : Statement} (h : st.Fits) : ∀ f ∈ st.fields, f.Fits := by
  cases st with
  | instruction opcode operands =>
    refine List.forall_mem_cons.mpr ⟨trivial, List.forall_mem_map.mpr fun p hp => ?_⟩
    exact List.forall₂_iff_zip.mp h |>.2 hp
  | define exported name d =>
    cases d with
    | data width values => exact List.forall_mem_map.mpr fun _ _ => trivial
    | label | constant _ | struct _ => exact List.forall_mem_nil _

/-- The leaves of the operands are those of the fields. -/
theorem flatMap_leaves {sts : List Statement} (h : ∀ st ∈ sts, st.Fits) :
    sts.flatMap leaves = (sts.flatMap fields).flatMap Field.leaves := by
  rw [List.flatMap_assoc]
  exact List.flatMap_congr fun st hst => (flatMap_leaves_fields (h st hst)).symm

/-- **Why encoding fails.**  It fails for the first leaf in the source that has no value. -/
theorem failure?_encodeAll {sts : List Statement} (h : ∀ st ∈ sts, st.Fits) :
    failure? (encodeAll scope sts) = (sts.flatMap leaves).findSome? (Leaf.fault? scope) := by
  have hfits : ∀ f ∈ sts.flatMap fields, f.Fits := by
    intro f hf
    obtain ⟨st, hst, hf⟩ := List.mem_flatMap.mp hf
    exact fits_of_mem_fields (h st hst) f hf
  rw [encodeAll_eq, flatMap_leaves h]
  exact (failure?_map _ _).trans
    (failure?_mapM fun f hf => Field.failure?_encode (hfits f hf))

/-- A walk over a list is decided by what it does at the elements of the list. -/
theorem mapM_congr_left {ε α β : Type} {f g : α → Except ε β} {xs : List α}
    (h : ∀ x ∈ xs, f x = g x) : xs.mapM f = xs.mapM g := by
  induction xs with
  | nil => rfl
  | cons x xs ih =>
    obtain ⟨hx, hxs⟩ := List.forall_mem_cons.mp h
    rw [List.mapM_cons, List.mapM_cons, hx, ih hxs]

/-- Statements keep their bytes if the leaves of their operands keep their values. -/
theorem encodeAll_congr {scope' : Scope} {sts : List Statement} (h : ∀ st ∈ sts, st.Fits)
    (hleaves : ∀ leaf ∈ sts.flatMap leaves, leaf.value scope' = leaf.value scope) :
    encodeAll scope' sts = encodeAll scope sts := by
  rw [flatMap_leaves h] at hleaves
  rw [encodeAll_eq, encodeAll_eq]
  refine congrArg _ (mapM_congr_left fun f hf => Field.encode_congr fun leaf hleaf => ?_)
  exact hleaves leaf (List.mem_flatMap.mpr ⟨f, hf, hleaf⟩)

theorem encodeAll_append (xs ys : List Statement) :
    encodeAll scope (xs ++ ys) = (do
      let code ← encodeAll scope xs
      let code' ← encodeAll scope ys
      pure (code ++ code')) := by
  simp only [encodeAll, List.mapM_append, bind_assoc, pure_bind, List.flatten_append]

end Statement
end WordMachine
