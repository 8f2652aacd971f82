import WordMachine.Memory.Device

/-!
# A bank is several memories

A bank has one selector and one array of banks, and each request goes through both.  Seen from
outside it is as many memories as it has banks, which have nothing to do with each other: a
selection says which of them the next requests go to, counted modulo their number, and a request
is answered by that memory and changes no other.

Here the device and the memories are given the same operations, and the relation that is kept is
that the memory with the number `i` is the bank with the number `i` (`Device.Mirrors`).

* `Device.serve`, `Device.serveEach`: operations on one device, and on several memories.
* `Device.Mirrors.serve`: a bank serves operations as the memories do that it mirrors.
* `Device.mirrors_newBank`: a new bank mirrors new memories.
-/

namespace WordMachine

/-- What a device answers to a request. -/
inductive Answer where
  | byte (b : Byte)
  | word (w : Word)
  | done
  deriving DecidableEq, Repr

/-- What is done to a bank: the host selects, or a request arrives. -/
inductive Operation where
  | select (bank : Nat)
  | request (access : Access)
  deriving DecidableEq, Repr

namespace Device

/-- The answer to a request of any kind. -/
def answer (panel : Panel) (d : Device) : Access → Answer
  | .get8 a => .byte (d.get8 panel a)
  | .get16 a => .word (d.get16 panel a)
  | .set8 _ _ | .set16 _ _ => .done

/-- The device after a request of any kind. -/
def afterRequest (panel : Panel) (d : Device) : Access → Device
  | .get8 _ | .get16 _ => d
  | .set8 a v => d.set8 panel a v
  | .set16 a v => d.set16 panel a v

/-- The answers of a device to the requests among some operations, and the device in the end.
A selection is one of the given selector. -/
def serve (selector : String) (panel : Panel) (d : Device) :
    List Operation → List Answer × Device
  | [] => ([], d)
  | .select k :: ops => serve selector (panel.select selector k) d ops
  | .request access :: ops =>
    let rest := serve selector panel (d.afterRequest panel access) ops
    (d.answer panel access :: rest.1, rest.2)

/-- The memories after one of them has been given a request. -/
def requestOf (memories : Nat → Device) (k : Nat) (access : Access) : Nat → Device :=
  fun i => if i = k then (memories k).afterRequest .initial access else memories i

/-- The answers of `n` memories to the requests among some operations, and the memories in the
end.  A request goes to the memory with the number of the selection, modulo `n`. -/
def serveEach (n selection : Nat) (memories : Nat → Device) :
    List Operation → List Answer × (Nat → Device)
  | [] => ([], memories)
  | .select k :: ops => serveEach n k memories ops
  | .request access :: ops =>
    let k := selection % n
    let rest := serveEach n selection (requestOf memories k access) ops
    ((memories k).answer .initial access :: rest.1, rest.2)

/-- The memory with the number `i` is the bank with this number. -/
structure Mirrors (banks : Array Cells) (n : Nat) (memories : Nat → Device) : Prop where
  size : banks.size = n
  memory : ∀ i < n, memories i = .ram (banks.getD i #[])

variable {banks : Array Cells} {n : Nat} {memories : Nat → Device}

theorem Mirrors.memory_selected (h : Mirrors banks n memories) (hn : 0 < n) (panel : Panel)
    (selector : String) :
    memories (panel.current selector % n) = .ram (visible panel banks selector) := by
  rw [h.memory _ (Nat.mod_lt _ hn), visible, bankIndex, h.size]

theorem Mirrors.answer (h : Mirrors banks n memories) (hn : 0 < n) (panel : Panel)
    (selector : String) (access : Access) :
    (bank banks selector).answer panel access =
      (memories (panel.current selector % n)).answer .initial access := by
  rw [h.memory_selected hn]
  cases access <;> rfl

/-- A change of one bank and of the memory with its number. -/
theorem Mirrors.modify (h : Mirrors banks n memories) {k : Nat} {f : Cells → Cells} {d : Device}
    (hd : d = .ram (f (banks.getD k #[]))) :
    Mirrors (banks.modify k f) n fun i => if i = k then d else memories i := by
  refine ⟨by rw [Array.size_modify, h.size], fun i hi => ?_⟩
  have hbank : banks[i]? = some (banks.getD i #[]) := by
    have hi' : i < banks.size := by rwa [h.size]
    rw [Array.getD_eq_getD_getElem?, Array.getElem?_eq_getElem hi', Option.getD_some]
  rw [Array.getD_eq_getD_getElem?, Array.getElem?_modify, hbank]
  split
  · rename_i hik
    subst hik
    rw [if_pos rfl, hd]
    rfl
  · rename_i hik
    rw [if_neg (Ne.symm hik), h.memory i hi]
    rfl

/-- A request to the bank is a request to the memory that is selected. -/
theorem Mirrors.request (h : Mirrors banks n memories) (hn : 0 < n) (panel : Panel)
    (selector : String) (access : Access) :
    ∃ banks', (bank banks selector).afterRequest panel access = .bank banks' selector ∧
      Mirrors banks' n (requestOf memories (panel.current selector % n) access) := by
  have hselected := h.memory_selected hn panel selector
  have hvisible : visible panel banks selector =
      banks.getD (panel.current selector % n) #[] := by
    rw [visible, bankIndex, h.size]
  cases access with
  | get8 a | get16 a =>
    refine ⟨banks, rfl, h.size, fun i hi => ?_⟩
    rw [requestOf]
    split
    · rename_i hik
      subst hik
      exact h.memory _ hi
    · exact h.memory i hi
  | set8 a v | set16 a v =>
    rw [afterRequest]
    refine ⟨_, rfl, ?_⟩
    rw [bankIndex, h.size]
    refine h.modify ?_
    rw [hselected, hvisible]
    rfl

/-- A bank serves operations as the memories do that it mirrors. -/
theorem Mirrors.serve (h : Mirrors banks n memories) (hn : 0 < n) (panel : Panel)
    (selector : String) (ops : List Operation) :
    (serve selector panel (.bank banks selector) ops).1 =
        (serveEach n (panel.current selector) memories ops).1 ∧
      ∃ banks', (serve selector panel (.bank banks selector) ops).2 = .bank banks' selector ∧
        Mirrors banks' n (serveEach n (panel.current selector) memories ops).2 := by
  induction ops generalizing panel banks memories with
  | nil => exact ⟨rfl, banks, rfl, h⟩
  | cons op ops ih =>
    cases op with
    | select k =>
      have hrest := ih h (panel.select selector k)
      rw [Panel.current_select, if_pos rfl] at hrest
      exact hrest
    | request access =>
      obtain ⟨banks', hbanks', hmirrors⟩ := h.request hn panel selector access
      have hrest := ih hmirrors panel
      rw [Device.serve, hbanks', h.answer hn]
      exact ⟨congrArg (_ :: ·) hrest.1, hrest.2⟩

theorem mirrors_newBank (count size : Nat) :
    Mirrors (Array.replicate (max count 1) (.zeros size)) (max count 1)
      fun _ => newRam (max 1 size) := by
  refine ⟨Array.size_replicate, fun i hi => ?_⟩
  rw [Array.getD_eq_getD_getElem?, Array.getElem?_replicate, if_pos hi, newRam, Cells.zeros,
    Nat.max_eq_left (Nat.le_max_left 1 size), Nat.max_comm 1]
  rfl

end Device
end WordMachine
