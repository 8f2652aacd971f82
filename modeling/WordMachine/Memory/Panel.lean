import WordMachine.Word

/-!
# What the host shares with the devices

A device sits behind some addresses and sees nothing but the requests made to it.
Three things are nevertheless visible on both sides, to the device and to the
host that set the machine up: which bank a selector selects, whether a stop token
has been triggered, and the log of the requests that recording devices have seen.
They are kept together in one value, the panel, so that the address space is a
value too: there is no cell that two parties hold.

Selectors are told apart by their names and stop tokens by their numbers.
-/

namespace WordMachine

/-- One request to a device, with the address as the device sees it. -/
inductive Access where
  | get8 (address : Word)
  | get16 (address : Word)
  | set8 (address : Word) (value : Byte)
  | set16 (address : Word) (value : Word)
  deriving DecidableEq, Repr

namespace Access

/-- Whether the request asks the device to change. -/
def isWrite : Access → Bool
  | .get8 _ | .get16 _ => false
  | .set8 _ _ | .set16 _ _ => true

/-- The request as text, its numbers in decimal. -/
def text : Access → String
  | .get8 a => "get8 " ++ toString a.toNat
  | .get16 a => "get16 " ++ toString a.toNat
  | .set8 a v => "set8 " ++ toString a.toNat ++ " " ++ toString v.toNat
  | .set16 a v => "set16 " ++ toString a.toNat ++ " " ++ toString v.toNat

end Access

/-- A request that a recording device has seen. -/
structure LogEntry where
  tag : Word
  access : Access
  deriving DecidableEq, Repr

/-- The log entry as text. -/
def LogEntry.text (e : LogEntry) : String := toString e.tag.toNat ++ ":" ++ e.access.text

/-- A flag that ends a run.  Once triggered it stays so. -/
structure StopToken where
  number : Nat
  deriving DecidableEq, Repr

/-- The state that the host and the devices share. -/
structure Panel where
  /-- What has been selected, the latest selection first. -/
  selections : List (String × Nat)
  /-- How many stop tokens have been handed out. -/
  tokenCount : Nat
  /-- The tokens that have been triggered. -/
  triggered : List StopToken
  /-- What recording devices have seen, the oldest request first. -/
  log : Array LogEntry
  deriving Repr

namespace Panel

/-- Nothing selected, no token handed out, nothing seen. -/
def initial : Panel := ⟨[], 0, [], #[]⟩

/-- The bank a selector selects.  A selector that was never set selects bank
zero. -/
def current (p : Panel) (selector : String) : Nat := (p.selections.lookup selector).getD 0

/-- Sets a selector. -/
def select (p : Panel) (selector : String) (bank : Nat) : Panel :=
  { p with selections := (selector, bank) :: p.selections.filter (·.1 != selector) }

/-- Hands out a token that has not been triggered. -/
def newToken (p : Panel) : StopToken × Panel :=
  (⟨p.tokenCount⟩, { p with tokenCount := p.tokenCount + 1 })

/-- Triggers a token. -/
def trigger (p : Panel) (t : StopToken) : Panel :=
  if p.triggered.contains t then p else { p with triggered := t :: p.triggered }

/-- Whether a token has been triggered. -/
def isTriggered (p : Panel) (t : StopToken) : Bool := p.triggered.contains t

/-- Adds a request to the log. -/
def record (p : Panel) (e : LogEntry) : Panel := { p with log := p.log.push e }

/-- Takes all requests out of the log. -/
def takeLog (p : Panel) : List LogEntry × Panel := (p.log.toList, { p with log := #[] })

theorem current_select (p : Panel) (s t : String) (bank : Nat) :
    (p.select s bank).current t = if t = s then bank else p.current t := by
  by_cases h : t = s
  · subst h; simp [current, select]
  · have key : ∀ l : List (String × Nat),
        (l.filter (·.1 != s)).lookup t = l.lookup t := by
      intro l
      induction l with
      | nil => rfl
      | cons e l ih =>
        obtain ⟨k, v⟩ := e
        by_cases hk : k = s
        · subst hk
          have ht : (t == k) = false := by simpa using h
          simp [List.lookup_cons, ht, ih]
        · have hk' : (k != s) = true := by simpa using hk
          simp [hk', List.lookup_cons, ih]
    have hne : (t == s) = false := by simpa using h
    simp [current, select, List.lookup_cons, hne, key, h]

/-- Triggering a token turns no selector. -/
theorem current_trigger (p : Panel) (t : StopToken) (s : String) :
    (p.trigger t).current s = p.current s := by
  unfold trigger
  split <;> rfl

/-- A token that was triggered stays triggered. -/
theorem isTriggered_trigger (p : Panel) (s t : StopToken) :
    (p.trigger s).isTriggered t = (decide (t = s) || p.isTriggered t) := by
  unfold trigger isTriggered
  by_cases h : s ∈ p.triggered
  · by_cases hts : t = s
    · subst hts; simp [h]
    · simp [h, hts]
  · simp [h]

end Panel
end WordMachine
