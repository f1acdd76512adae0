import PeerWire.Event
import PeerWire.Error

/-!
# Readers

A reader takes bytes off the front of its input. Whether it succeeds or fails, it leaves the bytes
that it did not take and the events that it reported, so what a failed reader has consumed shows.
The elementary reads take all their bytes or none.

Main statements: readers obey the monad laws (`LawfulMonad Reader`), and a run of bytes is read
exactly if there are enough (`take_append`, `take_short`).
-/

namespace PeerWire

instance decEqExcept {ε α : Type} [DecidableEq ε] [DecidableEq α] : DecidableEq (Except ε α)
  | .error e, .error e' => decidable_of_iff (e = e') ⟨congrArg _, Except.error.inj⟩
  | .error _, .ok _ => isFalse nofun
  | .ok _, .error _ => isFalse nofun
  | .ok a, .ok a' => decidable_of_iff (a = a') ⟨congrArg _, Except.ok.inj⟩

/-- The result of an operation, with the events on the way to it. -/
structure Report (ε α : Type) where
  result : Except ε α
  events : List Event
  deriving DecidableEq

/-- What a reader leaves behind. -/
structure Reading (α : Type) where
  result : Except WireError α
  rest : Bytes
  events : List Event

def Reader (α : Type) : Type := Bytes → Reading α

namespace Reader

variable {α β : Type}

instance : Monad Reader where
  pure a := fun input => ⟨.ok a, input, []⟩
  bind r f := fun input =>
    let first := r input
    match first.result with
    | .ok a =>
      let second := f a first.rest
      { second with events := first.events ++ second.events }
    | .error e => ⟨.error e, first.rest, first.events⟩

@[ext] theorem ext {r s : Reader α} (h : ∀ input, r input = s input) : r = s := funext h

@[simp] theorem pure_apply (a : α) (input : Bytes) :
    (pure a : Reader α) input = ⟨.ok a, input, []⟩ := rfl

theorem bind_apply (r : Reader α) (f : α → Reader β) (input : Bytes) :
    (r >>= f) input =
      match (r input).result with
      | .ok a =>
        let second := f a (r input).rest
        { second with events := (r input).events ++ second.events }
      | .error e => ⟨.error e, (r input).rest, (r input).events⟩ := rfl

instance : LawfulMonad Reader :=
  LawfulMonad.mk' Reader
    (fun r => by
      ext input
      change (r >>= pure) input = r input
      rw [bind_apply]
      rcases r input with ⟨_ | _, _, _⟩ <;> simp)
    (fun a f => by ext input; simp [bind_apply])
    (fun r f g => by
      ext input
      simp only [bind_apply]
      rcases r input with ⟨_ | a, rest, _⟩
      · rfl
      · rcases h : f a rest with ⟨_ | b, _, _⟩ <;> simp [h])

/-! ## Elementary readers -/

def fail (e : WireError) : Reader α := fun input => ⟨.error e, input, []⟩

def report (e : Event) : Reader Unit := fun input => ⟨.ok (), input, [e]⟩

/-- The number of bytes left. -/
def remaining : Reader Nat := fun input => ⟨.ok input.length, input, []⟩

def ofExcept : Except WireError α → Reader α
  | .ok a => pure a
  | .error e => fail e

/-- The next `n` bytes, or none of them. -/
def block (n : Nat) : Reader (Block n) := fun input =>
  if h : (input.take n).length = n then ⟨.ok ⟨input.take n, h⟩, input.drop n, []⟩
  else ⟨.error (.insufficientBytes n input.length), input, []⟩

theorem block_append {n : Nat} (bs : Block n) (rest : Bytes) :
    block n (bs.val ++ rest) = ⟨.ok bs, rest, []⟩ := by
  obtain ⟨bs, rfl⟩ := bs
  simp [block]

theorem block_short {n : Nat} {input : Bytes} (h : input.length < n) :
    block n input = ⟨.error (.insufficientBytes n input.length), input, []⟩ := by
  have h' : min n input.length ≠ n := by omega
  simp [block, h']

def take (n : Nat) : Reader Bytes := do return (← block n).val

theorem take_append (bs rest : Bytes) : take bs.length (bs ++ rest) = ⟨.ok bs, rest, []⟩ := by
  simp [take, bind_apply, block_append ⟨bs, rfl⟩ rest]

theorem take_short {n : Nat} {input : Bytes} (h : input.length < n) :
    take n input = ⟨.error (.insufficientBytes n input.length), input, []⟩ := by
  simp [take, bind_apply, block_short h]

/-- Reads `count` more elements onto the end of those read so far. -/
def collect (element : Reader α) : Nat → Array α → Reader (Array α)
  | 0, items => pure items
  | count + 1, items => do collect element count (items.push (← element))

/-! ## Whole buffers -/

/-- Reads a value off the front of a buffer and hands back the bytes after it. -/
def front (r : Reader α) (buffer : Bytes) : Report WireError (α × Bytes) :=
  let reading := r buffer
  ⟨reading.result.map (·, reading.rest), reading.events⟩

/-- Reads a value that has to fill its buffer. -/
def exactly (r : Reader α) (buffer : Bytes) : Report WireError α :=
  let reading := r buffer
  let result := do
    let a ← reading.result
    if reading.rest.isEmpty then .ok a else .error (.extraInput reading.rest.length)
  ⟨result, reading.events⟩

end Reader

def Report.map {ε α β : Type} (f : α → β) (r : Report ε α) : Report ε β :=
  ⟨r.result.map f, r.events⟩

def Report.mapError {ε ε' α : Type} (f : ε → ε') (r : Report ε α) : Report ε' α :=
  ⟨r.result.mapError f, r.events⟩

end PeerWire
