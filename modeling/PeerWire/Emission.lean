import PeerWire.Bytes
import PeerWire.Error

/-!
# Emissions

What writing a value comes to: the chunks that it writes, in order, and the fault that ends it, if
any. An emission does not depend on where the chunks go. A destination answers them one at a time
(`deliver`); the first chunk that it refuses ends the delivery, and a fault shows only after all
chunks before it have been taken.

Main statements: emissions form a monoid under `++` in which a fault hides what follows it, and
delivery runs through `++` (`deliver_append`).
-/

namespace PeerWire

/-- How a destination answers a chunk, and its state afterwards, also if it refuses the chunk. -/
abbrev Destination (σ : Type) := σ → Bytes → Except WireError Unit × σ

/-- A destination with a record of all chunks that it is offered, the refused one included. -/
def Destination.recording {σ : Type} (dest : Destination σ) : Destination (σ × List Bytes) :=
  fun (s, offered) chunk =>
    let (answer, s') := dest s chunk
    (answer, s', offered ++ [chunk])

structure Emission where
  writes : List Bytes
  fault? : Option WireError
  deriving DecidableEq, Repr

namespace Emission

def done : Emission := ⟨[], none⟩

def write (chunk : Bytes) : Emission := ⟨[chunk], none⟩

def fail (e : WireError) : Emission := ⟨[], some e⟩

/-- The second emission follows the first unless that ended in a fault. -/
def append (a b : Emission) : Emission :=
  match a.fault? with
  | none => ⟨a.writes ++ b.writes, b.fault?⟩
  | some e => ⟨a.writes, some e⟩

instance : Append Emission := ⟨append⟩

def concat : List Emission → Emission
  | [] => done
  | a :: as => a ++ concat as

theorem append_def (a b : Emission) : a ++ b = a.append b := rfl

@[simp] theorem done_append (a : Emission) : done ++ a = a := rfl

@[simp] theorem append_done (a : Emission) : a ++ done = a := by
  rcases a with ⟨ws, _ | e⟩ <;> simp [append_def, append, done]

@[simp] theorem fail_append (e : WireError) (a : Emission) : fail e ++ a = fail e := rfl

theorem append_assoc (a b c : Emission) : a ++ b ++ c = a ++ (b ++ c) := by
  rcases a with ⟨as, _ | _⟩ <;> rcases b with ⟨bs, _ | _⟩ <;> simp [append_def, append]

/-- All that is written, fault or not. -/
def bytes (a : Emission) : Bytes := a.writes.flatten

@[simp] theorem bytes_write (chunk : Bytes) : (write chunk).bytes = chunk := by simp [bytes, write]

/-- The bytes written, if nothing goes wrong. -/
def toExcept (a : Emission) : Except WireError Bytes :=
  match a.fault? with
  | none => .ok a.bytes
  | some e => .error e

/-! ## Delivery -/

def deliverFrom {σ : Type} (dest : Destination σ) (fault? : Option WireError) :
    List Bytes → σ → Except WireError Unit × σ
  | [], s =>
    match fault? with
    | none => (.ok (), s)
    | some e => (.error e, s)
  | chunk :: chunks, s =>
    match dest s chunk with
    | (.ok _, s') => deliverFrom dest fault? chunks s'
    | (.error e, s') => (.error e, s')

/-- Hands the chunks to a destination whose state is `s`, up to the first refusal. -/
def deliver {σ : Type} (a : Emission) (dest : Destination σ) (s : σ) : Except WireError Unit × σ :=
  deliverFrom dest a.fault? a.writes s

theorem deliverFrom_append {σ : Type} (dest : Destination σ) (fault? : Option WireError)
    (ws vs : List Bytes) (s : σ) :
    deliverFrom dest fault? (ws ++ vs) s =
      match deliverFrom dest none ws s with
      | (.ok _, s') => deliverFrom dest fault? vs s'
      | (.error e, s') => (.error e, s') := by
  induction ws generalizing s with
  | nil => rfl
  | cons w ws ih =>
    simp only [List.cons_append, deliverFrom]
    rcases dest s w with ⟨_ | _, s'⟩
    · rfl
    · exact ih s'

theorem deliverFrom_some {σ : Type} (dest : Destination σ) (e : WireError) (ws : List Bytes)
    (s : σ) : ∃ e', (deliverFrom dest (some e) ws s).1 = .error e' := by
  induction ws generalizing s with
  | nil => exact ⟨e, rfl⟩
  | cons w ws ih =>
    simp only [deliverFrom]
    rcases dest s w with ⟨e' | _, s'⟩
    · exact ⟨e', rfl⟩
    · exact ih s'

theorem deliver_append {σ : Type} (dest : Destination σ) (a b : Emission) (s : σ) :
    (a ++ b).deliver dest s =
      match a.deliver dest s with
      | (.ok _, s') => b.deliver dest s'
      | (.error e, s') => (.error e, s') := by
  rcases a with ⟨ws, _ | e⟩
  · exact deliverFrom_append dest b.fault? ws b.writes s
  · obtain ⟨e', h⟩ := deliverFrom_some dest e ws s
    change deliverFrom dest (some e) ws s = _
    simp only [deliver]
    rcases hd : deliverFrom dest (some e) ws s with ⟨_ | _, _⟩
    · rfl
    · simp [hd] at h

end Emission

/-! ## Sinks -/

/-- A byte buffer with an optional limit on its length. -/
structure Sink where
  content : Bytes
  limit? : Option Nat
  deriving DecidableEq, Repr

namespace Sink

/-- Appends a chunk whole, or refuses it and stays as it was. -/
def accept : Destination Sink := fun s chunk =>
  match s.limit? with
  | none => (.ok (), { s with content := s.content ++ chunk })
  | some limit =>
    if s.content.length + chunk.length > limit then
      (.error (.insufficientBytes chunk.length (limit - s.content.length)), s)
    else (.ok (), { s with content := s.content ++ chunk })

def put (s : Sink) (a : Emission) : Except WireError Unit × Sink := a.deliver accept s

end Sink

end PeerWire
