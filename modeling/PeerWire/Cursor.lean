import PeerWire.Reader

/-!
# Cursors

A buffer with the position up to which it has been read. Readers run one after the other, each on
what the ones before it left, also after a failure.
-/

namespace PeerWire

structure Cursor where
  buffer : Bytes
  position : Nat
  deriving DecidableEq, Repr

namespace Cursor

def ofBytes (buffer : Bytes) : Cursor := ⟨buffer, 0⟩

def rest (c : Cursor) : Bytes := c.buffer.drop c.position

def remaining (c : Cursor) : Nat := c.buffer.length - c.position

@[simp] theorem length_rest (c : Cursor) : c.rest.length = c.remaining := by simp [rest, remaining]

/-- Runs a reader on the rest and moves past what it took. -/
def run {α : Type} (c : Cursor) (r : Reader α) : Report WireError α × Cursor :=
  let reading := r c.rest
  (⟨reading.result, reading.events⟩,
    { c with position := c.position + (c.remaining - reading.rest.length) })

end Cursor

end PeerWire
