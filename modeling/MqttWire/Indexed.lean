import MqttWire.Writer

/-!
# Writing by index

Elsewhere a buffer is taken apart and put together again, which cannot go wrong.  A machine reaches
bytes by their index, and an index outside the buffer, like a difference below zero, ends the
program.  Here fields are written in that way, each shape with its own look at the room: a byte
looks for its place, raw bytes are held against the difference of length and position, and whatever
is written in more than one go is written to the part of the buffer behind the position.

Where the result is `none`, the program has ended.
-/

namespace MqttWire

/-! ### Access -/

/-- A difference, which must not be below zero. -/
def difference? (a b : Nat) : Option Nat := if b ≤ a then some (a - b) else none

/-- The part of a buffer from an index on. -/
def from? (buffer : Bytes) (first : Nat) : Option Bytes :=
  if first ≤ buffer.length then some (buffer.drop first) else none

/-- Overwrites the part from `first` to before `last`, which must be as long as what is written. -/
def overwrite? (buffer : Bytes) (first last : Nat) (bytes : Bytes) : Option Bytes :=
  if first + bytes.length = last ∧ last ≤ buffer.length then
    some (buffer.take first ++ bytes ++ buffer.drop last)
  else none

/-! ### At the front of a buffer -/

/-- Writes a word. -/
def putWord? (value : UInt16) (buffer : Bytes) : Option Outcome := do
  if buffer.length < 2 then
    return ⟨.error .bufferTooSmall, buffer⟩
  return ⟨.ok 2, ← overwrite? buffer 0 2 (bigEndian value.toNat)⟩

/-- Writes a value behind its length; both take `size` bytes, unless the value is too long. -/
def putCounted? (value : Bytes) (size : Except EncodeError Nat) (buffer : Bytes) :
    Option Outcome := do
  match size with
  | .error e => return ⟨.error e, buffer⟩
  | .ok size =>
    if buffer.length < size then
      return ⟨.error .bufferTooSmall, buffer⟩
    let counted ← overwrite? buffer 0 2 (bigEndian value.length)
    return ⟨.ok size, ← overwrite? counted 2 size value⟩

namespace Writer

/-- Writes to the part of the buffer behind the position, and moves on by what is written. -/
def advance? (w : Writer) (put? : Bytes → Option Outcome) :
    Option (Except EncodeError Unit × Writer) := do
  let outcome ← put? (← from? w.buffer w.position)
  let buffer := w.buffer.take w.position ++ outcome.buffer
  match outcome.result with
  | .ok n => return (.ok (), ⟨buffer, w.position + n⟩)
  | .error e => return (.error e, ⟨buffer, w.position⟩)

/-- **Writes one more field by index,** and tells whether it could. -/
def writeByIndex? (w : Writer) : Field → Option (Except EncodeError Unit × Writer)
  | .byte value =>
    match w.buffer[w.position]? with
    | none => some (.error .bufferTooSmall, w)
    | some _ => some (.ok (), ⟨w.buffer.set w.position value, w.position + 1⟩)
  | .word value => w.advance? (putWord? value)
  | .text value => w.advance? (putCounted? (utf8 value) (Field.textSize value))
  | .binary value => w.advance? (putCounted? value (Field.binarySize value))
  | .raw value => do
    if (← difference? w.buffer.length w.position) < value.length then
      return (.error .bufferTooSmall, w)
    let last := w.position + value.length
    return (.ok (), ⟨← overwrite? w.buffer w.position last value, last⟩)

end Writer

end MqttWire
