import MqttWire.Field

/-!
# Writing into a buffer

A `Writer` is a buffer with a position: what lies before the position has been written, what lies
behind it is still as it was.  A `WriteM` action moves the position forward or fails, and a failure
keeps the writer as it stands, so that what an action leaves behind can be told also when it fails.

`putBytes` writes a row of bytes as a whole or not at all, and `Field.put` does so for a field;
`putAll` writes a row of fields, and stops at the first failure.  The lemmas give the outcome of
each action in each case; `putAll_of_totalSize` is that of fields which have a size and fit.
-/

namespace MqttWire

/-! ### The writer -/

/-- **A buffer and the position** up to which it has been written. -/
structure Writer where
  /-- All bytes of the destination, written or not. -/
  buffer : Bytes
  /-- How many of them have been written. -/
  position : Nat
deriving DecidableEq

namespace Writer

def start (buffer : Bytes) : Writer := ⟨buffer, 0⟩

/-- Nothing is written yet. -/
theorem start_eq (buffer : Bytes) : start buffer = ⟨[] ++ buffer, ([] : Bytes).length⟩ := rfl

/-- How many bytes there is still room for. -/
def room (w : Writer) : Nat := w.buffer.length - w.position

/-- Overwrites the bytes from the position on, and moves behind them. -/
def append (w : Writer) (bytes : Bytes) : Writer where
  buffer := w.buffer.take w.position ++ bytes ++ w.buffer.drop (w.position + bytes.length)
  position := w.position + bytes.length

/-- A writer whose position lies in its buffer splits it into what is written and what is not. -/
theorem exists_split {w : Writer} (h : w.position ≤ w.buffer.length) :
    ∃ written rest, w = ⟨written ++ rest, written.length⟩ := by
  obtain ⟨buffer, position⟩ := w
  refine ⟨buffer.take position, buffer.drop position, ?_⟩
  rw [List.take_append_drop, List.length_take, Nat.min_eq_left h]

@[simp] theorem room_split (written rest : Bytes) :
    room ⟨written ++ rest, written.length⟩ = rest.length := by
  simp [room]

@[simp] theorem append_split (written rest bytes : Bytes) :
    append ⟨written ++ rest, written.length⟩ bytes =
      ⟨written ++ bytes ++ rest.drop bytes.length, (written ++ bytes).length⟩ := by
  simp [append]

end Writer

/-! ### Actions -/

/-- **An action on a writer**, which may fail; the writer outlives the failure. -/
abbrev WriteM : Type → Type := EStateM EncodeError Writer

/-- A check among actions: its failure is the action's. -/
instance : MonadLift (Except EncodeError) WriteM where
  monadLift
    | .ok a => pure a
    | .error e => throw e

/-- Fails where there is no room for `n` bytes. -/
def requireRoom (n : Nat) : WriteM Unit := do
  if (← get).room < n then
    throw .bufferTooSmall

/-- Writes a row of bytes, if there is room for all of it. -/
def putBytes (bytes : Bytes) : WriteM Unit := do
  requireRoom bytes.length
  modify fun w => w.append bytes

/-- **Writes a field**, whole or not at all: a field that has no size is refused before the room is
looked at. -/
def Field.put (field : Field) : WriteM Unit := do
  let _ ← field.size
  putBytes field.bytes

theorem requireRoom_of_le {n : Nat} {w : Writer} (h : n ≤ w.room) :
    requireRoom n w = .ok () w := by
  show (if w.room < n then _ else _ : WriteM Unit) w = _
  rw [if_neg (by omega)]
  rfl

theorem requireRoom_of_lt {n : Nat} {w : Writer} (h : w.room < n) :
    requireRoom n w = .error .bufferTooSmall w := by
  show (if w.room < n then _ else _ : WriteM Unit) w = _
  rw [if_pos h]
  rfl

theorem putBytes_of_le {bytes : Bytes} {w : Writer} (h : bytes.length ≤ w.room) :
    putBytes bytes w = .ok () (w.append bytes) := by
  simp only [putBytes, bind, EStateM.bind, requireRoom_of_le h]
  rfl

theorem putBytes_of_lt {bytes : Bytes} {w : Writer} (h : w.room < bytes.length) :
    putBytes bytes w = .error .bufferTooSmall w := by
  simp only [putBytes, bind, EStateM.bind, requireRoom_of_lt h]

theorem Field.put_of_size_eq_error {field : Field} {e : EncodeError} (h : field.size = .error e)
    (w : Writer) : field.put w = .error e w := by
  rw [Field.put, h]
  rfl

theorem Field.put_of_size_eq_ok {field : Field} {n : Nat} (h : field.size = .ok n) (w : Writer) :
    field.put w = putBytes field.bytes w := by
  rw [Field.put, h]
  rfl

/-- Writes fields in order, up to the first failure. -/
def putAll : List Field → WriteM Unit
  | [] => pure ()
  | field :: fields => do
    field.put
    putAll fields

/-- Fields that have a size and fit are written one behind the other. -/
theorem putAll_of_totalSize {fields : List Field} {n : Nat} (h : Field.totalSize fields = .ok n)
    {written rest : Bytes} (hn : n ≤ rest.length) :
    putAll fields ⟨written ++ rest, written.length⟩ = .ok ()
      ⟨written ++ fields.flatMap Field.bytes ++ rest.drop n, written.length + n⟩ := by
  induction fields generalizing n written rest with
  | nil => cases h; simp [putAll]; rfl
  | cons field fields ih =>
    rw [Field.totalSize] at h
    cases hf : field.size with
    | error e => rw [hf] at h; cases h
    | ok m =>
      cases ht : Field.totalSize fields with
      | error e => rw [hf, ht] at h; cases h
      | ok k =>
        rw [hf, ht] at h
        cases h
        have hm := Field.length_bytes hf
        have hp : field.put ⟨written ++ rest, written.length⟩ =
            .ok () ⟨(written ++ field.bytes) ++ rest.drop m, (written ++ field.bytes).length⟩ := by
          rw [Field.put_of_size_eq_ok hf, putBytes_of_le (by rw [Writer.room_split]; omega),
            Writer.append_split, hm]
        simp only [putAll, bind, EStateM.bind, hp]
        rw [ih ht (by rw [List.length_drop]; omega)]
        simp [hm, List.drop_drop, Nat.add_assoc]

/-! ### Over time -/

namespace Writer

/-- **Writes one more field,** and tells whether it could; a field that cannot be written is passed
over. -/
def write (w : Writer) (field : Field) : Except EncodeError Unit × Writer :=
  match field.put w with
  | .ok () w' => (.ok (), w')
  | .error e w' => (.error e, w')

/-- **The writer after all fields,** one after the other. -/
def run (w : Writer) (fields : List Field) : Writer :=
  fields.foldl (fun w field => (w.write field).2) w

theorem run_cons (w : Writer) (field : Field) (fields : List Field) :
    w.run (field :: fields) = (w.write field).2.run fields := rfl

end Writer

/-! ### Results -/

/-- **What an action leaves:** its result, and the whole buffer. -/
structure Outcome where
  /-- How many bytes were written, or why not. -/
  result : Except EncodeError Nat
  /-- The buffer afterwards, unwritten bytes included. -/
  buffer : Bytes
deriving DecidableEq

/-- Runs an action from the start of a buffer. -/
def writeInto (buffer : Bytes) (action : WriteM Nat) : Outcome :=
  match action (Writer.start buffer) with
  | .ok n w => ⟨.ok n, w.buffer⟩
  | .error e w => ⟨.error e, w.buffer⟩

/-- **Writes a field to the start of a buffer,** and gives its length. -/
def Field.encode (field : Field) (buffer : Bytes) : Outcome :=
  writeInto buffer do
    field.put
    return (← get).position

end MqttWire
