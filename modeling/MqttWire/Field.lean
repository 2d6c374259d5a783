import MqttWire.Bytes
import MqttWire.Error

/-!
# Fields

Behind its fixed header a packet is a row of fields.  Five shapes are enough: a byte, a 16-bit word
high byte first, a text and a binary value with their length in two bytes before them, and raw
bytes whose end the packet itself gives.

A length in two bytes bounds texts and binary values by 65,535 bytes; `Field.size` is the number of
bytes a field takes, and fails for a longer one.  `Field.length_bytes` says that the size is what
`Field.bytes` holds, and `Field.length_flatMap_bytes` says the same of a row of fields.
-/

namespace MqttWire

/-- **A part of a packet's body.** -/
inductive Field where
  | byte (value : UInt8)
  | word (value : UInt16)
  | text (value : String)
  | binary (value : Bytes)
  | raw (value : Bytes)
deriving DecidableEq

namespace Field

/-- The longest text or binary value, in bytes: its length must fit two bytes. -/
def maxLength : Nat := 65535

/-- The bytes a text takes, length included. -/
def textSize (value : String) : Except EncodeError Nat :=
  if value.utf8ByteSize > maxLength then .error (.violation .stringTooLong)
  else .ok (2 + value.utf8ByteSize)

/-- The bytes a binary value takes, length included. -/
def binarySize (value : Bytes) : Except EncodeError Nat :=
  if value.length > maxLength then .error (.violation .binaryTooLong)
  else .ok (2 + value.length)

/-- The bytes a field takes. -/
def size : Field → Except EncodeError Nat
  | byte _ => .ok 1
  | word _ => .ok 2
  | text value => textSize value
  | binary value => binarySize value
  | raw value => .ok value.length

/-- Bytes behind their length. -/
def counted (value : Bytes) : Bytes := bigEndian value.length ++ value

/-- **A field on the wire.** -/
def bytes : Field → Bytes
  | byte value => [value]
  | word value => bigEndian value.toNat
  | text value => counted (utf8 value)
  | binary value => counted value
  | raw value => value

/-- The bytes that a row of fields takes. -/
def totalSize : List Field → Except EncodeError Nat
  | [] => .ok 0
  | field :: fields => do return (← field.size) + (← totalSize fields)

@[simp] theorem length_counted (value : Bytes) : (counted value).length = 2 + value.length := by
  simp [counted, Nat.add_comm]

/-- A field that has a size takes that many bytes. -/
theorem length_bytes {field : Field} {n : Nat} (h : field.size = .ok n) :
    field.bytes.length = n := by
  cases field with
  | byte value => cases h; rfl
  | word value => cases h; rfl
  | raw value => cases h; rfl
  | text value =>
    simp only [size, textSize] at h
    split at h
    · cases h
    · cases h
      simp [bytes]
  | binary value =>
    simp only [size, binarySize] at h
    split at h
    · cases h
    · cases h
      simp [bytes]

/-- A row of fields that has a size takes that many bytes. -/
theorem length_flatMap_bytes {fields : List Field} {n : Nat} (h : totalSize fields = .ok n) :
    (fields.flatMap bytes).length = n := by
  induction fields generalizing n with
  | nil => cases h; rfl
  | cons field fields ih =>
    rw [totalSize] at h
    cases hf : field.size with
    | error e => rw [hf] at h; cases h
    | ok m =>
      cases ht : totalSize fields with
      | error e => rw [hf, ht] at h; cases h
      | ok k =>
        rw [hf, ht] at h
        cases h
        rw [List.flatMap_cons, List.length_append, length_bytes hf, ih ht]

end Field

end MqttWire
