import MqttWire.FixedHeader

/-!
# Packets

A packet is ready to be written once four things are known: whether its content is legal, its fixed
header, the number of bytes that follow, and how to write those bytes.  Each request describes
itself as a `Packet`; what is done with a packet is said here once for all of them.

* `encodedLength` is the length, without writing anything;
* `encode` writes the packet to the start of a buffer, `put` to where a writer stands;
* `encodeGrown` makes the buffer itself and gives the bytes alone, and `encodeWithin` does so within
  a capacity.

All three look for the same faults in the same order: content, header, remaining length, its limit.
-/

namespace MqttWire

/-- Where an action is called for, a row of fields is the writing of them. -/
instance : Coe (List Field) (WriteM Unit) := ⟨putAll⟩

/-- **A packet before it is written.** -/
structure Packet where
  /-- Is the content legal? -/
  validity : Except EncodeError Unit
  /-- The kind of packet and its flags. -/
  header : Except EncodeError FixedHeader
  /-- How many bytes follow the fixed header. -/
  remainingLength : Except EncodeError Nat
  /-- Writes what follows the fixed header. -/
  fields : WriteM Unit

namespace Packet

/-- **The length of the packet,** or why it has none. -/
def encodedLength (packet : Packet) : Except EncodeError Nat := do
  packet.validity
  let _ ← packet.header
  FixedHeader.packetLength (← packet.remainingLength)

/-- Writes the packet, and gives the position behind it. -/
def put (packet : Packet) : WriteM Nat := do
  packet.validity
  let header ← packet.header
  let remaining ← packet.remainingLength
  let _ ← header.put remaining
  packet.fields
  return (← get).position

/-- **Writes the packet to the start of a buffer.** -/
def encode (packet : Packet) (buffer : Bytes) : Outcome := writeInto buffer packet.put

/-- **The bytes of the packet,** in a buffer that `grow` makes of the length they need, if it can. -/
def encodeGrown (packet : Packet) (grow : Nat → Option Bytes) : Except EncodeError Bytes := do
  let length ← packet.encodedLength
  match grow length with
  | none => throw .bufferTooSmall
  | some buffer =>
    let outcome := packet.encode buffer
    return outcome.buffer.take (← outcome.result)

/-- A buffer of zeros within a capacity. -/
def zeroed (capacity length : Nat) : Option Bytes :=
  if capacity < length then none else some (List.replicate length 0)

/-- The bytes of the packet, if there are at most `capacity`. -/
def encodeWithin (packet : Packet) (capacity : Nat) : Except EncodeError Bytes :=
  packet.encodeGrown (zeroed capacity)

end Packet

end MqttWire
