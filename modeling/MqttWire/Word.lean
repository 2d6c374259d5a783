import MqttWire.Publish

/-!
# Lengths in a machine word

Everywhere else a length is a number.  A machine counts in words of so many bits, and a sum that a
word does not hold goes round.  Only a message can be long enough for that, so the sum in which a
message is counted is a checked one, and what is too long for a word is too long for a packet.
-/

namespace MqttWire

variable {bits : Nat}

/-- The sum of two words, where a word holds it. -/
def checkedAdd? (a b : BitVec bits) : Option (BitVec bits) :=
  if a.uaddOverflow b then none else some (a + b)

/-- The bytes a text takes, length included. -/
def Field.textSizeIn (bits : Nat) (value : String) : Except EncodeError (BitVec bits) :=
  if value.utf8ByteSize > maxLength then .error (.violation .stringTooLong)
  else .ok (2 + BitVec.ofNat bits value.utf8ByteSize)

/-- The length of a packet of which `remaining` bytes follow the fixed header. -/
def FixedHeader.packetLengthIn (remaining : BitVec bits) : Except EncodeError (BitVec bits) := do
  return 1 + BitVec.ofNat bits (← RemainingLength.width remaining.toNat) + remaining

/-- The length of a packet of which so many bytes follow the fixed header, or why it has none. -/
def Packet.encodedLengthIn (packet : Packet) (remaining : Except EncodeError (BitVec bits)) :
    Except EncodeError (BitVec bits) := do
  packet.validity
  let _ ← packet.header
  FixedHeader.packetLengthIn (← remaining)

namespace Publish

/-- **The length of the body, counted in words.** -/
def remainingLengthIn (bits : Nat) (p : Publish) : Except EncodeError (BitVec bits) := do
  let size := (← Field.textSizeIn bits p.topic) + (if p.flags.qos.needsPacketId then 2 else 0)
  match (checkedAdd? size (BitVec.ofNat bits p.message.length)).filter
      (·.toNat ≤ RemainingLength.limit) with
  | some sum => return sum
  | none => throw (.violation .remainingLengthTooLarge)

/-- **The length of the packet, counted in words,** or why it has none. -/
def encodedLengthIn (bits : Nat) (p : Publish) : Except EncodeError (BitVec bits) :=
  p.packet.encodedLengthIn (p.remainingLengthIn bits)

end Publish

end MqttWire
