import MqttWire.Packet
import MqttWire.QoS

/-!
# Publish requests

A message on its way to a topic.  The body is the topic name, a packet identifier where the quality
of service needs one, and then the message up to the packet's end.
-/

namespace MqttWire

/-! ### Flags -/

/-- **The flags of a publish packet.** -/
structure PublishFlags where
  /-- This may be a second delivery. -/
  duplicate : Bool
  qos : QoS
  /-- The broker keeps the message for later subscribers. -/
  retain : Bool
deriving DecidableEq

namespace PublishFlags

def duplicateBit : UInt8 := 0x08

def qosMask : UInt8 := 0x06

def retainBit : UInt8 := 0x01

/-- First delivery, at most once, not retained. -/
def empty : PublishFlags := ⟨false, .atMostOnce, false⟩

/-- The flags in the low half of the packet's first byte. -/
def bits (flags : PublishFlags) : UInt8 :=
  flags.qos.level <<< 1
    ||| (if flags.duplicate then duplicateBit else 0)
    ||| (if flags.retain then retainBit else 0)

/-- The flags of four bits. -/
def ofBits (bits : UInt8) : Except EncodeError PublishFlags := do
  if bits > 15 then
    throw (.violation .invalidFlags)
  let qos ← QoS.ofLevel ((bits &&& qosMask) >>> 1)
  return ⟨bits &&& duplicateBit ≠ 0, qos, bits &&& retainBit ≠ 0⟩

theorem ofBits_bits (flags : PublishFlags) : ofBits flags.bits = .ok flags := by
  obtain ⟨duplicate, qos, retain⟩ := flags
  cases duplicate <;> cases qos <;> cases retain <;> rfl

end PublishFlags

/-! ### Requests -/

/-- **A request to publish a message.** -/
structure Publish where
  topic : String
  /-- The identifier, sent only where the quality of service needs one. -/
  packetId : UInt16 := 0
  message : Bytes
  flags : PublishFlags := .empty
deriving DecidableEq

namespace Publish

/-- A first delivery, at most once, not retained. -/
def ofMessage (topic : String) (message : Bytes) : Publish := { topic, message }

/-- Sets the quality of service, and the identifier that goes with it. -/
def withQoS (p : Publish) (qos : QoS) (packetId : UInt16) : Publish :=
  { p with flags := { p.flags with qos := qos }, packetId := packetId }

def retained (p : Publish) : Publish := { p with flags := { p.flags with retain := true } }

def duplicate (p : Publish) : Publish := { p with flags := { p.flags with duplicate := true } }

/-- A message needs a topic. -/
def validate (p : Publish) : Except EncodeError Unit :=
  if p.topic.isEmpty then .error (.violation .emptyTopic) else .ok ()

def fields (p : Publish) : List Field :=
  .text p.topic ::
    ((if p.flags.qos.needsPacketId then [.word p.packetId] else []) ++ [.raw p.message])

/-- The length of the body; only a message can make it too large for a packet. -/
def remainingLength (p : Publish) : Except EncodeError Nat := do
  let size := (← Field.textSize p.topic) + (if p.flags.qos.needsPacketId then 2 else 0)
  if size + p.message.length > RemainingLength.limit then
    throw (.violation .remainingLengthTooLarge)
  return size + p.message.length

/-- **A publish request as a packet.** -/
def packet (p : Publish) : Packet where
  validity := p.validate
  header := FixedHeader.ofFlags .publish p.flags.bits
  remainingLength := p.remainingLength
  fields := p.fields

end Publish

end MqttWire
