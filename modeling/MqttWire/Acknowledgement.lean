import MqttWire.Packet

/-!
# Acknowledgements

Four kinds of packet acknowledge a publish packet or one another, and share one layout: the body is
the identifier of what is acknowledged.
-/

namespace MqttWire

/-- **An acknowledgement** of the kind `type`; only four of the kinds are acknowledgements. -/
structure Acknowledgement where
  type : ControlType
  packetId : UInt16
deriving DecidableEq

namespace Acknowledgement

/-- The message has been received. -/
def pubAck (packetId : UInt16) : Acknowledgement := ⟨.pubAck, packetId⟩

/-- The first step of an exactly-once delivery: the message has been received. -/
def pubRec (packetId : UInt16) : Acknowledgement := ⟨.pubRec, packetId⟩

/-- The second step of an exactly-once delivery: the message may be released. -/
def pubRel (packetId : UInt16) : Acknowledgement := ⟨.pubRel, packetId⟩

/-- The last step of an exactly-once delivery: it is complete. -/
def pubComp (packetId : UInt16) : Acknowledgement := ⟨.pubComp, packetId⟩

/-- Is this one of the four kinds? -/
def validate (a : Acknowledgement) : Except EncodeError Unit :=
  match a.type with
  | .pubAck | .pubRec | .pubRel | .pubComp => .ok ()
  | _ => .error (.violation .invalidControlType)

/-- The header with the fixed flags of the kind. -/
def header (a : Acknowledgement) : Except EncodeError FixedHeader :=
  match a.type.requiredFlags with
  | some flags => FixedHeader.ofFlags a.type flags
  | none => .error (.violation .invalidControlType)

def fields (a : Acknowledgement) : List Field := [.word a.packetId]

/-- **An acknowledgement as a packet.** -/
def packet (a : Acknowledgement) : Packet where
  validity := a.validate
  header := a.header
  remainingLength := .ok 2
  fields := a.fields

end Acknowledgement

end MqttWire
