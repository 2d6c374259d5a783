import MqttWire.Acknowledgement
import MqttWire.Connect.Basic
import MqttWire.Publish
import MqttWire.Subscription

/-!
# Requests

All that a client sends, as one type.
-/

namespace MqttWire

/-- **What a client sends to a broker.** -/
inductive Request where
  | connect (request : Connect)
  | publish (request : Publish)
  | acknowledge (request : Acknowledgement)
  | subscribe (request : Subscribe)
  | unsubscribe (request : Unsubscribe)
  | pingReq
  | disconnect
deriving DecidableEq

namespace Request

/-- A packet of a fixed header alone. -/
def bare (type : ControlType) : Packet where
  validity := .ok ()
  header := FixedHeader.ofFlags type 0
  remainingLength := .ok 0
  fields := pure ()

/-- **The request as a packet.** -/
def packet : Request → Packet
  | connect request => request.packet
  | publish request => request.packet
  | acknowledge request => request.packet
  | subscribe request => request.packet
  | unsubscribe request => request.packet
  | pingReq => bare .pingReq
  | disconnect => bare .disconnect

/-- The length of the packet, or why it has none. -/
def encodedLength (request : Request) : Except EncodeError Nat := request.packet.encodedLength

/-- Writes the packet to the start of a buffer. -/
def encode (request : Request) (buffer : Bytes) : Outcome := request.packet.encode buffer

/-- The bytes of the packet, if there are at most `capacity`. -/
def encodeWithin (request : Request) (capacity : Nat) : Except EncodeError Bytes :=
  request.packet.encodeWithin capacity

end Request

end MqttWire
