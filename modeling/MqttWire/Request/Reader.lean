import MqttWire.Reader
import MqttWire.Request.Basic

/-!
# Reading requests

The receiving side of the wire: a packet is taken off the front of the bytes that have come in, and
given as the request it carries.  The reader is strict.  The first byte must be one that a request
may have, the remaining length must be written in as few digits as it needs and be that of the body,
and the body must hold what its kind calls for and nothing more.  Bytes and bits stand here as the
wire has them, apart from the constants that writing uses.

One thing about a request does not reach the wire: the packet identifier of a message that needs
none.  It is read as zero; `Request.onWire` is what the other side sees.
-/

namespace MqttWire

open ReadM (optional many)

/-! ### Bodies -/

namespace Connect

/-- **The flags byte of a connect packet,** as the wire allows it: the reserved bit is clear, the
will's quality of service is a level, nothing is said about a will that does not follow, and a
password follows a user name. -/
def LegalBits (bits : UInt8) : Prop :=
  bits &&& 0x01 = 0
    ∧ bits &&& 0x18 ≠ 0x18
    ∧ (bits &&& 0x04 = 0 → bits &&& 0x38 = 0)
    ∧ (bits &&& 0x80 = 0 → bits &&& 0x40 = 0)

instance (bits : UInt8) : Decidable (LegalBits bits) := by
  unfold LegalBits
  infer_instance

/-- The name of the protocol behind its length, and the protocol's level. -/
def opening : Bytes := [0x00, 0x04, 0x4D, 0x51, 0x54, 0x54, 0x04]

def read : ReadM Connect := do
  guard ((← readBytes 7) = opening)
  let bits ← readByte
  guard (LegalBits bits)
  let keepAlive ← readWord
  let clientId ← readText
  let willTopic ← optional (bits &&& 0x04 ≠ 0) readText
  let willMessage ← optional (bits &&& 0x04 ≠ 0) readBinary
  let userName ← optional (bits &&& 0x80 ≠ 0) readText
  let password ← optional (bits &&& 0x40 ≠ 0) readBinary
  return {
    clientId := clientId
    willTopic := willTopic
    willMessage := willMessage
    userName := userName
    password := password
    flags := ⟨bits &&& 0x3A⟩
    keepAlive := keepAlive }

end Connect

/-- The quality of service of a number. -/
def readLevel (number : UInt8) : ReadM QoS :=
  match number with
  | 0 => pure .atMostOnce
  | 1 => pure .atLeastOnce
  | 2 => pure .exactlyOnce
  | _ => failure

/-- Reads a packet identifier where the quality of service needs one. -/
def readPacketId (qos : QoS) : ReadM UInt16 :=
  if qos = .atMostOnce then pure 0 else readWord

/-- Reads the body of a publish packet, whose flags stand in the packet's first byte. -/
def Publish.read (first : UInt8) : ReadM Publish := do
  let qos ← readLevel (first >>> 1 &&& 3)
  let topic ← readText
  guard (topic ≠ "")
  let packetId ← readPacketId qos
  return ⟨topic, packetId, ← readRest, ⟨first &&& 0x08 ≠ 0, qos, first &&& 0x01 ≠ 0⟩⟩

def Acknowledgement.read (type : ControlType) : ReadM Acknowledgement := do
  return ⟨type, ← readWord⟩

/-- Reads a topic filter. -/
def readFilter : ReadM String := do
  let filter ← readText
  guard (filter ≠ "")
  return filter

/-- Reads a topic filter and the quality of service asked for. -/
def Subscription.read : ReadM Subscription := do
  let filter ← readFilter
  return ⟨filter, ← readLevel (← readByte)⟩

/-- Reads a packet identifier, and one to eight entries behind it to the end of the input. -/
def readEntries {α : Type} (reader : ReadM α) : ReadM (UInt16 × List α) := do
  let packetId ← readWord
  let entries ← many reader 8
  guard (entries ≠ [])
  return (packetId, entries)

def Subscribe.read : ReadM Subscribe :=
  (fun r => ⟨r.1, r.2⟩) <$> readEntries Subscription.read

def Unsubscribe.read : ReadM Unsubscribe :=
  (fun r => ⟨r.1, r.2⟩) <$> readEntries readFilter

/-! ### Packets -/

namespace Request

/-- Reads the body that goes with the first byte of a packet. -/
def readBody (first : UInt8) : ReadM Request :=
  match first with
  | 0x10 => connect <$> Connect.read
  | 0x40 => acknowledge <$> Acknowledgement.read .pubAck
  | 0x50 => acknowledge <$> Acknowledgement.read .pubRec
  | 0x62 => acknowledge <$> Acknowledgement.read .pubRel
  | 0x70 => acknowledge <$> Acknowledgement.read .pubComp
  | 0x82 => subscribe <$> Subscribe.read
  | 0xA2 => unsubscribe <$> Unsubscribe.read
  | 0xC0 => pure pingReq
  | 0xE0 => pure disconnect
  | _ => if first >>> 4 = 3 then publish <$> Publish.read first else failure

/-- **Reads one packet** off the front of what has come in. -/
def read : ReadM Request := do
  let first ← readByte
  let body ← readBytes (← RemainingLength.read)
  match (readBody first).whole? body with
  | some request => return request
  | none => failure

/-- The requests of a row of packets with nothing behind them. -/
def readAll? (input : Bytes) : Option (List Request) := (many read input.length).whole? input

/-- **What the other side sees of a request:** an identifier that is not sent reads as zero. -/
def onWire : Request → Request
  | publish request =>
    publish { request with
      packetId := if request.flags.qos.needsPacketId then request.packetId else 0 }
  | request => request

end Request

end MqttWire
