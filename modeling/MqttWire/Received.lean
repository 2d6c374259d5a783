import MqttWire.RemainingLength
import MqttWire.Request.Basic

/-!
# What arrives

A receiver that knows the wire format, and nothing of how packets are made, takes one packet off the
front of what has come in and splits it into its fields.  It is lenient: any protocol, any flags and
any number of entries are taken as they come, and so is a remaining length in more digits than it
needs.
Only the body must be as long as its fields.

`Received` is what it finds, and `Request.received` what it should find of a request.
-/

namespace MqttWire

open ReadM (optional many)

/-! ### Fields -/

/-- **The fields of a connect packet;** its flags byte also tells which of the last four follow. -/
structure ReceivedConnect where
  protocolName : String
  protocolLevel : UInt8
  cleanSession : Bool
  willQoS : UInt8
  willRetain : Bool
  keepAlive : UInt16
  clientId : String
  willTopic : Option String
  willMessage : Option Bytes
  userName : Option String
  password : Option Bytes
deriving DecidableEq

/-- **The fields of a publish packet.** -/
structure ReceivedPublish where
  duplicate : Bool
  qos : UInt8
  retain : Bool
  topic : String
  packetId : Option UInt16
  message : Bytes
deriving DecidableEq

/-- **What a packet holds.** -/
inductive Received where
  | connect (fields : ReceivedConnect)
  | publish (fields : ReceivedPublish)
  | acknowledge (type : ControlType) (packetId : UInt16)
  | subscribe (packetId : UInt16) (entries : List (String × UInt8))
  | unsubscribe (packetId : UInt16) (filters : List String)
  | pingReq
  | disconnect
deriving DecidableEq

/-! ### Reading -/

def ReceivedConnect.read : ReadM ReceivedConnect := do
  let protocolName ← readText
  let protocolLevel ← readByte
  let flags ← readByte
  let keepAlive ← readWord
  let clientId ← readText
  let willTopic ← optional (flags &&& 0x04 ≠ 0) readText
  let willMessage ← optional (flags &&& 0x04 ≠ 0) readBinary
  let userName ← optional (flags &&& 0x80 ≠ 0) readText
  let password ← optional (flags &&& 0x40 ≠ 0) readBinary
  return {
    protocolName, protocolLevel
    cleanSession := flags &&& 0x02 ≠ 0
    willQoS := flags >>> 3 &&& 3
    willRetain := flags &&& 0x20 ≠ 0
    keepAlive, clientId, willTopic, willMessage, userName, password }

/-- Reads the body of a publish packet, whose flags stand in the packet's first byte. -/
def ReceivedPublish.read (first : UInt8) : ReadM ReceivedPublish := do
  let qos := first >>> 1 &&& 3
  let topic ← readText
  let packetId ← optional (qos ≠ 0) readWord
  let message ← readRest
  return {
    duplicate := first &&& 0x08 ≠ 0
    qos
    retain := first &&& 0x01 ≠ 0
    topic, packetId, message }

namespace Received

/-- Reads a topic filter and a byte behind it. -/
def readEntry : ReadM (String × UInt8) := do
  return (← readText, ← readByte)

/-- Reads to the end of the input; nothing that is read takes no byte. -/
def readToEnd {α : Type} (reader : ReadM α) : ReadM (List α) := do
  many reader (← get).length

/-- Reads the body that goes with the first byte of a packet. -/
def readBody (first : UInt8) : ReadM Received :=
  match first with
  | 0x10 => connect <$> ReceivedConnect.read
  | 0x40 => acknowledge .pubAck <$> readWord
  | 0x50 => acknowledge .pubRec <$> readWord
  | 0x62 => acknowledge .pubRel <$> readWord
  | 0x70 => acknowledge .pubComp <$> readWord
  | 0x82 => do return subscribe (← readWord) (← readToEnd readEntry)
  | 0xA2 => do return unsubscribe (← readWord) (← readToEnd readText)
  | 0xC0 => pure pingReq
  | 0xE0 => pure disconnect
  | _ => if first >>> 4 = 3 then publish <$> ReceivedPublish.read first else failure

/-- **Reads one packet** off the front of what has come in. -/
def read : ReadM Received := do
  let first ← readByte
  let body ← readBytes (← RemainingLength.readDigits 4)
  match (readBody first).whole? body with
  | some received => return received
  | none => failure

end Received

/-! ### What should arrive -/

/-- **What a receiver should find of a request:** the identifier of a message only where the quality
of service is above zero, and else every field as the request has it. -/
def Request.received : Request → Received
  | connect c => .connect {
      protocolName := "MQTT"
      protocolLevel := 4
      cleanSession := c.flags.bits &&& 0x02 ≠ 0
      willQoS := c.flags.bits >>> 3 &&& 3
      willRetain := c.flags.bits &&& 0x20 ≠ 0
      keepAlive := c.keepAlive
      clientId := c.clientId
      willTopic := c.willTopic
      willMessage := c.willMessage
      userName := c.userName
      password := c.password }
  | publish p => .publish {
      duplicate := p.flags.duplicate
      qos := p.flags.qos.level
      retain := p.flags.retain
      topic := p.topic
      packetId := if p.flags.qos.level = 0 then none else some p.packetId
      message := p.message }
  | acknowledge a => .acknowledge a.type a.packetId
  | subscribe s => .subscribe s.packetId (s.subscriptions.map fun e => (e.filter, e.maxQoS.level))
  | unsubscribe u => .unsubscribe u.packetId u.filters
  | pingReq => .pingReq
  | disconnect => .disconnect

end MqttWire
