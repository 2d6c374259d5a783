import MqttWire.Connect.Basic
import MqttWire.Json.Document

/-!
# Settings

What a client needs to connect, read from a small document:

    { "client_id": "sensor", "keep_alive": 120, "clean_session": true,
      "will": { "topic": "status", "message": "offline", "qos": 1, "retain": true },
      "user_name": "device", "password": "secret" }

Only `client_id` must be there, and `topic` and `message` in a will.  A member with a known key may
stand in its object once; members with other keys are left alone, whatever their values.
-/

namespace MqttWire

open Json (Value)
open Json.Value (under required optional)

/-! ### The will -/

/-- **A will as the document gives it;** its quality of service may still be no level. -/
structure WillSettings where
  topic : String
  message : String
  qos : UInt8
  retain : Bool
deriving DecidableEq

/-- A will from the members of its object. -/
def WillSettings.ofMembers? (members : List (String × Value)) : Option WillSettings := do
  return {
    topic := ← required Value.text? (under "topic" members)
    message := ← required Value.text? (under "message" members)
    qos := UInt8.ofNat (← optional 0 (Value.nat? 255) (under "qos" members))
    retain := ← optional false Value.bool? (under "retain" members) }

def WillSettings.ofValue? (value : Value) : Option WillSettings :=
  value.members?.bind WillSettings.ofMembers?

/-! ### Settings -/

/-- **What a client needs to connect.** -/
structure Settings where
  clientId : String
  keepAlive : UInt16
  cleanSession : Bool
  will : Option WillSettings
  userName : Option String
  password : Option String
deriving DecidableEq

namespace Settings

/-- The keep-alive of settings that give none, in seconds. -/
def defaultKeepAlive : UInt16 := 60

/-- Settings from the members of their object. -/
def ofMembers? (members : List (String × Value)) : Option Settings := do
  return {
    clientId := ← required Value.text? (under "client_id" members)
    keepAlive := UInt16.ofNat
      (← optional defaultKeepAlive.toNat (Value.nat? 65535) (under "keep_alive" members))
    cleanSession := ← optional true Value.bool? (under "clean_session" members)
    will := ← optional none (Value.nullable? WillSettings.ofValue?) (under "will" members)
    userName := ← optional none (Value.nullable? Value.text?) (under "user_name" members)
    password := ← optional none (Value.nullable? Value.text?) (under "password" members) }

/-- **Settings from a document.** -/
def ofJson? (document : String) : Option Settings := do
  ofMembers? (← (← Json.parse? document).members?)

/-! ### The connect request -/

def connectFlags (s : Settings) : Except EncodeError ConnectFlags := do
  let session := if s.cleanSession then ConnectFlags.empty.cleanSession else .empty
  match s.will with
  | none => return session
  | some will =>
    let flags := session.willQoS (← QoS.ofLevel will.qos)
    return if will.retain then flags.willRetain else flags

/-- **The connect request of the settings,** unless the will's quality of service is no level. -/
def toConnect (s : Settings) : Except EncodeError Connect := do
  return {
    clientId := s.clientId
    willTopic := s.will.map fun will => will.topic
    willMessage := s.will.map fun will => utf8 will.message
    userName := s.userName
    password := s.password.map utf8
    flags := ← s.connectFlags
    keepAlive := s.keepAlive }

end Settings

end MqttWire
