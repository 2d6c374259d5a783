import MqttWire.Connect.Flags
import MqttWire.Packet

/-!
# Connect requests

The first packet of a client.  Its body opens with ten bytes that every connect packet has: protocol
name, protocol level, flags, keep-alive.  The client identifier follows, and then the optional
fields, those that are absent left out: will topic and will message, user name, password.
-/

namespace MqttWire

/-- **A request to open a session.** -/
structure Connect where
  clientId : String
  willTopic : Option String := none
  willMessage : Option Bytes := none
  userName : Option String := none
  password : Option Bytes := none
  flags : ConnectFlags := .empty
  /-- The longest silence that the broker tolerates, in seconds. -/
  keepAlive : UInt16 := 0
deriving DecidableEq

namespace Connect

/-- The name of the protocol, which opens the body. -/
def protocolName : String := "MQTT"

/-- The number of the protocol's version. -/
def protocolLevel : UInt8 := 4

/-- The bytes before the client identifier. -/
def fixedPartLength : Nat := 10

/-! ### Building -/

/-- A client identifier and nothing else. -/
def ofClientId (clientId : String) : Connect := { clientId }

def withFlags (c : Connect) (flags : ConnectFlags) : Connect := { c with flags := flags }

def withKeepAlive (c : Connect) (seconds : UInt16) : Connect := { c with keepAlive := seconds }

def withWill (c : Connect) (topic : String) (message : Bytes) : Connect :=
  { c with willTopic := some topic, willMessage := some message }

/-- Sets the user name, and sets or clears the password. -/
def withCredentials (c : Connect) (userName : String) (password : Option Bytes) : Connect :=
  { c with userName := some userName, password := password }

/-! ### Checks -/

/-- **Is the request legal?**  A will has topic and message, a password comes with a user name, and
the flags fit. -/
def validate (c : Connect) : Except EncodeError Unit := do
  if c.willTopic.isSome ≠ c.willMessage.isSome then
    throw (.violation .incompleteWill)
  if c.password.isSome && c.userName.isNone then
    throw (.violation .passwordWithoutUserName)
  c.flags.validate c.willTopic.isSome

/-! ### On the wire -/

/-- The flags byte: the caller's bits, and those that announce the optional fields. -/
def wireBits (c : Connect) : UInt8 :=
  c.flags.bits
    ||| (if c.willTopic.isSome then ConnectFlags.willBit else 0)
    ||| (if c.userName.isSome then ConnectFlags.userNameBit else 0)
    ||| (if c.password.isSome then ConnectFlags.passwordBit else 0)

/-- The flags byte of a legal request. -/
def wireFlags (c : Connect) : Except EncodeError UInt8 := do
  c.validate
  return c.wireBits

/-- The will, which counts only with both its parts. -/
def will? (c : Connect) : Option (String × Bytes) := do
  return (← c.willTopic, ← c.willMessage)

/-- The length of what follows the fixed part. -/
def payloadLength (c : Connect) : Except EncodeError Nat := do
  let mut length ← Field.textSize c.clientId
  if let some (topic, message) := c.will? then
    length := length + ((← Field.textSize topic) + (← Field.binarySize message))
  if let some userName := c.userName then
    length := length + (← Field.textSize userName)
  if let some password := c.password then
    length := length + (← Field.binarySize password)
  return length

/-- What follows the fixed part: the client identifier, and the optional fields that are there. -/
def payload (c : Connect) : List Field :=
  .text c.clientId ::
    ((c.will?.toList.flatMap fun will => [.text will.1, .binary will.2])
      ++ c.userName.toList.map .text ++ c.password.toList.map .binary)

/-- Writes the fixed part and what follows it; the flags byte is looked up, and with it the whole
request checked once more, where it stands. -/
def putFields (c : Connect) : WriteM Unit := do
  putAll [.text protocolName, .byte protocolLevel]
  (Field.byte (← c.wireFlags)).put
  putAll (.word c.keepAlive :: c.payload)

/-- **A connect request as a packet.** -/
def packet (c : Connect) : Packet where
  validity := c.validate
  header := FixedHeader.ofFlags .connect 0
  remainingLength := return fixedPartLength + (← c.payloadLength)
  fields := c.putFields

end Connect

end MqttWire
