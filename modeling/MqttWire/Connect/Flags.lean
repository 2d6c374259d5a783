import MqttWire.QoS

/-!
# Connect flags

One byte of a connect packet tells which optional fields follow and how the session and the will are
handled.  A caller chooses only the writable bits; those that announce fields follow from the fields
themselves.
-/

namespace MqttWire

/-- **The flags byte of a connect packet,** as its caller gives it. -/
structure ConnectFlags where
  /-- The byte itself. -/
  bits : UInt8
deriving DecidableEq

namespace ConnectFlags

/-- The bit that is always clear. -/
def reservedBit : UInt8 := 0x01

/-- Start from a clean session. -/
def cleanSessionBit : UInt8 := 0x02

/-- A will follows. -/
def willBit : UInt8 := 0x04

/-- The two bits of the will's quality of service. -/
def willQoSMask : UInt8 := 0x18

/-- The broker retains the will. -/
def willRetainBit : UInt8 := 0x20

/-- A password follows. -/
def passwordBit : UInt8 := 0x40

/-- A user name follows. -/
def userNameBit : UInt8 := 0x80

/-- The bits that a caller chooses. -/
def writableMask : UInt8 := cleanSessionBit ||| willQoSMask ||| willRetainBit

def empty : ConnectFlags := ⟨0⟩

def cleanSession (flags : ConnectFlags) : ConnectFlags := ⟨flags.bits ||| cleanSessionBit⟩

/-- Sets the will's quality of service, in place of the one before. -/
def willQoS (flags : ConnectFlags) (qos : QoS) : ConnectFlags :=
  ⟨flags.bits &&& ~~~willQoSMask ||| qos.level <<< 3⟩

def willRetain (flags : ConnectFlags) : ConnectFlags := ⟨flags.bits ||| willRetainBit⟩

def isCleanSession (flags : ConnectFlags) : Bool := flags.bits &&& cleanSessionBit ≠ 0

/-- **Are the flags legal** with a will, or without one?  Only writable bits may be set, the will's
quality of service is not 3, and without a will nothing is said about it. -/
def validate (flags : ConnectFlags) (hasWill : Bool) : Except EncodeError Unit := do
  if flags.bits &&& ~~~writableMask ≠ 0 then
    throw (.violation .invalidConnectFlags)
  if (flags.bits &&& willQoSMask) >>> 3 = 3 then
    throw (.violation .invalidQoS)
  if !hasWill && flags.bits &&& (willQoSMask ||| willRetainBit) ≠ 0 then
    throw (.violation .willFlagsWithoutWill)

end ConnectFlags

end MqttWire
