import MqttWire.Error

/-!
# Quality of service

How hard sender and receiver work to deliver one message.  On the wire a level is a number from
0 to 2; 3 is no level.
-/

namespace MqttWire

/-- **The delivery guarantee** of a message. -/
inductive QoS where
  | atMostOnce
  | atLeastOnce
  | exactlyOnce
deriving DecidableEq, Inhabited

namespace QoS

def name : QoS → String
  | atMostOnce => "AtMostOnce"
  | atLeastOnce => "AtLeastOnce"
  | exactlyOnce => "ExactlyOnce"

/-- The number of the level on the wire. -/
def level : QoS → UInt8
  | atMostOnce => 0
  | atLeastOnce => 1
  | exactlyOnce => 2

/-- The level of a number; there is none above 2. -/
def ofLevel : UInt8 → Except EncodeError QoS
  | 0 => .ok atMostOnce
  | 1 => .ok atLeastOnce
  | 2 => .ok exactlyOnce
  | _ => .error (.violation .invalidQoS)

/-- Only a message that may be acknowledged carries a packet identifier. -/
def needsPacketId (qos : QoS) : Bool := qos ≠ atMostOnce

@[simp] theorem ofLevel_level (qos : QoS) : ofLevel qos.level = .ok qos := by
  cases qos <;> rfl

theorem level_le (qos : QoS) : qos.level ≤ 2 := by
  cases qos <;> decide

end QoS

end MqttWire
