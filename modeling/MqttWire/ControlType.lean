import MqttWire.Error

/-!
# Control types

The kinds of packet, and the flags that go with each kind in a packet's first byte.  Only a publish
packet chooses its flags; every other kind has fixed ones.
-/

namespace MqttWire

/-- **The kinds of packet.** -/
inductive ControlType where
  | connect
  | connAck
  | publish
  | pubAck
  | pubRec
  | pubRel
  | pubComp
  | subscribe
  | subAck
  | unsubscribe
  | unsubAck
  | pingReq
  | pingResp
  | disconnect
deriving DecidableEq

namespace ControlType

/-- All kinds, in the order of their codes. -/
def all : List ControlType :=
  [connect, connAck, publish, pubAck, pubRec, pubRel, pubComp, subscribe, subAck, unsubscribe,
    unsubAck, pingReq, pingResp, disconnect]

/-- The number of the kind in a packet's first byte. -/
def code : ControlType → UInt8
  | connect => 1
  | connAck => 2
  | publish => 3
  | pubAck => 4
  | pubRec => 5
  | pubRel => 6
  | pubComp => 7
  | subscribe => 8
  | subAck => 9
  | unsubscribe => 10
  | unsubAck => 11
  | pingReq => 12
  | pingResp => 13
  | disconnect => 14

/-- The kind with this number. -/
def ofCode? (code : UInt8) : Option ControlType := all.find? fun t => t.code == code

/-- The flags of the kind, if they are fixed. -/
def requiredFlags : ControlType → Option UInt8
  | publish => none
  | pubRel | subscribe | unsubscribe => some 2
  | _ => some 0

/-- **May a packet of this kind have these flags?**  They are four bits; fixed ones must be met, and
those of a publish packet must not hold the quality of service 3. -/
def checkFlags (type : ControlType) (flags : UInt8) : Except EncodeError Unit :=
  if flags > 15 then .error (.violation .invalidFlags)
  else
    match type.requiredFlags with
    | some required => if flags = required then .ok () else .error (.violation .invalidFlags)
    | none => if flags >>> 1 &&& 3 = 3 then .error (.violation .invalidQoS) else .ok ()

theorem mem_all (type : ControlType) : type ∈ all := by
  cases type <;> decide

@[simp] theorem ofCode?_code (type : ControlType) : ofCode? type.code = some type := by
  cases type <;> rfl

/-- Legal flags are four bits. -/
theorem lt_of_checkFlags {type : ControlType} {flags : UInt8} (h : type.checkFlags flags = .ok ()) :
    flags < 16 := by
  unfold checkFlags at h
  split at h
  · cases h
  · next hle =>
    have hb := UInt8.le_iff_toNat_le.1 (UInt8.not_lt.1 hle)
    exact UInt8.lt_iff_toNat_lt.2 (Nat.lt_succ_of_le hb)

end ControlType

end MqttWire
