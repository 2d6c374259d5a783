import MqttWire.ControlType
import MqttWire.RemainingLength

/-!
# The fixed header

Every packet starts with a byte that holds its kind (high half) and its flags (low half), followed
by the remaining length.  `FixedHeader.put` writes both, and only where the whole packet fits.
-/

namespace MqttWire

/-- **What a packet starts with,** its length apart: a kind, and flags it may have. -/
structure FixedHeader where
  /-- The kind of packet. -/
  type : ControlType
  /-- The low half of the first byte. -/
  flags : UInt8
  /-- The kind allows these flags. -/
  legal : type.checkFlags flags = .ok ()
deriving DecidableEq

namespace FixedHeader

/-- The most bytes that the fixed header takes: one, and four digits. -/
def maxLength : Nat := 5

/-- The header of a kind and its flags, or the reason why they do not go together. -/
def ofFlags (type : ControlType) (flags : UInt8) : Except EncodeError FixedHeader :=
  match h : type.checkFlags flags with
  | .ok () => .ok ⟨type, flags, h⟩
  | .error e => .error e

/-- The first byte of the packet. -/
def controlByte (header : FixedHeader) : UInt8 := header.type.code <<< 4 ||| header.flags

/-- **The length of a packet** of which `remaining` bytes follow the fixed header. -/
def packetLength (remaining : Nat) : Except EncodeError Nat := do
  return 1 + (← RemainingLength.width remaining) + remaining

/-- **Writes the fixed header** of a packet, where there is room for all of the packet, and gives
the header's length. -/
def put (header : FixedHeader) (remaining : Nat) : WriteM Nat := do
  requireRoom (← packetLength remaining)
  (Field.byte header.controlByte).put
  return 1 + (← RemainingLength.put remaining)

theorem ofFlags_of_checkFlags {type : ControlType} {flags : UInt8}
    (h : type.checkFlags flags = .ok ()) : ofFlags type flags = .ok ⟨type, flags, h⟩ := by
  unfold ofFlags
  split
  · rfl
  · next he => rw [h] at he; cases he

end FixedHeader

end MqttWire
