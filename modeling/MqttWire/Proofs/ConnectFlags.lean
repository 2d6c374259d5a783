import MqttWire.Proofs.Fields
import MqttWire.Request.Reader

/-!
# The flags byte of a connect packet

A caller's bits and the fields that are there make up the flags byte.  For a legal request nothing
is lost: the byte is legal, and the caller's bits and the fields that follow can be told from it.
And every legal byte comes from a legal request.  `Connect.validate_wireBits_iff` says both at once.
-/

namespace MqttWire

/-- What is said of all bytes can be checked. -/
instance decidableForallByte {p : UInt8 → Prop} [DecidablePred p] : Decidable (∀ byte, p byte) :=
  decidable_of_iff (∀ bits : BitVec 8, p ⟨bits⟩) ⟨fun h ⟨bits⟩ => h bits, fun h bits => h ⟨bits⟩⟩

namespace ConnectFlags

/-- The bits of a caller are legal where they leave out the announcing and the reserved ones, hold a
level, and say nothing about a will that is not there. -/
theorem validate_eq_ok_iff {flags : ConnectFlags} {hasWill : Bool} :
    flags.validate hasWill = .ok () ↔ flags.bits &&& 0xC5 = 0 ∧ flags.bits &&& 0x18 ≠ 0x18 ∧
      (hasWill = false → flags.bits &&& 0x38 = 0) := by
  have key : ∀ (bits : UInt8) (hasWill : Bool), (¬ bits &&& ~~~writableMask ≠ 0 ∧
      ¬ (bits &&& willQoSMask) >>> 3 = 3 ∧
      ¬ (!hasWill && bits &&& (willQoSMask ||| willRetainBit) ≠ 0) = true) ↔
      bits &&& 0xC5 = 0 ∧ bits &&& 0x18 ≠ 0x18 ∧ (hasWill = false → bits &&& 0x38 = 0) := by
    decide +kernel
  rw [← key flags.bits hasWill, validate, check_eq_ok_iff, check_eq_ok_iff, last_check_eq_ok_iff]

/-- **The flags byte can be taken apart:** it is legal and holds the caller's bits and what follows,
exactly if these are legal and it is made of them. -/
theorem announced_iff (bits byte : UInt8) (hasWill hasUserName hasPassword : Bool) :
    ((bits &&& 0xC5 = 0 ∧ bits &&& 0x18 ≠ 0x18 ∧ (hasWill = false → bits &&& 0x38 = 0)) ∧
      (hasPassword = true → hasUserName = true) ∧
      bits ||| (if hasWill then willBit else 0) ||| (if hasUserName then userNameBit else 0)
        ||| (if hasPassword then passwordBit else 0) = byte) ↔
    Connect.LegalBits byte ∧ bits = byte &&& 0x3A ∧ hasWill = decide (byte &&& 0x04 ≠ 0) ∧
      hasUserName = decide (byte &&& 0x80 ≠ 0) ∧ hasPassword = decide (byte &&& 0x40 ≠ 0) := by
  constructor
  · rintro ⟨h, hp, rfl⟩
    revert bits hasWill hasUserName hasPassword
    decide +kernel
  · rintro ⟨h, rfl, rfl, rfl, rfl⟩
    revert byte
    decide +kernel

end ConnectFlags

/-- **The flags byte of a legal request** is a legal byte, and it tells the caller's bits and the
fields that follow; and where a byte tells these of a request, the request is legal. -/
theorem Connect.validate_wireBits_iff {c : Connect} {byte : UInt8} :
    c.validate = .ok () ∧ c.wireBits = byte ↔
      LegalBits byte ∧ c.flags.bits = byte &&& 0x3A ∧
        c.willTopic.isSome = decide (byte &&& 0x04 ≠ 0) ∧
        c.willMessage.isSome = decide (byte &&& 0x04 ≠ 0) ∧
        c.userName.isSome = decide (byte &&& 0x80 ≠ 0) ∧
        c.password.isSome = decide (byte &&& 0x40 ≠ 0) := by
  have hp : ¬ (c.password.isSome && c.userName.isNone) = true ↔
      (c.password.isSome = true → c.userName.isSome = true) := by
    cases c.password <;> cases c.userName <;> simp
  have hb := ConnectFlags.announced_iff c.flags.bits byte c.willTopic.isSome c.userName.isSome
    c.password.isSome
  rw [validate, check_eq_ok_iff, check_eq_ok_iff, ConnectFlags.validate_eq_ok_iff, hp]
  constructor
  · rintro ⟨⟨hw, hpu, hf⟩, hbyte⟩
    obtain ⟨hl, hbits, ht, hu, hpw⟩ := hb.1 ⟨hf, hpu, hbyte⟩
    exact ⟨hl, hbits, ht, (Decidable.of_not_not hw).symm.trans ht, hu, hpw⟩
  · rintro ⟨hl, hbits, ht, hm, hu, hpw⟩
    obtain ⟨hf, hpu, hbyte⟩ := hb.2 ⟨hl, hbits, ht, hu, hpw⟩
    exact ⟨⟨not_not_intro (ht.trans hm.symm), hpu, hf⟩, hbyte⟩

end MqttWire
