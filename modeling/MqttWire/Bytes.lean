/-!
# Bytes

A packet, and a buffer to write it to, is a list of bytes.  This module holds the two ways in which
other values become bytes on the wire: numbers below 65,536 as two bytes, high byte first, and text
as UTF-8.

* `ofBigEndian_bigEndian`: two bytes hold a number below 65,536.
* `ofUtf8?_eq_some_iff`: a text is read from exactly its own UTF-8 bytes.
-/

namespace MqttWire

/-- A packet or a part of one, and a buffer to write it to. -/
abbrev Bytes := List UInt8

/-! ### Numbers in two bytes -/

/-- The last 16 bits of a number as two bytes, high byte first. -/
def bigEndian (n : Nat) : Bytes := [UInt8.ofNat (n / 256), UInt8.ofNat n]

/-- The number that two bytes hold, high byte first. -/
def ofBigEndian (high low : UInt8) : Nat := 256 * high.toNat + low.toNat

@[simp] theorem length_bigEndian (n : Nat) : (bigEndian n).length = 2 := rfl

theorem ofBigEndian_lt (high low : UInt8) : ofBigEndian high low < 65536 := by
  have := high.toNat_lt
  have := low.toNat_lt
  unfold ofBigEndian
  omega

theorem bigEndian_ofBigEndian (high low : UInt8) :
    bigEndian (ofBigEndian high low) = [high, low] := by
  have h := low.toNat_lt
  have hq : (256 * high.toNat + low.toNat) / 256 = high.toNat := by omega
  have hr : (256 * high.toNat + low.toNat) % 256 = low.toNat := by omega
  unfold bigEndian ofBigEndian
  rw [hq, UInt8.ofNat_toNat, ← UInt8.ofNat_mod_size, show 2 ^ 8 = 256 from rfl, hr,
    UInt8.ofNat_toNat]

theorem ofBigEndian_bigEndian {n : Nat} (h : n < 65536) :
    ofBigEndian (UInt8.ofNat (n / 256)) (UInt8.ofNat n) = n := by
  unfold ofBigEndian
  rw [UInt8.toNat_ofNat', UInt8.toNat_ofNat']
  omega

/-! ### Text -/

/-- The UTF-8 bytes of a text. -/
def utf8 (text : String) : Bytes := text.toByteArray.data.toList

/-- The text whose UTF-8 bytes these are, if they are well-formed. -/
def ofUtf8? (bytes : Bytes) : Option String := String.fromUTF8? ⟨bytes.toArray⟩

@[simp] theorem length_utf8 (text : String) : (utf8 text).length = text.utf8ByteSize := rfl

theorem ofUtf8?_eq_some_iff {bytes : Bytes} {text : String} :
    ofUtf8? bytes = some text ↔ bytes = utf8 text := by
  unfold ofUtf8? utf8 String.fromUTF8?
  constructor
  · intro h
    split at h
    · cases h
      rfl
    · cases h
  · rintro rfl
    rw [dif_pos (by exact text.isValidUTF8)]
    rfl

@[simp] theorem ofUtf8?_utf8 (text : String) : ofUtf8? (utf8 text) = some text :=
  ofUtf8?_eq_some_iff.2 rfl

end MqttWire
