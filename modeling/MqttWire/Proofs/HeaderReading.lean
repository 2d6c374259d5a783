import MqttWire.Proofs.ConnectFlags
import MqttWire.Proofs.Digits
import MqttWire.Proofs.Verdict.Publish

/-!
# The fixed header, written and read

A fixed header is written only where there is room for all of the packet, and what is written says
its kind, its flags and how many bytes are to follow (`FixedHeader.writeInto_ofFlags`).  The first
byte is written before the digits; that these cannot fail any more is the look at the room before
both (`exists_put_of_putFirst`).
-/

namespace MqttWire

namespace FixedHeader

/-! ### Reading -/

/-- **Reads a fixed header:** the kind of packet, its flags, and how many bytes follow. -/
def read : ReadM (ControlType × UInt8 × Nat) := do
  let first ← readByte
  match ControlType.ofCode? (first >>> 4) with
  | some type => return (type, first &&& 0x0F, ← RemainingLength.readDigits 4)
  | none => failure

/-- The two halves of the first byte can be told apart. -/
theorem halves_controlByte (type : ControlType) {flags : UInt8} (h : flags < 16) :
    (type.code <<< 4 ||| flags) >>> 4 = type.code ∧
      (type.code <<< 4 ||| flags) &&& 0x0F = flags := by
  revert flags
  cases type <;> decide +kernel

variable {type : ControlType} {flags : UInt8} {header : FixedHeader} {remaining count : Nat}

/-- **A header that has been written is read back,** whatever follows. -/
theorem read_bytes_append (h : ofFlags type flags = .ok header)
    (hc : RemainingLength.width remaining = .ok count) (rest : Bytes) :
    read (header.bytes count remaining ++ rest) = some ((type, flags, remaining), rest) := by
  obtain ⟨legal, rfl⟩ := exists_of_ofFlags h
  obtain ⟨h4, hneeds⟩ := RemainingLength.width_eq_ok_iff.1 hc
  obtain ⟨hhigh, hlow⟩ := halves_controlByte type (ControlType.lt_of_checkFlags legal)
  have hdigits := RemainingLength.readDigits_digits rest hneeds h4
  refine ReadM.bind_apply_eq_some_iff.2 ⟨_, _, readByte_eq_some_iff.2 rfl, ?_⟩
  rw [controlByte, hhigh, ControlType.ofCode?_code, hlow]
  exact ReadM.bind_apply_eq_some_iff.2 ⟨_, _, hdigits, rfl⟩

/-! ### Writing -/

/-- What is done before the digits: the look at the room, and the first byte. -/
def putFirst (header : FixedHeader) (remaining : Nat) : WriteM Unit := do
  requireRoom (← packetLength remaining)
  (Field.byte header.controlByte).put

theorem put_eq (header : FixedHeader) (remaining : Nat) : header.put remaining =
    (do header.putFirst remaining; return 1 + (← RemainingLength.put remaining)) := by
  simp [put, putFirst]

/-- The first byte is written only where the packet has room. -/
theorem exists_of_putFirst_eq_ok {w w' : Writer} (h : header.putFirst remaining w = .ok () w') :
    ∃ count, RemainingLength.width remaining = .ok count ∧ 1 + count + remaining ≤ w.room := by
  rw [putFirst] at h
  cases hp : packetLength remaining with
  | error e =>
    rw [hp, lift_error] at h
    cases h
  | ok length =>
    obtain ⟨count, hc, rfl⟩ := packetLength_eq_ok_iff.1 hp
    rw [hp, lift_ok, pure_bind] at h
    rcases Nat.lt_or_ge w.room (1 + count + remaining) with hlt | hle
    · rw [bind_of_error (requireRoom_of_lt hlt)] at h
      cases h
    · exact ⟨count, hc, hle⟩

/-- **Behind the first byte nothing can fail.** -/
theorem exists_put_of_putFirst {written rest : Bytes} {w : Writer}
    (h : header.putFirst remaining ⟨written ++ rest, written.length⟩ = .ok () w) :
    ∃ count w', RemainingLength.put remaining w = .ok count w' := by
  obtain ⟨count, hc, hroom⟩ := exists_of_putFirst_eq_ok h
  rw [Writer.room_split] at hroom
  have hput : header.put remaining ⟨written ++ rest, written.length⟩ = .ok (1 + count) _ :=
    put_of_le hc hroom
  rw [put_eq, bind_of_ok h] at hput
  cases hdigits : RemainingLength.put remaining w with
  | ok n w' => exact ⟨n, w', rfl⟩
  | error e w' =>
    rw [bind_of_error hdigits] at hput
    cases hput

/-! ### Into a buffer -/

section Buffer

variable {buffer : Bytes}

theorem writeInto_put_of_limit_lt (h : RemainingLength.limit < remaining) :
    writeInto buffer (header.put remaining) =
      ⟨.error (.violation .remainingLengthTooLarge), buffer⟩ := by
  have hp : packetLength remaining = .error (.violation .remainingLengthTooLarge) := by
    rw [packetLength, RemainingLength.width_eq_error_iff.2 ⟨h, rfl⟩]
    rfl
  rw [writeInto, put_of_packetLength_eq_error hp]
  rfl

theorem writeInto_put_of_lt (hc : RemainingLength.width remaining = .ok count)
    (hlt : buffer.length < 1 + count + remaining) :
    writeInto buffer (header.put remaining) = ⟨.error .bufferTooSmall, buffer⟩ := by
  have hp : packetLength remaining = .ok (1 + count + remaining) :=
    packetLength_eq_ok_iff.2 ⟨count, hc, rfl⟩
  have hput : header.put remaining (Writer.start buffer) =
      .error .bufferTooSmall (Writer.start buffer) := put_of_lt hp hlt
  rw [writeInto, hput]
  rfl

theorem writeInto_put_of_le (hc : RemainingLength.width remaining = .ok count)
    (hle : 1 + count + remaining ≤ buffer.length) : writeInto buffer (header.put remaining) =
      ⟨.ok (1 + count), header.bytes count remaining ++ buffer.drop (1 + count)⟩ := by
  rw [writeInto, Writer.start_eq, put_of_le hc hle]
  rfl

end Buffer

/-- In words of 32 bits or more the length of a packet is the same, or there is none. -/
theorem map_packetLengthIn_ofNat {bits : Nat} (hbits : 32 ≤ bits) (h : remaining < 2 ^ bits) :
    (packetLengthIn (BitVec.ofNat bits remaining)).map BitVec.toNat = packetLength remaining := by
  rcases Nat.lt_or_ge RemainingLength.limit remaining with hlt | hle
  · have hwidth := RemainingLength.width_eq_error_iff.2 ⟨hlt, rfl⟩
    rw [packetLengthIn, packetLength, BitVec.toNat_ofNat, Nat.mod_eq_of_lt h, hwidth]
    rfl
  · exact map_packetLengthIn hbits hle

/-- **Writing a fixed header** fails for a remaining length above the limit, whatever the buffer,
and then if header and body have no room; a failure leaves the buffer as it was, and none comes
behind the first byte.  Otherwise room for the body is left, the buffer behind the header is as it
was, and the header is read as what it was made of.  Neither does it matter for the packet's length
that a machine word counts it. -/
theorem writeInto_ofFlags (h : ofFlags type flags = .ok header) (remaining : Nat) (buffer : Bytes) :
    let outcome := writeInto buffer (header.put remaining)
    (outcome.result = .error (.violation .remainingLengthTooLarge) ↔ 268435455 < remaining) ∧
    (∀ e, outcome.result = .error e → outcome.buffer = buffer) ∧
    (∀ w, header.putFirst remaining (Writer.start buffer) = .ok () w →
      ∃ count w', RemainingLength.put remaining w = .ok count w') ∧
    (∀ bits, 32 ≤ bits → remaining < 2 ^ bits →
      (packetLengthIn (BitVec.ofNat bits remaining)).map BitVec.toNat = packetLength remaining) ∧
    (remaining ≤ 268435455 → ∃ count, RemainingLength.width remaining = .ok count ∧
      packetLength remaining = .ok (1 + count + remaining) ∧
      (outcome.result = .error .bufferTooSmall ↔ buffer.length < 1 + count + remaining) ∧
      (outcome.result = .ok (1 + count) ↔ 1 + count + remaining ≤ buffer.length) ∧
      (1 + count + remaining ≤ buffer.length →
        remaining ≤ buffer.length - (1 + count) ∧
        outcome.buffer.length = buffer.length ∧
        outcome.buffer.drop (1 + count) = buffer.drop (1 + count) ∧
        ∀ rest, read (outcome.buffer.take (1 + count) ++ rest) =
          some ((type, flags, remaining), rest))) := by
  intro outcome
  have hbehind (w : Writer) (hw : header.putFirst remaining (Writer.start buffer) = .ok () w) :
      ∃ count w', RemainingLength.put remaining w = .ok count w' := by
    rw [Writer.start_eq] at hw
    exact exists_put_of_putFirst hw
  have hword (bits : Nat) (hbits : 32 ≤ bits) (hfits : remaining < 2 ^ bits) :=
    map_packetLengthIn_ofNat hbits hfits
  by_cases hlimit : 268435455 < remaining
  · have ho : outcome = ⟨.error (.violation .remainingLengthTooLarge), buffer⟩ :=
      writeInto_put_of_limit_lt hlimit
    rw [ho]
    exact ⟨⟨fun _ => hlimit, fun _ => rfl⟩, fun _ _ => rfl, hbehind, hword, fun hle => by omega⟩
  obtain ⟨count, hc⟩ := RemainingLength.exists_width (Nat.not_lt.1 hlimit)
  have hp : packetLength remaining = .ok (1 + count + remaining) :=
    packetLength_eq_ok_iff.2 ⟨count, hc, rfl⟩
  by_cases hlt : buffer.length < 1 + count + remaining
  · have ho : outcome = ⟨.error .bufferTooSmall, buffer⟩ := writeInto_put_of_lt hc hlt
    rw [ho]
    exact ⟨⟨nofun, fun h => by omega⟩, fun _ _ => rfl, hbehind, hword, fun _ => ⟨count, hc, hp,
      ⟨fun _ => hlt, fun _ => rfl⟩, ⟨nofun, fun hle => by omega⟩, fun hle => by omega⟩⟩
  · have hle : 1 + count + remaining ≤ buffer.length := Nat.not_lt.1 hlt
    have ho : outcome = ⟨.ok (1 + count),
        header.bytes count remaining ++ buffer.drop (1 + count)⟩ := writeInto_put_of_le hc hle
    have hlength := length_bytes header count remaining
    rw [ho]
    refine ⟨⟨nofun, fun h => by omega⟩, nofun, hbehind, hword, fun _ => ⟨count, hc, hp,
      ⟨nofun, fun h => by omega⟩, ⟨fun _ => hle, fun _ => rfl⟩,
      fun _ => ⟨by omega, ?_, List.drop_left' hlength, fun rest => ?_⟩⟩⟩
    · rw [List.length_append, hlength, List.length_drop]
      omega
    · rw [List.take_left' hlength]
      exact read_bytes_append h hc rest

/-- A header of two bytes in front of a body of two: no room, room, and a body that is too long. -/
theorem writeInto_ofFlags_instance :
    let header : FixedHeader := ⟨.pubAck, 0, rfl⟩
    ofFlags .pubAck 0 = .ok header ∧
      (writeInto [9, 9, 9] (header.put 2)).result = .error .bufferTooSmall ∧
      (writeInto [9, 9, 9] (header.put 2)).buffer = [9, 9, 9] ∧
      (writeInto [9, 9, 9, 9, 9] (header.put 2)).result = .ok 2 ∧
      (writeInto [9, 9, 9, 9, 9] (header.put 2)).buffer.drop 2 = [9, 9, 9] ∧
      read ((writeInto [9, 9, 9, 9, 9] (header.put 2)).buffer.take 2 ++ [7]) =
        some ((.pubAck, 0, 2), [7]) ∧
      (writeInto [9] (header.put 268435456)).result =
        .error (.violation .remainingLengthTooLarge) := by
  intro header
  have hheader : ofFlags .pubAck 0 = .ok header := rfl
  obtain ⟨-, hkeep, -, -, hshort⟩ := writeInto_ofFlags hheader 2 [9, 9, 9]
  obtain ⟨count, hc, -, htooSmall, -⟩ := hshort (by decide)
  cases hc
  have hresult := htooSmall.2 (by decide)
  obtain ⟨-, -, -, -, hlong⟩ := writeInto_ofFlags hheader 2 [9, 9, 9, 9, 9]
  obtain ⟨count, hc, -, -, hok, hroom⟩ := hlong (by decide)
  cases hc
  obtain ⟨-, -, hbehind, hread⟩ := hroom (by decide)
  obtain ⟨htooLarge, -⟩ := writeInto_ofFlags hheader 268435456 [9]
  exact ⟨hheader, hresult, hkeep _ hresult, hok.2 (by decide), hbehind, hread [7],
    htooLarge.2 (by decide)⟩

end FixedHeader

end MqttWire
