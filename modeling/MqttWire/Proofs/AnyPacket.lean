import MqttWire.Proofs.Packet

/-!
# Packets of any kind

A packet need not be one of the requests: any validity, header and remaining length go with any body,
and the body may be any row of fields.  All that is asked of it is that a body that is written takes
the bytes announced.  `Packet.encode_putAll` says what writing such a packet leaves, fault by fault.

Up to the fixed header nothing is written.  Behind it a body may still fail, at a field that is too
long or for which there is no room; then the header and the fields before that one are in the buffer.
-/

namespace MqttWire

/-- **The first field of a row that cannot be written** from a writer on stands behind the fields
`before`, which can, and fails with `e`. -/
def FailsBehind (row : List Field) (w : Writer) (before : List Field) (e : EncodeError) : Prop :=
  ∃ field after w' w'', row = before ++ field :: after ∧ putAll before w = .ok () w' ∧
    field.put w' = .error e w''

/-- A row that fails leaves the fields before its first failure. -/
theorem FailsBehind.putAll_eq {row before : List Field} {written rest : Bytes} {e : EncodeError}
    (h : FailsBehind row ⟨written ++ rest, written.length⟩ before e) :
    putAll row ⟨written ++ rest, written.length⟩ = .error e
      ⟨written ++ before.flatMap Field.bytes ++ rest.drop (before.flatMap Field.bytes).length,
        (written ++ before.flatMap Field.bytes).length⟩ := by
  obtain ⟨field, after, w', w'', rfl, hbefore, hfield⟩ := h
  obtain rfl := Field.writer_of_put_eq_error hfield
  obtain ⟨-, -, rfl⟩ := putAll_eq_ok_iff.1 hbefore
  exact putAll_eq_error hbefore hfield

/-- A row without a failure is written. -/
theorem exists_of_not_failsBehind {row : List Field} {w : Writer}
    (h : ∀ before e, ¬ FailsBehind row w before e) : ∃ w', putAll row w = .ok () w' := by
  cases hrow : putAll row w with
  | ok u w' => exact ⟨w', rfl⟩
  | error e w' =>
    obtain ⟨before, field, after, hsplit, hbefore, hfield⟩ := exists_of_putAll_eq_error hrow
    exact absurd ⟨field, after, w', w', hsplit, hbefore, hfield⟩ (h before e)

namespace Packet

variable {packet : Packet} {row : List Field} {head buffer : Bytes} {remaining : Nat}

/-- **A body that is written takes `n` bytes,** whatever it is written to. -/
def BodyTakes (packet : Packet) (n : Nat) : Prop :=
  ∀ w w' : Writer, w.position ≤ w.buffer.length → packet.fields w = .ok () w' →
    w'.position = w.position + n

/-- A row takes the bytes of its fields, unless one is too long and it is never written. -/
theorem bodyTakes_of_putAll {n : Nat} (hrow : packet.fields = putAll row)
    (hn : (∀ field ∈ row, field.Fits) → (row.flatMap Field.bytes).length = n) :
    packet.BodyTakes n := by
  intro w w' hw hput
  obtain ⟨written, rest, rfl⟩ := Writer.exists_split hw
  rw [hrow] at hput
  obtain ⟨hfits, -, rfl⟩ := putAll_eq_ok_iff.1 hput
  rw [List.length_append, hn hfits]

/-- A body that fails leaves the header and the fields before its first failure. -/
theorem encode_of_failsBehind {before : List Field} {e : EncodeError}
    (hrow : packet.fields = putAll row) (ho : packet.opening = .ok (head, remaining))
    (hle : head.length + remaining ≤ buffer.length)
    (hf : FailsBehind row ⟨head ++ buffer.drop head.length, head.length⟩ before e) :
    packet.encode buffer = ⟨.error e, head ++ before.flatMap Field.bytes ++
      buffer.drop (head ++ before.flatMap Field.bytes).length⟩ := by
  have hbody := hf.putAll_eq
  rw [← hrow] at hbody
  rw [encode_of_fields_eq_error ho hle hbody, List.drop_drop, List.length_append]

/-- A body that is written leaves all its fields behind the header. -/
theorem encode_of_putAll_eq_ok {w : Writer} (hrow : packet.fields = putAll row)
    (ho : packet.opening = .ok (head, remaining)) (hle : head.length + remaining ≤ buffer.length)
    (hw : putAll row ⟨head ++ buffer.drop head.length, head.length⟩ = .ok () w) :
    packet.encode buffer = ⟨.ok (head ++ row.flatMap Field.bytes).length,
      head ++ row.flatMap Field.bytes ++
        buffer.drop (head ++ row.flatMap Field.bytes).length⟩ := by
  obtain ⟨-, -, rfl⟩ := putAll_eq_ok_iff.1 hw
  rw [← hrow] at hw
  rw [encode_of_fields_eq_ok ho hle hw, List.drop_drop, List.length_append]

/-- **What writing a packet of any kind leaves.**  The first fault in content, header, remaining
length, its limit and the room leaves the buffer as it was.  Behind the header the first field that
cannot be written ends it, and the fields before that one stay.  Otherwise header and fields are
written whole, and they take the length that was to be expected. -/
theorem encode_putAll (hrow : packet.fields = putAll row)
    (hbody : ∀ n, packet.remainingLength = .ok n → packet.BodyTakes n) (buffer : Bytes) :
    (∀ e, packet.validity = .error e → packet.encode buffer = ⟨.error e, buffer⟩) ∧
    (packet.validity = .ok () →
      (∀ e, packet.header = .error e → packet.encode buffer = ⟨.error e, buffer⟩) ∧
      ∀ header, packet.header = .ok header →
        (∀ e, packet.remainingLength = .error e → packet.encode buffer = ⟨.error e, buffer⟩) ∧
        ∀ remaining, packet.remainingLength = .ok remaining →
          (268435455 < remaining →
            packet.encode buffer = ⟨.error (.violation .remainingLengthTooLarge), buffer⟩) ∧
          (remaining ≤ 268435455 → ∃ count, RemainingLength.width remaining = .ok count ∧
            let head := header.bytes count remaining
            (buffer.length < head.length + remaining →
              packet.encode buffer = ⟨.error .bufferTooSmall, buffer⟩) ∧
            (head.length + remaining ≤ buffer.length →
              let w : Writer := ⟨head ++ buffer.drop head.length, head.length⟩
              (∀ before e, FailsBehind row w before e →
                packet.encode buffer = ⟨.error e, head ++ before.flatMap Field.bytes ++
                  buffer.drop (head ++ before.flatMap Field.bytes).length⟩) ∧
              ((∀ before e, ¬ FailsBehind row w before e) →
                packet.encodedLength = .ok (head.length + remaining) ∧
                packet.encode buffer = ⟨.ok (head.length + remaining),
                  head ++ row.flatMap Field.bytes ++
                    buffer.drop (head.length + remaining)⟩)))) := by
  refine ⟨fun e hv => ?_, fun hv => ⟨fun e hh => ?_, fun header hh => ⟨fun e hn => ?_,
    fun remaining hn => ⟨fun hlimit => ?_, fun hlimit => ?_⟩⟩⟩⟩
  · exact encode_of_opening_eq_error (by rw [opening, hv]; rfl) buffer
  · exact encode_of_opening_eq_error (by rw [opening, hv, hh]; rfl) buffer
  · exact encode_of_opening_eq_error (by rw [opening, hv, hh, hn]; rfl) buffer
  · have hw := RemainingLength.width_eq_error_iff.2 ⟨hlimit, rfl⟩
    refine encode_of_opening_eq_error ?_ buffer
    rw [opening, hv, hh, hn, ok_bind, ok_bind, ok_bind, hw]
    rfl
  · obtain ⟨count, hc⟩ := RemainingLength.exists_width hlimit
    have ho := opening_eq_ok_iff.2 ⟨hv, header, count, hh, hn, hc, rfl⟩
    refine ⟨count, hc, encode_of_lt ho, fun hle => ⟨fun before e => encode_of_failsBehind hrow ho hle,
      fun hfails => ?_⟩⟩
    obtain ⟨w', hw'⟩ := exists_of_not_failsBehind hfails
    have hlength : (header.bytes count remaining ++ row.flatMap Field.bytes).length =
        (header.bytes count remaining).length + remaining := by
      obtain ⟨-, -, rfl⟩ := putAll_eq_ok_iff.1 hw'
      refine hbody remaining hn _ _ ?_ (by rw [hrow]; exact hw')
      rw [List.length_append]
      exact Nat.le_add_right _ _
    rw [encode_of_putAll_eq_ok hrow ho hle hw', hlength, encodedLength_eq_opening, ho]
    exact ⟨rfl, rfl⟩

/-- A body with a value that is too long fails behind its first field, and one without is written. -/
theorem encode_putAll_instance :
    let tooLong : Field := .binary (List.replicate 65536 0)
    let packet (row : List Field) : Packet :=
      ⟨.ok (), FixedHeader.ofFlags .pubAck 0, .ok 2, putAll row⟩
    (packet [.word 7, tooLong]).encode [9, 9, 9, 9, 9] =
        ⟨.error (.violation .binaryTooLong), [0x40, 2, 0, 7, 9]⟩ ∧
      (packet [.word 7]).encode [9, 9, 9, 9, 9] = ⟨.ok 4, [0x40, 2, 0, 7, 9]⟩ := by
  intro tooLong packet
  have hsize : tooLong.size = .error (.violation .binaryTooLong) :=
    Field.binarySize_of_lt (by rw [List.length_replicate]; decide)
  have hunfit := Field.not_fits_of_size_eq_error hsize
  constructor
  · have hbody : ∀ n, (packet [.word 7, tooLong]).remainingLength = .ok n →
        (packet [.word 7, tooLong]).BodyTakes n := by
      rintro n -
      exact bodyTakes_of_putAll rfl fun h => absurd (h tooLong (by simp)) hunfit
    have h := encode_putAll rfl hbody [9, 9, 9, 9, 9]
    obtain ⟨count, hc, -, hroom⟩ := (((h.2 rfl).2 ⟨.pubAck, 0, rfl⟩ rfl).2 2 rfl).2 (by decide)
    cases hc
    exact (hroom (by decide)).1 [.word 7] _
      ⟨tooLong, [], _, _, rfl, rfl, Field.put_of_size_eq_error hsize _⟩
  · have hbody : ∀ n, (packet [.word 7]).remainingLength = .ok n →
        (packet [.word 7]).BodyTakes n := by
      rintro n ⟨⟩
      exact bodyTakes_of_putAll rfl fun _ => rfl
    have h := encode_putAll rfl hbody [9, 9, 9, 9, 9]
    obtain ⟨count, hc, -, hroom⟩ := (((h.2 rfl).2 ⟨.pubAck, 0, rfl⟩ rfl).2 2 rfl).2 (by decide)
    cases hc
    exact ((hroom (by decide)).2 fun before e hf => by cases hf.putAll_eq).2

end Packet

end MqttWire
