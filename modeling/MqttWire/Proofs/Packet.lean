import MqttWire.Packet
import MqttWire.Proofs.FixedHeader

/-!
# Packets whose body is a row of fields

Writing a packet goes in two stages.  What goes before the body, `Packet.opening`, has the faults that
show without the buffer; where there is none and the packet has room, the header is written and the
body decides (`encode_of_fields_eq_ok`, `encode_of_fields_eq_error`).

A packet announces its length before its body is written, and both are said apart from each other.
`Packet.Writes` is what ties them: while the content is legal, the body is a certain row of fields
and the remaining length is the size of that row.

Such a packet has bytes that depend on no buffer, `Packet.bytes`.  Its length is theirs
(`encodedLength_eq`), and writing it places them whole or leaves the buffer as it was (`encode_eq`).
-/

namespace MqttWire

/-- **All or nothing:** bytes at the front of a buffer if there are any and they fit, and otherwise
the buffer as it was. -/
def Outcome.place (bytes : Except EncodeError Bytes) (buffer : Bytes) : Outcome :=
  match bytes with
  | .ok bytes =>
    if bytes.length ≤ buffer.length then ⟨.ok bytes.length, bytes ++ buffer.drop bytes.length⟩
    else ⟨.error .bufferTooSmall, buffer⟩
  | .error e => ⟨.error e, buffer⟩

namespace Outcome

variable {bytes : Except EncodeError Bytes} {buffer : Bytes}

theorem place_of_le {bytes : Bytes} (h : bytes.length ≤ buffer.length) :
    place (.ok bytes) buffer = ⟨.ok bytes.length, bytes ++ buffer.drop bytes.length⟩ := by
  simp only [place, if_pos h]

theorem place_of_lt {bytes : Bytes} (h : buffer.length < bytes.length) :
    place (.ok bytes) buffer = ⟨.error .bufferTooSmall, buffer⟩ := by
  simp only [place, if_neg (Nat.not_le.2 h)]

/-- Only bytes that fit are placed. -/
theorem place_eq_ok {n : Nat} (h : (place bytes buffer).result = .ok n) :
    ∃ placed, bytes = .ok placed ∧ placed.length = n ∧ n ≤ buffer.length ∧
      (place bytes buffer).buffer = placed ++ buffer.drop n := by
  cases bytes with
  | error e => cases h
  | ok placed =>
    rcases Nat.lt_or_ge buffer.length placed.length with hlt | hle
    · rw [place_of_lt hlt] at h
      cases h
    · rw [place_of_le hle] at h ⊢
      cases h
      exact ⟨placed, rfl, rfl, hle, rfl⟩

theorem result_place_eq_ok_iff {n : Nat} : (place bytes buffer).result = .ok n ↔
    bytes.map List.length = .ok n ∧ n ≤ buffer.length := by
  constructor
  · intro h
    obtain ⟨placed, rfl, rfl, hle, -⟩ := place_eq_ok h
    exact ⟨rfl, hle⟩
  · rintro ⟨h, hle⟩
    cases bytes with
    | error e => cases h
    | ok placed =>
      cases h
      rw [place_of_le hle]

/-- Where nothing is placed the buffer stays. -/
theorem buffer_place_of_error {e : EncodeError} (h : (place bytes buffer).result = .error e) :
    (place bytes buffer).buffer = buffer := by
  cases bytes with
  | error e' => rfl
  | ok placed =>
    rcases Nat.lt_or_ge buffer.length placed.length with hlt | hle
    · rw [place_of_lt hlt]
    · rw [place_of_le hle] at h
      cases h

/-- Placing keeps the length of the buffer. -/
theorem length_buffer_place : (place bytes buffer).buffer.length = buffer.length := by
  cases h : (place bytes buffer).result with
  | error e => rw [buffer_place_of_error h]
  | ok n =>
    obtain ⟨placed, -, rfl, hle, hbuf⟩ := place_eq_ok h
    rw [hbuf, List.length_append, List.length_drop]
    omega

end Outcome

namespace Packet

/-! ### Header and body -/

/-- **What goes before the body:** the bytes of the fixed header and how many are to follow, or the
first fault that shows before the buffer is looked at. -/
def opening (packet : Packet) : Except EncodeError (Bytes × Nat) := do
  packet.validity
  let header ← packet.header
  let remaining ← packet.remainingLength
  let count ← RemainingLength.width remaining
  return (header.bytes count remaining, remaining)

variable {packet : Packet} {head buffer : Bytes} {remaining : Nat}

theorem opening_eq_ok_iff : packet.opening = .ok (head, remaining) ↔
    packet.validity = .ok () ∧ ∃ header count, packet.header = .ok header ∧
      packet.remainingLength = .ok remaining ∧ RemainingLength.width remaining = .ok count ∧
      header.bytes count remaining = head := by
  simp only [opening, bind_eq_ok_iff, pure, Except.pure, Except.ok.injEq, Prod.mk.injEq]
  constructor
  · rintro ⟨⟨⟩, hv, header, hh, _, hn, count, hc, hb, rfl⟩
    exact ⟨hv, header, count, hh, hn, hc, hb⟩
  · rintro ⟨hv, header, count, hh, hn, hc, hb⟩
    exact ⟨(), hv, header, hh, _, hn, count, hc, hb, rfl⟩

/-- The length of the packet is that of its header and of what follows. -/
theorem encodedLength_eq_opening (packet : Packet) :
    packet.encodedLength = packet.opening.map fun o => o.1.length + o.2 := by
  show _ = (fun o => o.1.length + o.2) <$> packet.opening
  simp only [encodedLength, opening, FixedHeader.packetLength, map_bind, map_pure,
    FixedHeader.length_bytes]

/-- A fault that shows before the buffer is looked at leaves it as it was. -/
theorem encode_of_opening_eq_error {e : EncodeError} (h : packet.opening = .error e)
    (buffer : Bytes) : packet.encode buffer = ⟨.error e, buffer⟩ := by
  unfold opening at h
  unfold encode writeInto put
  cases hv : packet.validity with
  | error e' => rw [hv] at h; cases h; rfl
  | ok u =>
  cases hh : packet.header with
  | error e' => rw [hv, hh] at h; cases h; rfl
  | ok header =>
  cases hn : packet.remainingLength with
  | error e' => rw [hv, hh, hn] at h; cases h; rfl
  | ok remaining =>
  cases hc : RemainingLength.width remaining with
  | error e' =>
    rw [hv, hh, hn, ok_bind, ok_bind, ok_bind, hc] at h
    cases h
    have hp : FixedHeader.packetLength remaining = .error e := by
      rw [FixedHeader.packetLength, hc]; rfl
    simp only [lift_ok, pure_bind]
    rw [bind_of_error (FixedHeader.put_of_packetLength_eq_error hp _)]
    rfl
  | ok count => rw [hv, hh, hn, ok_bind, ok_bind, ok_bind, hc] at h; cases h

theorem encode_of_lt (h : packet.opening = .ok (head, remaining))
    (hlt : buffer.length < head.length + remaining) :
    packet.encode buffer = ⟨.error .bufferTooSmall, buffer⟩ := by
  obtain ⟨hv, header, count, hh, hn, hc, rfl⟩ := opening_eq_ok_iff.1 h
  have hp : FixedHeader.packetLength remaining = .ok (1 + count + remaining) :=
    FixedHeader.packetLength_eq_ok_iff.2 ⟨count, hc, rfl⟩
  rw [FixedHeader.length_bytes] at hlt
  unfold encode writeInto put
  simp only [hv, hh, hn, lift_ok, pure_bind]
  rw [bind_of_error (FixedHeader.put_of_lt (w := Writer.start buffer) hp hlt)]
  rfl

/-- Where there is room, the body is written behind the header. -/
theorem put_of_le (h : packet.opening = .ok (head, remaining))
    (hle : head.length + remaining ≤ buffer.length) :
    packet.put (Writer.start buffer) =
      (do packet.fields; return (← get).position : WriteM Nat)
        ⟨head ++ buffer.drop head.length, head.length⟩ := by
  obtain ⟨hv, header, count, hh, hn, hc, rfl⟩ := opening_eq_ok_iff.1 h
  rw [FixedHeader.length_bytes] at hle
  have hw : header.put remaining ⟨[] ++ buffer, ([] : Bytes).length⟩ = .ok (1 + count) _ :=
    FixedHeader.put_of_le hc hle
  have hs : Writer.start buffer = ⟨[] ++ buffer, ([] : Bytes).length⟩ := rfl
  unfold put
  simp only [hv, hh, hn, lift_ok, pure_bind]
  rw [hs, bind_of_ok hw, FixedHeader.length_bytes]
  simp only [List.nil_append, FixedHeader.length_bytes]

theorem encode_of_fields_eq_ok {w : Writer} (h : packet.opening = .ok (head, remaining))
    (hle : head.length + remaining ≤ buffer.length)
    (hf : packet.fields ⟨head ++ buffer.drop head.length, head.length⟩ = .ok () w) :
    packet.encode buffer = ⟨.ok w.position, w.buffer⟩ := by
  unfold encode writeInto
  rw [put_of_le h hle, bind_of_ok hf]
  rfl

theorem encode_of_fields_eq_error {w : Writer} {e : EncodeError}
    (h : packet.opening = .ok (head, remaining)) (hle : head.length + remaining ≤ buffer.length)
    (hf : packet.fields ⟨head ++ buffer.drop head.length, head.length⟩ = .error e w) :
    packet.encode buffer = ⟨.error e, w.buffer⟩ := by
  unfold encode writeInto
  rw [put_of_le h hle, bind_of_error hf]

/-! ### Bodies that are rows of fields -/

/-- **The body of the packet is a row of fields:** while the content is legal, this row is what is
written, and its size is the remaining length. -/
structure Writes (packet : Packet) (row : List Field) : Prop where
  fields_eq : packet.validity = .ok () → packet.fields = putAll row
  totalSize_eq {n : Nat} : packet.validity = .ok () → packet.remainingLength = .ok n →
    Field.totalSize row = .ok n

/-- **The bytes of a packet** whose body is a row of fields. -/
def bytes (packet : Packet) (row : List Field) : Except EncodeError Bytes := do
  packet.validity
  let header ← packet.header
  let remaining ← packet.remainingLength
  let count ← RemainingLength.width remaining
  return header.bytes count remaining ++ row.flatMap Field.bytes

variable {row : List Field}

/-- A packet has bytes if it is free of each fault. -/
theorem bytes_eq_ok_iff {bytes : Bytes} : packet.bytes row = .ok bytes ↔
    packet.validity = .ok () ∧ ∃ header remaining count, packet.header = .ok header ∧
      packet.remainingLength = .ok remaining ∧ RemainingLength.width remaining = .ok count ∧
      header.bytes count remaining ++ row.flatMap Field.bytes = bytes := by
  simp only [Packet.bytes, bind_eq_ok_iff, pure, Except.pure, Except.ok.injEq]
  constructor
  · rintro ⟨⟨⟩, hv, header, hh, remaining, hr, count, hc, hb⟩
    exact ⟨hv, header, remaining, count, hh, hr, hc, hb⟩
  · rintro ⟨hv, header, remaining, count, hh, hr, hc, hb⟩
    exact ⟨(), hv, header, hh, remaining, hr, count, hc, hb⟩

/-- The bytes of a packet are those of its header and of its row. -/
theorem bytes_eq_opening (packet : Packet) (row : List Field) :
    packet.bytes row = packet.opening.map fun o => o.1 ++ row.flatMap Field.bytes := by
  show _ = (fun o => o.1 ++ row.flatMap Field.bytes) <$> packet.opening
  simp only [Packet.bytes, opening, map_bind, map_pure]

namespace Writes

variable (h : packet.Writes row)
include h

/-- The body takes as many bytes as the packet announces. -/
theorem length_row {n : Nat} (hv : packet.validity = .ok ()) (hn : packet.remainingLength = .ok n) :
    (row.flatMap Field.bytes).length = n :=
  Field.length_flatMap_bytes (h.totalSize_eq hv hn)

/-- **The length of the packet** is that of its bytes. -/
theorem encodedLength_eq : packet.encodedLength = (packet.bytes row).map List.length := by
  rw [encodedLength_eq_opening, bytes_eq_opening]
  cases ho : packet.opening with
  | error e => rfl
  | ok o =>
    obtain ⟨hv, -, -, -, hn, -⟩ := opening_eq_ok_iff.1 ho
    simp only [Except.map, List.length_append, h.length_row hv hn]

/-- **The body cannot fail** once the header is written: the whole row goes behind the header. -/
theorem fields_after_header {header : FixedHeader} {remaining n : Nat} {written rest : Bytes}
    {w : Writer} (hv : packet.validity = .ok ()) (hn : packet.remainingLength = .ok remaining)
    (hw : header.put remaining ⟨written ++ rest, written.length⟩ = .ok n w) :
    packet.fields w = .ok () (w.append (row.flatMap Field.bytes)) := by
  obtain ⟨count, hc, hroom, rfl, rfl⟩ := FixedHeader.exists_of_put_eq_ok hw
  have hl := h.length_row hv hn
  have hp : (written ++ header.bytes count remaining ++ row.flatMap Field.bytes).length =
      (written ++ header.bytes count remaining).length + remaining := by
    rw [List.length_append, hl]
  rw [h.fields_eq hv, putAll_of_totalSize (h.totalSize_eq hv hn)
    (by rw [List.length_drop]; omega), Writer.append_split, hl, hp]

/-- **Writing the packet** places its bytes, or leaves the buffer as it was. -/
theorem encode_eq (buffer : Bytes) :
    packet.encode buffer = Outcome.place (packet.bytes row) buffer := by
  rw [bytes_eq_opening]
  cases ho : packet.opening with
  | error e => exact encode_of_opening_eq_error ho buffer
  | ok o =>
    obtain ⟨head, remaining⟩ := o
    obtain ⟨hv, -, -, -, hn, -⟩ := opening_eq_ok_iff.1 ho
    have hl : (head ++ row.flatMap Field.bytes).length = head.length + remaining := by
      rw [List.length_append, h.length_row hv hn]
    show _ = Outcome.place (.ok (head ++ row.flatMap Field.bytes)) buffer
    rcases Nat.lt_or_ge buffer.length (head.length + remaining) with hlt | hle
    · rw [encode_of_lt ho hlt, Outcome.place_of_lt (by omega)]
    · have hroom : remaining ≤ (buffer.drop head.length).length := by
        rw [List.length_drop]; omega
      have hbody : putAll row ⟨head ++ buffer.drop head.length, head.length⟩ = .ok () _ :=
        putAll_of_totalSize (h.totalSize_eq hv hn) hroom
      rw [← h.fields_eq hv] at hbody
      rw [encode_of_fields_eq_ok ho hle hbody, Outcome.place_of_le (by omega), hl, List.drop_drop]

end Writes

end Packet

end MqttWire
