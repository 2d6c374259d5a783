import MqttWire.Proofs.Rows

/-!
# Bodies at any position

The body of a packet is written field by field, from wherever the writer stands.  While the content
is legal and the remaining length is known, only the room decides how that ends
(`Request.fields_of_remainingLength`): with room for the remaining length the body takes exactly
this, and with less it stops in front of the first field that finds no room.  No rule is found to be
broken any more, although a connect request is checked once more in the midst of its body.
-/

namespace MqttWire

/-! ### Rows of fields -/

/-- A field that is not too long fails for want of room alone. -/
theorem Field.Fits.eq_bufferTooSmall {field : Field} {w w' : Writer} {e : EncodeError}
    (h : field.Fits) (hput : field.put w = .error e w') : e = .bufferTooSmall := by
  obtain ⟨n, hn⟩ := h
  rw [put_of_size_eq_ok hn] at hput
  rcases Nat.lt_or_ge w.room field.bytes.length with hlt | hle
  · rw [putBytes_of_lt hlt] at hput
    cases hput
    rfl
  · rw [putBytes_of_le hle] at hput
    cases hput

section Row

variable {row : List Field} {n : Nat} {w : Writer} (hsize : Field.totalSize row = .ok n)
  (hw : w.position ≤ w.buffer.length)
include hsize hw

/-- **A row with room** goes behind what is written. -/
theorem putAll_of_le (hle : n ≤ w.room) :
    putAll row w = .ok () (w.append (row.flatMap Field.bytes)) := by
  obtain ⟨written, rest, rfl⟩ := Writer.exists_split hw
  obtain ⟨hfits, rfl⟩ := Field.totalSize_eq_ok_iff.1 hsize
  rw [Writer.room_split] at hle
  rw [Writer.append_split]
  exact putAll_eq_ok_iff.2 ⟨hfits, hle, rfl⟩

/-- **A row without room** ends in front of the first field that finds none. -/
theorem putAll_of_lt (hlt : w.room < n) : ∃ before field after,
    row = before ++ field :: after ∧ (before.flatMap Field.bytes).length ≤ w.room ∧
      putAll row w = .error .bufferTooSmall (w.append (before.flatMap Field.bytes)) := by
  obtain ⟨written, rest, rfl⟩ := Writer.exists_split hw
  obtain ⟨hfits, rfl⟩ := Field.totalSize_eq_ok_iff.1 hsize
  rw [Writer.room_split] at hlt
  cases hput : putAll row ⟨written ++ rest, written.length⟩ with
  | ok u w' =>
    obtain ⟨-, hroom, -⟩ := putAll_eq_ok_iff.1 hput
    omega
  | error e w' =>
    obtain ⟨before, field, after, rfl, hbefore, hfield⟩ := exists_of_putAll_eq_error hput
    obtain ⟨-, hroom, rfl⟩ := putAll_eq_ok_iff.1 hbefore
    obtain rfl := (hfits field (by simp)).eq_bufferTooSmall hfield
    refine ⟨before, field, after, rfl, ?_, ?_⟩
    · rw [Writer.room_split]
      exact hroom
    · rw [Writer.append_split]

end Row

/-! ### Requests -/

namespace Request

/-- **The body of a request at any position.**  A request of legal content and known remaining length
has as many bytes, whatever is written to.  Where a writer has room for them they go behind its
position, and where it has less there is no other failure than this: some of them are written, and
what stood before the position stays. -/
theorem fields_of_remainingLength {request : Request} {n : Nat}
    (hv : request.packet.validity = .ok ()) (hn : request.packet.remainingLength = .ok n) :
    ∃ bytes : Bytes, bytes.length = n ∧ ∀ w : Writer, w.position ≤ w.buffer.length →
      (n ≤ w.room → ∃ w', request.packet.fields w = .ok () w' ∧
        w'.position = w.position + n ∧
        w'.buffer = w.buffer.take w.position ++ bytes ++ w.buffer.drop (w.position + n)) ∧
      (w.room < n → ∃ w' k, request.packet.fields w = .error .bufferTooSmall w' ∧
        k ≤ w.room ∧ w'.position = w.position + k ∧
        w'.buffer = w.buffer.take w.position ++ bytes.take k ++ w.buffer.drop (w.position + k) ∧
        w'.buffer.take w.position = w.buffer.take w.position) := by
  have hsize := request.writes.totalSize_eq hv hn
  have hlength := request.writes.length_row hv hn
  rw [request.writes.fields_eq hv]
  refine ⟨request.fields.flatMap Field.bytes, hlength, fun w hw => ⟨fun hle => ?_, fun hlt => ?_⟩⟩
  · refine ⟨_, putAll_of_le hsize hw hle, ?_, ?_⟩
    · rw [Writer.append, hlength]
    · rw [Writer.append, hlength]
  · obtain ⟨before, field, after, hrow, hroom, hput⟩ := putAll_of_lt hsize hw hlt
    have htake : (request.fields.flatMap Field.bytes).take (before.flatMap Field.bytes).length =
        before.flatMap Field.bytes := by
      rw [hrow, List.flatMap_append, List.take_left]
    refine ⟨_, (before.flatMap Field.bytes).length, hput, hroom, rfl, ?_, ?_⟩
    · rw [Writer.append, htake]
    · rw [Writer.append, List.append_assoc, List.take_left' (by rw [List.length_take]; omega)]

/-- A connect request with a will in the midst of a buffer, with room for it and with a byte less. -/
theorem fields_of_remainingLength_instance :
    let request := connect ((Connect.ofClientId "c").withWill "t" [1])
    request.packet.remainingLength = .ok 19 ∧
      (∃ w, request.packet.fields ⟨List.replicate 22 9, 2⟩ = .ok () w ∧ w.position = 21) ∧
      ∃ w, request.packet.fields ⟨List.replicate 20 9, 2⟩ = .error .bufferTooSmall w ∧
        w.buffer.take 2 = [9, 9] := by
  intro request
  obtain ⟨bytes, -, hwriter⟩ := @fields_of_remainingLength request 19 rfl rfl
  obtain ⟨hroom, -⟩ := hwriter ⟨List.replicate 22 9, 2⟩ (by decide)
  obtain ⟨-, hshort⟩ := hwriter ⟨List.replicate 20 9, 2⟩ (by decide)
  obtain ⟨w, hput, hposition, -⟩ := hroom (by decide)
  obtain ⟨w', k, hput', -, -, -, hfront⟩ := hshort (by decide)
  exact ⟨rfl, ⟨w, hput, hposition⟩, w', hput', hfront⟩

end Request

end MqttWire
