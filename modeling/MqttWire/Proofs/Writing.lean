import MqttWire.Indexed
import MqttWire.Proofs.Verdict.Basic

/-!
# Writing field by field

Whoever writes fields one by one, and goes on after a failure, has at any time the fields that could
be written before the position, one behind the other, and the old bytes behind it
(`Writer.holds_run`).  What decides about the next field is first its length and then the room.

`Writer.Holds` says which fields have been written; a field that can be written is added to them
(`Holds.append`), and one that cannot changes nothing (`write_cases`).  Since the position never
leaves the buffer, writing by index comes to the same (`writeByIndex?_eq`).
-/

namespace MqttWire

/-! ### One field -/

section Field

variable {field : Field}

/-- A field that is too long is refused before the room is looked at. -/
theorem Field.put_of_firstBroken? {rule : Violation} (h : firstBroken? field.checks = some rule)
    (w : Writer) : field.put w = .error (.violation rule) w := by
  have hsize : field.size = .error (.violation rule) := by rw [size_eq_verdict, verdict, h]
  exact put_of_size_eq_error hsize w

theorem Field.put_eq_putBytes (h : firstBroken? field.checks = none) (w : Writer) :
    field.put w = putBytes field.bytes w := by
  have hsize : field.size = .ok field.bytes.length := by rw [size_eq_verdict, verdict, h]
  exact put_of_size_eq_ok hsize w

end Field

namespace Writer

variable {w : Writer} {field : Field}

theorem write_of_firstBroken? {rule : Violation} (h : firstBroken? field.checks = some rule) :
    w.write field = (.error (.violation rule), w) := by
  rw [write, Field.put_of_firstBroken? h]

theorem write_of_lt (h : firstBroken? field.checks = none) (hr : w.room < field.bytes.length) :
    w.write field = (.error .bufferTooSmall, w) := by
  rw [write, Field.put_eq_putBytes h, putBytes_of_lt hr]

theorem write_of_le (h : firstBroken? field.checks = none) (hr : field.bytes.length ≤ w.room) :
    w.write field = (.ok (), w.append field.bytes) := by
  rw [write, Field.put_eq_putBytes h, putBytes_of_le hr]

/-- **What writing a field does:** nothing, or its bytes go behind the others. -/
theorem write_cases (w : Writer) (field : Field) :
    (∃ e, w.write field = (.error e, w)) ∨
      field.bytes.length ≤ w.room ∧ w.write field = (.ok (), w.append field.bytes) := by
  cases h : firstBroken? field.checks with
  | some rule => exact .inl ⟨_, write_of_firstBroken? h⟩
  | none =>
    rcases Nat.lt_or_ge w.room field.bytes.length with hr | hr
    · exact .inl ⟨_, write_of_lt h hr⟩
    · exact .inr ⟨hr, write_of_le h hr⟩

/-! ### All fields -/

/-- **The fields that can be written,** each when its turn comes. -/
def succeeded (w : Writer) : List Field → List Field
  | [] => []
  | field :: fields =>
    let later := (w.write field).2.succeeded fields
    if (w.write field).1.isOk then field :: later else later

/-- **These fields have been written** to what was once `buffer`: their bytes stand before the
position, and behind it nothing has changed. -/
structure Holds (w : Writer) (buffer : Bytes) (row : List Field) : Prop where
  position_le : w.position ≤ w.buffer.length
  length_eq : w.buffer.length = buffer.length
  written : w.buffer.take w.position = row.flatMap Field.bytes
  behind : w.buffer.drop w.position = buffer.drop w.position

variable {buffer : Bytes} {row : List Field}

/-- A field that can be written goes behind the others. -/
theorem Holds.append (h : w.Holds buffer row) (hr : field.bytes.length ≤ w.room) :
    (w.append field.bytes).Holds buffer (row ++ [field]) := by
  have hle := h.position_le
  have hlength : (w.buffer.take w.position ++ field.bytes).length =
      w.position + field.bytes.length := by
    rw [List.length_append, List.length_take, Nat.min_eq_left hle]
  have hroom : w.position + field.bytes.length ≤ w.buffer.length := by
    unfold room at hr
    omega
  have hwhole : (w.append field.bytes).buffer.length = w.buffer.length := by
    rw [Writer.append, List.length_append, hlength, List.length_drop]
    omega
  refine ⟨by rw [hwhole]; exact hroom, hwhole.trans h.length_eq, ?_, ?_⟩
  · rw [Writer.append, List.take_left' hlength, h.written, List.flatMap_append,
      List.flatMap_singleton]
  · rw [Writer.append, List.drop_left' hlength, ← List.drop_drop, ← List.drop_drop, h.behind]

/-- From fields that have been written, a run leads to these and those that can be written. -/
theorem Holds.run (h : w.Holds buffer row) (fields : List Field) :
    (w.run fields).Holds buffer (row ++ w.succeeded fields) := by
  -- the row grows with the writer, from field to field
  induction fields generalizing w row with
  | nil =>
    rw [succeeded, List.append_nil]
    exact h
  | cons field fields ih =>
    rw [run_cons, succeeded]
    rcases write_cases w field with ⟨e, hw⟩ | ⟨hr, hw⟩
    · rw [hw]
      exact ih h
    · rw [hw]
      have hnext := ih (h.append hr)
      rwa [List.append_assoc, List.singleton_append] at hnext

theorem Holds.position_add_room (h : w.Holds buffer row) :
    w.position + w.room = w.buffer.length := Nat.add_sub_of_le h.position_le

end Writer

/-! ### By index -/

section Index

variable {buffer front rest bytes value : Bytes} {size : Except EncodeError Nat}

theorem overwrite?_append (h : bytes.length ≤ rest.length) :
    overwrite? (front ++ rest) front.length (front.length + bytes.length) bytes =
      some (front ++ bytes ++ rest.drop bytes.length) := by
  have hlast : front.length + bytes.length ≤ (front ++ rest).length := by
    rw [List.length_append]
    omega
  rw [overwrite?, if_pos ⟨rfl, hlast⟩, List.take_left, List.drop_length_add_append]

theorem putWord?_eq (value : UInt16) (buffer : Bytes) :
    putWord? value buffer = some (Outcome.place (.ok (bigEndian value.toNat)) buffer) := by
  have hlength := length_bigEndian value.toNat
  rcases Nat.lt_or_ge buffer.length 2 with hlt | hle
  · rw [putWord?, if_pos hlt, Outcome.place_of_lt (by omega)]
    rfl
  · have hput : overwrite? buffer 0 2 (bigEndian value.toNat) =
        some (bigEndian value.toNat ++ buffer.drop 2) := @overwrite?_append [] buffer _ hle
    rw [putWord?, if_neg (Nat.not_lt.2 hle), hput, Outcome.place_of_le (by omega), hlength]
    rfl

/-- The length goes to the front, and the value behind it. -/
theorem putCounted?_eq (h : ∀ n, size = .ok n → n = 2 + value.length) (buffer : Bytes) :
    putCounted? value size buffer =
      some (Outcome.place (size.map fun _ => Field.counted value) buffer) := by
  cases size with
  | error e => rfl
  | ok n =>
    obtain rfl := h n rfl
    have hlength := Field.length_counted value
    show _ = some (Outcome.place (.ok (Field.counted value)) buffer)
    rcases Nat.lt_or_ge buffer.length (2 + value.length) with hlt | hle
    · rw [Outcome.place_of_lt (by omega)]
      simp only [putCounted?, if_pos hlt]
      rfl
    · have hfirst : overwrite? buffer 0 2 (bigEndian value.length) =
          some (bigEndian value.length ++ buffer.drop 2) :=
        @overwrite?_append [] buffer _ (by rw [length_bigEndian]; omega)
      have hsecond : overwrite? (bigEndian value.length ++ buffer.drop 2) 2 (2 + value.length)
          value = some (bigEndian value.length ++ value ++ (buffer.drop 2).drop value.length) :=
        overwrite?_append (by rw [List.length_drop]; omega)
      rw [Outcome.place_of_le (by omega), hlength, Field.counted, ← List.drop_drop]
      simp only [putCounted?, if_neg (Nat.not_lt.2 hle), hfirst]
      rw [Option.bind_eq_bind]
      simp [hsecond]

namespace Writer

variable {written : Bytes} {field : Field}

/-- Behind the position a field is placed whole or not at all, as at the front of a buffer. -/
theorem advance?_eq {put? : Bytes → Option Outcome}
    (h : put? rest = some (Outcome.place (field.size.map fun _ => field.bytes) rest)) :
    advance? ⟨written ++ rest, written.length⟩ put? =
      some (write ⟨written ++ rest, written.length⟩ field) := by
  have hfrom : from? (written ++ rest) written.length = some rest := by
    rw [from?, if_pos (by rw [List.length_append]; omega), List.drop_left]
  have hsize := field.size_eq_verdict
  cases hbroken : firstBroken? field.checks with
  | some rule =>
    rw [verdict, hbroken] at hsize
    rw [hsize] at h
    rw [write_of_firstBroken? hbroken]
    simp [advance?, hfrom, h, Except.map, Outcome.place]
  | none =>
    rw [verdict, hbroken] at hsize
    rw [hsize] at h
    rcases Nat.lt_or_ge rest.length field.bytes.length with hlt | hle
    · rw [write_of_lt hbroken (by rw [room_split]; exact hlt)]
      simp [advance?, hfrom, h, Except.map, Outcome.place_of_lt hlt]
    · rw [write_of_le hbroken (by rw [room_split]; exact hle)]
      simp [advance?, hfrom, h, Except.map, Outcome.place_of_le hle]

/-- **Writing by index is writing,** and never ends the program, as long as the position lies in the
buffer. -/
theorem writeByIndex?_eq {w : Writer} (h : w.position ≤ w.buffer.length) (field : Field) :
    w.writeByIndex? field = some (w.write field) := by
  obtain ⟨written, rest, rfl⟩ := exists_split h
  cases field with
  | byte value =>
    cases rest with
    | nil =>
      rw [write_of_lt rfl (by rw [room_split]; exact Nat.zero_lt_one)]
      simp [writeByIndex?]
    | cons old rest =>
      rw [write_of_le rfl (by rw [room_split]; exact Nat.succ_le_succ (Nat.zero_le _))]
      simp [writeByIndex?, Field.bytes]
  | word value => exact advance?_eq (putWord?_eq value rest)
  | text value =>
    exact advance?_eq (putCounted?_eq (fun n hn => (Field.textSize_eq_ok_iff.1 hn).2) rest)
  | binary value =>
    exact advance?_eq (putCounted?_eq (fun n hn => (Field.binarySize_eq_ok_iff.1 hn).2) rest)
  | raw value =>
    have hroom : difference? (written.length + rest.length) written.length = some rest.length := by
      rw [difference?, if_pos (Nat.le_add_right _ _), Nat.add_sub_cancel_left]
    rcases Nat.lt_or_ge rest.length value.length with hlt | hle
    · rw [write_of_lt rfl (by rw [room_split]; exact hlt)]
      simp [writeByIndex?, hroom, hlt]
    · rw [write_of_le rfl (by rw [room_split]; exact hle)]
      simp [writeByIndex?, hroom, Nat.not_lt.2 hle, overwrite?_append hle, Field.bytes]

end Writer

end Index

namespace Writer

/-! ### At any time -/

/-- **A writer at any time,** whatever the buffer was and whatever has been written or tried.  The
position lies in the buffer, before it stand the fields that could be written, and behind it the
buffer is as it was.  The next field is refused if it is too long, whether or not there is room, and
then if there is no room, and a refusal changes nothing; otherwise its bytes are put at the
position.  And no index or difference that is needed for this ever goes wrong. -/
theorem holds_run (buffer : Bytes) (fields : List Field) :
    let w := (start buffer).run fields
    w.Holds buffer ((start buffer).succeeded fields) ∧
      w.position ≤ buffer.length ∧ w.position + w.room = buffer.length ∧
      ∀ field,
        (∀ rule, firstBroken? field.checks = some rule →
          w.write field = (.error (.violation rule), w)) ∧
        (firstBroken? field.checks = none → w.room < field.bytes.length →
          w.write field = (.error .bufferTooSmall, w)) ∧
        (firstBroken? field.checks = none → field.bytes.length ≤ w.room →
          w.write field = (.ok (), w.append field.bytes)) ∧
        w.writeByIndex? field = some (w.write field) := by
  intro w
  have hstart : (start buffer).Holds buffer [] := ⟨Nat.zero_le _, rfl, rfl, rfl⟩
  have hholds : w.Holds buffer ((start buffer).succeeded fields) := hstart.run fields
  have hposition := hholds.position_le
  have hroom := hholds.position_add_room
  rw [hholds.length_eq] at hposition hroom
  exact ⟨hholds, hposition, hroom, fun field => ⟨fun rule => write_of_firstBroken?, write_of_lt,
    write_of_le, writeByIndex?_eq hholds.position_le field⟩⟩

/-- A text for which there is no room is left out, and a word is written behind what came before it.
Then a value that is too long is refused as such, raw bytes find no room, and fewer of them do. -/
theorem holds_run_instance :
    let w := (start [9, 9, 9, 9, 9]).run [.byte 0x30, .text "abc", .word 0xBEEF]
    w = ⟨[0x30, 0xBE, 0xEF, 9, 9], 3⟩ ∧
      w.write (.binary (List.replicate 65536 0)) = (.error (.violation .binaryTooLong), w) ∧
      w.write (.raw [1, 2, 3]) = (.error .bufferTooSmall, w) ∧
      w.write (.raw [1, 2]) = (.ok (), ⟨[0x30, 0xBE, 0xEF, 1, 2], 5⟩) ∧
      w.writeByIndex? (.raw [1, 2]) = some (.ok (), ⟨[0x30, 0xBE, 0xEF, 1, 2], 5⟩) := by
  intro w
  have hw : w = ⟨[0x30, 0xBE, 0xEF, 9, 9], 3⟩ := by decide
  obtain ⟨-, -, -, hnext⟩ :=
    holds_run [9, 9, 9, 9, 9] [.byte 0x30, .text "abc", .word 0xBEEF]
  have hlong (value : Bytes) (h : 65535 < value.length) :
      firstBroken? (Field.binary value).checks = some .binaryTooLong := by
    simp [Field.checks, Check.binary, firstBroken?_cons, h]
  have hreplicate : 65535 < (List.replicate 65536 (0 : UInt8)).length := by
    rw [List.length_replicate]
    decide
  obtain ⟨hbinary, -⟩ := hnext (.binary (List.replicate 65536 0))
  obtain ⟨-, hmany, -⟩ := hnext (.raw [1, 2, 3])
  obtain ⟨-, -, hfew, hindex⟩ := hnext (.raw [1, 2])
  have hput : w.write (.raw [1, 2]) = (.ok (), ⟨[0x30, 0xBE, 0xEF, 1, 2], 5⟩) := by
    rw [hfew rfl (by decide)]
    decide
  exact ⟨hw, hbinary _ (hlong _ hreplicate), hmany rfl (by decide), hput,
    hindex.trans (congrArg some hput)⟩

end Writer

end MqttWire
