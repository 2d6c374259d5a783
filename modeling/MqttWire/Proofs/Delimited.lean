import MqttWire.Proofs.Reading
import MqttWire.Proofs.Writing

/-!
# Fields that tell their own end

A text or a binary value stands behind its length in two bytes.  That these two bytes hold all of the
length, and that no index on the way goes wrong, comes from the check of the length that is made
first; the room is looked at only then (`Field.Delimited`).  So whoever reads such a field back stops
where it ends, and a row of such fields and of words is read back knowing no more than the shape of
each (`Field.delimited`).
-/

namespace MqttWire

/-! ### One field -/

namespace Field

theorem encode_eq (field : Field) (buffer : Bytes) :
    field.encode buffer = Outcome.place (field.size.map fun _ => field.bytes) buffer := by
  rw [encode, writeInto]
  cases hsize : field.size with
  | error e =>
    rw [bind_of_error (put_of_size_eq_error hsize _)]
    rfl
  | ok n =>
    have hput : field.put (Writer.start buffer) = putBytes field.bytes (Writer.start buffer) :=
      put_of_size_eq_ok hsize _
    show _ = Outcome.place (.ok field.bytes) buffer
    rcases Nat.lt_or_ge buffer.length field.bytes.length with hlt | hle
    · rw [Outcome.place_of_lt hlt, bind_of_error (hput.trans (putBytes_of_lt hlt))]
      rfl
    · rw [Outcome.place_of_le hle, bind_of_ok (hput.trans (putBytes_of_le hle)), Writer.start_eq,
        Writer.append_split]
      rfl

/-- **A field tells its own end.**  Its content stands behind its length in two bytes; it is refused
if it is too long for them, whatever the buffer, and then if there is no room.  What is written is
read back, whatever follows, and to write it no index goes wrong. -/
structure Delimited {α : Type} (field : Field) (content : Bytes) (rule : Violation)
    (reader : ReadM α) (value : α) : Prop where
  size_eq : field.size =
    if 65535 < content.length then .error (.violation rule) else .ok (2 + content.length)
  tooLong (buffer : Bytes) :
    (field.encode buffer).result = .error (.violation rule) ↔ 65535 < content.length
  tooSmall (buffer : Bytes) : (field.encode buffer).result = .error .bufferTooSmall ↔
    content.length ≤ 65535 ∧ buffer.length < 2 + content.length
  unchanged (buffer : Bytes) {e : EncodeError} (h : (field.encode buffer).result = .error e) :
    (field.encode buffer).buffer = buffer
  written (buffer : Bytes) (hlength : content.length ≤ 65535)
      (hroom : 2 + content.length ≤ buffer.length) :
    ∃ high low, ofBigEndian high low = content.length ∧ field.encode buffer =
      ⟨.ok (2 + content.length), high :: low :: (content ++ buffer.drop (2 + content.length))⟩
  read (buffer : Bytes) {n : Nat} (h : (field.encode buffer).result = .ok n) (rest : Bytes) :
    reader ((field.encode buffer).buffer.take n ++ rest) = some (value, rest)
  byIndex (buffer : Bytes) : putCounted? content field.size buffer = some (field.encode buffer)

section Counted

variable {α : Type} {field : Field} {content : Bytes} {rule : Violation}
  (hbytes : field.bytes = counted content)
  (hsize : field.size =
    if 65535 < content.length then .error (.violation rule) else .ok (2 + content.length))
include hbytes hsize

/-- Writing a content behind its length goes one of three ways. -/
theorem encode_cases (buffer : Bytes) :
    (65535 < content.length ∧ field.encode buffer = ⟨.error (.violation rule), buffer⟩) ∨
    (content.length ≤ 65535 ∧ buffer.length < 2 + content.length ∧
      field.encode buffer = ⟨.error .bufferTooSmall, buffer⟩) ∨
    (content.length ≤ 65535 ∧ 2 + content.length ≤ buffer.length ∧ field.encode buffer =
      ⟨.ok (2 + content.length), counted content ++ buffer.drop (2 + content.length)⟩) := by
  have hcounted := length_counted content
  rcases Nat.lt_or_ge 65535 content.length with hlong | hlength
  · refine .inl ⟨hlong, ?_⟩
    rw [encode_eq, hsize, if_pos hlong]
    rfl
  · have hencode : field.encode buffer = Outcome.place (.ok (counted content)) buffer := by
      rw [encode_eq, hsize, if_neg (Nat.not_lt.2 hlength), hbytes]
      rfl
    rcases Nat.lt_or_ge buffer.length (2 + content.length) with hlt | hle
    · exact .inr (.inl ⟨hlength, hlt, hencode.trans (Outcome.place_of_lt (by omega))⟩)
    · refine .inr (.inr ⟨hlength, hle, ?_⟩)
      rw [hencode, Outcome.place_of_le (by omega), hcounted]

/-- A content behind its length tells its end, if nothing but its length is checked. -/
theorem delimited_of_counted {reader : ReadM α} {value : α}
    (hread : content.length ≤ 65535 → ∀ rest, reader (counted content ++ rest) = some (value, rest)) :
    field.Delimited content rule reader value := by
  have hcases := encode_cases hbytes hsize
  refine ⟨hsize, fun buffer => ?_, fun buffer => ?_, fun buffer e h => ?_,
    fun buffer hlength hroom => ?_, fun buffer n h rest => ?_, fun buffer => ?_⟩
  · rcases hcases buffer with ⟨hlong, he⟩ | ⟨hlength, -, he⟩ | ⟨hlength, -, he⟩
    · exact iff_of_true (by rw [he]) hlong
    · exact iff_of_false (by simp [he]) (Nat.not_lt.2 hlength)
    · exact iff_of_false (by simp [he]) (Nat.not_lt.2 hlength)
  · rcases hcases buffer with ⟨hlong, he⟩ | ⟨hlength, hlt, he⟩ | ⟨-, hle, he⟩
    · exact iff_of_false (by simp [he]) fun h => Nat.not_le.2 hlong h.1
    · exact iff_of_true (by rw [he]) ⟨hlength, hlt⟩
    · exact iff_of_false (by simp [he]) fun h => Nat.not_lt.2 hle h.2
  · rcases hcases buffer with ⟨-, he⟩ | ⟨-, -, he⟩ | ⟨-, -, he⟩
    · rw [he]
    · rw [he]
    · rw [he] at h
      cases h
  · rcases hcases buffer with ⟨hlong, -⟩ | ⟨-, hlt, -⟩ | ⟨-, -, he⟩
    · exact absurd hlength (Nat.not_le.2 hlong)
    · exact absurd hroom (Nat.not_le.2 hlt)
    · -- the length in front of the content is all of it
      exact ⟨_, _, ofBigEndian_bigEndian (Nat.lt_succ_of_le hlength), he⟩
  · rcases hcases buffer with ⟨-, he⟩ | ⟨-, -, he⟩ | ⟨hlength, -, he⟩
    · rw [he] at h
      cases h
    · rw [he] at h
      cases h
    · rw [he] at h ⊢
      cases h
      rw [List.take_left' (length_counted content)]
      exact hread hlength rest
  · rw [encode_eq, hbytes]
    refine putCounted?_eq (fun n hn => ?_) buffer
    rw [hsize] at hn
    split at hn
    · cases hn
    · exact (Except.ok.inj hn).symm

end Counted

end Field

/-! ### Rows of fields -/

/-- **The shapes of field** that tell their own end. -/
inductive Shape where
  | word
  | text
  | binary
deriving DecidableEq

/-- The shape of a field, if it tells its own end. -/
def Field.shape? : Field → Option Shape
  | word _ => some .word
  | text _ => some .text
  | binary _ => some .binary
  | byte _ | raw _ => none

namespace Shape

/-- Reads a field of this shape. -/
def read : Shape → ReadM Field
  | word => Field.word <$> readWord
  | text => Field.text <$> readText
  | binary => Field.binary <$> readBinary

/-- **Reads a field of each shape,** one behind the other. -/
def readRow (shapes : List Shape) : ReadM (List Field) := shapes.mapM read

theorem takes_read (shape : Shape) :
    shape.read.Takes (fun field => field.shape? = some shape ∧ field.Fits) Field.bytes := by
  intro input field rest
  cases shape with
  | word =>
    rw [read, ReadM.map_apply_eq_some_iff]
    simp only [readWord_eq_some_iff]
    cases field <;> simp [Field.shape?, Field.bytes]
  | text =>
    rw [read, ReadM.map_apply_eq_some_iff]
    simp only [readText_eq_some_iff]
    cases field <;> simp [Field.shape?, Field.bytes, and_comm]
  | binary =>
    rw [read, ReadM.map_apply_eq_some_iff]
    simp only [readBinary_eq_some_iff]
    cases field <;> simp [Field.shape?, Field.bytes, and_comm]

/-- **A row is read back by its shapes,** whatever follows, and nothing else is read. -/
theorem takes_readRow (shapes : List Shape) :
    (readRow shapes).Takes
      (fun row => row.map Field.shape? = shapes.map some ∧ ∀ field ∈ row, field.Fits)
      fun row => row.flatMap Field.bytes := by
  intro input row rest
  induction shapes generalizing input row rest with
  | nil =>
    rw [readRow, List.mapM_nil, ReadM.pure_apply, Option.some.injEq, Prod.mk.injEq]
    constructor
    · rintro ⟨rfl, rfl⟩
      exact ⟨⟨rfl, nofun⟩, rfl⟩
    · rintro ⟨⟨hshapes, -⟩, rfl⟩
      obtain rfl := List.map_eq_nil_iff.1 hshapes
      exact ⟨rfl, rfl⟩
  | cons shape shapes ih =>
    rw [readRow, List.mapM_cons, ← readRow]
    simp only [ReadM.bind_apply_eq_some_iff, shape.takes_read _ _ _, ih, ReadM.pure_apply,
      Option.some.injEq, Prod.mk.injEq]
    constructor
    · rintro ⟨field, _, ⟨⟨hshape, hfits⟩, rfl⟩, row, _, ⟨⟨hshapes, hrow⟩, rfl⟩, rfl, rfl⟩
      refine ⟨⟨?_, List.forall_mem_cons.2 ⟨hfits, hrow⟩⟩, ?_⟩
      · rw [List.map_cons, List.map_cons, hshape, hshapes]
      · rw [List.flatMap_cons, List.append_assoc]
    · rintro ⟨⟨hshapes, hrow⟩, rfl⟩
      cases row with
      | nil => cases hshapes
      | cons field row =>
        rw [List.map_cons, List.map_cons, List.cons.injEq] at hshapes
        obtain ⟨hfits, hrow⟩ := List.forall_mem_cons.1 hrow
        refine ⟨field, _, ⟨⟨hshapes.1, hfits⟩, ?_⟩, row, rest, ⟨⟨hshapes.2, hrow⟩, rfl⟩, rfl, rfl⟩
        rw [List.flatMap_cons, List.append_assoc]

end Shape

namespace Field

/-- **Texts and binary values tell their own end,** whatever they are and whatever they are written
to.  So a row of them and of words, which is written if none of them is too long and there is room
for all, is read back by the shapes of its fields, and the reading stops where the row ends. -/
theorem delimited :
    (∀ value : String, (text value).Delimited (utf8 value) .stringTooLong readText value) ∧
    (∀ value : Bytes, (binary value).Delimited value .binaryTooLong readBinary value) ∧
    ∀ (shapes : List Shape) (row : List Field) (buffer : Bytes),
      row.map shape? = shapes.map some →
        ((∃ w, putAll row (Writer.start buffer) = .ok () w) ↔
          (∀ field ∈ row, field.Fits) ∧ (row.flatMap bytes).length ≤ buffer.length) ∧
        ∀ w, putAll row (Writer.start buffer) = .ok () w → ∀ rest,
          Shape.readRow shapes (w.buffer.take w.position ++ rest) = some (row, rest) := by
  refine ⟨fun value => ?_, fun value => ?_, fun shapes row buffer hshapes => ⟨?_, ?_⟩⟩
  · refine delimited_of_counted rfl ?_ fun hlength rest => ?_
    · rw [size, textSize, length_utf8, maxLength]
    · exact readText_eq_some_iff.2 ⟨rfl, hlength⟩
  · refine delimited_of_counted rfl ?_ fun hlength rest => ?_
    · rw [size, binarySize, maxLength]
    · exact readBinary_eq_some_iff.2 ⟨rfl, hlength⟩
  · rw [Writer.start_eq]
    constructor
    · rintro ⟨w, hw⟩
      obtain ⟨hfits, hroom, -⟩ := putAll_eq_ok_iff.1 hw
      exact ⟨hfits, hroom⟩
    · rintro ⟨hfits, hroom⟩
      exact ⟨_, putAll_eq_ok_iff.2 ⟨hfits, hroom, rfl⟩⟩
  · intro w hw rest
    rw [Writer.start_eq] at hw
    obtain ⟨hfits, -, rfl⟩ := putAll_eq_ok_iff.1 hw
    rw [List.take_left, List.nil_append]
    exact (Shape.takes_readRow shapes _ row rest).2 ⟨⟨hshapes, hfits⟩, rfl⟩

/-- A text without room and with it, a value that is too long for an empty buffer too, and a row. -/
theorem delimited_instance :
    let tooLong : Bytes := List.replicate 65536 0
    ((text "a/b").encode [9, 9, 9, 9]).result = .error .bufferTooSmall ∧
      ((text "a/b").encode [9, 9, 9, 9, 9, 9]).result = .ok 5 ∧
      readText (((text "a/b").encode [9, 9, 9, 9, 9, 9]).buffer.take 5 ++ [0, 7]) =
        some ("a/b", [0, 7]) ∧
      ((binary tooLong).encode []).result = .error (.violation .binaryTooLong) ∧
      ∃ w, putAll [.text "a/b", .word 7, .binary [1]] (Writer.start (List.replicate 12 9)) =
          .ok () w ∧
        Shape.readRow [.text, .word, .binary] (w.buffer.take w.position ++ [9, 9]) =
          some ([.text "a/b", .word 7, .binary [1]], [9, 9]) := by
  intro tooLong
  obtain ⟨htext, hbinary, hrow⟩ := delimited
  have hlength : (utf8 "a/b").length = 3 := rfl
  have hok : ((text "a/b").encode [9, 9, 9, 9, 9, 9]).result = .ok 5 := by
    obtain ⟨high, low, -, hwritten⟩ := (htext "a/b").written [9, 9, 9, 9, 9, 9]
      (by rw [hlength]; decide) (by rw [hlength]; decide)
    rw [hwritten, hlength]
  have hlong : 65535 < tooLong.length := by
    rw [List.length_replicate]
    decide
  obtain ⟨-, hread⟩ := hrow [.text, .word, .binary] [.text "a/b", .word 7, .binary [1]]
    (List.replicate 12 9) rfl
  refine ⟨((htext "a/b").tooSmall _).2 ⟨?_, ?_⟩, hok, (htext "a/b").read _ hok _,
    ((hbinary tooLong).tooLong []).2 hlong, _, rfl, hread _ rfl _⟩
  · rw [hlength]
    decide
  · rw [hlength]
    decide

end Field

end MqttWire
