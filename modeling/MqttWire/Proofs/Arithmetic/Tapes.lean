import MqttWire.Proofs.Arithmetic.Numbers
import MqttWire.Proofs.Writing

/-!
# No arithmetic wraps

Writing is the same with numbers that a machine keeps.  On the tape of a writer whose position lies
in its buffer every action follows that on the writer (`Arithmetic.Follows`), since a position is only
moved where there is room, and so not out of the buffer.  Hence no request, no buffer and no row of
fields tells apart a machine with words of 32 bits or more from exact arithmetic
(`Request.wrapping_eq_exact`).
-/

namespace MqttWire

/-! ### Writers as tapes -/

namespace Writer

/-- The writer with numbers in place of bytes. -/
def tape (w : Writer) : Tape := ⟨w.buffer.map UInt8.toNat, w.position⟩

/-- **A writer within bounds:** its position lies in its buffer, and the buffer is not too long. -/
structure Within (w : Writer) (bound : Nat) : Prop where
  position_le : w.position ≤ w.buffer.length
  length_lt : w.buffer.length < bound

variable {w : Writer} {bound : Nat} {bytes : Bytes}

theorem within_start {buffer : Bytes} (h : buffer.length < bound) : (start buffer).Within bound :=
  ⟨Nat.zero_le _, h⟩

@[simp] theorem room_tape (w : Writer) : w.tape.room = w.room := by
  rw [tape, Tape.room, List.length_map, room]

theorem Within.position_add_le (h : w.Within bound) (hr : bytes.length ≤ w.room) :
    w.position + bytes.length ≤ w.buffer.length := by
  have hle := h.position_le
  unfold room at hr
  omega

/-- Bytes that have room do not lead out of the buffer. -/
theorem Within.append (h : w.Within bound) (hr : bytes.length ≤ w.room) :
    (w.append bytes).Within bound := by
  have hle := h.position_add_le hr
  have hlength : (w.append bytes).buffer.length = w.buffer.length := by
    rw [Writer.append, List.length_append, List.length_append, List.length_take, List.length_drop,
      Nat.min_eq_left h.position_le]
    omega
  exact ⟨by rw [hlength]; exact hle, by rw [hlength]; exact h.length_lt⟩

end Writer

namespace Arithmetic

variable {a : Arithmetic} {bound : Nat} {α β : Type}

/-- **An action on tapes follows one on writers:** within bounds it has the same outcome, and both
stay there. -/
def Follows (bound : Nat) (x : TapeM α) (y : WriteM α) : Prop :=
  ∀ w : Writer, w.Within bound →
    (∃ v w', y w = .ok v w' ∧ x w.tape = .ok v w'.tape ∧ w'.Within bound) ∨
    ∃ e w', y w = .error e w' ∧ x w.tape = .error e w'.tape ∧ w'.Within bound

theorem Follows.pure (v : α) : Follows bound (Pure.pure v) (Pure.pure v) :=
  fun w hw => .inl ⟨v, w, rfl, rfl, hw⟩

theorem follows_position :
    Follows bound (do return (← get).position) (do return (← get).position) :=
  fun w hw => .inl ⟨w.position, w, rfl, rfl, hw⟩

/-- One action after the other. -/
theorem Follows.bind {x : TapeM α} {y : WriteM α} {f : α → TapeM β} {g : α → WriteM β}
    (hx : Follows bound x y) (hf : ∀ v, Follows bound (f v) (g v)) :
    Follows bound (x >>= f) (y >>= g) := by
  intro w hw
  rcases hx w hw with ⟨v, w', hy, hx, hw'⟩ | ⟨e, w', hy, hx, hw'⟩
  · rw [bind_of_ok hy, bind_of_ok hx]
    exact hf v w' hw'
  · exact .inr ⟨e, w', bind_of_error hy, bind_of_error hx, hw'⟩

/-- What comes behind a check must follow only where the check succeeds. -/
theorem Follows.check {x : Except EncodeError α} {f : α → TapeM β} {g : α → WriteM β}
    (hf : ∀ v, x = .ok v → Follows bound (f v) (g v)) :
    Follows bound (liftM x >>= f) (liftM x >>= g) := by
  cases x with
  | error e => exact fun w hw => .inr ⟨e, w, rfl, rfl, hw⟩
  | ok v => exact hf v rfl

/-- A check that succeeds leaves the tape alone. -/
theorem lift_tape_ok (v : α) : (liftM (Except.ok v : Except EncodeError α) : TapeM α) = pure v := rfl

theorem requireRoom_tape_of_le {n : Nat} {w : Writer} (hr : n ≤ w.room) :
    Tape.requireRoom n w.tape = .ok () w.tape := by
  show (if w.tape.room < n then _ else _ : TapeM Unit) w.tape = _
  rw [Writer.room_tape, if_neg (Nat.not_lt.2 hr)]
  rfl

theorem requireRoom_tape_of_lt {n : Nat} {w : Writer} (hr : w.room < n) :
    Tape.requireRoom n w.tape = .error .bufferTooSmall w.tape := by
  show (if w.tape.room < n then _ else _ : TapeM Unit) w.tape = _
  rw [Writer.room_tape, if_pos hr]
  rfl

section Writing

variable (h : a.Keeps bound)
include h

/-- **Where there is room, no position is lost.** -/
theorem overwrite_tape {w : Writer} (hw : w.Within bound) {bytes : Bytes}
    (hr : bytes.length ≤ w.room) :
    a.overwrite (bytes.map UInt8.toNat) bytes.length w.tape = (w.append bytes).tape := by
  have hle := hw.position_add_le hr
  have hadd : a.add w.position bytes.length = w.position + bytes.length :=
    h.add (Nat.lt_of_le_of_lt hle hw.length_lt)
  rw [overwrite, Writer.tape, hadd, Writer.append, Writer.tape]
  simp only [List.map_append, List.map_take, List.map_drop]

theorem putNumbers_of_le {w : Writer} (hw : w.Within bound) {bytes : Bytes}
    (hr : bytes.length ≤ w.room) :
    a.putNumbers (bytes.map UInt8.toNat) bytes.length w.tape = .ok () (w.append bytes).tape := by
  rw [putNumbers, bind_of_ok (requireRoom_tape_of_le hr), ← overwrite_tape h hw hr]
  rfl

theorem follows_putNumbers (bytes : Bytes) :
    Follows bound (a.putNumbers (bytes.map UInt8.toNat) bytes.length) (putBytes bytes) := by
  intro w hw
  rcases Nat.lt_or_ge w.room bytes.length with hr | hr
  · exact .inr ⟨_, w, putBytes_of_lt hr, bind_of_error (requireRoom_tape_of_lt hr), hw⟩
  · exact .inl ⟨(), _, putBytes_of_le hr, putNumbers_of_le h hw hr, hw.append hr⟩

variable (hbound : 268435460 < bound)
include hbound

theorem follows_put (field : Field) : Follows bound (a.put field) field.put := by
  rw [put, size_eq h hbound, Field.put]
  refine .check fun n hn => ?_
  obtain rfl := Field.length_bytes hn
  rw [bytes_eq h ⟨_, hn⟩]
  exact follows_putNumbers h field.bytes

theorem follows_putAll (fields : List Field) :
    Follows bound (a.putAll fields) (MqttWire.putAll fields) := by
  induction fields with
  | nil => exact .pure ()
  | cons field fields ih => exact .bind (follows_put h hbound field) fun _ => ih

/-- The fixed header is written in one go, or not at all. -/
theorem follows_putHeader (header : FixedHeader) (remaining : Nat) :
    Follows bound (a.putHeader header.controlByte.toNat remaining) (header.put remaining) := by
  intro w hw
  cases hp : FixedHeader.packetLength remaining with
  | error e =>
    refine .inr ⟨e, w, FixedHeader.put_of_packetLength_eq_error hp w, ?_, hw⟩
    rw [putHeader, packetLength_eq h hbound, hp]
    rfl
  | ok length =>
    obtain ⟨count, hc, rfl⟩ := FixedHeader.packetLength_eq_ok_iff.1 hp
    rcases Nat.lt_or_ge w.room (1 + count + remaining) with hr | hr
    · refine .inr ⟨_, w, FixedHeader.put_of_lt hp hr, ?_, hw⟩
      rw [putHeader, packetLength_eq h hbound, hp, lift_tape_ok, pure_bind,
        bind_of_error (requireRoom_tape_of_lt hr)]
    · have hlength := header.length_bytes count remaining
      have hroom : (header.bytes count remaining).length ≤ w.room := by omega
      have hcount := (RemainingLength.width_eq_ok_iff.1 hc).1
      refine .inl ⟨1 + count, w.append (header.bytes count remaining), ?_, ?_, hw.append hroom⟩
      · obtain ⟨written, rest, rfl⟩ := Writer.exists_split hw.position_le
        rw [Writer.room_split] at hr
        rw [FixedHeader.put_of_le hc hr, Writer.append_split, hlength]
      · have hput := putNumbers_of_le h hw hroom
        have hadd : a.add 1 count = 1 + count := h.add (by omega)
        rw [hlength, FixedHeader.bytes, List.map_cons, ← digits_eq h] at hput
        rw [putHeader, packetLength_eq h hbound, hp, lift_tape_ok, pure_bind,
          bind_of_ok (requireRoom_tape_of_le hr), hc, lift_tape_ok, pure_bind, hadd,
          bind_of_ok hput]
        rfl

theorem follows_putBody (request : Request) :
    Follows bound (a.putBody request) request.packet.fields := by
  have hall := follows_putAll h hbound
  cases request with
  | connect c =>
    exact .bind (hall _) fun _ => .check fun bits _ =>
      .bind (follows_put h hbound (.byte bits)) fun _ => hall _
  | publish p => exact hall p.fields
  | acknowledge k => exact hall k.fields
  | subscribe s => exact hall s.fields
  | unsubscribe u => exact hall u.fields
  | pingReq | disconnect => exact .pure ()

/-- **Packets follow:** on the way there nothing is counted before the content is legal. -/
theorem follows_putFrom (request : Request) :
    Follows bound (a.putFrom request (a.remainingLength request)) request.packet.put := by
  refine .check fun _ hv => ?_
  rw [header_eq h, remainingLength_eq h hbound hv]
  cases request.packet.header with
  | error e => exact fun w hw => .inr ⟨e, w, rfl, rfl, hw⟩
  | ok header =>
    exact .check fun remaining _ => .bind (follows_putHeader h hbound header remaining) fun _ =>
      .bind (follows_putBody h hbound request) fun _ => follows_position

/-- A field is written as by a writer. -/
theorem write_tape {w : Writer} (hw : w.Within bound) (field : Field) :
    a.write w.tape field = ((w.write field).1, (w.write field).2.tape) ∧
      (w.write field).2.Within bound := by
  rw [write, TapeM.outcome, Writer.write]
  rcases follows_put h hbound field w hw with ⟨⟨⟩, w', hput, htape, hw'⟩ | ⟨e, w', hput, htape, hw'⟩
  · rw [hput, htape]
    exact ⟨rfl, hw'⟩
  · rw [hput, htape]
    exact ⟨rfl, hw'⟩

/-- **A run of a tape follows that of a writer,** field by field. -/
theorem run_tape {w : Writer} (hw : w.Within bound) (fields : List Field) :
    a.run w.tape fields = (w.run fields).tape := by
  induction fields generalizing w with
  | nil => rfl
  | cons field fields ih =>
    obtain ⟨hwrite, hw'⟩ := write_tape h hbound hw field
    rw [run, List.foldl_cons, Writer.run_cons, ← ih hw', hwrite, run]

/-! ### Packets -/

theorem encodedLength_eq (request : Request) :
    a.encodedLength request = request.encodedLength := by
  refine bind_congr_of_ok fun _ hv => ?_
  rw [header_eq h, remainingLength_eq h hbound hv]
  cases request.packet.header with
  | error e => rfl
  | ok header => exact bind_congr_of_ok fun remaining _ => packetLength_eq h hbound remaining

theorem encode_eq (request : Request) {buffer : Bytes} (hbuffer : buffer.length < bound) :
    a.encode request buffer =
      ((request.encode buffer).result, (request.encode buffer).buffer.map UInt8.toNat) := by
  have hstart : Tape.start buffer = (Writer.start buffer).tape := rfl
  rw [encode, encodeFrom, hstart, TapeM.outcome, Request.encode, Packet.encode, writeInto]
  rcases follows_putFrom h hbound request _ (Writer.within_start hbuffer) with
    ⟨n, w, hput, htape, -⟩ | ⟨e, w, hput, htape, -⟩
  · rw [hput, htape]
    rfl
  · rw [hput, htape]
    rfl

end Writing

end Arithmetic

/-! ### Words of 32 bits and more -/

namespace Request

/-- How many topic filters a request names. -/
def filterCount : Request → Nat
  | subscribe s => s.subscriptions.length
  | unsubscribe u => u.filters.length
  | _ => 0

/-- More than eight filters are refused before their bytes are counted. -/
theorem validity_of_filterCount {request : Request} (h : 8 < request.filterCount) :
    request.packet.validity = .error (.violation .tooManyTopics) := by
  have hmany (count : Nat) (hcount : 8 < count) :
      checkCount count = .error (.violation .tooManyTopics) := by
    rw [checkCount, maxTopics, if_neg (by omega), if_neg (by omega)]
  cases request with
  | subscribe s => exact hmany _ h
  | unsubscribe u => exact hmany _ h
  | connect | publish | acknowledge | pingReq | disconnect => cases h

/-- **No arithmetic wraps.**  In a machine with words of 32 bits or more every request has the length
that it has in exact arithmetic, and encoding it leaves the same result and the same buffer, which are
those of the request.  So does writing field by field, where the position never leaves the buffer.
The filters of a request are counted only if there are eight at most: of more of them the count is
never looked at, whatever it comes to.  Nothing depends on what becomes of numbers that a word, or
sixteen bits, or a byte does not hold. -/
theorem wrapping_eq_exact {bits : Nat} (hbits : 32 ≤ bits) {buffer : Bytes}
    (hbuffer : buffer.length < 2 ^ bits) :
    let machine := Arithmetic.wrapping bits
    let exact := Arithmetic.exact
    (∀ request : Request,
      machine.encodedLength request = exact.encodedLength request ∧
      exact.encodedLength request = request.encodedLength ∧
      machine.encode request buffer = exact.encode request buffer ∧
      exact.encode request buffer =
        ((request.encode buffer).result, (request.encode buffer).buffer.map UInt8.toNat)) ∧
    (∀ fields field,
      let t := machine.run (.start buffer) fields
      let w := (Writer.start buffer).run fields
      t = exact.run (.start buffer) fields ∧ t = w.tape ∧
      machine.write t field = exact.write t field ∧
      machine.write t field = ((w.write field).1, (w.write field).2.tape) ∧
      t.position + t.room = buffer.length ∧
      ∀ n, field.size = .ok n → (machine.write t field).1 = .ok () →
        (machine.write t field).2.position = t.position + n ∧ t.position + n ≤ buffer.length) ∧
    (∀ request, 8 < request.filterCount → ∀ remaining,
      machine.lengthFrom request remaining = .error (.violation .tooManyTopics) ∧
      machine.encodeFrom request remaining buffer =
        (.error (.violation .tooManyTopics), buffer.map UInt8.toNat)) ∧
    (∀ flags qos, machine.willQoS flags qos = exact.willQoS flags qos ∧
      exact.willQoS flags qos = (flags.willQoS qos).bits.toNat) ∧
    ∀ a : Arithmetic, a.Keeps (2 ^ bits) → ∀ request : Request,
      a.encodedLength request = request.encodedLength ∧
      a.encode request buffer =
        ((request.encode buffer).result, (request.encode buffer).buffer.map UInt8.toNat) := by
  intro machine exact
  have hbound : 268435460 < 2 ^ bits :=
    Nat.lt_of_lt_of_le (by decide) (Nat.pow_le_pow_right (by decide) hbits)
  have hmachine : machine.Keeps (2 ^ bits) := Arithmetic.keeps_wrapping bits
  have hexact : exact.Keeps (2 ^ bits) := Arithmetic.keeps_exact _
  refine ⟨fun request => ?_, fun fields field => ?_, fun request hmany remaining => ?_,
    fun flags qos => ?_, fun a ha request => ?_⟩
  · rw [Arithmetic.encodedLength_eq hmachine hbound, Arithmetic.encodedLength_eq hexact hbound,
      Arithmetic.encode_eq hmachine hbound request hbuffer,
      Arithmetic.encode_eq hexact hbound request hbuffer]
    exact ⟨rfl, rfl, rfl, rfl⟩
  · intro t w
    have hstart := Writer.within_start hbuffer
    have ht : t = w.tape := Arithmetic.run_tape hmachine hbound hstart fields
    have hsame : t = exact.run (.start buffer) fields :=
      ht.trans (Arithmetic.run_tape hexact hbound hstart fields).symm
    have hempty : (Writer.start buffer).Holds buffer [] := ⟨Nat.zero_le _, rfl, rfl, rfl⟩
    have hholds : w.Holds buffer _ := hempty.run fields
    have hw : w.Within (2 ^ bits) := ⟨hholds.position_le, by rw [hholds.length_eq]; exact hbuffer⟩
    obtain ⟨hwrite, -⟩ := Arithmetic.write_tape hmachine hbound hw field
    obtain ⟨hwrite', -⟩ := Arithmetic.write_tape hexact hbound hw field
    rw [← ht] at hwrite hwrite'
    refine ⟨hsame, ht, hwrite.trans hwrite'.symm, hwrite, ?_, fun n hn hok => ?_⟩
    · rw [ht, Writer.room_tape, ← hholds.length_eq]
      exact hholds.position_add_room
    · rw [hwrite] at hok ⊢
      rw [ht]
      obtain rfl := Field.length_bytes hn
      rcases w.write_cases field with ⟨e, he⟩ | ⟨hr, hput⟩
      · rw [he] at hok
        cases hok
      · rw [hput, ← hholds.length_eq]
        exact ⟨rfl, hw.position_add_le hr⟩
  · have hv := validity_of_filterCount hmany
    refine ⟨?_, ?_⟩
    · rw [Arithmetic.lengthFrom, hv]
      rfl
    · rw [Arithmetic.encodeFrom, Arithmetic.putFrom, hv]
      rfl
  · rw [Arithmetic.willQoS_eq hmachine, Arithmetic.willQoS_eq hexact]
    exact ⟨rfl, rfl⟩
  · exact ⟨Arithmetic.encodedLength_eq ha hbound request,
      Arithmetic.encode_eq ha hbound request hbuffer⟩

/-- A machine of 32 bits: a packet, more filters than are counted, and a text behind which a word
still has room. -/
theorem wrapping_eq_exact_instance :
    let machine := Arithmetic.wrapping 32
    let message : Request := publish ((Publish.ofMessage "a/b" [104, 105]).withQoS .atLeastOnce 10)
    let filters : Request := unsubscribe ⟨10, List.replicate 9 "a"⟩
    let buffer : Bytes := List.replicate 12 9
    machine.encodedLength message = .ok 11 ∧
      machine.encode message buffer = (.ok 11, [50, 9, 0, 3, 97, 47, 98, 0, 10, 104, 105, 9]) ∧
      machine.encodedLength filters = .error (.violation .tooManyTopics) ∧
      (machine.write (machine.run (.start buffer) [.text "abcde", .raw buffer]) (.word 7)).1 =
        .ok () ∧
      (machine.run (.start buffer) [.text "abcde", .raw buffer]).position + 2 ≤ 12 := by
  intro machine message filters buffer
  obtain ⟨hrequest, hwriter, hmany, -⟩ :=
    @wrapping_eq_exact 32 (Nat.le_refl 32) buffer (by decide)
  obtain ⟨hlength, hlength', hencode, hencode'⟩ := hrequest message
  obtain ⟨-, -, -, hwrite, -, hposition⟩ := hwriter [.text "abcde", .raw buffer] (.word 7)
  have hok : (machine.write (machine.run (.start buffer) [.text "abcde", .raw buffer])
      (.word 7)).1 = .ok () := by
    rw [hwrite]
    decide
  refine ⟨?_, ?_, (hmany filters (by decide) _).1, hok, (hposition 2 rfl hok).2⟩
  · rw [hlength, hlength']
    decide
  · rw [hencode, hencode']
    decide

/-- Words of four bits do not hold the length of a filter of fourteen bytes. -/
example :
    (Arithmetic.wrapping 4).encodedLength (unsubscribe ⟨10, ["0123456789abcd"]⟩) = .ok 4 ∧
      (unsubscribe ⟨10, ["0123456789abcd"]⟩).encodedLength = .ok 20 := by decide

end Request

end MqttWire
