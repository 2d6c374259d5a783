import MqttWire.FixedHeader
import MqttWire.Proofs.Fields

/-!
# The fixed header on the wire

The width of a remaining length is the least number of digits that hold it (`width_eq_ok_iff`).  A
fixed header is written as a whole, where there is room for the packet (`put_of_le`), and otherwise
not at all (`put_of_lt`, `put_of_packetLength_eq_error`).
-/

namespace MqttWire

namespace RemainingLength

theorem capacity_le_capacity : ∀ {k l : Nat}, k ≤ l → capacity k ≤ capacity l
  | k, 0, h => by
    obtain rfl := Nat.le_zero.1 h
    exact Nat.le_refl _
  | 0, l + 1, _ => by
    have ih := capacity_le_capacity (Nat.zero_le l)
    show capacity 0 ≤ 128 * capacity l
    omega
  | k + 1, l + 1, h =>
    Nat.mul_le_mul_left 128 (capacity_le_capacity (Nat.le_of_succ_le_succ h))

theorem capacity_pos (count : Nat) : 1 ≤ capacity count :=
  capacity_le_capacity (Nat.zero_le count)

/-- **A number needs so many digits:** these hold it, and fewer do not. -/
structure Needs (n count : Nat) : Prop where
  pos : 1 ≤ count
  lt : n < capacity count
  least : count = 1 ∨ capacity (count - 1) ≤ n

theorem Needs.of_le {n count : Nat} (hle : capacity count ≤ n) (hlt : n < capacity (count + 1)) :
    Needs n (count + 1) := ⟨Nat.succ_pos count, hlt, .inr hle⟩

/-- Behind the first of several digits stands a number that needs the others, and is not zero. -/
theorem Needs.quotient {n count : Nat} (h : Needs n (count + 2)) :
    Needs (n / 128) (count + 1) ∧ 1 ≤ n / 128 := by
  have hlt : n < 128 * capacity (count + 1) := h.lt
  have hle : 128 * capacity count ≤ n := h.least.resolve_left (by omega)
  have hpos := capacity_pos count
  exact ⟨.of_le (by omega) (by omega), by omega⟩

/-- **The width is the least number of digits that hold the number.** -/
theorem width_eq_ok_iff {n count : Nat} : width n = .ok count ↔ count ≤ 4 ∧ Needs n count := by
  unfold width limit
  constructor
  · intro h
    split at h
    · cases h
      exact ⟨by omega, Nat.le_refl 1, show n < 128 by omega, .inl rfl⟩
    split at h
    · cases h
      exact ⟨by omega, .of_le (show 128 ≤ n by omega) (show n < 16384 by omega)⟩
    split at h
    · cases h
      exact ⟨by omega, .of_le (show 16384 ≤ n by omega) (show n < 2097152 by omega)⟩
    split at h
    · cases h
      exact ⟨by omega, .of_le (show 2097152 ≤ n by omega) (show n < 268435456 by omega)⟩
    · cases h
  · rintro ⟨hmax, hpos, hlt, hge⟩
    obtain rfl | rfl | rfl | rfl : count = 1 ∨ count = 2 ∨ count = 3 ∨ count = 4 := by omega
    all_goals simp only [capacity] at hlt hge
    · rw [if_pos (by omega)]
    · rw [if_neg (by omega), if_pos (by omega)]
    · rw [if_neg (by omega), if_neg (by omega), if_pos (by omega)]
    · rw [if_neg (by omega), if_neg (by omega), if_neg (by omega), if_pos (by omega)]

theorem le_limit_of_width_eq_ok {n count : Nat} (h : width n = .ok count) : n ≤ limit := by
  obtain ⟨h4, -, hlt, -⟩ := width_eq_ok_iff.1 h
  have hcapacity : capacity count ≤ 268435456 := capacity_le_capacity h4
  unfold limit
  omega

/-- Up to the limit every number has a width. -/
theorem exists_width {n : Nat} (h : n ≤ limit) : ∃ count, width n = .ok count := by
  cases hw : width n with
  | ok count => exact ⟨count, rfl⟩
  | error e =>
    have := (width_eq_error_iff.1 hw).1
    omega

/-- A number needs no more digits than hold it. -/
theorem width_le {n count k : Nat} (h : width n = .ok count) (hk : 1 ≤ k) (hlt : n < capacity k) :
    count ≤ k := by
  rcases (width_eq_ok_iff.1 h).2.least with rfl | hge
  · exact hk
  · have hnot : ¬ k ≤ count - 1 := fun hle => by
      have := capacity_le_capacity hle
      omega
    omega

theorem put_of_le {n count : Nat} (h : width n = .ok count) {w : Writer} (hr : count ≤ w.room) :
    put n w = .ok count (w.append (digits count n)) := by
  have hb : putBytes (digits count n) w = .ok () (w.append (digits count n)) :=
    putBytes_of_le (by rw [length_digits]; exact hr)
  rw [put, h, lift_ok, pure_bind, bind_of_ok hb]
  rfl

end RemainingLength

namespace FixedHeader

/-- The bytes of the fixed header. -/
def bytes (header : FixedHeader) (count remaining : Nat) : Bytes :=
  header.controlByte :: RemainingLength.digits count remaining

@[simp] theorem length_bytes (header : FixedHeader) (count remaining : Nat) :
    (header.bytes count remaining).length = 1 + count := by
  simp [bytes, Nat.add_comm]

/-- A header is that of its kind and its flags. -/
theorem exists_of_ofFlags {type : ControlType} {flags : UInt8} {header : FixedHeader}
    (h : ofFlags type flags = .ok header) : ∃ legal, header = ⟨type, flags, legal⟩ := by
  unfold ofFlags at h
  split at h
  · next legal =>
    cases h
    exact ⟨legal, rfl⟩
  · cases h

theorem packetLength_eq_ok_iff {remaining length : Nat} :
    packetLength remaining = .ok length ↔
      ∃ count, RemainingLength.width remaining = .ok count ∧ 1 + count + remaining = length := by
  simp only [packetLength, bind_eq_ok_iff, pure, Except.pure, Except.ok.injEq]

theorem packetLength_ne_bufferTooSmall (remaining : Nat) :
    packetLength remaining ≠ .error .bufferTooSmall := by
  refine bind_ne_error ?_ fun count => nofun
  intro h
  cases (RemainingLength.width_eq_error_iff.1 h).2

variable {header : FixedHeader} {remaining : Nat}

theorem put_of_packetLength_eq_error {e : EncodeError} (h : packetLength remaining = .error e)
    (w : Writer) : header.put remaining w = .error e w := by
  rw [put, h, lift_error]
  rfl

theorem put_of_lt {length : Nat} {w : Writer} (h : packetLength remaining = .ok length)
    (hr : w.room < length) : header.put remaining w = .error .bufferTooSmall w := by
  rw [put, h, lift_ok, pure_bind, bind_of_error (requireRoom_of_lt hr)]

/-- Where the packet has room, the header is written whole and room for the rest stays. -/
theorem put_of_le {count : Nat} {written rest : Bytes}
    (h : RemainingLength.width remaining = .ok count) (hr : 1 + count + remaining ≤ rest.length) :
    header.put remaining ⟨written ++ rest, written.length⟩ = .ok (1 + count)
      ⟨written ++ header.bytes count remaining ++ rest.drop (1 + count),
        (written ++ header.bytes count remaining).length⟩ := by
  have hp : packetLength remaining = .ok (1 + count + remaining) :=
    packetLength_eq_ok_iff.2 ⟨count, h, rfl⟩
  have hroom : requireRoom (1 + count + remaining) ⟨written ++ rest, written.length⟩ =
      .ok () ⟨written ++ rest, written.length⟩ :=
    requireRoom_of_le (by rw [Writer.room_split]; exact hr)
  have hbyte : (Field.byte header.controlByte).put ⟨written ++ rest, written.length⟩ =
      .ok () ⟨written ++ [header.controlByte] ++ rest.drop 1,
        (written ++ [header.controlByte]).length⟩ := by
    rw [Field.put_of_size_eq_ok (n := 1) rfl, Field.bytes,
      putBytes_of_le (by rw [Writer.room_split]; simp; omega), Writer.append_split]
    rfl
  have hrest : count ≤ (Writer.mk (written ++ [header.controlByte] ++ rest.drop 1)
      (written ++ [header.controlByte]).length).room := by
    rw [Writer.room_split, List.length_drop]
    omega
  have hdigits := RemainingLength.put_of_le h hrest
  rw [Writer.append_split, RemainingLength.length_digits, List.drop_drop] at hdigits
  rw [put, hp, lift_ok, pure_bind, bind_of_ok hroom, bind_of_ok hbyte, bind_of_ok hdigits]
  simp [bytes, pure, EStateM.pure]

/-- Only where the packet has room is a header written. -/
theorem exists_of_put_eq_ok {written rest : Bytes} {n : Nat} {w : Writer}
    (h : header.put remaining ⟨written ++ rest, written.length⟩ = .ok n w) :
    ∃ count, RemainingLength.width remaining = .ok count ∧
      1 + count + remaining ≤ rest.length ∧ n = 1 + count ∧
      w = ⟨written ++ header.bytes count remaining ++ rest.drop (1 + count),
        (written ++ header.bytes count remaining).length⟩ := by
  cases hp : packetLength remaining with
  | error e => rw [put_of_packetLength_eq_error hp] at h; cases h
  | ok length =>
    obtain ⟨count, hc, rfl⟩ := packetLength_eq_ok_iff.1 hp
    by_cases hr : 1 + count + remaining ≤ rest.length
    · rw [put_of_le hc hr] at h
      cases h
      exact ⟨count, hc, hr, rfl, rfl⟩
    · rw [put_of_lt hp (by rw [Writer.room_split]; omega)] at h
      cases h

end FixedHeader

end MqttWire
