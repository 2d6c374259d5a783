import Mathlib.Algebra.GroupWithZero.Nat
import MqttWire.Proofs.Outcome

/-!
# Results as signed numbers

A signed number keeps apart what an encoder returns, since every packet takes at least two bytes and
at most `268435460` (`Request.encode_inRange`): so a size is positive, and half the range of a word
is enough for it.  `Request.signedSize_encode` is what a caller may rely on.  Of sizes that no
packet has nothing of the kind holds: zero reads as a short buffer, and one in the upper half of the
range as a broken rule.
-/

namespace MqttWire

/-! ### Sizes of packets -/

/-- A packet has a first byte and one digit at least, and a header of five bytes before the longest
body. -/
theorem FixedHeader.bounds_of_packetLength {remaining length : Nat}
    (h : packetLength remaining = .ok length) : 2 ≤ length ∧ length ≤ 268435460 := by
  obtain ⟨count, hc, rfl⟩ := packetLength_eq_ok_iff.1 h
  obtain ⟨hcount, hneeds⟩ := RemainingLength.width_eq_ok_iff.1 hc
  have hpos := hneeds.pos
  have hlimit : remaining ≤ 268435455 := RemainingLength.le_limit_of_width_eq_ok hc
  omega

theorem Packet.bounds_of_encodedLength {packet : Packet} {length : Nat}
    (h : packet.encodedLength = .ok length) : 2 ≤ length ∧ length ≤ 268435460 := by
  obtain ⟨⟨⟩, -, h⟩ := bind_eq_ok_iff.1 h
  obtain ⟨header, -, h⟩ := bind_eq_ok_iff.1 h
  obtain ⟨remaining, -, h⟩ := bind_eq_ok_iff.1 h
  exact FixedHeader.bounds_of_packetLength h

/-- **A size that a packet can have,** if the result is a size. -/
def InRange (result : Except EncodeError Nat) : Prop :=
  ∀ n, result = .ok n → 2 ≤ n ∧ n ≤ 268435460

/-- **Encoders return sizes of packets.** -/
theorem Request.encode_inRange (request : Request) (buffer : Bytes) :
    InRange (request.encode buffer).result := by
  intro n h
  rw [encode_eq] at h
  obtain ⟨hn, -⟩ := Outcome.result_place_eq_ok_iff.1 h
  rw [← encodedLength_eq] at hn
  exact Packet.bounds_of_encodedLength hn

/-! ### Signs -/

/-- **The result that a signed number stands for,** if it stands for one. -/
def ofSigned? (s : Int) : Option (Except EncodeError Nat) :=
  if 0 < s then some (.ok s.toNat)
  else if s = 0 then some (.error .bufferTooSmall)
  else (Violation.ofCode? (-s).toNat).map fun rule => .error (.violation rule)

variable {bits : Nat}

/-- Minus the code of a rule stands for this rule being broken. -/
theorem ofSigned?_neg_code (rule : Violation) :
    ofSigned? (-(rule.code : Int)) = some (.error (.violation rule)) := by
  have hcode := rule.code_pos
  rw [ofSigned?, if_neg (by omega), if_neg (by omega), Int.neg_neg, Int.toNat_natCast,
    Violation.ofCode?_code]
  rfl

theorem le_two_pow (hbits : 32 ≤ bits) : 2 ^ 32 ≤ 1 <<< bits := by
  rw [Nat.one_shiftLeft]
  exact Nat.pow_le_pow_right (by decide) hbits

section InRange

variable {result : Except EncodeError Nat} (hbits : 32 ≤ bits) (h : InRange result)
include hbits h

/-- The size of a packet stands for itself. -/
theorem signedSize_of_ok {n : Nat} (hok : result = .ok n) : signedSize bits result = n := by
  obtain ⟨-, hn⟩ := h n hok
  have hpow := le_two_pow hbits
  rw [hok]
  exact signedSize_ok (by omega)

/-- **The sign tells the class of a result.** -/
theorem sign_signedSize : (0 < signedSize bits result ↔ ∃ n, result = .ok n) ∧
    (signedSize bits result = 0 ↔ result = .error .bufferTooSmall) ∧
    (signedSize bits result < 0 ↔ ∃ rule, result = .error (.violation rule)) := by
  cases hr : result with
  | ok n =>
    obtain ⟨hn, -⟩ := h n hr
    rw [← hr, signedSize_of_ok hbits h hr, hr]
    exact ⟨iff_of_true (by omega) ⟨n, rfl⟩, iff_of_false (by omega) (by simp),
      iff_of_false (by omega) (by simp)⟩
  | error e =>
    cases e with
    | bufferTooSmall =>
      rw [signedSize]
      exact ⟨iff_of_false (by omega) (by simp), iff_of_true rfl rfl,
        iff_of_false (by omega) (by simp)⟩
    | violation rule =>
      have hcode := rule.code_pos
      rw [signedSize]
      exact ⟨iff_of_false (by omega) (by simp), iff_of_false (by omega) (by simp),
        iff_of_true (by omega) ⟨rule, rfl⟩⟩

/-- **Nothing is lost:** the result can be read off the number. -/
theorem ofSigned?_signedSize : ofSigned? (signedSize bits result) = some result := by
  cases hr : result with
  | ok n =>
    obtain ⟨hn, -⟩ := h n hr
    rw [← hr, signedSize_of_ok hbits h hr, ofSigned?, if_pos (by omega), hr, Int.toNat_natCast]
  | error e =>
    cases e with
    | bufferTooSmall => rfl
    | violation rule => exact ofSigned?_neg_code rule

/-- A broken rule has its number alone. -/
theorem signedSize_eq_neg_code_iff (rule : Violation) :
    signedSize bits result = -(rule.code : Int) ↔ result = .error (.violation rule) := by
  constructor
  · intro hs
    have hread := ofSigned?_signedSize hbits h
    rw [hs, ofSigned?_neg_code] at hread
    exact (Option.some.inj hread).symm
  · rintro rfl
    rfl

end InRange

/-! ### Sizes of no packet -/

/-- A size in the upper half of a word's range is read as a negative number. -/
theorem signedSize_ok_of_le {size : Nat} (h : 1 <<< bits ≤ 2 * size) (hlt : size < 1 <<< bits) :
    signedSize bits (.ok size) = size - (1 <<< bits : Nat) := by
  have hm : (size : Int) % (1 <<< bits : Nat) = size := Int.emod_eq_of_lt (by omega) (by omega)
  rw [signedSize, Int.bmod_def, hm, if_neg (by omega)]

theorem Violation.code_le (rule : Violation) : rule.code ≤ 13 := by
  cases rule <;> decide

/-- For every rule there is a size that is read as this rule being broken. -/
theorem signedSize_ok_eq_violation (hbits : 32 ≤ bits) (rule : Violation) :
    signedSize bits (.ok (1 <<< bits - rule.code)) =
      signedSize bits (.error (.violation rule)) := by
  have hpow := le_two_pow hbits
  have hpos := rule.code_pos
  have hle := rule.code_le
  rw [signedSize_ok_of_le (by omega) (by omega), signedSize]
  omega

/-- **A signed number loses nothing** of what encoders return, in words of 32 bits or more.  It is
positive for a size, and then it is that size, zero for a short buffer, and negative for a broken
rule, and then no other rule has it; so it tells apart any two results, of whatever requests and
buffers.  It does not tell apart all sizes from failures: zero is one with a short buffer, the upper
half of a word's range is negative, and some size there is one with each broken rule. -/
theorem Request.signedSize_encode (hbits : 32 ≤ bits) :
    (∀ (request : Request) (buffer : Bytes),
      let result := (request.encode buffer).result
      let s := signedSize bits result
      (0 < s ↔ ∃ n, result = .ok n) ∧
      (∀ n, result = .ok n → s = n ∧ 2 ≤ n ∧ n ≤ 268435460) ∧
      (s = 0 ↔ result = .error .bufferTooSmall) ∧
      (s < 0 ↔ ∃ rule, result = .error (.violation rule)) ∧
      (∀ rule : Violation, s = -(rule.code : Int) ↔ result = .error (.violation rule)) ∧
      ofSigned? s = some result) ∧
    (∀ (request request' : Request) (buffer buffer' : Bytes),
      signedSize bits (request.encode buffer).result =
        signedSize bits (request'.encode buffer').result →
      (request.encode buffer).result = (request'.encode buffer').result) ∧
    signedSize bits (.ok 0) = signedSize bits (.error .bufferTooSmall) ∧
    (∀ n, 2 ^ (bits - 1) ≤ n → n < 2 ^ bits → signedSize bits (.ok n) < 0) ∧
    ∀ rule, ∃ n, 2 ^ (bits - 1) ≤ n ∧ n < 2 ^ bits ∧
      signedSize bits (.ok n) = signedSize bits (.error (.violation rule)) := by
  have hread (request : Request) (buffer : Bytes) :=
    ofSigned?_signedSize hbits (request.encode_inRange buffer)
  have hrange : 2 ^ bits = 1 <<< bits := (Nat.one_shiftLeft bits).symm
  have hhalf : 1 <<< bits = 2 * 2 ^ (bits - 1) := by
    rw [← hrange, ← Nat.pow_succ', Nat.succ_eq_add_one, Nat.sub_add_cancel (by omega)]
  have hbound := le_two_pow hbits
  rw [hrange]
  refine ⟨fun request buffer => ?_, fun request request' buffer buffer' h => ?_, ?_,
    fun n hle hlt => ?_, fun rule => ?_⟩
  · have hr := request.encode_inRange buffer
    obtain ⟨hpos, hzero, hneg⟩ := sign_signedSize hbits hr
    exact ⟨hpos, fun n hn => ⟨signedSize_of_ok hbits hr hn, hr n hn⟩, hzero, hneg,
      signedSize_eq_neg_code_iff hbits hr, hread request buffer⟩
  · have hsame := congrArg ofSigned? h
    rw [hread, hread] at hsame
    exact Option.some.inj hsame
  · exact signedSize_ok (by omega)
  · rw [signedSize_ok_of_le (by omega) hlt]
    omega
  · have hpos := rule.code_pos
    have hle := rule.code_le
    exact ⟨1 <<< bits - rule.code, by omega, by omega, signedSize_ok_eq_violation hbits rule⟩

/-- Both sizes of word: a packet with room and without, a broken rule, and sizes of no packet. -/
theorem Request.signedSize_encode_instance :
    signedSize 32 (pingReq.encode [9, 9, 9]).result = 2 ∧
      signedSize 64 (pingReq.encode [9]).result = 0 ∧
      signedSize 64 ((publish (.ofMessage "" [1])).encode [9, 9]).result = -6 ∧
      signedSize 32 (.ok 0) = signedSize 32 (.error .bufferTooSmall) ∧
      signedSize 64 (.ok (2 ^ 63)) < 0 := by
  obtain ⟨hshort, -, hzero, -⟩ := @signedSize_encode 32 (by decide)
  obtain ⟨hlong, -, -, hupper, -⟩ := @signedSize_encode 64 (by decide)
  obtain ⟨-, hsize, -⟩ := hshort pingReq [9, 9, 9]
  obtain ⟨-, -, hsmall, -⟩ := hlong pingReq [9]
  obtain ⟨-, -, -, -, hrule, -⟩ := hlong (publish (.ofMessage "" [1])) [9, 9]
  exact ⟨(hsize 2 rfl).1, hsmall.2 rfl, (hrule .emptyTopic).2 rfl, hzero,
    hupper (2 ^ 63) (by decide) (by decide)⟩

end MqttWire
