import MqttWire.Reader
import MqttWire.Writer

/-!
# The remaining length

Every packet says how many bytes follow its fixed header.  The number is written to base 128, least
digit first, one digit to a byte; the high bit of a byte says that another digit follows.  Four
digits are the most, which bounds the number by 268,435,455.

`width` is the number of digits a number needs, `digits` the digits themselves, and `put` writes
them.  `readDigits` reads a number in whatever digits it is given, and `read` only in as many as it
needs, which makes the written form of a number unique.
-/

namespace MqttWire.RemainingLength

/-- The largest number that four digits hold. -/
def limit : Nat := 268435455

/-- **How many digits** a number needs. -/
def width (n : Nat) : Except EncodeError Nat :=
  if n ≤ 127 then .ok 1
  else if n ≤ 16383 then .ok 2
  else if n ≤ 2097151 then .ok 3
  else if n ≤ limit then .ok 4
  else .error (.violation .remainingLengthTooLarge)

/-- **The first `count` digits** of a number, the least first; the high bit is set while something
is left. -/
def digits : Nat → Nat → Bytes
  | 0, _ => []
  | count + 1, n =>
    UInt8.ofNat (if n / 128 = 0 then n % 128 else n % 128 + 128) :: digits count (n / 128)

/-! ### Writing -/

/-- Writes a number in as many digits as it needs, and gives their count. -/
def put (n : Nat) : WriteM Nat := do
  let count ← width n
  putBytes (digits count n)
  return count

/-! ### Reading -/

/-- Reads a number of at most `count` digits. -/
def readDigits : Nat → ReadM Nat
  | 0 => failure
  | count + 1 => do
    let digit ← readByte
    if digit < 128 then
      return digit.toNat
    return digit.toNat - 128 + 128 * (← readDigits count)

/-- How many numbers `count` digits hold. -/
def capacity : Nat → Nat
  | 0 => 1
  | count + 1 => 128 * capacity count

/-- **Reads a number** that fewer digits would not hold. -/
def read : ReadM Nat := do
  let before ← get
  let n ← readDigits 4
  let after ← get
  let count := before.length - after.length
  guard (count = 1 ∨ capacity (count - 1) ≤ n)
  return n

/-! ### Widths -/

@[simp] theorem length_digits (count n : Nat) : (digits count n).length = count := by
  induction count generalizing n with
  | zero => rfl
  | succ count ih => simp [digits, ih]

/-- A number is refused exactly if it is above the limit. -/
theorem width_eq_error_iff {n : Nat} {e : EncodeError} :
    width n = .error e ↔ limit < n ∧ e = .violation .remainingLengthTooLarge := by
  unfold width limit
  split
  · exact ⟨nofun, fun h => by omega⟩
  split
  · exact ⟨nofun, fun h => by omega⟩
  split
  · exact ⟨nofun, fun h => by omega⟩
  split
  · exact ⟨nofun, fun h => by omega⟩
  · exact ⟨fun h => ⟨by omega, by cases h; rfl⟩, fun h => by rw [h.2]⟩

end MqttWire.RemainingLength
