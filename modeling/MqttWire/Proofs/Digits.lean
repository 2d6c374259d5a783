import Mathlib.Data.Option.Basic
import MqttWire.Proofs.FixedHeader

/-!
# Reading the remaining length

A number in its own digits is read back, whatever follows (`readDigits_digits`).  The strict reader
takes nothing else (`read_eq_some_iff`): a number that is read in as many digits as it needs stands
there in its own digits.
-/

namespace MqttWire.RemainingLength

/-! ### One digit -/

/-- The last digit ends the number. -/
theorem readDigits_of_lt {digit : UInt8} (h : digit.toNat < 128) (k : Nat) (input : Bytes) :
    readDigits (k + 1) (digit :: input) = some (digit.toNat, input) := by
  show (if digit < 128 then pure digit.toNat else _ : ReadM Nat) input = _
  rw [if_pos (UInt8.lt_iff_toNat_lt.2 h)]
  rfl

/-- Behind a digit with the high bit set stand the digits of the rest of the number. -/
theorem readDigits_of_le {digit : UInt8} (h : 128 ≤ digit.toNat) (k : Nat) (input : Bytes) :
    readDigits (k + 1) (digit :: input) =
      (readDigits k input).map fun r => (digit.toNat - 128 + 128 * r.1, r.2) := by
  show (if digit < 128 then pure digit.toNat else
    readDigits k >>= fun m => pure (digit.toNat - 128 + 128 * m) : ReadM Nat) input = _
  have hd : ¬ digit < 128 := fun hd => by
    have : digit.toNat < 128 := UInt8.lt_iff_toNat_lt.1 hd
    omega
  rw [if_neg hd, ReadM.bind_apply]
  cases readDigits k input <;> rfl

/-! ### All digits -/

/-- **A number in its own digits is read back,** and what follows is left. -/
theorem readDigits_digits : ∀ {count k n : Nat} (rest : Bytes), Needs n count → count ≤ k →
    readDigits k (digits count n ++ rest) = some (n, rest)
  | 0, k, n, rest, h, hk => absurd h.pos (by omega)
  | count + 1, 0, n, rest, h, hk => by omega
  | 1, k + 1, n, rest, h, hk => by
    have hlt : n < 128 := h.lt
    have hd : (UInt8.ofNat (n % 128)).toNat = n := by rw [UInt8.toNat_ofNat']; omega
    rw [digits, if_pos (by omega), List.cons_append, readDigits_of_lt (by omega), hd]
    rfl
  | count + 2, k + 1, n, rest, h, hk => by
    -- another digit follows, and the quotient needs one digit less
    obtain ⟨hquotient, hpos⟩ := h.quotient
    have hd : (UInt8.ofNat (n % 128 + 128)).toNat = n % 128 + 128 := by
      rw [UInt8.toNat_ofNat']; omega
    have hrest := readDigits_digits rest hquotient (Nat.le_of_succ_le_succ hk)
    rw [digits, if_neg (by omega), List.cons_append, readDigits_of_le (by omega), hd, hrest]
    simp only [Option.map_some, Option.some.injEq, Prod.mk.injEq, and_true]
    omega

/-- What is read is a number of some digits, and these are its own unless fewer would do. -/
theorem exists_of_readDigits : ∀ {k n : Nat} {input rest : Bytes},
    readDigits k input = some (n, rest) → ∃ count, 1 ≤ count ∧ count ≤ k ∧ n < capacity count ∧
      input.length - rest.length = count ∧ (Needs n count → input = digits count n ++ rest)
  | 0, n, input, rest, h => by cases h
  | k + 1, n, [], rest, h => by cases h
  | k + 1, n, digit :: input, rest, h => by
    have hbyte := digit.toNat_lt
    rcases Nat.lt_or_ge digit.toNat 128 with hd | hd
    · rw [readDigits_of_lt hd] at h
      cases h
      refine ⟨1, Nat.le_refl 1, by omega, hd, by simp, fun _ => ?_⟩
      rw [digits, if_pos (by omega), Nat.mod_eq_of_lt hd, UInt8.ofNat_toNat]
      rfl
    · rw [readDigits_of_le hd] at h
      obtain ⟨⟨m, rest'⟩, hm, he⟩ := Option.map_eq_some_iff.1 h
      cases he
      obtain ⟨count, h1, hk, hlt, hlen, hown⟩ := exists_of_readDigits hm
      refine ⟨count + 1, by omega, by omega, ?_, ?_, fun hneeds => ?_⟩
      · show digit.toNat - 128 + 128 * m < 128 * capacity count
        omega
      · rw [List.length_cons]
        dsimp only
        omega
      · obtain ⟨c, rfl⟩ : ∃ c, count = c + 1 := ⟨count - 1, by omega⟩
        have hdiv : (digit.toNat - 128 + 128 * m) / 128 = m := by omega
        have hmod : (digit.toNat - 128 + 128 * m) % 128 + 128 = digit.toNat := by omega
        obtain ⟨hquotient, hpos⟩ := hneeds.quotient
        rw [hdiv] at hquotient hpos
        rw [digits, hdiv, if_neg (by omega), hmod, UInt8.ofNat_toNat, List.cons_append,
          ← hown hquotient]

/-- **The strict reader takes a number in its own digits** and nothing else. -/
theorem read_eq_some_iff {n : Nat} {input rest : Bytes} : read input = some (n, rest) ↔
    ∃ count, width n = .ok count ∧ input = digits count n ++ rest := by
  have hread : read input = some (n, rest) ↔ readDigits 4 input = some (n, rest) ∧
      (input.length - rest.length = 1 ∨ capacity (input.length - rest.length - 1) ≤ n) := by
    simp only [read, ReadM.bind_apply_eq_some_iff, ReadM.get_apply, ReadM.guard_apply_eq_some_iff,
      ReadM.pure_apply, Option.some.injEq, Prod.mk.injEq]
    constructor
    · rintro ⟨_, _, ⟨rfl, rfl⟩, _, _, h, _, _, ⟨rfl, rfl⟩, _, _, ⟨hge, rfl⟩, rfl, rfl⟩
      exact ⟨h, hge⟩
    · rintro ⟨h, hge⟩
      exact ⟨_, _, ⟨rfl, rfl⟩, _, _, h, _, _, ⟨rfl, rfl⟩, (), _, ⟨hge, rfl⟩, rfl, rfl⟩
  rw [hread]
  constructor
  · rintro ⟨h, hge⟩
    obtain ⟨count, h1, h4, hlt, rfl, hown⟩ := exists_of_readDigits h
    exact ⟨_, width_eq_ok_iff.2 ⟨h4, h1, hlt, hge⟩, hown ⟨h1, hlt, hge⟩⟩
  · rintro ⟨count, hw, rfl⟩
    obtain ⟨h4, hneeds⟩ := width_eq_ok_iff.1 hw
    refine ⟨readDigits_digits rest hneeds h4, ?_⟩
    simpa using hneeds.least

end MqttWire.RemainingLength
