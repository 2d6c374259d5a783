import MqttWire.Proofs.ConnectFlags
import MqttWire.Proofs.Digits

/-!
# The canonical form of a remaining length

A row of bytes is canonical if just the last has a clear high bit, and no digit at its end is
wasted.  The numbers up to the limit and the canonical rows of one to four bytes belong together one
to one: a number is written in canonical form (`canonical_digits`), a canonical row is read
(`Canonical.exists_readDigits`), and each undoes the other (`RemainingLength.writeInto_put`).
-/

namespace MqttWire.RemainingLength

/-- **The form of a remaining length:** the high bit says that another byte follows, and the last
byte is zero only where it stands alone. -/
def Canonical (bytes : Bytes) : Prop :=
  ∃ front last, bytes = front ++ [last] ∧ (∀ byte ∈ front, byte &&& 0x80 ≠ 0) ∧
    last &&& 0x80 = 0 ∧ (front ≠ [] → last ≠ 0)

theorem highBit_eq_zero_iff (byte : UInt8) : byte &&& 0x80 = 0 ↔ byte.toNat < 128 := by
  revert byte
  decide +kernel

theorem append_singleton_eq_zero_iff {front : Bytes} {last : UInt8} :
    front ++ [last] = [0] ↔ front = [] ∧ last = 0 := by
  simp [List.append_eq_singleton_iff]

/-- A first byte is the last one, or is followed by a row that does not waste a digit. -/
theorem canonical_cons_iff {digit : UInt8} {bytes : Bytes} : Canonical (digit :: bytes) ↔
    (bytes = [] ∧ digit.toNat < 128) ∨ (Canonical bytes ∧ bytes ≠ [0] ∧ 128 ≤ digit.toNat) := by
  rw [← highBit_eq_zero_iff, ← Nat.not_lt, ← highBit_eq_zero_iff]
  constructor
  · rintro ⟨_ | ⟨_, front⟩, last, he, hfront, hlast, hne⟩
    · cases he
      exact .inl ⟨rfl, hlast⟩
    · cases he
      rw [List.forall_mem_cons] at hfront
      have hlast0 : last ≠ 0 := hne (List.cons_ne_nil _ _)
      exact .inr ⟨⟨front, last, rfl, hfront.2, hlast, fun _ => hlast0⟩,
        fun he => hlast0 (append_singleton_eq_zero_iff.1 he).2, hfront.1⟩
  · rintro (⟨rfl, hdigit⟩ | ⟨⟨front, last, rfl, hfront, hlast, hne⟩, hwaste, hdigit⟩)
    · exact ⟨[], digit, rfl, List.forall_mem_nil _, hdigit, fun h => absurd rfl h⟩
    · have hlast0 : last ≠ 0 := fun h0 => by
        by_cases hnil : front = []
        · exact hwaste (append_singleton_eq_zero_iff.2 ⟨hnil, h0⟩)
        · exact hne hnil h0
      exact ⟨digit :: front, last, rfl, List.forall_mem_cons.2 ⟨hdigit, hfront⟩, hlast,
        fun _ => hlast0⟩

/-! ### What is written -/

/-- **A number's own digits are canonical.** -/
theorem canonical_digits : ∀ {count n : Nat}, Needs n count → Canonical (digits count n)
  | 0, n, h => absurd h.pos (by omega)
  | 1, n, h => by
    have hlt : n < 128 := h.lt
    have hdigit : (UInt8.ofNat (n % 128)).toNat < 128 := by rw [UInt8.toNat_ofNat']; omega
    rw [digits, if_pos (by omega)]
    exact canonical_cons_iff.2 (.inl ⟨rfl, hdigit⟩)
  | count + 2, n, h => by
    obtain ⟨hquotient, hpos⟩ := h.quotient
    have hdigit : 128 ≤ (UInt8.ofNat (n % 128 + 128)).toNat := by rw [UInt8.toNat_ofNat']; omega
    rw [digits, if_neg (by omega)]
    refine canonical_cons_iff.2 (.inr ⟨canonical_digits hquotient, fun hzero => ?_, hdigit⟩)
    -- a zero alone would be read as zero
    have hread := readDigits_digits [] hquotient (Nat.le_refl _)
    rw [hzero, List.append_nil, readDigits_of_lt (by decide)] at hread
    have hquotient0 : 0 = n / 128 := congrArg Prod.fst (Option.some.inj hread)
    omega

/-! ### What is read -/

theorem Canonical.ne_nil {bytes : Bytes} (h : Canonical bytes) : bytes ≠ [] := by
  obtain ⟨front, last, rfl, -⟩ := h
  exact List.append_ne_nil_of_right_ne_nil front (List.cons_ne_nil last [])

/-- **A canonical row is read as a number,** to its end, and fewer digits would not hold it. -/
theorem Canonical.exists_readDigits : ∀ {bytes : Bytes} {k : Nat}, Canonical bytes →
    bytes.length ≤ k → ∃ n, readDigits k bytes = some (n, []) ∧
      (bytes = [0] ∨ capacity (bytes.length - 1) ≤ n)
  | [], k, h, hk => absurd rfl h.ne_nil
  | digit :: bytes, 0, h, hk => by simp at hk
  | digit :: bytes, k + 1, h, hk => by
    rcases canonical_cons_iff.1 h with ⟨rfl, hdigit⟩ | ⟨hbytes, hwaste, hdigit⟩
    · refine ⟨digit.toNat, readDigits_of_lt hdigit k [], ?_⟩
      by_cases hzero : digit = 0
      · exact .inl (by rw [hzero])
      · have hne : digit.toNat ≠ 0 := fun h0 => hzero (UInt8.toNat_inj.1 h0)
        exact .inr (Nat.pos_of_ne_zero hne)
    · obtain ⟨m, hread, hge⟩ := hbytes.exists_readDigits (Nat.le_of_succ_le_succ hk)
      refine ⟨digit.toNat - 128 + 128 * m, ?_, .inr ?_⟩
      · rw [readDigits_of_le hdigit, hread]
        rfl
      · have hm : capacity (bytes.length - 1) ≤ m := hge.resolve_left hwaste
        obtain ⟨l, hl⟩ : ∃ l, bytes.length = l + 1 :=
          Nat.exists_eq_succ_of_ne_zero (mt List.length_eq_zero_iff.1 hbytes.ne_nil)
        rw [hl, Nat.add_sub_cancel] at hm
        rw [List.length_cons, Nat.add_sub_cancel, hl]
        show 128 * capacity l ≤ digit.toNat - 128 + 128 * m
        omega

/-- A canonical row of up to four bytes is what the number that is read from it is written as. -/
theorem Canonical.exists_digits {bytes : Bytes} (h : Canonical bytes) (h4 : bytes.length ≤ 4) :
    ∃ n, readDigits 4 bytes = some (n, []) ∧ width n = .ok bytes.length ∧
      bytes = digits bytes.length n := by
  obtain ⟨n, hread, hge⟩ := h.exists_readDigits h4
  obtain ⟨count, h1, -, hlt, rfl, hown⟩ := exists_of_readDigits hread
  have hge' : bytes.length = 1 ∨ capacity (bytes.length - 1) ≤ n :=
    hge.imp_left fun hzero => by rw [hzero]; rfl
  have hneeds : Needs n bytes.length := ⟨h1, hlt, hge'⟩
  refine ⟨n, hread, width_eq_ok_iff.2 ⟨h4, hneeds⟩, ?_⟩
  have hbytes := hown hneeds
  rwa [List.append_nil] at hbytes

/-! ### Into a buffer -/

/-- **A number is written as these bytes** wherever they fit, and what stands behind them stays. -/
def WrittenAs (n : Nat) (bytes : Bytes) : Prop :=
  ∀ buffer : Bytes, bytes.length ≤ buffer.length →
    writeInto buffer (put n) = ⟨.ok bytes.length, bytes ++ buffer.drop bytes.length⟩

section Buffer

variable {n count : Nat} {buffer : Bytes}

theorem writtenAs_digits (h : width n = .ok count) : WrittenAs n (digits count n) := by
  intro buffer hr
  rw [length_digits] at hr ⊢
  have hput := put_of_le (w := Writer.start buffer) h hr
  rw [writeInto, hput]
  simp [Writer.append, Writer.start]

theorem writeInto_put_of_lt (h : width n = .ok count) (hr : buffer.length < count) :
    writeInto buffer (put n) = ⟨.error .bufferTooSmall, buffer⟩ := by
  have hroom : (Writer.start buffer).room < (digits count n).length := by
    rw [length_digits]
    exact hr
  rw [writeInto, put, h, lift_ok, pure_bind, bind_of_error (putBytes_of_lt hroom)]
  rfl

theorem writeInto_put_of_limit_lt (h : limit < n) :
    writeInto buffer (put n) = ⟨.error (.violation .remainingLengthTooLarge), buffer⟩ := by
  rw [writeInto, put, width_eq_error_iff.2 ⟨h, rfl⟩, lift_error]
  rfl

end Buffer

/-- **Numbers and canonical rows belong together.**  A number up to the limit is written as a
canonical row of just its width, is read from it, and from no fewer bytes; every canonical row of
one to four bytes is so written; and a number above the limit is never written.  A failure leaves
the buffer as it was. -/
theorem writeInto_put :
    (∀ n ≤ limit, ∃ bytes, width n = .ok bytes.length ∧ Canonical bytes ∧ WrittenAs n bytes ∧
      (∀ buffer : Bytes, buffer.length < bytes.length →
        writeInto buffer (put n) = ⟨.error .bufferTooSmall, buffer⟩) ∧
      (∀ rest, readDigits 4 (bytes ++ rest) = some (n, rest)) ∧
      ∀ other rest, readDigits 4 other = some (n, rest) → bytes.length ≤ other.length) ∧
    (∀ bytes, Canonical bytes → bytes.length ≤ 4 →
      ∃ n ≤ limit, readDigits 4 bytes = some (n, []) ∧ WrittenAs n bytes) ∧
    ∀ n buffer, limit < n →
      writeInto buffer (put n) = ⟨.error (.violation .remainingLengthTooLarge), buffer⟩ := by
  refine ⟨fun n hn => ?_, fun bytes hbytes h4 => ?_,
    fun n buffer hn => writeInto_put_of_limit_lt hn⟩
  · obtain ⟨count, hw⟩ := exists_width hn
    obtain ⟨h4, hneeds⟩ := width_eq_ok_iff.1 hw
    have hlength : (digits count n).length = count := length_digits count n
    refine ⟨digits count n, by rw [hlength, hw], canonical_digits hneeds, writtenAs_digits hw,
      fun buffer hr => ?_, fun rest => readDigits_digits rest hneeds h4, fun other rest h => ?_⟩
    · rw [hlength] at hr
      exact writeInto_put_of_lt hw hr
    · obtain ⟨k, hk1, -, hlt', hlen, -⟩ := exists_of_readDigits h
      have hle : count ≤ k := width_le hw hk1 hlt'
      omega
  · obtain ⟨n, hread, hw, hown⟩ := hbytes.exists_digits h4
    refine ⟨n, le_limit_of_width_eq_ok hw, hread, ?_⟩
    rw [hown]
    exact writtenAs_digits hw

/-- 321 takes two bytes, and is written to three but not to one; and two bytes are read as 321. -/
theorem writeInto_put_instance :
    writeInto [9, 9, 9] (put 321) = ⟨.ok 2, [0xC1, 0x02, 9]⟩ ∧
      writeInto [9] (put 321) = ⟨.error .bufferTooSmall, [9]⟩ ∧
      writeInto [9, 9] (put 268435456) =
        ⟨.error (.violation .remainingLengthTooLarge), [9, 9]⟩ := by
  obtain ⟨hwritten, hcanonical, htooLarge⟩ := writeInto_put
  have hform : Canonical [0xC1, 0x02] := ⟨[0xC1], 0x02, rfl, by decide, by decide, by decide⟩
  obtain ⟨n, -, hread, hput⟩ := hcanonical _ hform (by decide)
  cases hread
  obtain ⟨bytes, hwidth, -, -, hshort, -⟩ := hwritten 321 (by decide)
  have hlength : bytes.length = 2 := (Except.ok.inj hwidth).symm
  exact ⟨hput [9, 9, 9] (by decide), hshort [9] (by rw [hlength]; decide),
    htooLarge 268435456 [9, 9] (by decide)⟩

end MqttWire.RemainingLength
