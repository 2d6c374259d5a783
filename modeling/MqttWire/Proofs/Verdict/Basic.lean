import Mathlib.Algebra.GroupWithZero.Nat
import MqttWire.Proofs.Packet

/-!
# Verdicts

A packet is looked at check by check, and the first rule that is broken is the one reported.  A row
of checks says which rules these are and in what order, apart from where they are looked at;
`verdict` is what the row comes to.  Rows are put together as checks are done one after the other
(`verdict_append`, `verdict_bind`), and a row of fields or a sum over entries is a row of checks
(`Field.totalSize_eq_verdict`, `foldlM_eq_verdict`).

`Judged` is the verdict on a packet's length: the first broken rule, or the length of the fixed
header and of the body behind it.
-/

namespace MqttWire

/-! ### Checks -/

/-- **A check:** is this rule broken? -/
structure Check where
  broken : Bool
  rule : Violation

/-- A text must not be longer than its length in two bytes can say. -/
def Check.text (value : String) : Check := ⟨65535 < value.utf8ByteSize, .stringTooLong⟩

/-- Nor must a binary value. -/
def Check.binary (value : Bytes) : Check := ⟨65535 < value.length, .binaryTooLong⟩

/-- **The first rule of a row of checks that is broken,** if one is. -/
def firstBroken? (checks : List Check) : Option Violation :=
  (checks.find? Check.broken).map Check.rule

theorem firstBroken?_cons (check : Check) (checks : List Check) :
    firstBroken? (check :: checks) =
      if check.broken then some check.rule else firstBroken? checks := by
  unfold firstBroken?
  cases h : check.broken <;> simp [h]

theorem firstBroken?_eq_none_iff {checks : List Check} :
    firstBroken? checks = none ↔ ∀ check ∈ checks, check.broken = false := by
  simp [firstBroken?]

theorem exists_of_firstBroken? {checks : List Check} {rule : Violation}
    (h : firstBroken? checks = some rule) : ∃ check ∈ checks, check.rule = rule := by
  obtain ⟨check, hfind, rfl⟩ := Option.map_eq_some_iff.1 h
  exact ⟨check, List.mem_of_find?_eq_some hfind, rfl⟩

/-- **What a row of checks comes to:** the first broken rule, and the result where none is. -/
def verdict {α : Type} (checks : List Check) (result : Except EncodeError α) :
    Except EncodeError α :=
  match firstBroken? checks with
  | some rule => .error (.violation rule)
  | none => result

section Verdict

variable {α β : Type} {result : Except EncodeError α}

theorem verdict_nil : verdict [] result = result := rfl

theorem verdict_cons (check : Check) (checks : List Check) :
    verdict (check :: checks) result =
      if check.broken then .error (.violation check.rule) else verdict checks result := by
  unfold verdict
  rw [firstBroken?_cons]
  cases check.broken <;> rfl

/-- The checks of a row are done one part after the other. -/
theorem verdict_append (checks checks' : List Check) :
    verdict (checks ++ checks') result = verdict checks (verdict checks' result) := by
  induction checks with
  | nil => rfl
  | cons check checks ih => rw [List.cons_append, verdict_cons, verdict_cons, ih]

/-- What follows checks is done where none of them fails. -/
theorem verdict_bind (checks : List Check) (next : α → Except EncodeError β) :
    verdict checks result >>= next = verdict checks (result >>= next) := by
  unfold verdict
  cases firstBroken? checks <;> rfl

theorem verdict_map (checks : List Check) (f : α → β) :
    (verdict checks result).map f = verdict checks (result.map f) := by
  unfold verdict
  cases firstBroken? checks <;> rfl

/-- The result counts only where no rule is broken. -/
theorem verdict_congr {checks : List Check} {result' : Except EncodeError α}
    (h : firstBroken? checks = none → result = result') :
    verdict checks result = verdict checks result' := by
  unfold verdict
  cases hc : firstBroken? checks with
  | some rule => rfl
  | none => exact h hc

/-- A check in front of what follows. -/
theorem throw_eq_verdict {p : Prop} [Decidable p] {rule : Violation}
    {next : Unit → Except EncodeError α} :
    (if p then throw (.violation rule) >>= next else next ()) = verdict [⟨p, rule⟩] (next ()) := by
  rw [verdict_cons, verdict_nil]
  by_cases h : p
  · simp only [h, if_true, decide_true]
    rfl
  · simp only [h, if_false, decide_false, Bool.false_eq_true]

/-- A check with nothing behind it. -/
theorem last_throw_eq_verdict {p : Prop} [Decidable p] {rule : Violation} :
    (if p then throw (.violation rule) else pure () : Except EncodeError Unit) =
      verdict [⟨p, rule⟩] (.ok ()) := by
  rw [verdict_cons, verdict_nil]
  by_cases h : p
  · simp only [h, if_true, decide_true]
    rfl
  · simp only [h, if_false, decide_false, Bool.false_eq_true]
    rfl

end Verdict

/-! ### Fields and entries -/

/-- There are texts of any size. -/
theorem utf8ByteSize_replicate (n : Nat) :
    (String.ofList (List.replicate n 'a')).utf8ByteSize = n := by
  induction n with
  | zero => rfl
  | succ n ih =>
    rw [List.replicate_succ, String.ofList_cons, String.utf8ByteSize_append, ih,
      String.utf8ByteSize_singleton]
    exact Nat.add_comm 1 n

theorem ne_empty_of_lt {text : String} {n : Nat} (h : n < text.utf8ByteSize) : text ≠ "" := by
  rintro rfl
  exact absurd h (Nat.not_lt_zero n)

namespace Field

/-- What is checked of a field. -/
def checks : Field → List Check
  | text value => [.text value]
  | binary value => [.binary value]
  | byte _ | word _ | raw _ => []

theorem textSize_eq_verdict (value : String) :
    textSize value = verdict [.text value] (.ok (2 + value.utf8ByteSize)) := by
  rw [verdict_cons, verdict_nil, textSize, maxLength, Check.text]
  by_cases h : 65535 < value.utf8ByteSize
  · simp [h]
  · simp [h]

theorem size_eq_verdict (field : Field) :
    field.size = verdict field.checks (.ok field.bytes.length) := by
  cases field with
  | byte value => rfl
  | word value => rfl
  | raw value => rfl
  | text value => rw [size, textSize_eq_verdict, bytes, length_counted, length_utf8, checks]
  | binary value =>
    rw [size, binarySize, maxLength, bytes, length_counted, checks, verdict_cons, verdict_nil,
      Check.binary]
    by_cases h : 65535 < value.length
    · simp [h]
    · simp [h]

/-- A row of fields is checked field by field. -/
theorem totalSize_eq_verdict (fields : List Field) :
    totalSize fields = verdict (fields.flatMap checks) (.ok (fields.flatMap bytes).length) := by
  induction fields with
  | nil => rfl
  | cons field fields ih =>
    have hrest (n : Nat) : (do return n + (← totalSize fields) : Except EncodeError Nat) =
        verdict (fields.flatMap checks) (.ok (n + (fields.flatMap bytes).length)) := by
      rw [ih, verdict_bind]
      rfl
    rw [totalSize_cons, size_eq_verdict, verdict_bind, ok_bind, hrest, ← verdict_append,
      List.flatMap_cons, List.flatMap_cons, List.length_append]

end Field

/-- Entries that are counted one by one are checked one by one. -/
theorem foldlM_eq_verdict {α : Type} {step : Nat → α → Except EncodeError Nat}
    {checks : α → List Check} {count : α → Nat}
    (hstep : ∀ size a, step size a = verdict (checks a) (.ok (size + count a))) (entries : List α)
    (size : Nat) : entries.foldlM step size =
      verdict (entries.flatMap checks) (.ok (size + (entries.map count).sum)) := by
  induction entries generalizing size with
  | nil => rfl
  | cons a entries ih =>
    rw [List.foldlM_cons, hstep, verdict_bind, ok_bind, ih, ← verdict_append, List.flatMap_cons,
      List.map_cons, List.sum_cons, Nat.add_assoc]

/-! ### The length of a packet -/

/-- A packet is checked in its content and then in its remaining length. -/
theorem Packet.bind_eq_verdict {α β : Type} {packet : Packet} {checks checks' : List Check}
    {header : FixedHeader} {body : Except EncodeError α} {size : α}
    {next : α → Except EncodeError β}
    (hv : packet.validity = verdict checks (.ok ())) (hh : packet.header = .ok header)
    (hn : firstBroken? checks = none → body = verdict checks' (.ok size)) :
    (do packet.validity; let _ ← packet.header; next (← body)) =
      verdict (checks ++ checks') (next size) := by
  rw [hv, hh, verdict_bind, verdict_append]
  refine verdict_congr fun hchecks => ?_
  rw [ok_bind, ok_bind, hn hchecks, verdict_bind, ok_bind]

theorem Packet.encodedLength_eq_verdict {packet : Packet} {checks checks' : List Check}
    {header : FixedHeader} {remaining : Nat} (hv : packet.validity = verdict checks (.ok ()))
    (hh : packet.header = .ok header) (hn : firstBroken? checks = none →
      packet.remainingLength = verdict checks' (.ok remaining)) :
    packet.encodedLength = verdict (checks ++ checks') (FixedHeader.packetLength remaining) :=
  bind_eq_verdict hv hh hn

/-- **The verdict on a packet's length:** it is refused for the first rule that is broken, and
otherwise the fixed header and `remaining` bytes behind it are counted. -/
structure Judged (checks : List Check) (remaining : Nat) (length : Except EncodeError Nat) :
    Prop where
  of_broken : ∀ rule, firstBroken? checks = some rule → length = .error (.violation rule)
  of_sound : firstBroken? checks = none → ∃ width, RemainingLength.width remaining = .ok width ∧
    length = .ok (1 + width + remaining)

namespace Judged

variable {checks : List Check} {remaining : Nat} {length : Except EncodeError Nat}

theorem of_verdict (h : length = verdict checks (FixedHeader.packetLength remaining))
    (hle : firstBroken? checks = none → remaining ≤ RemainingLength.limit) :
    Judged checks remaining length where
  of_broken rule hrule := by rw [h, verdict, hrule]
  of_sound hnone := by
    obtain ⟨width, hw⟩ := RemainingLength.exists_width (hle hnone)
    refine ⟨width, hw, ?_⟩
    rw [h, verdict, hnone]
    exact FixedHeader.packetLength_eq_ok_iff.2 ⟨width, hw, rfl⟩

variable (h : Judged checks remaining length)
include h

/-- Where no rule is broken and the width is known, so is the length. -/
theorem eq_ok {width : Nat} (hsound : firstBroken? checks = none)
    (hw : RemainingLength.width remaining = .ok width) : length = .ok (1 + width + remaining) := by
  obtain ⟨_, hw', hok⟩ := h.of_sound hsound
  rw [hw] at hw'
  cases hw'
  exact hok

/-- No rule is reported that is not checked. -/
theorem ne_error {rule : Violation} (hrule : ∀ check ∈ checks, check.rule ≠ rule) :
    length ≠ .error (.violation rule) := by
  intro he
  cases hc : firstBroken? checks with
  | some first =>
    rw [h.of_broken first hc] at he
    cases he
    obtain ⟨check, hcheck, rfl⟩ := exists_of_firstBroken? hc
    exact hrule check hcheck rfl
  | none =>
    obtain ⟨width, -, hok⟩ := h.of_sound hc
    rw [hok] at he
    cases he

/-- A packet with a length breaks no rule. -/
theorem firstBroken?_eq_none {n : Nat} (hn : length = .ok n) : firstBroken? checks = none := by
  cases hc : firstBroken? checks with
  | none => rfl
  | some rule =>
    rw [h.of_broken rule hc] at hn
    cases hn

/-- The rule that is reported is the first broken one. -/
theorem eq_error_iff {rule : Violation} :
    length = .error (.violation rule) ↔ firstBroken? checks = some rule := by
  refine ⟨fun he => ?_, h.of_broken rule⟩
  cases hc : firstBroken? checks with
  | some first =>
    rw [h.of_broken first hc] at he
    cases he
    rfl
  | none =>
    obtain ⟨width, -, hok⟩ := h.of_sound hc
    rw [hok] at he
    cases he

/-- There is a length if no rule is broken. -/
theorem exists_eq_ok_iff : (∃ n, length = .ok n) ↔ firstBroken? checks = none := by
  refine ⟨fun ⟨_, hn⟩ => h.firstBroken?_eq_none hn, fun hc => ?_⟩
  obtain ⟨width, -, hok⟩ := h.of_sound hc
  exact ⟨_, hok⟩

/-- A body below two million bytes is announced in three digits or less. -/
theorem le_of_le {bound n : Nat} (hn : length = .ok n) (hle : remaining ≤ bound)
    (hbound : bound ≤ 2097151) : n ≤ 4 + bound := by
  obtain ⟨width, hw, hok⟩ := h.of_sound (h.firstBroken?_eq_none hn)
  rw [hok] at hn
  cases hn
  have hlt : remaining < RemainingLength.capacity 3 := by
    have hcapacity : RemainingLength.capacity 3 = 2097152 := rfl
    omega
  have hwidth := RemainingLength.width_le hw (by decide) hlt
  omega

end Judged

end MqttWire
