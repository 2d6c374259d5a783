import MqttWire.Proofs.Verdict.Basic
import MqttWire.Request.Basic
import MqttWire.Word

/-!
# The verdict on a publish request

A topic is short, but a message is as long as it likes, and a packet can be too small for it.
Whether it is, is decided in a sum that a machine word need not hold; the verdict is the same for
every word of 32 bits or more (`Request.encodedLength_publish`).
-/

namespace MqttWire

/-! ### Sums in words -/

section Word

variable {bits : Nat}

/-- Under a bound that a word holds, nothing is lost. -/
theorem filter_checkedAdd? {a b : BitVec bits} {bound : Nat} (h : bound < 2 ^ bits) :
    (checkedAdd? a b).filter (·.toNat ≤ bound) =
      if a.toNat + b.toNat ≤ bound then some (a + b) else none := by
  unfold checkedAdd?
  by_cases hover : a.uaddOverflow b
  · have hlarge : 2 ^ bits ≤ a.toNat + b.toNat := by simpa [BitVec.uaddOverflow] using hover
    have hnot : ¬ a.toNat + b.toNat ≤ bound := by omega
    rw [if_pos hover, if_neg hnot]
    rfl
  · have hsum : (a + b).toNat = a.toNat + b.toNat := BitVec.toNat_add_of_not_uaddOverflow hover
    rw [if_neg hover, Option.filter_some, hsum]
    simp

theorem Field.textSizeIn_eq_verdict (value : String) : textSizeIn bits value =
    verdict [.text value] (.ok (BitVec.ofNat bits (2 + value.utf8ByteSize))) := by
  have hsum : BitVec.ofNat bits (2 + value.utf8ByteSize) =
      2 + BitVec.ofNat bits value.utf8ByteSize := BitVec.ofNat_add 2 value.utf8ByteSize
  rw [verdict_cons, verdict_nil, textSizeIn, maxLength, Check.text, hsum]
  simp

/-- A packet's length is the same in words. -/
theorem FixedHeader.map_packetLengthIn {n : Nat} (hbits : 32 ≤ bits)
    (h : n ≤ RemainingLength.limit) :
    (packetLengthIn (BitVec.ofNat bits n)).map BitVec.toNat = packetLength n := by
  have hword : 2 ^ 32 ≤ 2 ^ bits := Nat.pow_le_pow_right (by decide) hbits
  unfold RemainingLength.limit at h
  obtain ⟨width, hw⟩ := RemainingLength.exists_width h
  have hwidth := (RemainingLength.width_eq_ok_iff.1 hw).1
  have hn : (BitVec.ofNat bits n).toNat = n := by
    rw [BitVec.toNat_ofNat, Nat.mod_eq_of_lt (by omega)]
  have hsum : (1 + BitVec.ofNat bits width + BitVec.ofNat bits n).toNat = 1 + width + n := by
    have hone : (1 : BitVec bits) = BitVec.ofNat bits 1 := rfl
    rw [hone, ← BitVec.ofNat_add, ← BitVec.ofNat_add, BitVec.toNat_ofNat,
      Nat.mod_eq_of_lt (by omega)]
  rw [packetLengthIn, packetLength, hn, hw, ok_bind, ok_bind]
  exact congrArg Except.ok hsum

end Word

namespace Publish

/-! ### What is checked, and what is counted -/

/-- **How much follows the fixed header:** the topic and its length, an identifier where one is
needed, and the message. -/
def bodySize (p : Publish) : Nat :=
  2 + p.topic.utf8ByteSize + (if p.flags.qos.needsPacketId then 2 else 0) + p.message.length

/-- **What is checked of a publish request,** in the order in which it counts. -/
def checks (p : Publish) : List Check :=
  [⟨p.topic = "", .emptyTopic⟩, .text p.topic,
    ⟨RemainingLength.limit < p.bodySize, .remainingLengthTooLarge⟩]

theorem validity_eq_verdict (p : Publish) :
    p.packet.validity = verdict [⟨p.topic = "", .emptyTopic⟩] (.ok ()) := by
  show p.validate = _
  rw [validate, verdict_cons, verdict_nil]
  simp

theorem remainingLength_eq_verdict (p : Publish) : p.remainingLength =
    verdict [.text p.topic, ⟨RemainingLength.limit < p.bodySize, .remainingLengthTooLarge⟩]
      (.ok p.bodySize) := by
  rw [remainingLength, Field.textSize_eq_verdict, verdict_bind, ok_bind]
  simp only [throw_eq_verdict]
  rw [← verdict_append]
  rfl

/-- **In words the same is checked:** a topic that is not too long leaves room for an identifier,
and the sum with the message counts only where a packet has room for it. -/
theorem remainingLengthIn_eq_verdict {bits : Nat} {p : Publish} (hbits : 32 ≤ bits)
    (hmessage : p.message.length < 2 ^ bits) : p.remainingLengthIn bits =
      verdict [.text p.topic, ⟨RemainingLength.limit < p.bodySize, .remainingLengthTooLarge⟩]
        (.ok (BitVec.ofNat bits p.bodySize)) := by
  have hword : 2 ^ 32 ≤ 2 ^ bits := Nat.pow_le_pow_right (by decide) hbits
  have hlimit : RemainingLength.limit < 2 ^ bits := Nat.lt_of_lt_of_le (by decide) hword
  rw [remainingLengthIn, Field.textSizeIn_eq_verdict, verdict_bind, ok_bind]
  refine Eq.trans (verdict_congr fun htext => ?_) (verdict_append [_] [_]).symm
  have htopic : p.topic.utf8ByteSize ≤ 65535 := by
    simpa [Check.text] using firstBroken?_eq_none_iff.1 htext _ (List.mem_singleton_self _)
  have hid : (if p.flags.qos.needsPacketId then 2 else 0 : BitVec bits) =
      BitVec.ofNat bits (if p.flags.qos.needsPacketId then 2 else 0) := by
    split <;> rfl
  have hhead : 2 + p.topic.utf8ByteSize + (if p.flags.qos.needsPacketId then 2 else 0) <
      2 ^ bits := by
    split <;> omega
  dsimp only
  rw [hid, ← BitVec.ofNat_add, filter_checkedAdd? hlimit, ← BitVec.ofNat_add, BitVec.toNat_ofNat,
    Nat.mod_eq_of_lt hhead, BitVec.toNat_ofNat, Nat.mod_eq_of_lt hmessage, ← bodySize, verdict_cons,
    verdict_nil]
  by_cases hle : p.bodySize ≤ RemainingLength.limit
  · simp only [hle, Nat.not_lt.2 hle, decide_false, if_true, Bool.false_eq_true, if_false]
    rfl
  · simp only [hle, Nat.not_le.1 hle, decide_true, if_true, if_false]
    rfl

theorem header_eq_ok (p : Publish) : ∃ header, p.packet.header = .ok header := by
  have hlegal : ControlType.publish.checkFlags p.flags.bits = .ok () := by
    obtain ⟨duplicate, qos, retain⟩ := p.flags
    cases duplicate <;> cases qos <;> cases retain <;> decide
  exact ⟨_, FixedHeader.ofFlags_of_checkFlags hlegal⟩

theorem encodedLength_eq_verdict (p : Publish) :
    p.packet.encodedLength = verdict p.checks (FixedHeader.packetLength p.bodySize) := by
  obtain ⟨header, hheader⟩ := p.header_eq_ok
  exact Packet.encodedLength_eq_verdict p.validity_eq_verdict hheader
    fun _ => p.remainingLength_eq_verdict

theorem bodySize_le {p : Publish} (h : firstBroken? p.checks = none) :
    p.bodySize ≤ RemainingLength.limit := by
  simpa using firstBroken?_eq_none_iff.1 h
    ⟨RemainingLength.limit < p.bodySize, .remainingLengthTooLarge⟩ (by simp [checks])

/-- **Words count as numbers do,** whatever message a word can measure. -/
theorem map_encodedLengthIn {bits : Nat} {p : Publish} (hbits : 32 ≤ bits)
    (hmessage : p.message.length < 2 ^ bits) :
    (p.encodedLengthIn bits).map BitVec.toNat = p.packet.encodedLength := by
  obtain ⟨header, hheader⟩ := p.header_eq_ok
  have hword : p.encodedLengthIn bits =
      verdict p.checks (FixedHeader.packetLengthIn (BitVec.ofNat bits p.bodySize)) :=
    Packet.bind_eq_verdict p.validity_eq_verdict hheader
      fun _ => remainingLengthIn_eq_verdict hbits hmessage
  rw [hword, encodedLength_eq_verdict, verdict_map]
  exact verdict_congr fun hsound => FixedHeader.map_packetLengthIn hbits (bodySize_le hsound)

end Publish

namespace Request

/-- **The length of a publish request** is refused for an empty topic, a topic that is too long, or
a body that is too long for a packet, and otherwise counted.  Counting in words of 32 bits or more
gives the same, whatever message the word can measure, and no other rule is ever reported. -/
theorem encodedLength_publish (p : Publish) :
    Judged p.checks p.bodySize (publish p).encodedLength ∧
    (∀ bits, 32 ≤ bits → p.message.length < 2 ^ bits →
      (p.encodedLengthIn bits).map BitVec.toNat = (publish p).encodedLength) ∧
    (publish p).encodedLength ≠ .error (.violation .invalidFlags) ∧
    (publish p).encodedLength ≠ .error (.violation .invalidQoS) ∧
    (publish p).encodedLength ≠ .error (.violation .binaryTooLong) := by
  have hjudged : Judged p.checks p.bodySize (publish p).encodedLength :=
    .of_verdict p.encodedLength_eq_verdict Publish.bodySize_le
  have hrules : ∀ check ∈ p.checks, check.rule ≠ .invalidFlags ∧ check.rule ≠ .invalidQoS ∧
      check.rule ≠ .binaryTooLong := by
    simp [Publish.checks, Check.text]
  exact ⟨hjudged, fun bits hbits hmessage => Publish.map_encodedLengthIn hbits hmessage,
    hjudged.ne_error fun check hc => (hrules check hc).1,
    hjudged.ne_error fun check hc => (hrules check hc).2.1,
    hjudged.ne_error fun check hc => (hrules check hc).2.2⟩

/-- An empty topic, a topic that is too long, the longest message with and without an identifier,
and a message with which the sum goes round in a word of 32 bits. -/
theorem encodedLength_publish_instance :
    let long := String.ofList (List.replicate 65536 'a')
    let most : Bytes := List.replicate 268435452 0
    let huge : Bytes := List.replicate 4294967295 0
    (publish (.ofMessage "" [1])).encodedLength = .error (.violation .emptyTopic) ∧
      (publish (.ofMessage long most)).encodedLength = .error (.violation .stringTooLong) ∧
      (publish (.ofMessage "t" most)).encodedLength = .ok 268435460 ∧
      (publish ((Publish.ofMessage "t" most).withQoS .atLeastOnce 7)).encodedLength =
        .error (.violation .remainingLengthTooLarge) ∧
      ((Publish.ofMessage "t" huge).encodedLengthIn 32).map BitVec.toNat =
        .error (.violation .remainingLengthTooLarge) := by
  intro long most huge
  have hlong : 65535 < long.utf8ByteSize := by
    rw [utf8ByteSize_replicate]
    decide
  have hmost : most.length = 268435452 := List.length_replicate
  have hhuge : huge.length = 4294967295 := List.length_replicate
  have hplain (message : Bytes) : (Publish.ofMessage "t" message).bodySize = 3 + message.length :=
    rfl
  have hnumbered (message : Bytes) :
      ((Publish.ofMessage "t" message).withQoS .atLeastOnce 7).bodySize = 5 + message.length := rfl
  have hbroken (topic : String) (message : Bytes) (h : 65535 < topic.utf8ByteSize) :
      firstBroken? (Publish.ofMessage topic message).checks = some .stringTooLong := by
    simp [Publish.checks, Publish.ofMessage, Check.text, firstBroken?_cons, h, ne_empty_of_lt h]
  refine ⟨(encodedLength_publish _).1.of_broken _ (by decide),
    (encodedLength_publish _).1.of_broken _ (hbroken long most hlong), ?_,
    (encodedLength_publish _).1.of_broken _ ?_, ?_⟩
  · have hjudged := (encodedLength_publish (.ofMessage "t" most)).1
    rw [Publish.checks, hplain, hmost] at hjudged
    exact hjudged.eq_ok rfl rfl
  · rw [Publish.checks, hnumbered, hmost]
    rfl
  · obtain ⟨hjudged, hword, -⟩ := encodedLength_publish (.ofMessage "t" huge)
    have hfits : huge.length < 2 ^ 32 := by
      rw [hhuge]
      decide
    rw [hword 32 (Nat.le_refl 32) hfits]
    refine hjudged.of_broken _ ?_
    rw [Publish.checks, hplain, hhuge]
    rfl

end Request

end MqttWire
