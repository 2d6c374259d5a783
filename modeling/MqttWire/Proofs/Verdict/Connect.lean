import MqttWire.Proofs.Bodies
import MqttWire.Proofs.Verdict.Basic

/-!
# The verdict on a connect request

Content is checked before any length, and lengths in the order in which the fields are written.
Each of these checks can fail beside others, and the first that does is the one reported
(`Request.encodedLength_connect`).  A request that passes them all is counted, is never too long for
a packet, and has a flags byte that announces just the fields that follow.
-/

namespace MqttWire

namespace Connect

/-! ### What is checked, and what is counted -/

/-- What is checked of the content: that a will is whole, a password comes with a user name, and the
flags fit. -/
def contentChecks (c : Connect) : List Check :=
  [⟨c.willTopic.isSome ≠ c.willMessage.isSome, .incompleteWill⟩,
    ⟨c.password.isSome ∧ c.userName = none, .passwordWithoutUserName⟩,
    ⟨c.flags.bits &&& ~~~0x3A ≠ 0, .invalidConnectFlags⟩,
    ⟨c.flags.bits >>> 3 &&& 3 = 3, .invalidQoS⟩,
    ⟨c.willTopic = none ∧ c.willMessage = none ∧ c.flags.bits &&& 0x38 ≠ 0,
      .willFlagsWithoutWill⟩]

/-- What is checked of the fields that are there. -/
def lengthChecks (c : Connect) : List Check :=
  .text c.clientId :: (c.willTopic.toList.map .text ++ c.willMessage.toList.map .binary ++
    c.userName.toList.map .text ++ c.password.toList.map .binary)

/-- **What is checked of a connect request,** in the order in which it counts. -/
def checks (c : Connect) : List Check := c.contentChecks ++ c.lengthChecks

/-- **How much follows the fixed header:** ten bytes, and each field that is there with two more. -/
def bodySize (c : Connect) : Nat :=
  10 + ((2 + c.clientId.utf8ByteSize) +
    (c.willTopic.toList.map fun topic => 2 + topic.utf8ByteSize).sum +
    (c.willMessage.toList.map fun message => 2 + message.length).sum +
    (c.userName.toList.map fun name => 2 + name.utf8ByteSize).sum +
    (c.password.toList.map fun password => 2 + password.length).sum)

/-! ### Checks in a row -/

theorem flags_validate_eq_verdict (flags : ConnectFlags) (hasWill : Bool) :
    flags.validate hasWill = verdict
      [⟨flags.bits &&& ~~~0x3A ≠ 0, .invalidConnectFlags⟩,
        ⟨flags.bits >>> 3 &&& 3 = 3, .invalidQoS⟩,
        ⟨hasWill = false ∧ flags.bits &&& 0x38 ≠ 0, .willFlagsWithoutWill⟩] (.ok ()) := by
  have hqos : ∀ bits : UInt8,
      (bits &&& ConnectFlags.willQoSMask) >>> 3 = 3 ↔ bits >>> 3 &&& 3 = 3 := by
    decide +kernel
  have hmask : ConnectFlags.willQoSMask ||| ConnectFlags.willRetainBit = 0x38 := by decide
  have hwritable : ConnectFlags.writableMask = 0x3A := by decide
  unfold ConnectFlags.validate
  rw [throw_eq_verdict, throw_eq_verdict, last_throw_eq_verdict, hmask, hwritable]
  simp only [hqos, ← verdict_append, List.cons_append, List.nil_append]
  cases hasWill <;> simp

theorem validate_eq_verdict (c : Connect) : c.validate = verdict c.contentChecks (.ok ()) := by
  unfold validate
  rw [throw_eq_verdict, throw_eq_verdict, flags_validate_eq_verdict, ← verdict_append,
    ← verdict_append, contentChecks]
  simp only [List.cons_append, List.nil_append]
  -- without a will topic there is no will, unless it is incomplete, which is checked before
  cases ht : c.willTopic with
  | some topic => simp
  | none =>
    cases hm : c.willMessage with
    | none => simp
    | some message => simp [verdict_cons]

/-- Where the will is whole, the payload is checked field by field. -/
theorem flatMap_checks_payload {c : Connect} (h : c.willTopic.isSome = c.willMessage.isSome) :
    c.payload.flatMap Field.checks = c.lengthChecks := by
  rw [payload_eq h, lengthChecks]
  simp only [List.flatMap_cons, List.flatMap_append, List.flatMap_map, Field.checks,
    ← List.map_eq_flatMap, List.cons_append, List.nil_append]

/-- It takes the bytes of the fields that are there. -/
theorem length_flatMap_bytes_payload {c : Connect}
    (h : c.willTopic.isSome = c.willMessage.isSome) :
    fixedPartLength + (c.payload.flatMap Field.bytes).length = c.bodySize := by
  rw [payload_eq h, bodySize, fixedPartLength]
  simp only [List.flatMap_cons, List.flatMap_append, List.flatMap_map, List.length_append,
    List.length_flatMap, Field.bytes, Field.length_counted, length_utf8, Nat.add_assoc]

theorem remainingLength_eq_verdict {c : Connect} (h : firstBroken? c.contentChecks = none) :
    c.packet.remainingLength = verdict c.lengthChecks (.ok c.bodySize) := by
  have hwill : c.willTopic.isSome = c.willMessage.isSome := by
    have hfirst := firstBroken?_eq_none_iff.1 h _ List.mem_cons_self
    simpa using hfirst
  show (do return fixedPartLength + (← c.payloadLength)) = _
  rw [payloadLength_eq, Field.totalSize_eq_verdict, verdict_bind, ok_bind,
    flatMap_checks_payload hwill, length_flatMap_bytes_payload hwill]
  rfl

theorem encodedLength_eq_verdict (c : Connect) : c.packet.encodedLength =
    verdict c.checks (FixedHeader.packetLength c.bodySize) := by
  have hheader : c.packet.header = .ok ⟨.connect, 0, rfl⟩ := rfl
  exact Packet.encodedLength_eq_verdict c.validate_eq_verdict hheader remainingLength_eq_verdict

theorem firstBroken?_parts {c : Connect} (h : firstBroken? c.checks = none) :
    firstBroken? c.contentChecks = none ∧ firstBroken? c.lengthChecks = none := by
  rw [checks, firstBroken?_eq_none_iff, List.forall_mem_append] at h
  exact ⟨firstBroken?_eq_none_iff.2 h.1, firstBroken?_eq_none_iff.2 h.2⟩

/-- Five fields at most follow the ten bytes. -/
theorem bodySize_le {c : Connect} (h : firstBroken? c.checks = none) : c.bodySize ≤ 327695 := by
  obtain ⟨hcontent, hlengths⟩ := firstBroken?_parts h
  have hremaining := remainingLength_eq_verdict hcontent
  rw [verdict, hlengths] at hremaining
  obtain ⟨n, hn, hsize⟩ := bind_eq_ok_iff.1 hremaining
  have hle := payloadLength_le hn
  have hsum : fixedPartLength + n = c.bodySize := Except.ok.inj hsize
  unfold Field.maxLength at hle
  unfold fixedPartLength at hsum
  omega

end Connect

namespace Request

/-! ### The verdict -/

/-- **The length of a connect request** is refused for the first of its checks that fails, and
otherwise counted.  No other rule is ever reported, a length is at most 327,699, and the flags byte
of a request with a length holds the caller's bits and announces the fields that are there. -/
theorem encodedLength_connect (c : Connect) :
    Judged c.checks c.bodySize (connect c).encodedLength ∧
    (connect c).encodedLength ≠ .error (.violation .invalidFlags) ∧
    (connect c).encodedLength ≠ .error (.violation .remainingLengthTooLarge) ∧
    ∀ length, (connect c).encodedLength = .ok length →
      length ≤ 327699 ∧
      ∃ byte, c.wireFlags = .ok byte ∧ byte &&& 0x3A = c.flags.bits ∧ byte &&& 0x01 = 0 ∧
        (byte &&& 0x04 ≠ 0 ↔ c.willTopic.isSome) ∧ (byte &&& 0x04 ≠ 0 ↔ c.willMessage.isSome) ∧
        (byte &&& 0x80 ≠ 0 ↔ c.userName.isSome) ∧ (byte &&& 0x40 ≠ 0 ↔ c.password.isSome) := by
  have hjudged : Judged c.checks c.bodySize (connect c).encodedLength :=
    .of_verdict c.encodedLength_eq_verdict fun h => by
      have hle := Connect.bodySize_le h
      unfold RemainingLength.limit
      omega
  have hrules : ∀ check ∈ c.checks, check.rule ≠ .invalidFlags ∧
      check.rule ≠ .remainingLengthTooLarge := by
    simp [Connect.checks, Connect.contentChecks, Connect.lengthChecks, Check.text, Check.binary,
      or_imp, forall_and]
  refine ⟨hjudged, hjudged.ne_error fun check hc => (hrules check hc).1,
    hjudged.ne_error fun check hc => (hrules check hc).2, fun length hlength => ?_⟩
  have hsound := hjudged.firstBroken?_eq_none hlength
  have hvalid : c.validate = .ok () := by
    rw [c.validate_eq_verdict, verdict, (Connect.firstBroken?_parts hsound).1]
  obtain ⟨⟨hreserved, -⟩, hbits, htopic, hmessage, hname, hpassword⟩ :=
    Connect.validate_wireBits_iff.1 ⟨hvalid, rfl⟩
  refine ⟨hjudged.le_of_le hlength (Connect.bodySize_le hsound) (by decide), c.wireBits, ?_,
    hbits.symm, hreserved, ?_, ?_, ?_, ?_⟩
  · rw [Connect.wireFlags, hvalid]
    rfl
  · simp [htopic]
  · simp [hmessage]
  · simp [hname]
  · simp [hpassword]

/-- A password alone comes before flags that do not fit, and these before a password that is too
long; a request with all its fields is counted, and announces them. -/
theorem encodedLength_connect_instance :
    let complete : Connect := ⟨"c", some "t", some [1], some "u", some [2], ⟨0x2A⟩, 60⟩
    let tooLong : Connect := { complete with password := some (List.replicate 65536 0) }
    (connect { tooLong with userName := none, flags := ⟨0xFF⟩ }).encodedLength =
        .error (.violation .passwordWithoutUserName) ∧
      (connect { tooLong with flags := ⟨0xFF⟩ }).encodedLength =
        .error (.violation .invalidConnectFlags) ∧
      (connect tooLong).encodedLength = .error (.violation .binaryTooLong) ∧
      (connect complete).encodedLength = .ok 27 ∧
      ∃ byte, complete.wireFlags = .ok byte ∧ byte &&& 0x3A = 0x2A := by
  intro complete tooLong
  obtain ⟨hname, -⟩ := encodedLength_connect { tooLong with userName := none, flags := ⟨0xFF⟩ }
  obtain ⟨hflags, -⟩ := encodedLength_connect { tooLong with flags := ⟨0xFF⟩ }
  obtain ⟨hlong, -⟩ := encodedLength_connect tooLong
  obtain ⟨hcomplete, -, -, hbyte⟩ := encodedLength_connect complete
  have hlength : (connect complete).encodedLength = .ok 27 := hcomplete.eq_ok (by decide) rfl
  have hbroken (password : Bytes) (h : 65535 < password.length) :
      firstBroken? { complete with password := some password }.checks = some .binaryTooLong := by
    simp [complete, Connect.checks, Connect.contentChecks, Connect.lengthChecks,
      firstBroken?_cons, Check.text, Check.binary, h]
    decide
  have hreplicate : 65535 < (List.replicate 65536 (0 : UInt8)).length := by
    rw [List.length_replicate]
    decide
  obtain ⟨-, byte, hwire, hbits, -⟩ := hbyte 27 hlength
  exact ⟨hname.of_broken _ (by decide), hflags.of_broken _ (by decide),
    hlong.of_broken _ (hbroken _ hreplicate), hlength, byte, hwire, hbits⟩

end Request

end MqttWire
