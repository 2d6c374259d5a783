import MqttWire.Proofs.Grammar

/-!
# The encoding is prefix-free

The bytes of one request begin with those of another only if the other side sees the same request in
both, and then they are the same bytes (`Request.encode_prefix_iff`).  So a packet tells where it
ends, and no two requests collide, but for the identifier of a message that is not sent.

All of it comes from reading: where one row of bytes starts with two packets, the reader finds the
same packet.
-/

namespace MqttWire.Request

/-- **Packets that start in one place** are the same packet, and the same follows them. -/
theorem onWire_eq_of_append_eq {a b : Request} {bytes bytes' rest rest' : Bytes}
    (ha : a.bytes = .ok bytes) (hb : b.bytes = .ok bytes') (h : bytes ++ rest = bytes' ++ rest') :
    a.onWire = b.onWire ∧ rest = rest' := by
  have hread := read_append ha rest
  rw [h, read_append hb rest', Option.some.injEq, Prod.mk.injEq] at hread
  exact ⟨hread.1.symm, hread.2.symm⟩

/-- What the other side sees of a request determines its bytes. -/
theorem bytes_eq_of_onWire_eq {a b : Request} (h : a.onWire = b.onWire) : a.bytes = b.bytes := by
  rw [← a.bytes_onWire, h, b.bytes_onWire]

/-- A request of known length has bytes, and they are placed where there is room for them. -/
theorem exists_bytes_of_encodedLength {request : Request} {n : Nat}
    (h : request.encodedLength = .ok n) : ∃ bytes, request.bytes = .ok bytes ∧ bytes.length = n ∧
      ∀ buffer : Bytes, n ≤ buffer.length →
        request.encode buffer = ⟨.ok n, bytes ++ buffer.drop n⟩ := by
  rw [encodedLength_eq] at h
  cases hb : request.bytes with
  | error e => rw [hb] at h; cases h
  | ok bytes =>
    rw [hb] at h
    cases h
    exact ⟨bytes, rfl, rfl, fun buffer => encode_of_bytes hb⟩

/-- **The encoding is prefix-free,** up to what never reaches the wire.  The bytes of one request,
wherever they are written, begin with those of another exactly if the other side cannot tell the two
requests apart, and then both have the same bytes. -/
theorem encode_prefix_iff {a b : Request} {m n : Nat} (ha : a.encodedLength = .ok m)
    (hb : b.encodedLength = .ok n) {bufferA bufferB : Bytes} (hA : m ≤ bufferA.length)
    (hB : n ≤ bufferB.length) :
    let bytesA := (a.encode bufferA).buffer.take m
    let bytesB := (b.encode bufferB).buffer.take n
    ((a.encode bufferA).result = .ok m ∧ (b.encode bufferB).result = .ok n) ∧
      (bytesA <+: bytesB ↔ a.onWire = b.onWire) ∧ (a.onWire = b.onWire → bytesA = bytesB) := by
  obtain ⟨bytesA, hbytesA, rfl, hencodeA⟩ := exists_bytes_of_encodedLength ha
  obtain ⟨bytesB, hbytesB, rfl, hencodeB⟩ := exists_bytes_of_encodedLength hb
  have hsame (h : a.onWire = b.onWire) : bytesA = bytesB := by
    have hbytes := bytes_eq_of_onWire_eq h
    rw [hbytesA, hbytesB, Except.ok.injEq] at hbytes
    exact hbytes
  rw [hencodeA bufferA hA, hencodeB bufferB hB, List.take_left, List.take_left]
  refine ⟨⟨rfl, rfl⟩, ⟨?_, ?_⟩, hsame⟩
  · rintro ⟨rest, hrest⟩
    rw [← List.append_nil bytesB] at hrest
    exact (onWire_eq_of_append_eq hbytesA hbytesB hrest).1
  · exact fun h => hsame h ▸ List.prefix_rfl

/-- Two messages that differ in an identifier that is not sent, and two whose identifiers are. -/
theorem encode_prefix_iff_instance :
    let message (qos : QoS) (id : UInt16) := publish ⟨"t", id, [1], ⟨false, qos, false⟩⟩
    let buffer : Bytes := List.replicate 9 0
    ((message .atMostOnce 5).encode buffer).buffer.take 6 =
        ((message .atMostOnce 7).encode buffer).buffer.take 6 ∧
      ¬ ((message .atLeastOnce 5).encode buffer).buffer.take 8 <+:
        ((message .atLeastOnce 7).encode buffer).buffer.take 8 := by
  intro message buffer
  obtain ⟨-, -, hsame⟩ := @encode_prefix_iff (message .atMostOnce 5) (message .atMostOnce 7) 6 6
    rfl rfl buffer buffer (by decide) (by decide)
  obtain ⟨-, hsees, -⟩ := @encode_prefix_iff (message .atLeastOnce 5) (message .atLeastOnce 7) 8 8
    rfl rfl buffer buffer (by decide) (by decide)
  exact ⟨hsame rfl, fun h => absurd (hsees.1 h) (by decide)⟩

end MqttWire.Request
